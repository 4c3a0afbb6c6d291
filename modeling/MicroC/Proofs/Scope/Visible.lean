import MicroC.Proofs.Scope.FileLevel
import MicroC.Proofs.Typing.Objects

/-!
What is visible where. In the body of a checked function every name stands for a parameter,
for a variable declared before in the same block or in one around it, or for something at
file level. A run of the lexical resolution records each use of a name once, so in a tree the
table says at the end what was found at the use.
-/

namespace MicroC

/-! Uses are recorded one after another. -/

/-- The numbers of the identifiers that a traversal enters. -/
def Event.useIds (events : List Event) : List IdentId := (Event.identUses events).map Ident.id

@[simp] theorem Event.useIds_append (xs ys : List Event) :
    Event.useIds (xs ++ ys) = Event.useIds xs ++ Event.useIds ys := by
  simp [Event.useIds, Event.identUses_append]

theorem Event.mem_useIds {events : List Event} {ident : Ident}
    (h : .enter (.ident ident) ∈ events) : ident.id ∈ Event.useIds events :=
  List.mem_map_of_mem (Event.mem_identUses.mpr h)

theorem Event.useIds_around {n : Node} (hn : ∀ i, n ≠ .ident i) (children : List Event) :
    Event.useIds (n.around children) = Event.useIds children := by
  cases n with
  | ident i => exact absurd rfl (hn i)
  | decl _ | stmt _ | expr _ | type _ =>
    simp [Event.useIds, Event.identUses, Node.around]

/-- A run records the identifiers of a traversal, and closes the environments that it opens. -/
structure Lexical.Records (events : List Event) (s s' : Lexical) : Prop where
  uses : ∃ new : List (IdentId × Decl),
    s'.uses = new ++ s.uses ∧ new.map Prod.fst = (Event.useIds events).reverse
  depth : s'.inner.length = s.inner.length

namespace Lexical.Records

variable {s s' s'' : Lexical} {events events' : List Event}

theorem refl (s : Lexical) : Records [] s s := ⟨⟨[], rfl, rfl⟩, rfl⟩

theorem append (h : Records events s s') (h' : Records events' s' s'') :
    Records (events ++ events') s s'' := by
  obtain ⟨new, huses, hids⟩ := h.uses
  obtain ⟨new', huses', hids'⟩ := h'.uses
  refine ⟨⟨new' ++ new, by simp [huses, huses'], by simp [hids, hids']⟩, ?_⟩
  exact h'.depth.trans h.depth

theorem around {n : Node} (h : Records events s s') (hn : ∀ i, n ≠ .ident i := by simp) :
    Records (n.around events) s s' := by
  obtain ⟨new, huses, hids⟩ := h.uses
  exact ⟨⟨new, huses, by rw [Event.useIds_around hn, hids]⟩, h.depth⟩

/-- What is done between opening and closing an environment. -/
theorem enter_leave (h : Records events s.enter s') : Records events s s'.leave := by
  refine ⟨h.uses, ?_⟩
  have hdepth := h.depth
  simp only [Lexical.enter, Lexical.leave, List.length_cons, List.length_tail] at hdepth ⊢
  omega

theorem subset (h : Records events s s') : s.uses ⊆ s'.uses := by
  obtain ⟨new, huses, _⟩ := h.uses
  rw [huses]
  exact List.subset_append_right new s.uses

theorem use {outer : List Env} {i : Ident} (h : s.use outer i = .ok s') :
    Records i.events s s' := by
  unfold Lexical.use at h
  split at h
  · obtain rfl := Except.ok.inj h
    exact ⟨⟨[_], rfl, rfl⟩, rfl⟩
  · cases h

theorem declare {d : Decl} (h : s.declare d = .ok s') : Records [] s s' := by
  unfold Lexical.declare at h
  split at h
  · obtain rfl := Except.ok.inj h
    exact .refl s
  next env rest hinner =>
    split at h
    · obtain rfl := Except.ok.inj h
      exact ⟨⟨[], rfl, rfl⟩, by simp [hinner]⟩
    · split at h
      · obtain rfl := Except.ok.inj h
        exact .refl s
      · cases h

/-- A declaration is bound and then looked into. -/
theorem declared {d : Decl} (h : s.declare d = .ok s') (h' : Records events s' s'') :
    Records ((Node.decl d).around events) s s'' :=
  ((declare h).append h').around

end Lexical.Records

section

variable {outer : List Env}

mutual

theorem Expr.records : (e : Expr) → {s s' : Lexical} → e.resolveIn outer s = .ok s' →
    Lexical.Records e.events s s'
  | .literal .., s, s', h => by
    obtain rfl := Except.ok.inj h
    exact (Lexical.Records.refl s).around
  | .binary _ _ _ lhs rhs, s, s', h => by
    obtain ⟨_, hl, hr⟩ := Except.bind_eq_ok.mp h
    exact ((lhs.records hl).append (rhs.records hr)).around
  | .call _ callee _ args _, s, s', h => by
    obtain ⟨_, hc, ha⟩ := Except.bind_eq_ok.mp h
    exact ((Lexical.Records.use hc).append (Expr.recordsAll args ha)).around
  | .name _ ident, s, s', h => (Lexical.Records.use h).around
  | .index _ array _ position _, s, s', h => by
    obtain ⟨_, ha, hp⟩ := Except.bind_eq_ok.mp h
    exact ((Lexical.Records.use ha).append (position.records hp)).around
  | .paren _ _ inner _, s, s', h => (inner.records h).around
  | .unary _ _ _ operand, s, s', h => (operand.records h).around

theorem Expr.recordsAll : (es : List Expr) → {s s' : Lexical} →
    Expr.resolveAllIn outer es s = .ok s' → Lexical.Records (Expr.eventsAll es) s s'
  | [], s, s', h => by
    obtain rfl := Except.ok.inj h
    exact .refl s
  | e :: rest, s, s', h => by
    obtain ⟨_, he, hrest⟩ := Except.bind_eq_ok.mp h
    exact (e.records he).append (Expr.recordsAll rest hrest)

end

mutual

theorem TypeExpr.records : (t : TypeExpr) → {s s' : Lexical} → t.resolveIn outer s = .ok s' →
    Lexical.Records t.events s s'
  | .named _ ident, s, s', h => (Lexical.Records.use h).around
  | .array _ elem _ _ _, s, s', h => (elem.records h).around
  | .func _ result _ params _, s, s', h => by
    obtain ⟨_, hr, hp⟩ := Except.bind_eq_ok.mp h
    exact ((result.records hr).append (Decl.recordsAll params hp)).around

theorem Decl.records : (d : Decl) → {s s' : Lexical} → d.resolveIn outer s = .ok s' →
    Lexical.Records d.events s s'
  | .func _ _ _ signature none, s, s', h => by
    obtain ⟨s₁, hd, h⟩ := Except.bind_eq_ok.mp h
    obtain ⟨s₂, hs, h⟩ := Except.bind_eq_ok.mp h
    obtain rfl := Except.ok.inj h
    exact .declared hd (signature.records hs).enter_leave
  | .func _ _ _ signature (some (.block _ _ items _)), s, s', h => by
    obtain ⟨s₁, hd, h⟩ := Except.bind_eq_ok.mp h
    obtain ⟨s₂, hs, h⟩ := Except.bind_eq_ok.mp h
    obtain ⟨s₃, hi, h⟩ := Except.bind_eq_ok.mp h
    obtain rfl := Except.ok.inj h
    exact .declared hd ((signature.records hs).append (Item.recordsAll items hi).around).enter_leave
  | .func _ _ _ signature (some (.empty i sp)), s, s', h
  | .func _ _ _ signature (some (.expr i e)), s, s', h
  | .func _ _ _ signature (some (.branch i sp c t f)), s, s', h
  | .func _ _ _ signature (some (.ret i sp v)), s, s', h
  | .func _ _ _ signature (some (.loop i sp c b)), s, s', h => by
    obtain ⟨s₁, hd, h⟩ := Except.bind_eq_ok.mp h
    obtain ⟨s₂, hs, h⟩ := Except.bind_eq_ok.mp h
    obtain ⟨s₃, hb, h⟩ := Except.bind_eq_ok.mp h
    obtain rfl := Except.ok.inj h
    exact .declared hd ((signature.records hs).append (Stmt.records _ hb)).enter_leave
  | .var _ _ _ type none, s, s', h => by
    obtain ⟨s₁, hd, ht⟩ := Except.bind_eq_ok.mp h
    exact .declared hd (type.records ht)
  | .var _ _ _ type (some init), s, s', h => by
    obtain ⟨s₁, hd, h⟩ := Except.bind_eq_ok.mp h
    obtain ⟨s₂, ht, hi⟩ := Except.bind_eq_ok.mp h
    exact .declared hd ((type.records ht).append (init.records hi))
  | .basic .., s, s', h => .declared h (.refl s')
  | .typedef _ _ _ target, s, s', h => by
    obtain ⟨s₁, hd, ht⟩ := Except.bind_eq_ok.mp h
    exact .declared hd (target.records ht)

theorem Decl.recordsAll : (ds : List Decl) → {s s' : Lexical} →
    Decl.resolveAllIn outer ds s = .ok s' → Lexical.Records (Decl.eventsAll ds) s s'
  | [], s, s', h => by
    obtain rfl := Except.ok.inj h
    exact .refl s
  | d :: rest, s, s', h => by
    obtain ⟨_, hd, hrest⟩ := Except.bind_eq_ok.mp h
    exact (d.records hd).append (Decl.recordsAll rest hrest)

theorem Stmt.records : (t : Stmt) → {s s' : Lexical} → t.resolveIn outer s = .ok s' →
    Lexical.Records t.events s s'
  | .block _ _ items _, s, s', h => by
    obtain ⟨s₁, hi, h⟩ := Except.bind_eq_ok.mp h
    obtain rfl := Except.ok.inj h
    exact (Item.recordsAll items hi).enter_leave.around
  | .empty .., s, s', h => by
    obtain rfl := Except.ok.inj h
    exact (Lexical.Records.refl s).around
  | .expr _ value, s, s', h => (value.records h).around
  | .branch _ _ cond onTrue none, s, s', h => by
    obtain ⟨_, hc, ht⟩ := Except.bind_eq_ok.mp h
    exact ((cond.records hc).append (onTrue.records ht)).around
  | .branch _ _ cond onTrue (some onFalse), s, s', h => by
    obtain ⟨_, hc, h⟩ := Except.bind_eq_ok.mp h
    obtain ⟨_, ht, hf⟩ := Except.bind_eq_ok.mp h
    exact (((cond.records hc).append (onTrue.records ht)).append (onFalse.records hf)).around
  | .ret _ _ none, s, s', h => by
    obtain rfl := Except.ok.inj h
    exact (Lexical.Records.refl s).around
  | .ret _ _ (some value), s, s', h => (value.records h).around
  | .loop _ _ cond body, s, s', h => by
    obtain ⟨_, hc, hb⟩ := Except.bind_eq_ok.mp h
    exact ((cond.records hc).append (body.records hb)).around

theorem Item.records : (i : Item) → {s s' : Lexical} → i.resolveIn outer s = .ok s' →
    Lexical.Records i.events s s'
  | .decl d, _, _, h => d.records h
  | .stmt t, _, _, h => t.records h

theorem Item.recordsAll : (items : List Item) → {s s' : Lexical} →
    Item.resolveAllIn outer items s = .ok s' → Lexical.Records (Item.eventsAll items) s s'
  | [], s, s', h => by
    obtain rfl := Except.ok.inj h
    exact .refl s
  | item :: rest, s, s', h => by
    obtain ⟨_, hi, hrest⟩ := Except.bind_eq_ok.mp h
    exact (item.records hi).append (Item.recordsAll rest hrest)

end

end

/-! The judgement. -/

/-- A use of a name stands for a declaration that is visible, for what the name stands for at
file level, or for a built-in type. -/
def Ident.Sees (r : Resolution) (visible : List Decl) (ident : Ident) : Prop :=
  ∃ d, r.declOf? ident = some d ∧
    (d ∈ visible ∨ r.fileBinding? d.name = some d ∨ d ∈ Decl.builtins)

mutual

/-- All names in an expression are seen. -/
def Expr.Scoped (r : Resolution) (visible : List Decl) : Expr → Prop
  | .literal .. => True
  | .binary _ _ _ lhs rhs => lhs.Scoped r visible ∧ rhs.Scoped r visible
  | .call _ callee _ args _ => callee.Sees r visible ∧ Expr.AllScoped r visible args
  | .name _ ident => ident.Sees r visible
  | .index _ array _ position _ => array.Sees r visible ∧ position.Scoped r visible
  | .paren _ _ inner _ => inner.Scoped r visible
  | .unary _ _ _ operand => operand.Scoped r visible

def Expr.AllScoped (r : Resolution) (visible : List Decl) : List Expr → Prop
  | [] => True
  | e :: rest => e.Scoped r visible ∧ Expr.AllScoped r visible rest

end

/-- The initial value of a variable. -/
def Decl.init? : Decl → Option Expr
  | .var _ _ _ _ init => init
  | _ => none

mutual

def Stmt.Scoped (r : Resolution) : List Decl → Stmt → Prop
  | visible, .block _ _ items _ => Item.AllScoped r visible items
  | _, .empty .. => True
  | visible, .expr _ value => value.Scoped r visible
  | visible, .branch _ _ cond onTrue none => cond.Scoped r visible ∧ onTrue.Scoped r visible
  | visible, .branch _ _ cond onTrue (some onFalse) =>
    cond.Scoped r visible ∧ onTrue.Scoped r visible ∧ onFalse.Scoped r visible
  | _, .ret _ _ none => True
  | visible, .ret _ _ (some value) => value.Scoped r visible
  | visible, .loop _ _ cond body => cond.Scoped r visible ∧ body.Scoped r visible

/-- A declaration is visible in its own initial value and in the items after it. -/
def Item.AllScoped (r : Resolution) : List Decl → List Item → Prop
  | _, [] => True
  | visible, .decl d :: rest =>
    (∀ init ∈ d.init?, init.Scoped r (d :: visible)) ∧ Item.AllScoped r (d :: visible) rest
  | visible, .stmt s :: rest => s.Scoped r visible ∧ Item.AllScoped r visible rest

end

/-! The lexical resolution finds only what is visible. -/

namespace Lexical

/-- The table agrees with the uses met so far. -/
def Agrees (s : Lexical) (r : Resolution) : Prop :=
  ∀ use ∈ s.uses, r.idents[use.1]? = some use.2

/-- The open environments hold only visible declarations. -/
def Shows (s : Lexical) (visible : List Decl) : Prop :=
  ∀ env ∈ s.inner, ∀ name d, env name = some d → d ∈ visible

variable {s s' : Lexical} {r : Resolution} {visible visible' : List Decl}

theorem Agrees.before {events : List Event} (h : s'.Agrees r) (hrun : Records events s s') :
    s.Agrees r :=
  fun use huse => h use (hrun.subset huse)

theorem Shows.congr (h : s.Shows visible) (hinner : s'.inner = s.inner) : s'.Shows visible := by
  intro env henv
  exact h env (hinner ▸ henv)

theorem Shows.mono (h : s.Shows visible) (hsub : visible ⊆ visible') : s.Shows visible' :=
  fun env henv name d hd => hsub (h env henv name d hd)

theorem Shows.enter (h : s.Shows visible) : s.enter.Shows visible := by
  intro env henv name d hd
  rcases List.mem_cons.mp henv with rfl | hmem
  · cases hd
  · exact h env hmem name d hd

/-- A declaration becomes visible; the environments further out stay. -/
theorem Shows.declare {d : Decl} (h : s.Shows visible) (hrun : s.declare d = .ok s') :
    s'.Shows (d :: visible) ∧ s'.inner.tail = s.inner.tail := by
  unfold Lexical.declare at hrun
  split at hrun
  · obtain rfl := Except.ok.inj hrun
    exact ⟨h.mono (List.subset_cons_self d visible), rfl⟩
  next env rest hinner =>
    split at hrun
    · obtain rfl := Except.ok.inj hrun
      refine ⟨?_, by simp [hinner]⟩
      intro env' henv' name d' hd'
      rcases List.mem_cons.mp henv' with rfl | hmem
      · unfold Env.bind at hd'
        split at hd'
        · exact List.mem_cons.mpr (.inl (Option.some.inj hd').symm)
        · exact List.mem_cons_of_mem d (h env (by simp [hinner]) name d' hd')
      · exact List.mem_cons_of_mem d (h env' (by simp [hinner, hmem]) name d' hd')
    · split at hrun
      · obtain rfl := Except.ok.inj hrun
        exact ⟨h.mono (List.subset_cons_self d visible), rfl⟩
      · cases hrun

end Lexical

section

variable {p : Program} {a : Analysis} {s s' : Lexical} {visible : List Decl}

theorem Lexical.use_inner {outer : List Env} {ident : Ident} (h : s.use outer ident = .ok s') :
    s'.inner = s.inner := by
  unfold Lexical.use at h
  split at h
  · obtain rfl := Except.ok.inj h
    rfl
  · cases h

theorem Lexical.Shows.use {r : Resolution} {ident : Ident} (h : s.Shows visible)
    (hfile : ∀ name, r.fileBinding? name = Decl.bindingOf p.file name)
    (hrun : s.use p.outerEnvs ident = .ok s') (hagrees : s'.Agrees r) : ident.Sees r visible := by
  unfold Lexical.use at hrun
  split at hrun
  next d hd =>
    obtain rfl := Except.ok.inj hrun
    refine ⟨d, hagrees (ident.id, d) List.mem_cons_self, ?_⟩
    rw [List.findSome?_append, Option.or_eq_some_iff] at hd
    rcases hd with hinner | ⟨_, houter⟩
    · obtain ⟨env, henv, hname⟩ := List.exists_of_findSome?_eq_some hinner
      exact .inl (h env henv _ _ hname)
    · obtain ⟨env, henv, hname⟩ := List.exists_of_findSome?_eq_some houter
      simp only [Program.outerEnvs, List.mem_cons, List.not_mem_nil, or_false] at henv
      rcases henv with rfl | rfl
      · have hsame := (Decl.mem_of_bindingOf hname).2
        exact .inr (.inl (by rw [hsame, hfile, hname]))
      · exact .inr (.inr (Decl.mem_of_bindingOf hname).1)
  · cases hrun

mutual

theorem Expr.resolveIn_scoped {r : Resolution}
    (hfile : ∀ name, r.fileBinding? name = Decl.bindingOf p.file name) : (e : Expr) →
    {s s' : Lexical} → e.resolveIn p.outerEnvs s = .ok s' → s'.Agrees r → s.Shows visible →
    e.Scoped r visible ∧ s'.inner = s.inner
  | .literal .., _, _, h, _, _ => ⟨trivial, by rw [Except.ok.inj h]⟩
  | .binary _ _ _ lhs rhs, _, _, h, hagrees, hshows => by
    obtain ⟨s₁, hl, hr⟩ := Except.bind_eq_ok.mp h
    obtain ⟨hlhs, hinner⟩ :=
      lhs.resolveIn_scoped hfile hl (hagrees.before (rhs.records hr)) hshows
    obtain ⟨hrhs, hinner'⟩ := rhs.resolveIn_scoped hfile hr hagrees (hshows.congr hinner)
    exact ⟨⟨hlhs, hrhs⟩, hinner'.trans hinner⟩
  | .call _ callee _ args _, _, _, h, hagrees, hshows => by
    obtain ⟨s₁, hc, ha⟩ := Except.bind_eq_ok.mp h
    have hcallee := hshows.use hfile hc (hagrees.before (Expr.recordsAll args ha))
    obtain ⟨hargs, hinner⟩ := Expr.resolveAllIn_scoped hfile args ha hagrees
      (hshows.congr (Lexical.use_inner hc))
    exact ⟨⟨hcallee, hargs⟩, hinner.trans (Lexical.use_inner hc)⟩
  | .name _ ident, _, _, h, hagrees, hshows => ⟨hshows.use hfile h hagrees, Lexical.use_inner h⟩
  | .index _ array _ position _, _, _, h, hagrees, hshows => by
    obtain ⟨s₁, ha, hp⟩ := Except.bind_eq_ok.mp h
    have harray := hshows.use hfile ha (hagrees.before (position.records hp))
    obtain ⟨hposition, hinner⟩ := position.resolveIn_scoped hfile hp hagrees
      (hshows.congr (Lexical.use_inner ha))
    exact ⟨⟨harray, hposition⟩, hinner.trans (Lexical.use_inner ha)⟩
  | .paren _ _ inner _, _, _, h, hagrees, hshows => inner.resolveIn_scoped hfile h hagrees hshows
  | .unary _ _ _ operand, _, _, h, hagrees, hshows =>
    operand.resolveIn_scoped hfile h hagrees hshows

theorem Expr.resolveAllIn_scoped {r : Resolution}
    (hfile : ∀ name, r.fileBinding? name = Decl.bindingOf p.file name) : (es : List Expr) →
    {s s' : Lexical} → Expr.resolveAllIn p.outerEnvs es s = .ok s' → s'.Agrees r →
    s.Shows visible → Expr.AllScoped r visible es ∧ s'.inner = s.inner
  | [], _, _, h, _, _ => ⟨trivial, by rw [Except.ok.inj h]⟩
  | e :: rest, _, _, h, hagrees, hshows => by
    obtain ⟨s₁, he, hr⟩ := Except.bind_eq_ok.mp h
    obtain ⟨hscoped, hinner⟩ :=
      e.resolveIn_scoped hfile he (hagrees.before (Expr.recordsAll rest hr)) hshows
    obtain ⟨hrest, hinner'⟩ := Expr.resolveAllIn_scoped hfile rest hr hagrees (hshows.congr hinner)
    exact ⟨⟨hscoped, hrest⟩, hinner'.trans hinner⟩

end

/-- The type of an object declares nothing. -/
theorem TypeExpr.Denotes.resolveIn_inner {outer : List Env} {written : TypeExpr} {type : Ty}
    (h : written.Denotes a type) (hobject : type.isParam ∨ type.isVoid)
    (hrun : written.resolveIn outer s = .ok s') : s'.inner = s.inner := by
  induction h with
  | named => exact Lexical.use_inner hrun
  | array _ hscalar ih => exact ih (.inl (Ty.isParam_of_isScalar hscalar)) hrun
  | func => simp [Ty.isParam, Ty.isScalar, Ty.isVoid] at hobject

/-- A variable becomes visible and opens nothing. -/
theorem Decl.resolveIn_scoped (ha : a.Checked p)
    (hfile : ∀ name, a.resolution.fileBinding? name = Decl.bindingOf p.file name) {d : Decl}
    (hvar : d.isVar) (hin : .enter (.decl d) ∈ p.events)
    (hrun : d.resolveIn p.outerEnvs s = .ok s') (hagrees : s'.Agrees a.resolution)
    (hshows : s.Shows visible) :
    (∀ init ∈ d.init?, init.Scoped a.resolution (d :: visible)) ∧ s'.Shows (d :: visible) ∧
      s'.inner.tail = s.inner.tail := by
  obtain ⟨type, hknown, hparam⟩ := ha.objects d hin hvar
  cases d with
  | func _ _ _ _ _ | basic _ _ _ _ | typedef _ _ _ _ => simp [Decl.isVar] at hvar
  | var id name span written init =>
    cases ha.sound.decls _ _ (.inr hin) hknown with
    | var hdenotes =>
      cases init with
      | none =>
        obtain ⟨s₁, hd, ht⟩ := Except.bind_eq_ok.mp hrun
        obtain ⟨hshows₁, htail⟩ := hshows.declare hd
        have hinner := hdenotes.resolveIn_inner (.inl hparam) ht
        exact ⟨by simp [Decl.init?], hshows₁.congr hinner, by rw [hinner, htail]⟩
      | some init =>
        obtain ⟨s₁, hd, h⟩ := Except.bind_eq_ok.mp hrun
        obtain ⟨s₂, ht, hi⟩ := Except.bind_eq_ok.mp h
        obtain ⟨hshows₁, htail⟩ := hshows.declare hd
        have hinner := hdenotes.resolveIn_inner (.inl hparam) ht
        obtain ⟨hscoped, hinner'⟩ :=
          init.resolveIn_scoped hfile hi hagrees (hshows₁.congr hinner)
        refine ⟨?_, (hshows₁.congr hinner).congr hinner', by rw [hinner', hinner, htail]⟩
        intro e he
        exact (Option.some.inj he) ▸ hscoped

/-- Parameters become visible. -/
theorem Decl.resolveAllIn_shows (ha : a.Checked p)
    (hfile : ∀ name, a.resolution.fileBinding? name = Decl.bindingOf p.file name) :
    (params : List Decl) → (∀ d ∈ params, d.isVar) →
    (∀ d ∈ params, .enter (.decl d) ∈ p.events) → {s s' : Lexical} → {visible : List Decl} →
    Decl.resolveAllIn p.outerEnvs params s = .ok s' → s'.Agrees a.resolution → s.Shows visible →
    s'.Shows (params ++ visible)
  | [], _, _, _, _, _, hrun, _, hshows => Except.ok.inj hrun ▸ hshows
  | d :: rest, hvars, hin, s, s', visible, hrun, hagrees, hshows => by
    obtain ⟨s₁, hd, hrest⟩ := Except.bind_eq_ok.mp hrun
    obtain ⟨_, hshows₁, _⟩ := Decl.resolveIn_scoped ha hfile (hvars d List.mem_cons_self)
      (hin d List.mem_cons_self) hd (hagrees.before (Decl.recordsAll rest hrest)) hshows
    have hshows' := Decl.resolveAllIn_shows ha hfile rest
      (fun d hd => hvars d (List.mem_cons_of_mem _ hd))
      (fun d hd => hin d (List.mem_cons_of_mem _ hd)) hrest hagrees hshows₁
    exact hshows'.mono List.perm_middle.subset

mutual

/-- A statement opens and closes its own environments. -/
theorem Stmt.resolveIn_scoped (ha : a.Checked p)
    (hfile : ∀ name, a.resolution.fileBinding? name = Decl.bindingOf p.file name) {result : Ty} :
    (t : Stmt) → t.WellTyped a result → t.events ⊆ p.events → {s s' : Lexical} →
    {visible : List Decl} → t.resolveIn p.outerEnvs s = .ok s' → s'.Agrees a.resolution →
    s.Shows visible → t.Scoped a.resolution visible ∧ s'.inner = s.inner
  | .block _ _ items _, .block hitems, hin, _, _, _, h, hagrees, hshows => by
    obtain ⟨s₁, hi, h⟩ := Except.bind_eq_ok.mp h
    obtain rfl := Except.ok.inj h
    have hsub : Item.eventsAll items ⊆ p.events :=
      fun event hevent => hin (by simp [Stmt.events, Node.around, hevent])
    exact Item.resolveAllIn_scoped ha hfile items hitems hsub hi hagrees hshows.enter
  | .empty .., _, _, _, _, _, h, _, _ => ⟨trivial, by rw [Except.ok.inj h]⟩
  | .expr _ value, _, _, _, _, _, h, hagrees, hshows =>
    value.resolveIn_scoped hfile h hagrees hshows
  | .branch _ _ cond onTrue none, .branch _ _ honTrue, hin, _, _, _, h, hagrees, hshows => by
    obtain ⟨s₁, hc, ht⟩ := Except.bind_eq_ok.mp h
    have hsub : onTrue.events ⊆ p.events :=
      fun event hevent => hin (by simp [Stmt.events, Node.around, hevent])
    obtain ⟨hcond, hinner⟩ :=
      cond.resolveIn_scoped hfile hc (hagrees.before (onTrue.records ht)) hshows
    obtain ⟨hscoped, hinner'⟩ :=
      onTrue.resolveIn_scoped ha hfile honTrue hsub ht hagrees (hshows.congr hinner)
    exact ⟨⟨hcond, hscoped⟩, hinner'.trans hinner⟩
  | .branch _ _ cond onTrue (some onFalse), .branchElse _ _ honTrue honFalse, hin, _, _, _, h,
      hagrees, hshows => by
    obtain ⟨s₁, hc, h⟩ := Except.bind_eq_ok.mp h
    obtain ⟨s₂, ht, hf⟩ := Except.bind_eq_ok.mp h
    have hsubTrue : onTrue.events ⊆ p.events :=
      fun event hevent => hin (by simp [Stmt.events, Node.around, hevent])
    have hsubFalse : onFalse.events ⊆ p.events :=
      fun event hevent => hin (by simp [Stmt.events, Node.around, hevent])
    have hagrees₂ := hagrees.before (onFalse.records hf)
    obtain ⟨hcond, hinner₁⟩ :=
      cond.resolveIn_scoped hfile hc (hagrees₂.before (onTrue.records ht)) hshows
    obtain ⟨hscopedTrue, hinner₂⟩ :=
      onTrue.resolveIn_scoped ha hfile honTrue hsubTrue ht hagrees₂ (hshows.congr hinner₁)
    have hinner := hinner₂.trans hinner₁
    obtain ⟨hscopedFalse, hinner₃⟩ :=
      onFalse.resolveIn_scoped ha hfile honFalse hsubFalse hf hagrees (hshows.congr hinner)
    exact ⟨⟨hcond, hscopedTrue, hscopedFalse⟩, hinner₃.trans hinner⟩
  | .ret _ _ none, _, _, _, _, _, h, _, _ => ⟨trivial, by rw [Except.ok.inj h]⟩
  | .ret _ _ (some value), _, _, _, _, _, h, hagrees, hshows =>
    value.resolveIn_scoped hfile h hagrees hshows
  | .loop _ _ cond body, .loop _ _ hbody, hin, _, _, _, h, hagrees, hshows => by
    obtain ⟨s₁, hc, hb⟩ := Except.bind_eq_ok.mp h
    have hsub : body.events ⊆ p.events :=
      fun event hevent => hin (by simp [Stmt.events, Node.around, hevent])
    obtain ⟨hcond, hinner⟩ :=
      cond.resolveIn_scoped hfile hc (hagrees.before (body.records hb)) hshows
    obtain ⟨hscoped, hinner'⟩ :=
      body.resolveIn_scoped ha hfile hbody hsub hb hagrees (hshows.congr hinner)
    exact ⟨⟨hcond, hscoped⟩, hinner'.trans hinner⟩

/-- Items change only the innermost environment. -/
theorem Item.resolveAllIn_scoped (ha : a.Checked p)
    (hfile : ∀ name, a.resolution.fileBinding? name = Decl.bindingOf p.file name) {result : Ty} :
    (items : List Item) → Item.AllTyped a result items → Item.eventsAll items ⊆ p.events →
    {s s' : Lexical} → {visible : List Decl} → Item.resolveAllIn p.outerEnvs items s = .ok s' →
    s'.Agrees a.resolution → s.Shows visible →
    Item.AllScoped a.resolution visible items ∧ s'.inner.tail = s.inner.tail
  | [], _, _, _, _, _, h, _, _ => ⟨trivial, by rw [Except.ok.inj h]⟩
  | .decl d :: rest, .cons (.decl hd) hrest, hin, _, _, _, h, hagrees, hshows => by
    obtain ⟨s₁, hone, hall⟩ := Except.bind_eq_ok.mp h
    have hvar : d.isVar := by cases hd <;> rfl
    have hindecl : .enter (.decl d) ∈ p.events := hin (List.mem_append_left _ d.enter_mem_events)
    obtain ⟨hinit, hshows₁, htail⟩ := Decl.resolveIn_scoped ha hfile hvar hindecl hone
      (hagrees.before (Item.recordsAll rest hall)) hshows
    obtain ⟨hscoped, htail'⟩ := Item.resolveAllIn_scoped ha hfile rest hrest
      (fun event hevent => hin (List.mem_append_right _ hevent)) hall hagrees hshows₁
    exact ⟨⟨hinit, hscoped⟩, htail'.trans htail⟩
  | .stmt t :: rest, .cons (.stmt ht) hrest, hin, _, _, _, h, hagrees, hshows => by
    obtain ⟨s₁, hone, hall⟩ := Except.bind_eq_ok.mp h
    obtain ⟨hstmt, hinner⟩ := t.resolveIn_scoped ha hfile ht
      (fun event hevent => hin (List.mem_append_left _ hevent)) hone
      (hagrees.before (Item.recordsAll rest hall)) hshows
    obtain ⟨hscoped, htail⟩ := Item.resolveAllIn_scoped ha hfile rest hrest
      (fun event hevent => hin (List.mem_append_right _ hevent)) hall hagrees
      (hshows.congr hinner)
    exact ⟨⟨hstmt, hscoped⟩, by rw [htail, hinner]⟩

end

end

/-! In a tree no use is recorded twice. -/

theorem Event.useIds_sublist_entered (events : List Event) :
    ((Event.useIds events).map fun id => (Family.ident, id)).Sublist (Event.entered events) := by
  induction events with
  | nil => exact List.Sublist.refl _
  | cons event rest ih =>
    cases event with
    | leave _ => exact ih
    | enter n =>
      cases n with
      | ident i => exact ih.cons_cons _
      | decl _ | stmt _ | expr _ | type _ => exact ih.cons _

theorem Program.TreeShaped.useIds_nodup {p : Program} (h : p.TreeShaped) :
    (Event.useIds p.events).Nodup :=
  List.Pairwise.of_map _ (fun _ _ hne heq => hne (congrArg _ heq))
    (List.Nodup.sublist (Event.useIds_sublist_entered p.events) h)

theorem Program.TreeShaped.agrees {p : Program} {r : Resolution} {s : Lexical}
    (h : p.TreeShaped) (hrun : Decl.resolveAllIn p.outerEnvs p.file {} = .ok s)
    (huses : ∀ id : IdentId, r.idents[id]? = s.uses.lookup id) : s.Agrees r := by
  obtain ⟨new, hnew, hids⟩ := (Decl.recordsAll p.file hrun).uses
  have hkeys : s.uses.map Prod.fst = (Event.useIds p.events).reverse := by
    rw [hnew, List.append_nil, hids]
    rfl
  have hnodup : (s.uses.map Prod.fst).Nodup := by
    rw [hkeys, (List.reverse_perm _).nodup_iff]
    exact h.useIds_nodup
  intro use huse
  rw [huses, lookup_of_mem hnodup huse]

/-- The part of a run over a list of declarations that goes into one of them. -/
theorem Decl.exists_run_of_mem {outer : List Env} {d : Decl} {ds : List Decl} {s s' : Lexical}
    (hd : d ∈ ds) (hrun : Decl.resolveAllIn outer ds s = .ok s') :
    ∃ s₁ s₂, d.resolveIn outer s₁ = .ok s₂ ∧ s₁.inner.length = s.inner.length ∧
      s₂.uses ⊆ s'.uses := by
  induction ds generalizing s with
  | nil => simp at hd
  | cons first rest ih =>
    obtain ⟨s₁, hfirst, hrest⟩ := Except.bind_eq_ok.mp hrun
    rcases List.mem_cons.mp hd with rfl | hmem
    · exact ⟨s, s₁, hfirst, rfl, (Decl.recordsAll rest hrest).subset⟩
    · obtain ⟨s₂, s₃, hone, hlength, hsub⟩ := ih hmem hrest
      exact ⟨s₂, s₃, hone, hlength.trans (first.records hfirst).depth, hsub⟩

/-- What is visible in a body whose function is at file level. -/
theorem Decl.resolveIn_body_scoped {p : Program} {a : Analysis} {s s' : Lexical}
    (ha : a.Checked p) (hparams : p.VariableParams)
    (hfile : ∀ name, a.resolution.fileBinding? name = Decl.bindingOf p.file name) {id : DeclId}
    {name : String} {span : Span} {tid : TypeId} {written : TypeExpr} {lparen rparen : Span}
    {params : List Decl} {block : StmtId} {lbrace rbrace : Span} {items : List Item}
    (hd : Decl.func id name span (.func tid written lparen params rparen)
      (some (.block block lbrace items rbrace)) ∈ p.file)
    (hinner : s.inner = [])
    (hrun : (Decl.func id name span (.func tid written lparen params rparen)
      (some (.block block lbrace items rbrace))).resolveIn p.outerEnvs s = .ok s')
    (hagrees : s'.Agrees a.resolution) : Item.AllScoped a.resolution params items := by
  obtain ⟨s₁, hdeclare, hrun⟩ := Except.bind_eq_ok.mp hrun
  obtain ⟨s₂, hsignature, hrun⟩ := Except.bind_eq_ok.mp hrun
  obtain ⟨s₃, hitems, hleave⟩ := Except.bind_eq_ok.mp hrun
  obtain ⟨s₄, hresult, hdecls⟩ := Except.bind_eq_ok.mp hsignature
  obtain rfl : s = s₁ := by
    simp only [Lexical.declare, hinner] at hdeclare
    exact Except.ok.inj hdeclare
  have hagrees₃ : s₃.Agrees a.resolution := by
    rw [← Except.ok.inj hleave] at hagrees
    exact hagrees
  have hagrees₂ := hagrees₃.before (Item.recordsAll items hitems)
  have hin := p.enter_mem_of_mem_file hd
  have hsubset := p.events_subset hin
  have htype : .enter (.type (.func tid written lparen params rparen)) ∈ p.events := by
    refine hsubset ?_
    simp [Node.events, Decl.events, TypeExpr.enter_mem_events]
  have hvars : ∀ d ∈ params, d.isVar := by
    have hall := hparams _ htype
    simpa [Node.paramsAreVars] using hall
  have hentered : ∀ d ∈ params, .enter (.decl d) ∈ p.events := by
    intro d hd
    refine p.events_subset htype ?_
    simp [Node.events, TypeExpr.events, Decl.mem_eventsAll hd d.enter_mem_events]
  have hitemsSub : Item.eventsAll items ⊆ p.events := by
    intro event hevent
    refine hsubset ?_
    simp [Node.events, Decl.events, Stmt.events, Node.around, hevent]
  have hshows : s.enter.Shows [] := by
    intro env henv name d hd
    simp only [Lexical.enter, hinner, List.mem_singleton] at henv
    subst henv
    cases hd
  cases ha.typed _ hd with
  | typeName htype _ => simp [Decl.isType] at htype
  | definition hknown hbody =>
    cases hbody.typed with
    | block hall =>
      cases ha.sound.decls _ _ (.inr hin) hknown with
      | func hdenotes hresultType =>
        cases hdenotes with
        | func hwritten _ _ =>
          have hobject := hresultType _ _ rfl
          rw [Bool.or_eq_true] at hobject
          have hinner₄ := hwritten.resolveIn_inner (hobject.imp_left Ty.isParam_of_isScalar) hresult
          have hshows₂ := Decl.resolveAllIn_shows ha hfile params hvars hentered hdecls hagrees₂
            (hshows.congr hinner₄)
          rw [List.append_nil] at hshows₂
          exact (Item.resolveAllIn_scoped ha hfile items hall hitemsSub hitems hagrees₃ hshows₂).1

/-- In a function body only its parameters, its own variables where they are declared, and what
is at file level can be used. -/
theorem Program.body_scoped {p : Program} {a : Analysis} (ha : a.Checked p)
    (htree : p.TreeShaped) (hbodies : p.BlockBodies) (hparams : p.VariableParams)
    (hr : p.resolve = .ok a.resolution) {id : DeclId} {name : String} {span : Span} {tid : TypeId}
    {written : TypeExpr} {lparen rparen : Span} {params : List Decl} {body : Stmt}
    (hd : Decl.func id name span (.func tid written lparen params rparen) (some body) ∈ p.file) :
    body.Scoped a.resolution params := by
  have hrepresents := p.resolve_represents htree hbodies hparams
  rw [hr] at hrepresents
  obtain ⟨s, hlexical, huses, hfile⟩ := hrepresents.exists_of_ok
  obtain ⟨_, _, hrun⟩ := Except.bind_eq_ok.mp hlexical
  have hagrees := htree.agrees hrun huses
  obtain ⟨s₁, s₂, hone, hlength, hsub⟩ := Decl.exists_run_of_mem hd hrun
  have hagrees₂ : s₂.Agrees a.resolution := fun use huse => hagrees use (hsub huse)
  have hblock : body.isBlock := hbodies _ (p.enter_mem_of_mem_file hd)
  cases body with
  | block block lbrace items rbrace =>
    exact Decl.resolveIn_body_scoped ha hparams hfile hd (List.length_eq_zero_iff.mp hlength) hone
      hagrees₂
  | empty _ _ | expr _ _ | branch _ _ _ _ _ | ret _ _ _ | loop _ _ _ _ =>
    simp [Stmt.isBlock] at hblock

end MicroC
