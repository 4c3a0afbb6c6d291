import MicroC.Proofs.Scope.Confinement
import MicroC.Proofs.Scope.Merging

/-!
A top-level declaration that is listed once more. The scope of the file is the same with it, since
the declaration merges with what its name is bound to. It is walked through a second time, though.
If every scope is closed in time, then the second walk starts from the same environments as the
first one, so it finds the same declarations; and if no identifier of the declaration is used
elsewhere, then the names stand for what they have stood for.
-/

namespace MicroC

/-- The program with a top-level declaration added at its end. -/
def Program.again (p : Program) (d : Decl) : Program := { p with file := p.file ++ [d] }

namespace Program

variable {p : Program} {d : Decl}

theorem events_again : (p.again d).events = p.events ++ d.events := by
  simp [events, again, Decl.eventsAll_append, Decl.eventsAll]

end Program

/-! The scope of the file. -/

namespace Scope

variable {s : Scope} {d b : Decl}

/-- Nothing changes if the binding of the name stands for the declaration already. -/
theorem put_of_repeats (hkind : s.kind = .file) (hb : s.get? d.name = some b)
    (h : b.Repeats d) : s.put d = (.ok .merged, s) := by
  unfold put
  rw [hb]
  rcases h with rfl | ⟨hsort, hnot⟩
  · simp
  · by_cases hid : b.id = d.id
    · simp [hid]
    · cases hdef : b.isDefinition <;> simp [hid, hkind, hsort, hnot, hdef]

end Scope

namespace Program

variable {p : Program} {d : Decl}

/-- The outer scopes after all top-level declarations, however often these are listed. -/
theorem insertAll_file (hp : p.Coherent) {t : ScopeTree}
    (h : ScopeTree.initial.insertAll 1 p.file = .ok t) :
    t.ShowsOuter 1 (Decl.bindingOf p.file) (Decl.bindingOf Decl.builtins) ∧ Decl.Merged p.file := by
  have hget : ScopeTree.initial.get? 1 = some { parent := some 0, kind := .file } := rfl
  obtain ⟨scope, hscope, hkeeps, ⟨hkind, hparent⟩, hothers⟩ :=
    ScopeTree.insertAll_keeps hget (Scope.keeps_nil rfl) hp.numbered h
  constructor
  · exact ⟨scope, 0, Scope.universal, hscope, hkind, hkeeps, hparent, by decide,
      (hothers 0 (by decide)).trans rfl, Scope.get?_universal, rfl⟩
  · exact ((ScopeTree.exists_insertAll_iff_of_empty hget rfl hp.numbered).mp ⟨t, h⟩).merged

/-- Listing a declaration once more does not change the scope of the file. -/
theorem openFile_again (hp : p.Coherent) (hd : d ∈ p.file) : (p.again d).openFile = p.openFile := by
  rw [openFile_eq, openFile_eq]
  have hinsert : ScopeTree.initial.insertAll 1 (p.again d).file =
      ScopeTree.initial.insertAll 1 p.file := by
    unfold ScopeTree.insertAll again
    rw [List.foldlM_append]
    cases hall : ScopeTree.initial.insertAll 1 p.file with
    | error e =>
      unfold ScopeTree.insertAll at hall
      rw [hall]
      rfl
    | ok t =>
      obtain ⟨⟨s, _, _, hget, hkind, htop, _⟩, hmerged⟩ := insertAll_file hp hall
      obtain ⟨b, hb⟩ := Decl.exists_bindingOf hd
      have hrepeats := hmerged d hd b hb
      unfold ScopeTree.insertAll at hall
      rw [hall]
      show (ScopeTree.insert t 1 d >>= fun out => .ok out.2) >>= .ok = .ok t
      rw [ScopeTree.insert_eq hget, Scope.put_of_repeats hkind ((htop d.name).trans hb) hrepeats]
      show Except.ok (t.update 1 s) = .ok t
      rw [ScopeTree.update_self hget]
  rw [hinsert]

/-- Between top-level declarations the resolver represents the scopes around a function. -/
theorem openFile_atFile (hp : p.Coherent) {start : Resolver} (h : p.openFile = .ok start) :
    ∃ top, AtFile top (Decl.bindingOf Decl.builtins) start {} := by
  rw [openFile_eq] at h
  obtain ⟨scopes, hinsert, hstart⟩ := Except.bind_eq_ok.mp h
  cases hstart
  exact ⟨_, ⟨(insertAll_file hp hinsert).1, rfl, fun _ => by simp⟩, rfl, rfl⟩

end Program

/-! The same walk twice. -/

/-- What a piece of the traversal does wherever it starts from the environments `inner`: it ends
with `inner₁`, and the uses `new` are recorded. The flags say whether a function waits for a
block. -/
def Event.Does (top builtin : Env) (events : List Event) (inner inner₁ : List Env)
    (waits waits₁ : Bool) (new : List (IdentId × Decl)) : Prop :=
  ∀ (r : Resolver) (uses : List (IdentId × Decl)), Represents top builtin r ⟨inner, uses⟩ →
    r.sharesScope = waits → ∃ r₁, events.foldlM Resolver.step r = .ok r₁ ∧
      Represents top builtin r₁ ⟨inner₁, new ++ uses⟩ ∧ r₁.sharesScope = waits₁

/-- A piece that does the same from everywhere. Its length is counted as that of a walk: a function
that waits has opened its scope already. -/
def Event.Determined (top builtin : Env) (events : List Event) (inner : List Env) (waits : Bool)
    (opened : Nat) : Prop :=
  ∃ (inner₁ : List Env) (waits₁ : Bool) (new : List (IdentId × Decl)),
    Event.Does top builtin events inner inner₁ waits waits₁ new ∧
    new.map Prod.fst = (Event.useIds events).reverse ∧
    inner.length + waits₁.toNat + opened ≤ inner₁.length + waits.toNat

section

variable {top builtin : Env} {inner inner₁ inner₂ : List Env} {waits waits₁ waits₂ : Bool}
  {uses new new' : List (IdentId × Decl)} {events events' : List Event} {r r₁ : Resolver}

namespace Event.Does

theorem append (h : Event.Does top builtin events inner inner₁ waits waits₁ new)
    (h' : Event.Does top builtin events' inner₁ inner₂ waits₁ waits₂ new') :
    Event.Does top builtin (events ++ events') inner inner₂ waits waits₂ (new' ++ new) := by
  intro r uses hr hflag
  obtain ⟨r₁, hrun, hr₁, hflag₁⟩ := h r uses hr hflag
  obtain ⟨r₂, hrun', hr₂, hflag₂⟩ := h' r₁ (new ++ uses) hr₁ hflag₁
  rw [← List.append_assoc] at hr₂
  refine ⟨r₂, ?_, hr₂, hflag₂⟩
  rw [List.foldlM_append]
  exact Except.bind_eq_ok.mpr ⟨r₁, hrun, hrun'⟩

/-- A run that is known. -/
theorem of_run (h : Event.Does top builtin events inner inner₁ waits waits₁ new)
    (hr : Represents top builtin r ⟨inner, uses⟩) (hflag : r.sharesScope = waits)
    (hrun : events.foldlM Resolver.step r = .ok r₁) :
    Represents top builtin r₁ ⟨inner₁, new ++ uses⟩ ∧ r₁.sharesScope = waits₁ := by
  obtain ⟨r₂, hrun', hr₂, hflag₂⟩ := h r uses hr hflag
  obtain rfl : r₁ = r₂ := Except.ok.inj (hrun.symm.trans hrun')
  exact ⟨hr₂, hflag₂⟩

/-- One event. -/
theorem one {event : Event} (h : ∀ r uses, Represents top builtin r ⟨inner, uses⟩ →
      r.sharesScope = waits → ∃ r₁, r.step event = .ok r₁ ∧
        Represents top builtin r₁ ⟨inner₁, new ++ uses⟩ ∧ r₁.sharesScope = waits₁) :
    Event.Does top builtin [event] inner inner₁ waits waits₁ new := by
  intro r uses hr hflag
  obtain ⟨r₁, hstep, hr₁, hflag₁⟩ := h r uses hr hflag
  exact ⟨r₁, by rw [List.foldlM_cons, hstep]; rfl, hr₁, hflag₁⟩

end Event.Does

/-- A declaration binds the same name wherever the same environments are open. -/
theorem Represents.declare_determined (h : Represents top builtin r ⟨inner, uses⟩) {d : Decl}
    (hdeclare : r.declare d = .ok r₁) : ∃ inner₁, inner₁.length = inner.length ∧
      ∀ (r : Resolver) (uses : List (IdentId × Decl)), Represents top builtin r ⟨inner, uses⟩ →
        ∃ r₁, r.declare d = .ok r₁ ∧ Represents top builtin r₁ ⟨inner₁, uses⟩ ∧
          r₁.sharesScope = r.sharesScope := by
  have hagree := h.declare rfl d
  rw [hdeclare] at hagree
  obtain ⟨s₁, hs₁, hfollows⟩ := hagree.exists_of_ok
  obtain ⟨inner₁, hinner₁, hall⟩ : ∃ inner₁, s₁ = ⟨inner₁, uses⟩ ∧
      ∀ uses, Lexical.declare ⟨inner, uses⟩ d = .ok ⟨inner₁, uses⟩ := by
    unfold Lexical.declare at hs₁ ⊢
    cases inner with
    | nil => exact ⟨[], (Except.ok.inj hs₁).symm, fun _ => rfl⟩
    | cons env rest =>
      dsimp only at hs₁ ⊢
      cases henv : env d.name with
      | none =>
        rw [henv] at hs₁
        exact ⟨env.bind d :: rest, (Except.ok.inj hs₁).symm, fun _ => rfl⟩
      | some old =>
        rw [henv] at hs₁
        dsimp only at hs₁ ⊢
        by_cases hid : old.id = d.id
        · rw [if_pos hid] at hs₁
          exact ⟨env :: rest, (Except.ok.inj hs₁).symm, fun _ => if_pos hid⟩
        · rw [if_neg hid] at hs₁
          cases hs₁
  subst hinner₁
  refine ⟨inner₁, hfollows.length_eq, ?_⟩
  intro r uses hr
  have hagree' := hr.declare rfl d
  rw [hall uses] at hagree'
  obtain ⟨r₁, hr₁, hfollows'⟩ := hagree'.exists_of_ok_right
  exact ⟨r₁, hr₁, hfollows'.represents, hfollows'.flag_eq⟩

namespace Event.Determined

/-- A node that is passed over when it is entered. -/
theorem skip {n : Node} (hstep : ∀ r : Resolver, r.step (.enter n) = .ok r)
    (hids : Event.useIds [.enter n] = []) :
    Event.Determined top builtin [.enter n] inner waits 0 := by
  refine ⟨inner, waits, [], .one fun r uses hr hflag => ⟨r, hstep r, hr, hflag⟩, ?_, Nat.le_refl _⟩
  rw [hids]
  rfl

theorem use (h : Represents top builtin r ⟨inner, uses⟩) {ident : Ident}
    (huse : r.use ident = .ok r₁) :
    Event.Determined top builtin [.enter (.ident ident)] inner waits 0 := by
  have hagree := h.use rfl ident
  rw [huse] at hagree
  obtain ⟨s₁, hs₁, _⟩ := hagree.exists_of_ok
  unfold Lexical.use at hs₁
  dsimp only at hs₁
  cases hfound : (inner ++ [top, builtin]).findSome? (· ident.name) with
  | none =>
    rw [hfound] at hs₁
    cases hs₁
  | some d =>
    refine ⟨inner, waits, [(ident.id, d)], .one ?_, rfl, Nat.le_refl _⟩
    intro r uses hr hflag
    have hagree' := hr.use hflag ident
    unfold Lexical.use at hagree'
    rw [hfound] at hagree'
    obtain ⟨r₁, hr₁, hfollows⟩ := hagree'.exists_of_ok_right
    exact ⟨r₁, hr₁, hfollows.represents, hfollows.flag_eq⟩

/-- A block takes over the scope of a function that waits, or opens one of its own. -/
theorem enterBlock (id : StmtId) (lbrace rbrace : Span) (items : List Item) :
    Event.Determined top builtin [.enter (.stmt (.block id lbrace items rbrace))] inner waits
      1 := by
  cases waits with
  | true =>
    refine ⟨inner, false, [], .one ?_, rfl, Nat.le_refl _⟩
    intro r uses hr hflag
    refine ⟨{ r with sharesScope := false }, ?_, ⟨hr.outermost, hr.chain, hr.uses⟩, rfl⟩
    simp [Resolver.step, Resolver.enterBlock, hflag]
  | false =>
    refine ⟨.empty :: inner, false, [], .one ?_, rfl, Nat.le_refl _⟩
    intro r uses hr hflag
    have hopened := hr.enterScope .block (by decide)
    refine ⟨r.enterBlock id, rfl, ?_, ?_⟩
    · simp only [Resolver.enterBlock, hflag, Bool.false_eq_true, if_false]
      exact ⟨hopened.outermost, hopened.chain, hopened.uses⟩
    · simp only [Resolver.enterBlock, hflag, Bool.false_eq_true, if_false]
      exact hflag

theorem enterDecl (h : Represents top builtin r ⟨inner, uses⟩) {d : Decl}
    (hstep : r.step (.enter (.decl d)) = .ok r₁) :
    Event.Determined top builtin [.enter (.decl d)] inner waits (Node.decl d).opens := by
  obtain ⟨r₂, hdeclare, _⟩ := Except.bind_eq_ok.mp hstep
  obtain ⟨inner₁, hlength, hall⟩ := h.declare_determined hdeclare
  cases d with
  | func id name span signature body =>
    refine ⟨.empty :: inner₁, body.isSome, [], .one ?_, rfl, ?_⟩
    · intro r uses hr hflag
      obtain ⟨r₁, hr₁, hrepresents, _⟩ := hall r uses hr
      exact ⟨r₁.enterFunction id body.isSome, Except.bind_eq_ok.mpr ⟨r₁, hr₁, rfl⟩,
        hrepresents.enterFunction id body.isSome, rfl⟩
    · have hopens : (Node.decl (.func id name span signature body)).opens +
          body.isSome.toNat = 1 := by
        cases body <;> rfl
      rw [List.length_cons]
      omega
  | var _ _ _ _ _ | basic _ _ _ _ | typedef _ _ _ _ =>
    refine ⟨inner₁, waits, [], .one ?_, rfl, Nat.le_of_eq (by rw [hlength]; rfl)⟩
    intro r uses hr hflag
    obtain ⟨r₁, hr₁, hrepresents, hflag₁⟩ := hall r uses hr
    exact ⟨r₁, Except.bind_eq_ok.mpr ⟨r₁, hr₁, rfl⟩, hrepresents, hflag₁.trans hflag⟩

/-- Entering any node. -/
theorem enter (h : Represents top builtin r ⟨inner, uses⟩) {n : Node}
    (hstep : r.step (.enter n) = .ok r₁) :
    Event.Determined top builtin [.enter n] inner waits n.opens := by
  cases n with
  | expr _ | type _ => exact skip (fun _ => rfl) rfl
  | ident ident => exact use h hstep
  | decl d => exact enterDecl h hstep
  | stmt t =>
    cases t with
    | block id lbrace items rbrace => exact enterBlock id lbrace rbrace items
    | empty _ _ | expr _ _ | branch _ _ _ _ _ | ret _ _ _ | loop _ _ _ _ =>
      exact skip (fun _ => rfl) rfl

/-- Leaving a node closes what the node has opened. -/
theorem leave {n : Node} (h : Event.Determined top builtin events inner waits n.opens)
    (hwaits : waits.toNat ≤ inner.length) :
    Event.Determined top builtin (events ++ [.leave n]) inner waits 0 := by
  obtain ⟨inner₁, waits₁, new, hdoes, hids, hdepth⟩ := h
  have hids' : new.map Prod.fst = (Event.useIds (events ++ [.leave n])).reverse := by
    rw [hids]
    simp [Event.useIds, Event.identUses]
  by_cases hopens : n.opens = 1
  · rw [hopens] at hdepth
    have hinner : inner₁ ≠ [] := by
      rintro rfl
      rw [List.length_nil] at hdepth
      omega
    have hpos := List.length_pos_iff.mpr hinner
    have hleave : Event.Does top builtin [.leave n] inner₁ inner₁.tail waits₁ waits₁ [] := by
      refine .one fun r uses hr hflag => ⟨r.leaveScope, ?_, hr.leaveScope hinner, ?_⟩
      · rw [Resolver.step_leave, if_pos hopens]
      · rw [← hflag]
        unfold Resolver.leaveScope
        cases r.resolution.scopes.parent? r.current <;> rfl
    refine ⟨inner₁.tail, waits₁, new, hdoes.append hleave, hids', ?_⟩
    rw [List.length_tail]
    omega
  · have hleave : Event.Does top builtin [.leave n] inner₁ inner₁ waits₁ waits₁ [] := by
      refine .one fun r uses hr hflag => ⟨r, ?_, hr, hflag⟩
      rw [Resolver.step_leave, if_neg hopens]
    exact ⟨inner₁, waits₁, new, hdoes.append hleave, hids', by omega⟩

end Event.Determined

/-- If a piece of the traversal that is nested in itself can be walked once, then it does the same
from wherever the same environments are seen. -/
theorem Event.Nested.determined (hnested : Event.Nested events)
    (h : Represents top builtin r ⟨inner, uses⟩) (hwaits : r.sharesScope.toNat ≤ inner.length)
    (hrun : events.foldlM Resolver.step r = .ok r₁) :
    Event.Determined top builtin events inner r.sharesScope 0 := by
  induction hnested generalizing inner uses r r₁ with
  | nil =>
    refine ⟨inner, r.sharesScope, [], ?_, rfl, Nat.le_refl _⟩
    exact fun r uses hr hflag => ⟨r, rfl, hr, hflag⟩
  | append _ _ ihx ihy =>
    rw [List.foldlM_append] at hrun
    obtain ⟨r₂, hx, hy⟩ := Except.bind_eq_ok.mp hrun
    obtain ⟨inner₂, waits₂, new, hdoes, hids, hdepth⟩ := ihx h hwaits hx
    obtain ⟨hr₂, rfl⟩ := hdoes.of_run h rfl hx
    obtain ⟨inner₃, waits₃, new', hdoes', hids', hdepth'⟩ := ihy hr₂ (by omega) hy
    exact ⟨inner₃, waits₃, new' ++ new, hdoes.append hdoes', by simp [hids, hids'], by omega⟩
  | around n _ ih =>
    rw [foldlM_around] at hrun
    obtain ⟨r₂, henter, hrun⟩ := Except.bind_eq_ok.mp hrun
    obtain ⟨r₃, hchildren, _⟩ := Except.bind_eq_ok.mp hrun
    have hdetermined : Event.Determined top builtin [.enter n] inner r.sharesScope n.opens :=
      .enter h henter
    obtain ⟨inner₂, waits₂, new, hdoes, hids, hdepth⟩ := hdetermined
    have hone : [Event.enter n].foldlM Resolver.step r = .ok r₂ := by
      rw [List.foldlM_cons, henter]
      rfl
    obtain ⟨hr₂, rfl⟩ := hdoes.of_run h rfl hone
    obtain ⟨inner₃, waits₃, new', hdoes', hids', hdepth'⟩ := ih hr₂ (by omega) hchildren
    refine Event.Determined.leave ⟨inner₃, waits₃, new' ++ new, hdoes.append hdoes', ?_,
      by omega⟩ hwaits
    rw [List.map_append, hids, hids', ← List.reverse_append, ← Event.useIds_append]
    rfl

end

/-! The second walk changes nothing. -/

/-- What a walk through a top-level declaration records. -/
structure Decl.Yields (top builtin : Env) (d : Decl) (new : List (IdentId × Decl)) : Prop where
  does : Event.Does top builtin d.events [] [] false false new
  none_iff : ∀ id, new.lookup id = none ↔ id ∉ Event.useIds d.events

/-- The uses of names in a declaration are recorded as a walk through it records them. -/
def Lexical.Remembers (top builtin : Env) (d : Decl) (s : Lexical) : Prop :=
  ∃ new, d.Yields top builtin new ∧ ∀ id, (new ++ s.uses).lookup id = s.uses.lookup id

/-- No identifier of a declaration is used in another one. -/
def Program.OwnsUses (p : Program) (d : Decl) : Prop :=
  ∀ d' ∈ p.file, d' ≠ d → ∀ id ∈ Event.useIds d'.events, id ∉ Event.useIds d.events

instance (p : Program) (d : Decl) : Decidable (p.OwnsUses d) :=
  inferInstanceAs (Decidable (∀ d' ∈ p.file, _ → ∀ id ∈ Event.useIds d'.events, _))

section

variable {top builtin : Env} {p : Program} {d : Decl} {r r₁ : Resolver} {s : Lexical}

/-- A walk through a settled declaration. -/
theorem AtFile.yields (h : AtFile top builtin r s) (hd : d.Settled)
    (hrun : d.events.foldlM Resolver.step r = .ok r₁) :
    ∃ new, d.Yields top builtin new ∧ AtFile top builtin r₁ ⟨[], new ++ s.uses⟩ := by
  obtain ⟨inner, uses⟩ := s
  obtain rfl : inner = [] := h.inner
  obtain ⟨inner₁, waits₁, new, hdoes, hids, _⟩ :=
    d.events_nested.determined h.represents (by simp [h.flag]) hrun
  rw [h.flag] at hdoes
  obtain ⟨hr₁, rfl⟩ := hdoes.of_run h.represents h.flag hrun
  obtain ⟨_, _, hcursor, hback⟩ := h.walked hrun
  obtain rfl : inner₁ = [] := hr₁.current_eq_file_iff.mp (hcursor.mpr hd)
  have hflag := (hback hd).flag
  rw [hflag] at hdoes
  refine ⟨new, ⟨hdoes, fun id => ?_⟩, hr₁, rfl, hflag⟩
  rw [← List.mem_reverse, ← hids, List.lookup_eq_none_iff, List.mem_map]
  constructor
  · rintro hnone ⟨pair, hpair, rfl⟩
    simpa using hnone pair hpair
  · intro hnot pair hpair
    simpa using fun heq => hnot ⟨pair, hpair, heq.symm⟩

/-- One declaration: it is the one that is meant, or it uses other identifiers. -/
theorem AtFile.remembers {d' : Decl} (h : AtFile top builtin r s) (hd' : d'.Settled)
    (howns : d' ≠ d → ∀ id ∈ Event.useIds d'.events, id ∉ Event.useIds d.events)
    (hrun : d'.events.foldlM Resolver.step r = .ok r₁) :
    ∃ s₁, AtFile top builtin r₁ s₁ ∧
      (d' = d ∨ s.Remembers top builtin d → s₁.Remembers top builtin d) := by
  obtain ⟨new', hyields', hr₁⟩ := h.yields hd' hrun
  refine ⟨_, hr₁, ?_⟩
  by_cases heq : d' = d
  · subst heq
    intro _
    refine ⟨new', hyields', fun id => ?_⟩
    cases hnew : new'.lookup id <;> simp [List.lookup_append, hnew]
  · rintro (hself | ⟨new, hyields, hkept⟩)
    · exact absurd hself heq
    · refine ⟨new, hyields, fun id => ?_⟩
      have hold := hkept id
      cases hnew : new.lookup id with
      | none => simp [List.lookup_append, hnew]
      | some found =>
        have hnone : new'.lookup id = none := by
          rw [hyields'.none_iff]
          intro hid
          rw [(hyields.none_iff id).mpr (howns heq id hid)] at hnew
          cases hnew
        simp only [List.lookup_append, hnew, hnone, Option.none_or, Option.some_or] at hold ⊢
        exact hold

theorem AtFile.remembersAll {ds : List Decl} (h : AtFile top builtin r s)
    (hsettled : ∀ d' ∈ ds, d'.Settled)
    (howns : ∀ d' ∈ ds, d' ≠ d → ∀ id ∈ Event.useIds d'.events, id ∉ Event.useIds d.events)
    (hbefore : d ∈ ds ∨ s.Remembers top builtin d)
    (hrun : (Decl.eventsAll ds).foldlM Resolver.step r = .ok r₁) :
    ∃ s₁, AtFile top builtin r₁ s₁ ∧ s₁.Remembers top builtin d := by
  induction ds generalizing r s with
  | nil =>
    obtain rfl := Except.ok.inj hrun
    exact ⟨s, h, hbefore.resolve_left List.not_mem_nil⟩
  | cons d' rest ih =>
    rw [Decl.eventsAll, List.foldlM_append] at hrun
    obtain ⟨r₂, hfirst, hrest⟩ := Except.bind_eq_ok.mp hrun
    obtain ⟨hd', hsettledRest⟩ := List.forall_mem_cons.mp hsettled
    obtain ⟨hownsFirst, hownsRest⟩ := List.forall_mem_cons.mp howns
    obtain ⟨s₂, h₂, hnext⟩ := h.remembers hd' hownsFirst hfirst
    refine ih h₂ hsettledRest hownsRest ?_ hrest
    rw [List.mem_cons] at hbefore
    rcases hbefore with (heq | hmem) | hknown
    · exact .inr (hnext (.inl heq.symm))
    · exact .inl hmem
    · exact .inr (hnext (.inr hknown))

end

/-! Resolutions. -/

/-- The names of a program stand for the same declarations, in its text and at file level. -/
structure Resolution.SameNames (r r' : Resolution) : Prop where
  idents : ∀ id : IdentId, r'.idents[id]? = r.idents[id]?
  bindings : ∀ name, r'.fileBinding? name = r.fileBinding? name

theorem Represents.fileBinding?_eq {top builtin : Env} {r : Resolver} {s : Lexical}
    (h : Represents top builtin r s) (name : String) :
    r.resolution.fileBinding? name = top name := by
  obtain ⟨scope, _, _, hfile, _, htop, _⟩ := h.outermost
  rw [Resolution.fileBinding?, hfile, Option.bind_some, htop]

namespace Program

variable {p : Program} {d : Decl}

/-- A declaration that is listed once more is resolved once more, to the same effect. -/
theorem resolve_again (hp : p.Coherent) (hd : d ∈ p.file) (hsettled : p.Settled)
    (howns : p.OwnsUses d) {r : Resolution} (hr : p.resolve = .ok r) :
    ∃ r', (p.again d).resolve = .ok r' ∧ r.SameNames r' := by
  obtain ⟨start, hstart, hrest⟩ := Except.bind_eq_ok.mp hr
  obtain ⟨final, hwalk, hfinal⟩ := Except.bind_eq_ok.mp hrest
  cases hfinal
  obtain ⟨top, hfile⟩ := openFile_atFile hp hstart
  obtain ⟨s, hend, new, hyields, hkept⟩ := hfile.remembersAll hsettled howns (.inl hd) hwalk
  obtain ⟨inner, uses⟩ := s
  obtain rfl : inner = [] := hend.inner
  obtain ⟨last, hrun, hlast, _⟩ := hyields.does final uses hend.represents hend.flag
  refine ⟨last.resolution, ?_, ?_, ?_⟩
  · unfold resolve
    rw [openFile_again hp hd, hstart, events_again]
    refine Except.bind_eq_ok.mpr ⟨start, rfl, Except.bind_eq_ok.mpr ⟨last, ?_, rfl⟩⟩
    rw [List.foldlM_append]
    exact Except.bind_eq_ok.mpr ⟨final, hwalk, hrun⟩
  · intro id
    rw [hlast.uses, hend.represents.uses]
    exact hkept id
  · intro name
    rw [hlast.fileBinding?_eq, hend.represents.fileBinding?_eq]

/-- A program that cannot be resolved cannot be resolved with one more declaration either. -/
theorem resolve_again_error (hp : p.Coherent) (hd : d ∈ p.file) {e : ResolveError}
    (he : p.resolve = .error e) : (p.again d).resolve = .error e := by
  unfold resolve at he ⊢
  rw [openFile_again hp hd, events_again]
  cases hstart : p.openFile with
  | error e' =>
    rw [hstart] at he
    exact he
  | ok start =>
    rw [hstart] at he
    change (p.events.foldlM Resolver.step start >>= _) = _ at he
    change ((p.events ++ d.events).foldlM Resolver.step start >>= _) = _
    rw [List.foldlM_append]
    cases hwalk : p.events.foldlM Resolver.step start with
    | error e' =>
      rw [hwalk] at he
      exact he
    | ok final =>
      rw [hwalk] at he
      cases he

end Program

end MicroC
