import MicroC.Proofs.Scope.Redeclaration
import MicroC.Proofs.Scope.Visible

/-!
The order of the declarations at file level. All of them are bound before any name is looked up,
so another order gives the same program with the same uses of names. What a name is bound to can
change only among declarations none of which is a definition.
-/

namespace MicroC

/-! The shape of a program. -/

theorem Decl.eventsAll_perm {ds ds' : List Decl} (h : ds.Perm ds') :
    (Decl.eventsAll ds).Perm (Decl.eventsAll ds') := by
  induction h with
  | nil => exact .nil
  | cons d _ ih => exact ih.append_left d.events
  | swap d d' rest =>
    simp only [Decl.eventsAll, ← List.append_assoc]
    exact List.perm_append_comm.append_right _
  | trans _ _ ih ih' => exact ih.trans ih'

/-- A program that is a tree and has functions of the usual form only. -/
structure Program.Regular (p : Program) : Prop where
  coherent : p.Coherent
  tree : p.TreeShaped
  bodies : p.BlockBodies
  params : p.VariableParams
  signatures : p.FunctionSignatures

/-- The shape of a program does not depend on the order of its declarations. -/
theorem Program.Regular.reorder {p : Program} {file : List Decl} (h : p.Regular)
    (hperm : p.file.Perm file) : Program.Regular { p with file := file } := by
  have hevents : p.events.Perm (Decl.eventsAll file) := Decl.eventsAll_perm hperm
  have hback : ∀ event ∈ Decl.eventsAll file, event ∈ p.events :=
    fun _ hevent => hevents.mem_iff.mpr hevent
  exact {
    coherent := ⟨h.coherent.builtins, fun n hn => h.coherent.reached n (hback _ hn)⟩
    tree := (hevents.filterMap _).nodup_iff.mp h.tree
    bodies := fun n hn => h.bodies n (hback _ hn)
    params := fun n hn => h.params n (hback _ hn)
    signatures := fun n hn => h.signatures n (hback _ hn) }

/-! Declarations of one name. -/

namespace Decl

variable {decls decls' : List Decl} {d d' : Decl} {name : String}

theorem Merged.mergesWith (h : Merged decls) (hd : d ∈ decls) (hd' : d' ∈ decls)
    (hname : d.name = d'.name) : d.mergesWith d' := by
  obtain ⟨d₀, hd₀⟩ := exists_bindingOf hd
  have hrepeats : d₀.Repeats d := h d hd d₀ hd₀
  have hrepeats' : d₀.Repeats d' := h d' hd' d₀ (hname ▸ hd₀)
  rcases hrepeats with rfl | ⟨hsort, hdef⟩
  · rcases hrepeats' with rfl | ⟨hsort', hdef'⟩
    · simp [Decl.mergesWith]
    · simp [Decl.mergesWith, hsort', hdef']
  · have hsort' : d.sameSort d' := by
      rcases hrepeats' with rfl | ⟨hsort', _⟩
      · exact sameSort_symm hsort
      · exact sameSort_trans (sameSort_symm hsort) hsort'
    simp [Decl.mergesWith, hsort', hdef]

/-- Declarations that go together two by two can be inserted one after another. -/
theorem mergeAll_eq_ok (seen : List Decl)
    (h : ∀ d ∈ seen ++ decls, ∀ d' ∈ seen ++ decls, d.name = d'.name → d.mergesWith d') :
    mergeAll seen decls = .ok () := by
  induction decls generalizing seen with
  | nil => rfl
  | cons d rest ih =>
    have hone : merge seen d = .ok () := by
      rw [merge]
      split
      next => rfl
      next old hold =>
        obtain ⟨hmem, hname⟩ := mem_of_bindingOf hold
        rw [if_pos (h old (by simp [hmem]) d (by simp) hname)]
    rw [mergeAll, hone]
    exact ih (seen ++ [d]) (by simpa using h)

/-- Declarations that can be merged in one order can be merged in every order. -/
theorem mergeAll_perm (hperm : decls.Perm decls') (hids : (decls.map Decl.id).Nodup)
    (h : mergeAll [] decls = .ok ()) : mergeAll [] decls' = .ok () := by
  have hmerged : Merged decls := merged_of_mergeAll hids h
  apply mergeAll_eq_ok
  intro d hd d' hd' hname
  exact hmerged.mergesWith (hperm.mem_iff.mpr hd) (hperm.mem_iff.mpr hd') hname

/-- Two declarations are the same, or they declare one name and neither defines it. -/
inductive Twins (decls : List Decl) (d : Decl) : Decl → Prop
  | self : Twins decls d d
  | other {d' : Decl} : d ∈ decls → d' ∈ decls → d.name = d'.name → d.sameSort d' →
    d.isDefinition = false → d'.isDefinition = false → Twins decls d d'

theorem Twins.eq_of_isDefinition (h : Twins decls d d') (hdef : d.isDefinition) : d = d' := by
  cases h with
  | self => rfl
  | other _ _ _ _ hnot _ =>
    rw [hnot] at hdef
    cases hdef

theorem Twins.name_eq (h : Twins decls d d') : d.name = d'.name := by
  cases h with
  | self => rfl
  | other _ _ hname _ _ _ => exact hname

theorem Twins.repeats (h : Twins decls d d') : d.Repeats d' := by
  cases h with
  | self => exact .inl rfl
  | other _ _ _ hsort _ hdef => exact .inr ⟨hsort, hdef⟩

theorem init?_of_not_isDefinition (h : d.isDefinition = false) : d.init? = none := by
  cases d with
  | var id name span written init => simpa [isDefinition, init?] using h
  | func _ _ _ _ _ | basic _ _ _ _ | typedef _ _ _ _ => rfl

/-- Only a definition has an initial value. -/
theorem Twins.init?_eq (h : Twins decls d d') : d.init? = d'.init? := by
  cases h with
  | self => rfl
  | other _ _ _ _ hdef hdef' =>
    rw [init?_of_not_isDefinition hdef, init?_of_not_isDefinition hdef']

/-- In another order a name is bound to a declaration that says no more about it. -/
theorem Merged.bindingOf_twins (h : Merged decls) (h' : Merged decls')
    (hperm : decls.Perm decls') (hbound : bindingOf decls name = some d)
    (hbound' : bindingOf decls' name = some d') : Twins decls d d' := by
  obtain ⟨hmem, rfl⟩ := mem_of_bindingOf hbound
  obtain ⟨hmem', hname⟩ := mem_of_bindingOf hbound'
  have hmem' : d' ∈ decls := hperm.mem_iff.mpr hmem'
  rcases h d' hmem' d (hname ▸ hbound) with rfl | ⟨hsort, hdef'⟩
  · exact .self
  · rcases h' d (hperm.mem_iff.mp hmem) d' hbound' with rfl | ⟨_, hdef⟩
    · exact .self
    · exact .other hmem hmem' hname.symm hsort hdef hdef'

end Decl

/-- What names stand for in two chains of environments is related. -/
def Env.Alike (R : Decl → Decl → Prop) (outer outer' : List Env) : Prop :=
  ∀ name, Option.Rel R (outer.findSome? (· name)) (outer'.findSome? (· name))

/-- The environments around the declarations of a file in two orders. -/
theorem Decl.Merged.outer_alike {decls decls' : List Decl} {builtin : Env} (h : Decl.Merged decls)
    (h' : Decl.Merged decls') (hperm : decls.Perm decls') :
    Env.Alike (Decl.Twins decls) [Decl.bindingOf decls, builtin] [Decl.bindingOf decls', builtin] := by
  intro name
  simp only [List.findSome?_cons, List.findSome?_nil]
  have hother : ∀ {ds ds' : List Decl} {d : Decl}, ds.Perm ds' → Decl.bindingOf ds name = some d →
      ∃ d', Decl.bindingOf ds' name = some d' := by
    intro ds ds' d hperm hd
    obtain ⟨hmem, rfl⟩ := Decl.mem_of_bindingOf hd
    exact Decl.exists_bindingOf (hperm.mem_iff.mp hmem)
  cases hd : Decl.bindingOf decls name with
  | some d =>
    obtain ⟨d', hd'⟩ := hother hperm hd
    rw [hd']
    exact .some (h.bindingOf_twins h' hperm hd hd')
  | none =>
    cases hd' : Decl.bindingOf decls' name with
    | some d' =>
      obtain ⟨d, hsome⟩ := hother hperm.symm hd'
      rw [hd] at hsome
      cases hsome
    | none =>
      cases builtin name with
      | none => exact .none
      | some d => exact .some .self

/-! Two runs over the same piece of a program. -/

/-- Two runs with the same open environments. What each of them has recorded since it had the uses
`start` and `start'` is related use by use. -/
structure Lexical.Alike (R : Decl → Decl → Prop) (start start' : List (IdentId × Decl))
    (s s' : Lexical) : Prop where
  inner : s'.inner = s.inner
  uses : ∃ new new', s.uses = new ++ start ∧ s'.uses = new' ++ start' ∧
    ∀ use ∈ new, ∃ use' ∈ new', use'.1 = use.1 ∧ R use.2 use'.2

namespace Lexical.Alike

variable {R : Decl → Decl → Prop} {start start' : List (IdentId × Decl)} {s s' : Lexical}
  {outer outer' : List Env}

theorem refl (s s' : Lexical) (hinner : s'.inner = s.inner) : Alike R s.uses s'.uses s s' :=
  ⟨hinner, [], [], rfl, rfl, by simp⟩

theorem enter (h : Alike R start start' s s') : Alike R start start' s.enter s'.enter :=
  ⟨by simp [Lexical.enter, h.inner], h.uses⟩

theorem leave (h : Alike R start start' s s') : Alike R start start' s.leave s'.leave :=
  ⟨by simp [Lexical.leave, h.inner], h.uses⟩

theorem declare (h : Alike R start start' s s') (d : Decl) :
    Agree (Alike R start start') (s.declare d) (s'.declare d) := by
  unfold Lexical.declare
  rw [h.inner]
  split
  next => exact .ok h
  next env rest hinner =>
    split
    next => exact .ok ⟨rfl, h.uses⟩
    next old _ =>
      split
      · exact .ok h
      · exact .error rfl

theorem use (h : Alike R start start' s s') (hR : ∀ d, R d d) (hout : Env.Alike R outer outer')
    (ident : Ident) : Agree (Alike R start start') (s.use outer ident) (s'.use outer' ident) := by
  have hfound : Option.Rel R ((s.inner ++ outer).findSome? (· ident.name))
      ((s'.inner ++ outer').findSome? (· ident.name)) := by
    rw [h.inner, List.findSome?_append, List.findSome?_append]
    cases s.inner.findSome? (· ident.name) with
    | none => exact hout ident.name
    | some d => exact .some (hR d)
  unfold Lexical.use
  generalize (s.inner ++ outer).findSome? (· ident.name) = found at hfound ⊢
  generalize (s'.inner ++ outer').findSome? (· ident.name) = found' at hfound ⊢
  cases hfound with
  | none => exact .error rfl
  | @some d d' hd =>
    obtain ⟨new, new', huses, huses', hrel⟩ := h.uses
    refine .ok ⟨h.inner, (ident.id, d) :: new, (ident.id, d') :: new', by simp [huses],
      by simp [huses'], ?_⟩
    intro use huse
    rcases List.mem_cons.mp huse with rfl | hmem
    · exact ⟨(ident.id, d'), List.mem_cons_self, rfl, hd⟩
    · obtain ⟨use', hmem', hsame⟩ := hrel use hmem
      exact ⟨use', List.mem_cons_of_mem _ hmem', hsame⟩

end Lexical.Alike

section

variable {R : Decl → Decl → Prop} {start start' : List (IdentId × Decl)} {outer outer' : List Env}

mutual

theorem Expr.resolveIn_alike (hR : ∀ d, R d d) (hout : Env.Alike R outer outer') :
    (e : Expr) → {s s' : Lexical} → s.Alike R start start' s' →
    Agree (Lexical.Alike R start start') (e.resolveIn outer s) (e.resolveIn outer' s')
  | .literal .., _, _, h => .ok h
  | .binary _ _ _ lhs rhs, _, _, h =>
    (lhs.resolveIn_alike hR hout h).bind fun _ _ h => rhs.resolveIn_alike hR hout h
  | .call _ callee _ args _, _, _, h =>
    (h.use hR hout callee).bind fun _ _ h => Expr.resolveAllIn_alike hR hout args h
  | .name _ ident, _, _, h => h.use hR hout ident
  | .index _ array _ position _, _, _, h =>
    (h.use hR hout array).bind fun _ _ h => position.resolveIn_alike hR hout h
  | .paren _ _ inner _, _, _, h => inner.resolveIn_alike hR hout h
  | .unary _ _ _ operand, _, _, h => operand.resolveIn_alike hR hout h

theorem Expr.resolveAllIn_alike (hR : ∀ d, R d d) (hout : Env.Alike R outer outer') :
    (es : List Expr) → {s s' : Lexical} → s.Alike R start start' s' →
    Agree (Lexical.Alike R start start') (Expr.resolveAllIn outer es s)
      (Expr.resolveAllIn outer' es s')
  | [], _, _, h => .ok h
  | e :: rest, _, _, h =>
    (e.resolveIn_alike hR hout h).bind fun _ _ h => Expr.resolveAllIn_alike hR hout rest h

end

mutual

theorem TypeExpr.resolveIn_alike (hR : ∀ d, R d d) (hout : Env.Alike R outer outer') :
    (t : TypeExpr) → {s s' : Lexical} → s.Alike R start start' s' →
    Agree (Lexical.Alike R start start') (t.resolveIn outer s) (t.resolveIn outer' s')
  | .named _ ident, _, _, h => h.use hR hout ident
  | .array _ elem _ _ _, _, _, h => elem.resolveIn_alike hR hout h
  | .func _ result _ params _, _, _, h =>
    (result.resolveIn_alike hR hout h).bind fun _ _ h => Decl.resolveAllIn_alike hR hout params h

theorem Decl.resolveIn_alike (hR : ∀ d, R d d) (hout : Env.Alike R outer outer') :
    (d : Decl) → {s s' : Lexical} → s.Alike R start start' s' →
    Agree (Lexical.Alike R start start') (d.resolveIn outer s) (d.resolveIn outer' s')
  | .func _ _ _ signature none, _, _, h =>
    (h.declare _).bind fun _ _ h => (signature.resolveIn_alike hR hout h.enter).bind
      fun _ _ h => .ok h.leave
  | .func _ _ _ signature (some (.block _ _ items _)), _, _, h =>
    (h.declare _).bind fun _ _ h => (signature.resolveIn_alike hR hout h.enter).bind
      fun _ _ h => (Item.resolveAllIn_alike hR hout items h).bind fun _ _ h => .ok h.leave
  | .func _ _ _ signature (some (.empty _ _)), _, _, h
  | .func _ _ _ signature (some (.expr _ _)), _, _, h
  | .func _ _ _ signature (some (.branch _ _ _ _ _)), _, _, h
  | .func _ _ _ signature (some (.ret _ _ _)), _, _, h
  | .func _ _ _ signature (some (.loop _ _ _ _)), _, _, h =>
    (h.declare _).bind fun _ _ h => (signature.resolveIn_alike hR hout h.enter).bind
      fun _ _ h => (Stmt.resolveIn_alike hR hout _ h).bind fun _ _ h => .ok h.leave
  | .var _ _ _ type none, _, _, h =>
    (h.declare _).bind fun _ _ h => type.resolveIn_alike hR hout h
  | .var _ _ _ type (some init), _, _, h =>
    (h.declare _).bind fun _ _ h => (type.resolveIn_alike hR hout h).bind
      fun _ _ h => init.resolveIn_alike hR hout h
  | .basic .., _, _, h => h.declare _
  | .typedef _ _ _ target, _, _, h =>
    (h.declare _).bind fun _ _ h => target.resolveIn_alike hR hout h

theorem Decl.resolveAllIn_alike (hR : ∀ d, R d d) (hout : Env.Alike R outer outer') :
    (ds : List Decl) → {s s' : Lexical} → s.Alike R start start' s' →
    Agree (Lexical.Alike R start start') (Decl.resolveAllIn outer ds s)
      (Decl.resolveAllIn outer' ds s')
  | [], _, _, h => .ok h
  | d :: rest, _, _, h =>
    (d.resolveIn_alike hR hout h).bind fun _ _ h => Decl.resolveAllIn_alike hR hout rest h

theorem Stmt.resolveIn_alike (hR : ∀ d, R d d) (hout : Env.Alike R outer outer') :
    (t : Stmt) → {s s' : Lexical} → s.Alike R start start' s' →
    Agree (Lexical.Alike R start start') (t.resolveIn outer s) (t.resolveIn outer' s')
  | .block _ _ items _, _, _, h =>
    (Item.resolveAllIn_alike hR hout items h.enter).bind fun _ _ h => .ok h.leave
  | .empty .., _, _, h => .ok h
  | .expr _ value, _, _, h => value.resolveIn_alike hR hout h
  | .branch _ _ cond onTrue none, _, _, h =>
    (cond.resolveIn_alike hR hout h).bind fun _ _ h => onTrue.resolveIn_alike hR hout h
  | .branch _ _ cond onTrue (some onFalse), _, _, h =>
    (cond.resolveIn_alike hR hout h).bind fun _ _ h => (onTrue.resolveIn_alike hR hout h).bind
      fun _ _ h => onFalse.resolveIn_alike hR hout h
  | .ret _ _ none, _, _, h => .ok h
  | .ret _ _ (some value), _, _, h => value.resolveIn_alike hR hout h
  | .loop _ _ cond body, _, _, h =>
    (cond.resolveIn_alike hR hout h).bind fun _ _ h => body.resolveIn_alike hR hout h

theorem Item.resolveIn_alike (hR : ∀ d, R d d) (hout : Env.Alike R outer outer') :
    (i : Item) → {s s' : Lexical} → s.Alike R start start' s' →
    Agree (Lexical.Alike R start start') (i.resolveIn outer s) (i.resolveIn outer' s')
  | .decl d, _, _, h => d.resolveIn_alike hR hout h
  | .stmt t, _, _, h => t.resolveIn_alike hR hout h

theorem Item.resolveAllIn_alike (hR : ∀ d, R d d) (hout : Env.Alike R outer outer') :
    (items : List Item) → {s s' : Lexical} → s.Alike R start start' s' →
    Agree (Lexical.Alike R start start') (Item.resolveAllIn outer items s)
      (Item.resolveAllIn outer' items s')
  | [], _, _, h => .ok h
  | item :: rest, _, _, h =>
    (item.resolveIn_alike hR hout h).bind fun _ _ h => Item.resolveAllIn_alike hR hout rest h

end

end

/-! Whole files. -/

section

variable {outer outer' : List Env} {ds : List Decl} {s s₁ : Lexical}

theorem Env.Alike.refl {R : Decl → Decl → Prop} (hR : ∀ d, R d d) (outer : List Env) :
    Env.Alike R outer outer := by
  intro name
  cases outer.findSome? (· name) with
  | none => exact .none
  | some d => exact .some (hR d)

/-- At file level the uses of a declaration are those that it has alone. -/
theorem Decl.resolveIn_alone {d : Decl} (hinner : s.inner = [])
    (hrun : d.resolveIn outer s = .ok s₁) :
    ∃ t, d.resolveIn outer {} = .ok t ∧ ∀ use ∈ s₁.uses, use ∈ s.uses ∨ use ∈ t.uses := by
  have hstart : Lexical.Alike Eq s.uses [] s {} := .refl s {} hinner.symm
  have hruns := d.resolveIn_alike (fun _ => rfl) (Env.Alike.refl (fun _ => rfl) outer) hstart
  rw [hrun] at hruns
  obtain ⟨t, ht, halike⟩ := hruns.exists_of_ok
  obtain ⟨new, new', huses, huses', hrel⟩ := halike.uses
  refine ⟨t, ht, ?_⟩
  intro use huse
  rw [huses] at huse
  rcases List.mem_append.mp huse with hnew | hold
  · obtain ⟨use', hmem, hid, hdecl⟩ := hrel use hnew
    obtain rfl : use' = use := Prod.ext hid hdecl.symm
    exact .inr (huses' ▸ List.mem_append_left [] hmem)
  · exact .inl hold

/-- Every use in a file is one of some declaration. -/
theorem Decl.resolveAllIn_origin (hinner : s.inner = [])
    (hrun : Decl.resolveAllIn outer ds s = .ok s₁) :
    (∀ d ∈ ds, ∃ t, d.resolveIn outer {} = .ok t) ∧
      ∀ use ∈ s₁.uses, use ∈ s.uses ∨
        ∃ d ∈ ds, ∃ t, d.resolveIn outer {} = .ok t ∧ use ∈ t.uses := by
  induction ds generalizing s with
  | nil =>
    obtain rfl := Except.ok.inj hrun
    exact ⟨by simp, fun use huse => .inl huse⟩
  | cons d rest ih =>
    obtain ⟨s₂, hd, hrest⟩ := Except.bind_eq_ok.mp hrun
    obtain ⟨t, ht, huses⟩ := Decl.resolveIn_alone hinner hd
    have hinner₂ : s₂.inner = [] := by
      rw [← List.length_eq_zero_iff, (d.records hd).depth, hinner, List.length_nil]
    obtain ⟨hruns, horigin⟩ := ih hinner₂ hrest
    refine ⟨List.forall_mem_cons.mpr ⟨⟨t, ht⟩, hruns⟩, ?_⟩
    intro use huse
    rcases horigin use huse with hmem | ⟨d', hd', hrun'⟩
    · rcases huses use hmem with hold | hnew
      · exact .inl hold
      · exact .inr ⟨d, List.mem_cons_self, t, ht, hnew⟩
    · exact .inr ⟨d', List.mem_cons_of_mem _ hd', hrun'⟩

/-- Declarations whose names are found one by one can be put together to a file, also with other
environments around them. -/
theorem Decl.exists_resolveAllIn {R : Decl → Decl → Prop} (hR : ∀ d, R d d)
    (hout : Env.Alike R outer outer') (s : Lexical) (hinner : s.inner = [])
    (hruns : ∀ d ∈ ds, ∃ t, d.resolveIn outer {} = .ok t) :
    ∃ s₁, Decl.resolveAllIn outer' ds s = .ok s₁ ∧
      ∀ d ∈ ds, ∀ t, d.resolveIn outer {} = .ok t →
        ∀ use ∈ t.uses, ∃ use' ∈ s₁.uses, use'.1 = use.1 ∧ R use.2 use'.2 := by
  induction ds generalizing s with
  | nil => exact ⟨s, rfl, by simp⟩
  | cons d rest ih =>
    obtain ⟨⟨t, ht⟩, hrest⟩ := List.forall_mem_cons.mp hruns
    have hstart : Lexical.Alike R [] s.uses {} s := .refl {} s hinner
    have hagree := d.resolveIn_alike hR hout hstart
    rw [ht] at hagree
    obtain ⟨s₂, hs₂, halike⟩ := hagree.exists_of_ok
    have hinner₂ : s₂.inner = [] := by
      rw [← List.length_eq_zero_iff, (d.records hs₂).depth, hinner, List.length_nil]
    obtain ⟨s₁, hs₁, hrel⟩ := ih s₂ hinner₂ hrest
    refine ⟨s₁, Except.bind_eq_ok.mpr ⟨s₂, hs₂, hs₁⟩, ?_⟩
    intro d' hd' t' ht' use huse
    rcases List.mem_cons.mp hd' with rfl | hmem
    · obtain rfl := Except.ok.inj (ht.symm.trans ht')
      obtain ⟨new, new', huses, huses', hsame⟩ := halike.uses
      rw [huses, List.append_nil] at huse
      obtain ⟨use', hmem', hlike⟩ := hsame use huse
      refine ⟨use', (Decl.recordsAll rest hs₁).subset ?_, hlike⟩
      exact huses' ▸ List.mem_append_left _ hmem'
    · exact hrel d' hmem t' ht' use huse

end

/-- Two resolutions give every name declarations that are twins. -/
structure Resolution.Alike (decls : List Decl) (r r' : Resolution) : Prop where
  idents : ∀ ident d, r.declOf? ident = some d → ∃ d', r'.declOf? ident = some d' ∧ d.Twins decls d'
  bindings : ∀ name d, r.fileBinding? name = some d →
    ∃ d', r'.fileBinding? name = some d' ∧ d.Twins decls d'

/-- A program can be resolved in every order of its declarations, with twins for its names. -/
theorem Program.Regular.resolve_reorder {p : Program} {file : List Decl} {r : Resolution}
    (h : p.Regular) (hperm : p.file.Perm file) (hr : p.resolve = .ok r) :
    ∃ r', Program.resolve { p with file := file } = .ok r' ∧ r.Alike p.file r' := by
  have hother := h.reorder hperm
  have hrepresents := p.resolve_represents h.tree h.bodies h.params
  rw [hr] at hrepresents
  obtain ⟨s, hlexical, huses, hfile⟩ := hrepresents.exists_of_ok
  obtain ⟨_, hmerge, hrun⟩ := Except.bind_eq_ok.mp hlexical
  have hmerge' : Decl.mergeAll [] file = .ok () :=
    Decl.mergeAll_perm hperm h.tree.file_ids_nodup hmerge
  have hmerged := Decl.merged_of_mergeAll h.tree.file_ids_nodup hmerge
  have hmerged' := Decl.merged_of_mergeAll hother.tree.file_ids_nodup hmerge'
  -- Each declaration finds its names in the other order too.
  obtain ⟨hruns, horigin⟩ := Decl.resolveAllIn_origin rfl hrun
  obtain ⟨s', hrun', hrel⟩ := Decl.exists_resolveAllIn (fun _ => .self)
    (hmerged.outer_alike hmerged' hperm) {} rfl fun d hd => hruns d (hperm.mem_iff.mpr hd)
  have hrepresents' := Program.resolve_represents { p with file := file } hother.tree
    hother.bodies hother.params
  rw [Except.bind_eq_ok.mpr ⟨(), hmerge', hrun'⟩] at hrepresents'
  obtain ⟨r', hr', huses', hfile'⟩ := hrepresents'.exists_of_ok_right
  refine ⟨r', hr', ?_, ?_⟩
  · intro ident d hd
    obtain ⟨before, after, hmem, _⟩ := List.lookup_eq_some_iff.mp ((huses ident.id).symm.trans hd)
    rcases horigin (ident.id, d) (by simp [hmem]) with hnone | ⟨d₀, hd₀, t, ht, huse⟩
    · cases hnone
    · obtain ⟨use', huse', hid, htwins⟩ := hrel d₀ (hperm.mem_iff.mp hd₀) t ht _ huse
      have hfound := hother.tree.agrees hrun' huses' use' huse'
      rw [hid] at hfound
      exact ⟨use'.2, hfound, htwins⟩
  · intro name d hd
    rw [hfile] at hd
    obtain ⟨hmem, rfl⟩ := Decl.mem_of_bindingOf hd
    obtain ⟨d', hd'⟩ := Decl.exists_bindingOf (hperm.mem_iff.mp hmem)
    exact ⟨d', (hfile' d.name).trans hd', hmerged.bindingOf_twins hmerged' hperm hd hd'⟩

end MicroC
