import MicroC.Scope.Resolution

/-!
Scopes and scope trees as finite maps. Each update of a scope or of a tree is described by
what can be looked up afterwards; the rest of the theory does not look inside.
-/

namespace MicroC

namespace Scope

theorem get?_bind {s : Scope} {d : Decl} (h : s.get? d.name = none) (name : String) :
    (s.bind d).get? name = if name = d.name then some d else s.get? name := by
  simp only [get?, bind, List.lookup_append] at h ⊢
  by_cases hname : name = d.name
  · subst hname
    simp [h]
  · have hne : (name == d.name) = false := by simpa using hname
    simp [List.lookup_cons, hne, hname]

private theorem lookup_rebind (defs : List (String × Decl)) (d : Decl) (name : String) :
    (defs.map fun entry => if entry.1 = d.name then (entry.1, d) else entry).lookup name =
      if name = d.name then (defs.lookup name).map fun _ => d else defs.lookup name := by
  induction defs with
  | nil => simp
  | cons entry rest ih =>
    obtain ⟨key, old⟩ := entry
    by_cases hname : name = key
    · subst hname
      by_cases hkey : name = d.name <;> simp [hkey]
    · have hne : (name == key) = false := by simpa using hname
      by_cases hkey : key = d.name
      · subst hkey
        simp [List.lookup_cons, hne, ih]
      · simp [List.lookup_cons, hne, hkey, ih]

theorem get?_rebind {s : Scope} {d old : Decl} (h : s.get? d.name = some old) (name : String) :
    (s.rebind d).get? name = if name = d.name then some d else s.get? name := by
  simp only [get?, rebind] at h ⊢
  rw [lookup_rebind]
  by_cases hname : name = d.name
  · subst hname
    simp [h]
  · simp [hname]

/-- Outside the file a name can be declared only once. -/
theorem put_of_kind_ne_file {s : Scope} (hkind : s.kind ≠ .file) (d : Decl) :
    s.put d = match s.get? d.name with
      | none => (.ok .bound, s.bind d)
      | some old =>
        if old.id = d.id then (.ok .merged, s)
        else (.error (.redeclaration d.name old.span d.span), s) := by
  unfold put
  cases s.get? d.name with
  | none => rfl
  | some old => simp [hkind]

/-- What an insertion that succeeds has found and done. -/
theorem put_found {s s' : Scope} {d : Decl} {outcome : Insertion}
    (h : s.put d = (.ok outcome, s')) :
    (outcome = .merged ∧ s' = s ∧ ∃ old, s.get? d.name = some old ∧
      (old.id = d.id ∨ s.kind = .file ∧ old.sameSort d ∧ d.isDefinition = false)) ∨
    (outcome = .bound ∧ s' = s.bind d ∧ s.get? d.name = none) ∨
    (outcome = .rebound ∧ s' = s.rebind d ∧ ∃ old, s.get? d.name = some old ∧
      s.kind = .file ∧ old.sameSort d ∧ old.isDefinition = false ∧ d.isDefinition = true) := by
  unfold put at h
  cases hold : s.get? d.name with
  | none =>
    simp only [hold] at h
    cases h
    exact .inr (.inl ⟨rfl, rfl, rfl⟩)
  | some old =>
    simp only [hold] at h
    split at h
    next hid =>
      cases h
      exact .inl ⟨rfl, rfl, old, rfl, .inl hid⟩
    · split at h
      next hsort =>
        split at h
        · cases h
        next hnot hdef =>
          cases h
          exact .inr (.inr ⟨rfl, rfl, old, rfl, hsort.1, hsort.2, hnot, hdef⟩)
        next hnot =>
          cases h
          exact .inl ⟨rfl, rfl, old, rfl, .inr ⟨hsort.1, hsort.2, hnot⟩⟩
      · cases h

/-- A scope that refuses a declaration is left as it was. -/
theorem put_error {s s' : Scope} {d : Decl} {e : ResolveError} (h : s.put d = (.error e, s')) :
    s' = s := by
  unfold put at h
  cases hold : s.get? d.name with
  | none =>
    simp only [hold] at h
    cases h
  | some old =>
    simp only [hold] at h
    split at h
    · cases h
    · split at h
      · split at h <;> cases h
        rfl
      · cases h
        rfl

/-- An insertion succeeds if the name is free, or bound to a declaration that the new one can
stand beside. -/
theorem exists_put_iff {s : Scope} {d : Decl} :
    (∃ outcome s', s.put d = (.ok outcome, s')) ↔ ∀ old, s.get? d.name = some old →
      old.id = d.id ∨
        s.kind = .file ∧ old.sameSort d ∧ (old.isDefinition && d.isDefinition) = false := by
  constructor
  · rintro ⟨outcome, s', h⟩ old hold
    rcases put_found h with ⟨_, _, found, hfound, hwhy⟩ | ⟨_, _, hfree⟩ |
      ⟨_, _, found, hfound, hkind, hsort, hnot, _⟩
    · obtain rfl : found = old := Option.some.inj (hfound.symm.trans hold)
      exact hwhy.imp_right fun ⟨hkind, hsort, hnot⟩ => ⟨hkind, hsort, by simp [hnot]⟩
    · rw [hfree] at hold
      cases hold
    · obtain rfl : found = old := Option.some.inj (hfound.symm.trans hold)
      exact .inr ⟨hkind, hsort, by simp [hnot]⟩
  · intro h
    unfold put
    cases hold : s.get? d.name with
    | none => exact ⟨_, _, rfl⟩
    | some old =>
      rcases h old hold with hid | ⟨hkind, hsort, hdefs⟩
      · exact ⟨.merged, s, by simp [hid]⟩
      · by_cases hid : old.id = d.id
        · exact ⟨.merged, s, by simp [hid]⟩
        · cases hnew : d.isDefinition with
          | false => exact ⟨.merged, s, by cases old.isDefinition <;> simp [hid, hkind, hsort]⟩
          | true =>
            have hnot : old.isDefinition = false := by simpa [hnew] using hdefs
            exact ⟨.rebound, s.rebind d, by simp [hid, hkind, hsort, hnot]⟩

/-- An insertion that succeeds leaves the scope alone, binds a free name, or gives a name to
its definition. -/
theorem put_cases {s s' : Scope} {d : Decl} {outcome : Insertion}
    (h : s.put d = (.ok outcome, s')) :
    (s' = s ∧ ∃ old, s.get? d.name = some old) ∨ (s.get? d.name = none ∧ s' = s.bind d) ∨
      (∃ old, s.get? d.name = some old) ∧ s' = s.rebind d := by
  rcases put_found h with ⟨_, hs', old, hold, _⟩ | ⟨_, hs', hfree⟩ | ⟨_, hs', old, hold, _⟩
  · exact .inl ⟨hs', old, hold⟩
  · exact .inr (.inl ⟨hfree, hs'⟩)
  · exact .inr (.inr ⟨⟨old, hold⟩, hs'⟩)

theorem put_kind {s s' : Scope} {d : Decl} {outcome : Insertion}
    (h : s.put d = (.ok outcome, s')) : s'.kind = s.kind ∧ s'.parent = s.parent := by
  rcases put_cases h with ⟨rfl, _⟩ | ⟨_, rfl⟩ | ⟨_, rfl⟩ <;> exact ⟨rfl, rfl⟩

/-- What can be found after an insertion. -/
theorem get?_put {s s' : Scope} {d : Decl} {outcome : Insertion}
    (h : s.put d = (.ok outcome, s')) (name : String) :
    s'.get? name = s.get? name ∨ (name = d.name ∧ s'.get? name = some d) := by
  rcases put_cases h with ⟨rfl, _⟩ | ⟨hfree, rfl⟩ | ⟨⟨old, hold⟩, rfl⟩
  · exact .inl rfl
  · rw [get?_bind hfree]
    split
    next hname => exact .inr ⟨hname, rfl⟩
    next => exact .inl rfl
  · rw [get?_rebind hold]
    split
    next hname => exact .inr ⟨hname, rfl⟩
    next => exact .inl rfl

/-- An insertion that does not merge gives the name to the new declaration. -/
theorem get?_put_of_ne_merged {s s' : Scope} {d : Decl} {outcome : Insertion}
    (h : s.put d = (.ok outcome, s')) (houtcome : outcome ≠ .merged) (name : String) :
    s'.get? name = if name = d.name then some d else s.get? name := by
  rcases put_found h with ⟨hmerged, _⟩ | ⟨_, rfl, hfree⟩ | ⟨_, rfl, old, hold, _⟩
  · exact absurd hmerged houtcome
  · exact get?_bind hfree name
  · exact get?_rebind hold name

theorem exists_get?_put {s s' : Scope} {d : Decl} {outcome : Insertion}
    (h : s.put d = (.ok outcome, s')) : ∃ b, s'.get? d.name = some b := by
  rcases put_cases h with ⟨rfl, hold⟩ | ⟨hfree, rfl⟩ | ⟨⟨old, hold⟩, rfl⟩
  · exact hold
  · exact ⟨d, by rw [get?_bind hfree, if_pos rfl]⟩
  · exact ⟨d, by rw [get?_rebind hold, if_pos rfl]⟩

/-- The scope of the built-in names. -/
def universal : Scope :=
  { parent := none, kind := .universal, defs := Decl.builtins.map fun d => (d.name, d) }

end Scope

namespace ScopeTree

variable {t : ScopeTree} {s : ScopeId} {scope : Scope}

theorem lt_size_of_get? (h : t.get? s = some scope) : s < t.size :=
  (Array.getElem?_eq_some_iff.mp h).1

theorem get?_create (parent : Option ScopeId) (kind : ScopeKind) (i : ScopeId) :
    (t.create parent kind).2.get? i =
      if i = t.size then some { parent, kind } else t.get? i :=
  Array.getElem?_push

@[simp] theorem size_create (parent : Option ScopeId) (kind : ScopeKind) :
    (t.create parent kind).2.size = t.size + 1 :=
  Array.size_push _

theorem parent?_create (parent : Option ScopeId) (kind : ScopeKind) (i : ScopeId) :
    (t.create parent kind).2.parent? i = if i = t.size then parent else t.parent? i := by
  rw [parent?, get?_create]
  by_cases hi : i = t.size
  · simp [hi]
  · simp [hi, parent?]

theorem get?_update_self {new : Scope} (h : t.get? s = some scope) :
    (t.update s new).get? s = some new := by
  have hlt : s < t.scopes.size := lt_size_of_get? h
  simp [get?, update, hlt]

theorem get?_update_of_ne {new : Scope} {i : ScopeId} (h : i ≠ s) :
    (t.update s new).get? i = t.get? i := by
  simp [get?, update, Array.getElem?_setIfInBounds_ne h.symm]

theorem update_self (h : t.get? s = some scope) : t.update s scope = t := by
  obtain ⟨scopes⟩ := t
  have hself : scopes.setIfInBounds s scope = scopes := by
    apply Array.ext_getElem?
    intro i
    rw [Array.getElem?_setIfInBounds]
    by_cases hi : s = i
    · subst hi
      have hlt : s < scopes.size := lt_size_of_get? h
      rw [if_pos rfl, if_pos hlt]
      exact h.symm
    · rw [if_neg hi]
  rw [update, hself]

/-- What a scope itself says about a name. -/
def binding? (t : ScopeTree) (s : ScopeId) (name : String) : Option Decl :=
  (t.get? s).bind (·.get? name)

theorem put_eq (h : t.get? s = some scope) (d : Decl) :
    t.put s d = ((scope.put d).1, t.update s (scope.put d).2) := by
  simp only [put, h]

theorem insert_eq (h : t.get? s = some scope) (d : Decl) :
    t.insert s d = (scope.put d).1.map fun outcome => (outcome, t.update s (scope.put d).2) := by
  rw [insert, put_eq h]

theorem insert_eq_ok_iff {t' : ScopeTree} {d : Decl} {outcome : Insertion} :
    t.insert s d = .ok (outcome, t') ↔ t.put s d = (.ok outcome, t') := by
  unfold insert
  obtain ⟨result, after⟩ := t.put s d
  cases result <;> simp [Except.map]

/-- A tree that refuses a declaration is left as it was. -/
theorem put_error {t' : ScopeTree} {d : Decl} {e : ResolveError} (h : t.put s d = (.error e, t')) :
    t' = t := by
  cases hget : t.get? s with
  | none =>
    simp only [put, hget] at h
    cases h
  | some scope =>
    rw [put_eq hget] at h
    obtain ⟨herror, rfl⟩ := Prod.mk.inj h
    have hsame : (scope.put d).2 = scope := Scope.put_error (Prod.ext herror rfl)
    rw [hsame, update_self hget]

/-- An insertion that succeeds updates one scope, or does nothing as there is no such scope. -/
theorem insert_cases {t' : ScopeTree} {d : Decl} {outcome : Insertion}
    (h : t.insert s d = .ok (outcome, t')) :
    (t.get? s = none ∧ t' = t) ∨ ∃ scope scope', t.get? s = some scope ∧
      scope.put d = (.ok outcome, scope') ∧ t' = t.update s scope' := by
  rw [insert_eq_ok_iff] at h
  cases hget : t.get? s with
  | none =>
    simp only [put, hget] at h
    cases h
    exact .inl ⟨rfl, rfl⟩
  | some scope =>
    rw [put_eq hget] at h
    obtain ⟨houtcome, rfl⟩ := Prod.mk.inj h
    exact .inr ⟨scope, _, rfl, Prod.ext houtcome rfl, rfl⟩

theorem size_insert {t' : ScopeTree} {d : Decl} {outcome : Insertion}
    (h : t.insert s d = .ok (outcome, t')) : t'.size = t.size := by
  rcases insert_cases h with ⟨_, rfl⟩ | ⟨_, _, _, _, rfl⟩
  · rfl
  · simp [size, update]

theorem parent?_insert {t' : ScopeTree} {d : Decl} {outcome : Insertion}
    (h : t.insert s d = .ok (outcome, t')) (i : ScopeId) : t'.parent? i = t.parent? i := by
  rcases insert_cases h with ⟨_, rfl⟩ | ⟨scope, scope', hget, hinsert, rfl⟩
  · rfl
  · by_cases hi : i = s
    · subst hi
      rw [parent?, parent?, get?_update_self hget, hget]
      exact (Scope.put_kind hinsert).2
    · rw [parent?, parent?, get?_update_of_ne hi]

theorem insertAll_builtins :
    insertAll { scopes := #[{ parent := none, kind := .universal }] } 0 Decl.builtins =
      .ok { scopes := #[Scope.universal] } := by
  simp [insertAll, insert, put, get?, update, Decl.builtins, Scope.put, Scope.get?, Scope.bind, Decl.name,
    Scope.universal, List.lookup_cons, bind, Except.bind, Except.map, pure, Except.pure]

/-- The scopes of the built-in names and of the file, before the file is looked at. -/
def initial : ScopeTree := { scopes := #[Scope.universal, { parent := some 0, kind := .file }] }

end ScopeTree

theorem Program.openFile_eq (p : Program) :
    p.openFile = ScopeTree.initial.insertAll 1 p.file >>= fun scopes =>
      .ok { resolution := { scopes, root := 0, file := 1 }, current := 1 } := by
  simp only [openFile, ScopeTree.create, ScopeTree.size, List.push_toArray, List.nil_append,
    List.size_toArray, List.length_nil, ScopeTree.insertAll_builtins]
  rfl

end MicroC
