import MicroC.Proofs.Scope.Tree

/-!
What an insertion changes for the scopes around it. A scope is made inside of an older one, so the
way outwards goes down in the numbers and comes to an end. Nothing that is visible anywhere changes
by an insertion that fails or merges. Otherwise the new declaration is seen from its scope and from
all scopes inside of it, as far as no scope on the way has the name for itself.
-/

namespace MicroC

namespace ScopeTree

variable {t t' : ScopeTree} {s i : Nat} {d : Decl} {name : String}

/-- The trees that can come about: scopes are made inside of scopes that exist, and declarations
are inserted in any scopes, with success or without. -/
inductive Built : ScopeTree → Prop
  | empty : Built {}
  | create {t : ScopeTree} {parent : Option ScopeId} {kind : ScopeKind} : Built t →
    (∀ outer, parent = some outer → outer < t.size) → Built (t.create parent kind).2
  | put {t : ScopeTree} {s : ScopeId} {d : Decl} : Built t → Built (t.put s d).2

/-- A declaration that merges leaves no trace. -/
theorem eq_of_insert_merged (h : t.insert s d = .ok (.merged, t')) : t' = t := by
  rcases insert_cases h with ⟨_, rfl⟩ | ⟨scope, scope', hget, hinsert, rfl⟩
  · rfl
  · rcases Scope.put_found hinsert with ⟨_, rfl, _⟩ | ⟨hbound, _⟩ | ⟨hrebound, _⟩
    · exact update_self hget
    · cases hbound
    · cases hrebound

section

variable {outcome : Insertion}

/-- An insertion that does not merge changes one binding of one scope. -/
theorem binding?_insert (h : t.insert s d = .ok (outcome, t')) (houtcome : outcome ≠ .merged) :
    s < t.size ∧ ∀ i name, t'.binding? i name =
      if i = s ∧ name = d.name then some d else t.binding? i name := by
  rcases insert_cases h with ⟨hnone, _⟩ | ⟨scope, scope', hget, hinsert, rfl⟩
  · simp only [insert_eq_ok_iff, put, hnone, Except.ok.injEq, Prod.mk.injEq] at h
    exact absurd h.1.symm houtcome
  · refine ⟨lt_size_of_get? hget, fun i name => ?_⟩
    by_cases hi : i = s
    · subst hi
      simp [binding?, get?_update_self hget, hget,
        Scope.get?_put_of_ne_merged hinsert houtcome]
    · simp [binding?, get?_update_of_ne hi, hi]

end

/-! The way outwards. -/

/-- Each scope is inside of an older one, if any. -/
def Descending (t : ScopeTree) : Prop := ∀ i outer : Nat, t.parent? i = some outer → outer < i

theorem Descending.insert {outcome : Insertion} (h : t.Descending)
    (hinsert : t.insert s d = .ok (outcome, t')) : t'.Descending := by
  intro i outer houter
  rw [parent?_insert hinsert] at houter
  exact h i outer houter

theorem Built.descending (h : t.Built) : t.Descending := by
  induction h with
  | empty =>
    intro i outer houter
    simp [parent?, get?] at houter
  | @create t parent kind _ hparent ih =>
    intro i outer houter
    rw [parent?_create] at houter
    by_cases hi : i = t.size
    · rw [if_pos hi] at houter
      exact hi ▸ hparent outer houter
    · rw [if_neg hi] at houter
      exact ih i outer houter
  | @put t s d _ ih =>
    cases hresult : (t.put s d).1 with
    | error e =>
      have hsame : (t.put s d).2 = t := put_error (Prod.ext hresult rfl)
      exact hsame.symm ▸ ih
    | ok outcome => exact ih.insert (insert_eq_ok_iff.mpr (Prod.ext hresult rfl))

/-- The bound on the way outwards does not cut it off. -/
theorem Descending.chain_eq (h : t.Descending) {n m : Nat} (hn : i < n) (hm : i < m) :
    t.chain n i = t.chain m i := by
  induction n generalizing i m with
  | zero => omega
  | succ n ih =>
    obtain ⟨m, rfl⟩ : ∃ k, m = k + 1 := ⟨m - 1, by omega⟩
    cases houter : t.parent? i with
    | none => simp only [chain, houter]
    | some outer =>
      have hlt := h i outer houter
      have hrest : t.chain n outer = t.chain m outer := ih (by omega) (by omega)
      simp only [chain, houter, hrest]

/-- The scopes around a scope are those around the one that it is inside of. -/
theorem Descending.ancestors_eq (h : t.Descending) (hi : i < t.size) :
    t.ancestors i = i :: (t.parent? i).elim [] t.ancestors := by
  obtain ⟨n, hn⟩ : ∃ n, t.size = n + 1 := ⟨t.size - 1, by omega⟩
  rw [ancestors, hn, chain]
  cases houter : t.parent? i with
  | none => rfl
  | some outer =>
    have hlt := h i outer houter
    have hrest : t.chain n outer = t.chain (n + 1) outer := h.chain_eq (by omega) (by omega)
    simp only [Option.elim_some, ancestors, hn, hrest]

theorem Descending.outer_lt_size (h : t.Descending) (hi : i < t.size) {outer : Nat}
    (houter : t.parent? i = some outer) : outer < t.size :=
  Nat.lt_trans (h i outer houter) hi

/-- A scope that has an outer one exists. -/
theorem Descending.le_of_mem (h : t.Descending) {j : Nat} (hi : i < t.size)
    (hj : j ∈ t.ancestors i) : j ≤ i := by
  induction i using Nat.strongRecOn with
  | ind i ih =>
    rw [h.ancestors_eq hi] at hj
    cases houter : t.parent? i with
    | none =>
      simp only [houter, Option.elim_none, List.mem_singleton] at hj
      omega
    | some outer =>
      have hlt := h i outer houter
      simp only [houter, Option.elim_some, List.mem_cons] at hj
      rcases hj with rfl | hj
      · omega
      · have hle := ih outer hlt (h.outer_lt_size hi houter) hj
        omega

theorem Descending.pairwise (h : t.Descending) (hi : i < t.size) :
    (t.ancestors i).Pairwise (· > ·) := by
  induction i using Nat.strongRecOn with
  | ind i ih =>
    rw [h.ancestors_eq hi]
    cases houter : t.parent? i with
    | none => exact List.pairwise_singleton _ _
    | some outer =>
      have hlt := h i outer houter
      have hin := h.outer_lt_size hi houter
      refine List.pairwise_cons.mpr ⟨fun j hj => ?_, ih outer hlt hin⟩
      have hle : j ≤ outer := h.le_of_mem hin hj
      exact Nat.lt_of_le_of_lt hle hlt

/-- A name is looked up in the scope itself, and then in the one around it. -/
theorem Descending.lookup_eq (h : t.Descending) (hi : i < t.size) (name : String) :
    t.lookup i name = (t.binding? i name).or ((t.parent? i).bind (t.lookup · name)) := by
  have hlookup : ∀ i, t.lookup i name = (t.ancestors i).findSome? (t.binding? · name) :=
    fun _ => rfl
  rw [hlookup, h.ancestors_eq hi]
  cases hbinding : t.binding? i name with
  | some d => simp [hbinding]
  | none => cases houter : t.parent? i <;> simp [hbinding, hlookup]

/-- No scope is around one that does not exist, and nothing is visible from there. -/
theorem ancestors_of_size_le (hi : t.size ≤ i) :
    (∀ j ∈ t.ancestors i, j = i) ∧ ∀ name, t.lookup i name = none := by
  have hget : t.get? i = none := Array.getElem?_eq_none hi
  have houter : t.parent? i = none := by simp [parent?, hget]
  cases hsize : t.size with
  | zero => simp [lookup, ancestors, hsize, chain]
  | succ n => simp [lookup, ancestors, hsize, chain, houter, hget]

/-! What is visible. -/

theorem mem_boundNames_iff : name ∈ t.boundNames i ↔ (t.binding? i name).isSome := by
  cases hget : t.get? i with
  | none => simp [boundNames, binding?, hget]
  | some scope => simp [boundNames, binding?, hget, Scope.get?]

/-- The names that are visible from a scope are those that can be looked up there. -/
theorem mem_visibleNames_iff : name ∈ t.visibleNames i ↔ (t.lookup i name).isSome := by
  have hlookup : t.lookup i name = (t.ancestors i).findSome? (t.binding? · name) := rfl
  rw [hlookup, List.isSome_findSome?, visibleNames, List.mem_flatMap, List.any_eq_true]
  simp only [mem_boundNames_iff]

/-- A name of `s` is seen from `i` if `s` is `i` or around it, and no scope strictly inside of `s`
on the way has the name for itself. -/
def Unshadowed (t : ScopeTree) (s : ScopeId) (name : String) (i : ScopeId) : Prop :=
  s ∈ t.ancestors i ∧
    ∀ j ∈ t.ancestors i, s ∈ t.ancestors j → j ≠ s → t.binding? j name = none

instance (t : ScopeTree) (s : ScopeId) (name : String) (i : ScopeId) :
    Decidable (t.Unshadowed s name i) :=
  inferInstanceAs (Decidable (_ ∧ ∀ j ∈ t.ancestors i, _))

theorem Descending.unshadowed_self (h : t.Descending) (hs : s < t.size) : t.Unshadowed s name s := by
  constructor
  · rw [h.ancestors_eq hs]
    exact List.mem_cons_self
  · intro j hj hback hne
    have hle : j ≤ s := h.le_of_mem hs hj
    have hge : s ≤ j := h.le_of_mem (Nat.lt_of_le_of_lt hle hs) hback
    exact absurd (Nat.le_antisymm hle hge) hne

/-- One scope further inside. -/
theorem Descending.unshadowed_iff (h : t.Descending) (hi : i < t.size) (hne : i ≠ s) :
    t.Unshadowed s name i ↔
      t.binding? i name = none ∧ ∃ outer, t.parent? i = some outer ∧ t.Unshadowed s name outer := by
  have hself : i ∈ t.ancestors i := by
    rw [h.ancestors_eq hi]
    exact List.mem_cons_self
  constructor
  · rintro ⟨hs, hfree⟩
    have hsplit := h.ancestors_eq hi
    refine ⟨hfree i hself hs hne, ?_⟩
    cases houter : t.parent? i with
    | none =>
      rw [hsplit, houter] at hs
      exact absurd (List.mem_singleton.mp hs).symm hne
    | some outer =>
      rw [houter] at hsplit
      rw [hsplit] at hs hfree
      refine ⟨outer, rfl, (List.mem_cons.mp hs).resolve_left (Ne.symm hne), ?_⟩
      exact fun j hj => hfree j (List.mem_cons_of_mem _ hj)
  · rintro ⟨hbinding, outer, houter, hs, hfree⟩
    have hsplit := h.ancestors_eq hi
    rw [houter] at hsplit
    constructor
    · rw [hsplit]
      exact List.mem_cons_of_mem _ hs
    · intro j hj
      rw [hsplit] at hj
      rcases List.mem_cons.mp hj with rfl | hj
      · exact fun _ _ => hbinding
      · exact hfree j hj

theorem ancestors_insert {outcome : Insertion} (hinsert : t.insert s d = .ok (outcome, t'))
    (i : Nat) : t'.ancestors i = t.ancestors i := by
  have hchain : ∀ n i, t'.chain n i = t.chain n i := by
    intro n
    induction n with
    | zero => exact fun _ => rfl
    | succ n ih =>
      intro i
      simp only [chain, parent?_insert hinsert, ih]
  rw [ancestors, ancestors, size_insert hinsert, hchain]

/-- Other names are not concerned. -/
theorem lookup_insert_of_ne {outcome : Insertion} (hinsert : t.insert s d = .ok (outcome, t'))
    (houtcome : outcome ≠ .merged) (hname : name ≠ d.name) (i : Nat) :
    t'.lookup i name = t.lookup i name := by
  have hbinding : ∀ j, t'.binding? j name = t.binding? j name := by
    intro j
    rw [(binding?_insert hinsert houtcome).2, if_neg fun hboth => hname hboth.2]
  change (t'.ancestors i).findSome? (t'.binding? · name) = (t.ancestors i).findSome? (t.binding? · name)
  simp only [ancestors_insert hinsert, hbinding]

/-- The name itself stands for the new declaration where its scope is seen, and only there. -/
theorem Descending.lookup_insert {outcome : Insertion} (h : t.Descending)
    (hinsert : t.insert s d = .ok (outcome, t')) (houtcome : outcome ≠ .merged) (i : Nat) :
    (t.Unshadowed s d.name i → t'.lookup i d.name = some d) ∧
    (¬ t.Unshadowed s d.name i → t'.lookup i d.name = t.lookup i d.name) := by
  obtain ⟨hs, hbinding⟩ := binding?_insert hinsert houtcome
  induction i using Nat.strongRecOn with
  | ind i ih =>
    rcases Nat.lt_or_ge i t.size with hi | hi
    · have hlookup := h.lookup_eq hi d.name
      have hlookup' := (h.insert hinsert).lookup_eq (size_insert hinsert ▸ hi) d.name
      rw [parent?_insert hinsert, hbinding] at hlookup'
      by_cases hself : i = s
      · subst hself
        rw [if_pos ⟨rfl, rfl⟩] at hlookup'
        exact ⟨fun _ => hlookup', fun hnot => absurd (h.unshadowed_self hi) hnot⟩
      · rw [if_neg fun hboth => hself hboth.1] at hlookup'
        rw [h.unshadowed_iff hi hself, hlookup, hlookup']
        cases hbound : t.binding? i d.name with
        | some old => exact ⟨fun hboth => absurd hboth.1 nofun, fun _ => rfl⟩
        | none =>
          cases houter : t.parent? i with
          | none => exact ⟨fun ⟨_, _, hsome, _⟩ => absurd hsome nofun, fun _ => rfl⟩
          | some outer =>
            have hrest := ih outer (h i outer houter)
            simpa using hrest
    · -- the scope of the insertion exists, so that it is not around `i`
      obtain ⟨hself, hnone⟩ := ancestors_of_size_le hi
      obtain ⟨_, hnone'⟩ := ancestors_of_size_le (t := t') (size_insert hinsert ▸ hi)
      refine ⟨fun hseen => ?_, fun _ => by rw [hnone, hnone']⟩
      have hsi : s = i := hself s hseen.1
      omega

/-- Scopes are made inside of scopes that exist, and declarations are inserted. Then the way
outwards from a scope goes down in the numbers until there is no scope around; the names that are
visible from a scope are those that can be looked up there. An insertion that fails or merges
changes nothing. After any other insertion the name stands for the new declaration from where the
scope is seen, which is in the scope itself and in those inside of it between which and the scope
the name is not declared; all else can be looked up as before. -/
theorem insert_lookup_frame (t : ScopeTree) (ht : t.Built) :
    (∀ i, i < t.size → (t.ancestors i).Pairwise (· > ·) ∧
      t.ancestors i = i :: (t.parent? i).elim [] t.ancestors) ∧
    (∀ i name, name ∈ t.visibleNames i ↔ (t.lookup i name).isSome) ∧
    ∀ s d,
      (∀ e t', t.put s d = (.error e, t') → t' = t) ∧
      (∀ t', t.put s d = (.ok .merged, t') → t' = t) ∧
      ∀ outcome t', t.put s d = (.ok outcome, t') → outcome = .bound ∨ outcome = .rebound →
        ∀ i name,
          (name = d.name ∧ t.Unshadowed s name i → t'.lookup i name = some d) ∧
          (¬ (name = d.name ∧ t.Unshadowed s name i) → t'.lookup i name = t.lookup i name) := by
  have h := ht.descending
  refine ⟨fun i hi => ⟨h.pairwise hi, h.ancestors_eq hi⟩, fun i name => mem_visibleNames_iff, ?_⟩
  intro s d
  refine ⟨fun e t' => put_error, fun t' hput => eq_of_insert_merged (insert_eq_ok_iff.mpr hput), ?_⟩
  · intro outcome t' hput houtcome i name
    have hinsert := insert_eq_ok_iff.mpr hput
    have hmerged : outcome ≠ .merged := by
      rcases houtcome with rfl | rfl <;> decide
    by_cases hname : name = d.name
    · subst hname
      simpa using h.lookup_insert hinsert hmerged i
    · exact ⟨fun hboth => absurd hboth.1 hname,
        fun _ => lookup_insert_of_ne hinsert hmerged hname i⟩

/-- A file with two blocks, the first of which declares a variable `x` and has a block inside. -/
def nestedBlocks : ScopeTree :=
  let x : Decl := .var 3 "x" default (.named 0 ⟨0, "int", default⟩) none
  let file := (create {} none .file).2
  let first := (file.create (some 0) .block).2.put 1 x |>.2
  ((first.create (some 1) .block).2.create (some 0) .block).2

/-- A variable `x` of the file is seen from the second block, and not from inside of the first. -/
theorem insert_lookup_frame_nestedBlocks : nestedBlocks.Built ∧
    ∃ d t', d.name = "x" ∧ nestedBlocks.put 0 d = (.ok .bound, t') ∧
      t'.lookup 3 "x" = some d ∧ (t'.lookup 2 "x").map Decl.id = some 3 := by
  have hbuilt : nestedBlocks.Built := by
    refine .create (.create (.put (.create (.create .empty nofun) ?_)) ?_) ?_
    all_goals
      intro outer houter
      cases houter
      decide
  let d : Decl := .var 4 "x" default (.named 1 ⟨1, "char", default⟩) none
  have hput : nestedBlocks.put 0 d = (.ok .bound, (nestedBlocks.put 0 d).2) := rfl
  obtain ⟨_, _, hlaw⟩ := insert_lookup_frame nestedBlocks hbuilt
  have hseen := (hlaw 0 d).2.2 .bound _ hput (.inl rfl)
  refine ⟨hbuilt, d, _, rfl, hput, (hseen 3 "x").1 ⟨rfl, by decide⟩, ?_⟩
  rw [(hseen 2 "x").2 (by decide)]
  rfl

end ScopeTree

end MicroC
