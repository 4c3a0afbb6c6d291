import MicroC.Proofs.Run
import MicroC.Proofs.Scope.EditDistance
import MicroC.Proofs.Scope.Owners
import MicroC.Proofs.Scope.Shadowing

/-!
The names suggested for an undeclared one. A name is seen from a scope at a place: so many scopes
farther out, and there among the names in the order in which they were bound. The suggestions are
the first three of the similar names that are visible where the undeclared one is used, by distance
and at equal distance by place.
-/

namespace MicroC

/-- Where a run over a list fails. -/
theorem exists_of_foldlM_error {α β ε : Type} {step : β → α → Except ε β} {xs : List α} {s : β}
    {e : ε} (h : xs.foldlM step s = .error e) :
    ∃ before x after s', xs = before ++ x :: after ∧ before.foldlM step s = .ok s' ∧
      step s' x = .error e := by
  induction xs generalizing s with
  | nil => cases h
  | cons x rest ih =>
    rw [List.foldlM_cons] at h
    rcases Except.bind_eq_error.mp h with hx | ⟨s₁, hx, hrest⟩
    · exact ⟨[], x, rest, s, rfl, rfl, hx⟩
    · obtain ⟨before, y, after, s', rfl, hbefore, hy⟩ := ih hrest
      refine ⟨x :: before, y, after, s', rfl, ?_, hy⟩
      rw [List.foldlM_cons, hx]
      exact hbefore

/-- Without repetitions a list keeps the order of first occurrences. -/
theorem pairwise_eraseDups {α : Type} [BEq α] [LawfulBEq α] (l : List α) :
    l.eraseDups.Pairwise fun a b => l.idxOf a < l.idxOf b := by
  induction hn : l.length generalizing l with
  | zero =>
    obtain rfl := List.length_eq_zero_iff.mp hn
    exact .nil
  | succ n ih =>
    obtain ⟨l, x, rfl⟩ := (List.eq_nil_or_concat l).resolve_left (List.ne_nil_of_length_eq_add_one hn)
    have hinit : l.eraseDups.Pairwise fun a b => (l ++ [x]).idxOf a < (l ++ [x]).idxOf b := by
      refine (ih l (by simpa using hn)).imp_of_mem fun ha hb hlt => ?_
      rw [List.mem_eraseDups] at ha hb
      rwa [List.idxOf_append, List.idxOf_append, if_pos ha, if_pos hb]
    rw [List.concat_eq_append, List.eraseDups_append]
    by_cases hx : x ∈ l
    · simpa [List.removeAll, hx] using hinit
    · have hlast : ([x].removeAll l).eraseDups = [x] := by
        simp [List.removeAll, hx, List.eraseDups_cons]
      rw [hlast]
      refine List.pairwise_append.mpr ⟨hinit, List.pairwise_singleton _ _, fun a ha b hb => ?_⟩
      obtain rfl := List.mem_singleton.mp hb
      rw [List.mem_eraseDups] at ha
      rw [List.idxOf_append, List.idxOf_append, if_pos ha, if_neg hx]
      have hlt := List.idxOf_lt_length_of_mem ha
      omega

/-- A list that is sorted by a key keeps the order of the elements with one key. -/
theorem pairwise_mergeSort_of_pairwise {α : Type} {r : α → α → Prop} {l : List α} (key : α → Nat)
    (h : l.Pairwise r) : (l.mergeSort fun a b => key a ≤ key b).Pairwise fun a b =>
      key a < key b ∨ key a = key b ∧ r a b := by
  let le (a b : α) : Bool := key a ≤ key b
  have htrans : ∀ a b c, le a b = true → le b c = true → le a c = true := by
    simp only [le, decide_eq_true_eq]
    omega
  have htotal : ∀ a b, (le a b || le b a) = true := by
    simp only [le, Bool.or_eq_true, decide_eq_true_eq]
    omega
  -- elements with one key are sorted by their positions, which are all different
  have hsorted := List.pairwise_mergeSort (List.zipIdxLE_trans htrans) (List.zipIdxLE_total htotal)
    l.zipIdx
  have hplaces : l.zipIdx.Pairwise fun x y => x.2 ≠ y.2 := by
    rw [← List.pairwise_map, List.zipIdx_map_snd]
    exact List.nodup_range'
  have hplaces' := (List.mergeSort_perm l.zipIdx (List.zipIdxLE le)).symm.pairwise hplaces Ne.symm
  rw [← List.mergeSort_zipIdx, List.pairwise_map]
  refine (hsorted.and hplaces').imp_of_mem fun {x y} hx hy hxy => ?_
  obtain ⟨hle, hne⟩ := hxy
  have hboth : key x.1 ≤ key y.1 ∧ (key y.1 ≤ key x.1 → x.2 ≤ y.2) := by
    simpa [List.zipIdxLE, le, or_iff_not_imp_left, Nat.not_lt] using hle
  rcases Nat.lt_or_ge (key x.1) (key y.1) with hlt | hge
  · exact .inl hlt
  · rw [List.mem_mergeSort, List.mem_zipIdx_iff_getElem?] at hx hy
    obtain ⟨hi, hget⟩ := List.getElem?_eq_some_iff.mp hx
    obtain ⟨hj, hget'⟩ := List.getElem?_eq_some_iff.mp hy
    have hplace := hboth.2 hge
    have hr := List.pairwise_iff_getElem.mp h x.2 y.2 hi hj (by omega)
    rw [hget, hget'] at hr
    exact .inr ⟨Nat.le_antisymm hboth.1 hge, hr⟩

/-! The nearest of some candidates. -/

namespace Similar

/-- One name is nearer to the target than another, or equally near and before it. -/
def Ahead (before : String → String → Prop) (target a b : String) : Prop :=
  levenshtein target.toList a.toList < levenshtein target.toList b.toList ∨
    levenshtein target.toList a.toList = levenshtein target.toList b.toList ∧ before a b

/-- The best suggestions for a target among the names that are visible, which stand in some order:
at most three, without repetition, at distance at most two and sorted; if a similar name is left
out, there are three that go before it. -/
structure Best (visible : String → Prop) (before : String → String → Prop) (target : String)
    (found : List String) : Prop where
  nodup : found.Nodup
  length_le : found.length ≤ 3
  similar : ∀ name ∈ found, visible name ∧ name ≠ target ∧
    levenshtein target.toList name.toList ≤ 2
  sorted : found.Pairwise (Ahead before target)
  complete : ∀ other, visible other → other ≠ target →
    levenshtein target.toList other.toList ≤ 2 → other ∉ found →
    found.length = 3 ∧ ∀ name ∈ found, Ahead before target name other

section

variable {visible visible' : String → Prop} {before before' : String → String → Prop}
  {target a b : String} {found candidates : List String}

theorem Ahead.mono (h : Ahead before target a b) (himp : before a b → before' a b) :
    Ahead before' target a b :=
  h.imp_right fun h => ⟨h.1, himp h.2⟩

theorem Best.congr (h : Best visible before target found)
    (hvisible : ∀ name, visible name ↔ visible' name)
    (hbefore : ∀ a b, visible a → visible b → before a b → before' a b) :
    Best visible' before' target found where
  nodup := h.nodup
  length_le := h.length_le
  similar := fun name hname => by
    rw [← hvisible]
    exact h.similar name hname
  sorted := h.sorted.imp_of_mem fun ha hb hab =>
    hab.mono (hbefore _ _ (h.similar _ ha).1 (h.similar _ hb).1)
  complete := by
    intro other hother hne hsimilar hout
    rw [← hvisible] at hother
    obtain ⟨hlength, hahead⟩ := h.complete other hother hne hsimilar hout
    exact ⟨hlength, fun name hname =>
      (hahead name hname).mono (hbefore _ _ (h.similar name hname).1 hother)⟩

theorem mem_scored {entry : Nat × String} : entry ∈ scored target candidates ↔
    entry.2 ∈ candidates ∧ entry.2 ≠ target ∧ entry.1 ≤ 2 ∧
      entry.1 = levenshtein target.toList entry.2.toList := by
  obtain ⟨d, name⟩ := entry
  simp only [scored, List.mem_filter, List.mem_map, List.mem_eraseDups, decide_eq_true_eq,
    Prod.mk.injEq, ← distance_eq]
  constructor
  · rintro ⟨⟨_, ⟨hmem, hne⟩, rfl, rfl⟩, hle⟩
    exact ⟨hmem, hne, hle, rfl⟩
  · rintro ⟨hmem, hne, hle, rfl⟩
    exact ⟨⟨name, ⟨hmem, hne⟩, rfl, rfl⟩, hle⟩

theorem scored_ordered (target : String) (candidates : List String) :
    (scored target candidates).Pairwise fun x y =>
      candidates.idxOf x.2 < candidates.idxOf y.2 := by
  refine (List.pairwise_map.mpr ?_).filter _
  exact (pairwise_eraseDups candidates).filter _

/-- The similar candidates, nearest first. -/
def ranked (target : String) (candidates : List String) : List String :=
  ((scored target candidates).mergeSort (·.1 ≤ ·.1)).map (·.2)

theorem suggestions_eq (target : String) (candidates : List String) :
    suggestions target candidates = (ranked target candidates).take maxSuggestions :=
  List.map_take

theorem mem_ranked : a ∈ ranked target candidates ↔ a ∈ candidates ∧ a ≠ target ∧
    levenshtein target.toList a.toList ≤ 2 := by
  simp only [ranked, List.mem_map, List.mem_mergeSort, mem_scored]
  constructor
  · rintro ⟨entry, ⟨hmem, hne, hle, heq⟩, rfl⟩
    exact ⟨hmem, hne, heq ▸ hle⟩
  · rintro ⟨hmem, hne, hle⟩
    exact ⟨(_, a), ⟨hmem, hne, hle, rfl⟩, rfl⟩

/-- The candidates at one distance stand in their order, and behind all that are nearer. -/
theorem ranked_sorted (target : String) (candidates : List String) :
    (ranked target candidates).Pairwise
      (Ahead (fun a b => candidates.idxOf a < candidates.idxOf b) target) := by
  have hstable := pairwise_mergeSort_of_pairwise Prod.fst (scored_ordered target candidates)
  refine List.pairwise_map.mpr (hstable.imp_of_mem fun {x y} hx hy hxy => ?_)
  obtain ⟨_, _, _, hdistance⟩ := mem_scored.mp (List.mem_mergeSort.mp hx)
  obtain ⟨_, _, _, hdistance'⟩ := mem_scored.mp (List.mem_mergeSort.mp hy)
  rwa [hdistance, hdistance'] at hxy

theorem suggestions_best (target : String) (candidates : List String) :
    Best (· ∈ candidates) (fun a b => candidates.idxOf a < candidates.idxOf b) target
      (suggestions target candidates) := by
  rw [suggestions_eq]
  have hsorted := ranked_sorted target candidates
  have hsplit := hsorted
  rw [← List.take_append_drop maxSuggestions (ranked target candidates), List.pairwise_append]
    at hsplit
  refine ⟨hsplit.1.imp ?_, List.length_take_le _ _, ?_, hsplit.1, ?_⟩
  · rintro a b (hlt | ⟨_, hlt⟩) rfl <;> exact Nat.lt_irrefl _ hlt
  · exact fun name hname => mem_ranked.mp (List.mem_of_mem_take hname)
  · intro other hother hne hsimilar hout
    have hmem := mem_ranked.mpr ⟨hother, hne, hsimilar⟩
    rw [← List.take_append_drop maxSuggestions (ranked target candidates)] at hmem
    have hdrop := (List.mem_append.mp hmem).resolve_left hout
    refine ⟨?_, fun name hname => hsplit.2.2 name hname other hdrop⟩
    have hlength := List.length_pos_of_mem hdrop
    rw [List.length_drop] at hlength
    rw [List.length_take]
    change min 3 _ = 3
    have : maxSuggestions = 3 := rfl
    omega

end

end Similar

/-- A declaration that is inserted has its name behind those that are there. -/
theorem Scope.prefix_of_put {scope scope' : Scope} {d : Decl} {outcome : Insertion}
    (h : scope.put d = (.ok outcome, scope')) :
    scope.defs.map (·.1) <+: scope'.defs.map (·.1) := by
  rcases Scope.put_cases h with ⟨rfl, _⟩ | ⟨_, rfl⟩ | ⟨_, rfl⟩
  · exact List.prefix_refl _
  · rw [Scope.bind, List.map_append]
    exact List.prefix_append _ _
  · have hnames : (scope.rebind d).defs.map (·.1) = scope.defs.map (·.1) := by
      rw [Scope.rebind, List.map_map]
      refine List.map_congr_left fun entry _ => ?_
      simp only [Function.comp_apply]
      split <;> rfl
    exact hnames ▸ List.prefix_refl _

namespace ScopeTree

variable {t t' t'' : ScopeTree} {i s : Nat} {a b name : String}

/-! Where a name is seen. -/

/-- The place at which a name is seen from a scope: how many scopes farther out the innermost scope
is that binds it, and where it stands among the names of that scope. -/
inductive SeenAt (t : ScopeTree) (name : String) : ScopeId → Nat → Nat → Prop
  | own {i : ScopeId} : name ∈ t.boundNames i → SeenAt t name i 0 ((t.boundNames i).idxOf name)
  | outer {i outer : ScopeId} {depth place : Nat} : name ∉ t.boundNames i →
    t.parent? i = some outer → SeenAt t name outer depth place → SeenAt t name i (depth + 1) place

/-- One name is seen farther inside than another, or in the same scope and bound before it. -/
def SeenBefore (t : ScopeTree) (i : ScopeId) (a b : String) : Prop :=
  ∃ depth place depth' place', t.SeenAt a i depth place ∧ t.SeenAt b i depth' place' ∧
    (depth < depth' ∨ depth = depth' ∧ place < place')

theorem Descending.visibleNames_eq (h : t.Descending) (hi : i < t.size) :
    t.visibleNames i = t.boundNames i ++ (t.parent? i).elim [] t.visibleNames := by
  rw [visibleNames, h.ancestors_eq hi, List.flatMap_cons]
  cases t.parent? i <;> rfl

/-- What is visible is seen at some place. -/
theorem Descending.exists_seenAt (h : t.Descending) (hi : i < t.size)
    (hname : name ∈ t.visibleNames i) : ∃ depth place, t.SeenAt name i depth place := by
  induction i using Nat.strongRecOn with
  | ind i ih =>
    by_cases hown : name ∈ t.boundNames i
    · exact ⟨0, _, .own hown⟩
    · rw [h.visibleNames_eq hi] at hname
      have hrest := (List.mem_append.mp hname).resolve_left hown
      cases houter : t.parent? i with
      | none => simp [houter] at hrest
      | some outer =>
        rw [houter] at hrest
        obtain ⟨depth, place, hseen⟩ :=
          ih outer (h i outer houter) (h.outer_lt_size hi houter) hrest
        exact ⟨depth + 1, place, .outer hown houter hseen⟩

/-- The list of the visible names is in the order of their places. -/
theorem Descending.seenBefore_of_idxOf_lt (h : t.Descending) (hi : i < t.size)
    (ha : a ∈ t.visibleNames i) (hb : b ∈ t.visibleNames i)
    (hlt : (t.visibleNames i).idxOf a < (t.visibleNames i).idxOf b) : t.SeenBefore i a b := by
  induction i using Nat.strongRecOn with
  | ind i ih =>
    have hplace := h.exists_seenAt hi hb
    rw [h.visibleNames_eq hi] at ha hb hlt
    rw [List.idxOf_append, List.idxOf_append] at hlt
    by_cases hown : a ∈ t.boundNames i
    · by_cases hown' : b ∈ t.boundNames i
      · rw [if_pos hown, if_pos hown'] at hlt
        exact ⟨0, _, 0, _, .own hown, .own hown', .inr ⟨rfl, hlt⟩⟩
      · obtain ⟨depth, place, hseen⟩ := hplace
        cases hseen with
        | own hmem => exact absurd hmem hown'
        | outer hfree houter hseen =>
          exact ⟨0, _, _, place, .own hown, .outer hfree houter hseen, .inl (Nat.succ_pos _)⟩
    · rw [if_neg hown] at hlt
      by_cases hown' : b ∈ t.boundNames i
      · have hle := List.idxOf_lt_length_of_mem hown'
        rw [if_pos hown'] at hlt
        omega
      · rw [if_neg hown'] at hlt
        have ha := (List.mem_append.mp ha).resolve_left hown
        have hb := (List.mem_append.mp hb).resolve_left hown'
        cases houter : t.parent? i with
        | none => simp [houter] at ha
        | some outer =>
          simp only [houter, Option.elim_some] at ha hb hlt
          obtain ⟨depth, place, depth', place', hseen, hseen', hbefore⟩ :=
            ih outer (h i outer houter) (h.outer_lt_size hi houter) ha hb (by omega)
          refine ⟨depth + 1, place, depth' + 1, place', .outer hown houter hseen,
            .outer hown' houter hseen', ?_⟩
          omega

/-! Names come behind those that were bound before. -/

/-- The names of each scope keep their places, and others may follow them. -/
def Grows (t t' : ScopeTree) : Prop := ∀ i, t.boundNames i <+: t'.boundNames i

theorem Grows.refl (t : ScopeTree) : t.Grows t := fun _ => List.prefix_refl _

theorem Grows.trans (h : t.Grows t') (h' : t'.Grows t'') : t.Grows t'' :=
  fun i => List.IsPrefix.trans (h i) (h' i)

theorem grows_create (t : ScopeTree) (parent : Option ScopeId) (kind : ScopeKind) :
    t.Grows (t.create parent kind).2 := by
  intro i
  rw [boundNames, boundNames, get?_create]
  by_cases hi : i = t.size
  · have hnone : t.get? i = none := Array.getElem?_eq_none (Nat.le_of_eq hi.symm)
    rw [hnone]
    exact List.nil_prefix
  · simp only [if_neg hi, List.prefix_refl]

theorem grows_insert {d : Decl} {outcome : Insertion} (h : t.insert s d = .ok (outcome, t')) :
    t.Grows t' := by
  rcases insert_cases h with ⟨_, rfl⟩ | ⟨scope, scope', hget, hinsert, rfl⟩
  · exact .refl t'
  · intro i
    rw [boundNames, boundNames]
    by_cases hi : i = s
    · subst hi
      rw [get?_update_self hget, hget]
      exact Scope.prefix_of_put hinsert
    · simp only [get?_update_of_ne hi, List.prefix_refl]

theorem Built.of_insert {d : Decl} {outcome : Insertion} (ht : t.Built)
    (h : t.insert s d = .ok (outcome, t')) : t'.Built := by
  have hput := ht.put (s := s) (d := d)
  rwa [insert_eq_ok_iff.mp h] at hput

/-- What each insertion keeps, a sequence of insertions keeps. -/
theorem insertAll_preserves {P : ScopeTree → Prop} {ds : List Decl}
    (hinsert : ∀ (t t' : ScopeTree) (d : Decl) (outcome : Insertion), P t →
      t.insert s d = .ok (outcome, t') → P t')
    (ht : P t) (h : t.insertAll s ds = .ok t') : P t' := by
  refine foldlM_seen (fun _ => P) ?_ ht h
  intro _ d t t' _ ht hstep
  obtain ⟨⟨outcome, _⟩, hone, ht'⟩ := Except.bind_eq_ok.mp hstep
  cases ht'
  exact hinsert t _ d outcome ht hone

theorem grows_insertAll {ds : List Decl} (h : t.insertAll s ds = .ok t') : t.Grows t' :=
  insertAll_preserves (fun _ _ _ _ hgrows hone => hgrows.trans (grows_insert hone)) (.refl t) h

theorem Built.of_insertAll {ds : List Decl} (ht : t.Built) (h : t.insertAll s ds = .ok t') :
    t'.Built :=
  insertAll_preserves (fun _ _ _ _ hbuilt hone => hbuilt.of_insert hone) ht h

theorem initial_built : initial.Built := by
  have hroot : (create {} none .universal).2.Built :=
    Built.empty.create fun _ houter => by cases houter
  have hbuiltins : ScopeTree.Built { scopes := #[Scope.universal] } :=
    hroot.of_insertAll insertAll_builtins
  have hfile : (create { scopes := #[Scope.universal] } (some 0) .file).2.Built := by
    refine hbuiltins.create fun outer houter => ?_
    cases houter
    exact Nat.zero_lt_one
  exact hfile

end ScopeTree

/-! The state of a resolution. -/

namespace Resolver

/-- The state after some steps from a tree: the current scope exists, each scope is inside of an
older one, and the names of the tree have kept their places. -/
structure Extends (t : ScopeTree) (r : Resolver) : Prop where
  built : r.resolution.scopes.Built
  current_lt : r.current < r.resolution.scopes.size
  grows : t.Grows r.resolution.scopes

namespace Extends

variable {t : ScopeTree} {r r' : Resolver}

theorem enterScope (h : r.Extends t) (kind : ScopeKind) : (r.enterScope kind).Extends t where
  built := h.built.create fun _ houter => Option.some.inj houter ▸ h.current_lt
  current_lt := by
    change r.resolution.scopes.size < (r.resolution.scopes.create (some r.current) kind).2.size
    rw [ScopeTree.size_create]
    exact Nat.lt_succ_self _
  grows := h.grows.trans (ScopeTree.grows_create _ _ _)

theorem leaveScope (h : r.Extends t) : r.leaveScope.Extends t := by
  unfold Resolver.leaveScope
  split
  next outer houter => exact ⟨h.built, h.built.descending.outer_lt_size h.current_lt houter, h.grows⟩
  next => exact h

theorem declare {d : Decl} (h : r.Extends t) (hdeclare : r.declare d = .ok r') : r'.Extends t := by
  unfold Resolver.declare at hdeclare
  split at hdeclare
  · cases hdeclare
    exact h
  · obtain ⟨⟨outcome, scopes⟩, hinsert, hr'⟩ := Except.bind_eq_ok.mp hdeclare
    cases hr'
    refine ⟨h.built.of_insert hinsert, ?_, h.grows.trans (ScopeTree.grows_insert hinsert)⟩
    exact ScopeTree.size_insert hinsert ▸ h.current_lt

theorem enterFunction (h : r.Extends t) (id : DeclId) (hasBody : Bool) :
    (r.enterFunction id hasBody).Extends t := by
  have hflagged : ({ r with sharesScope := hasBody } : Resolver).Extends t :=
    ⟨h.built, h.current_lt, h.grows⟩
  have hopened := hflagged.enterScope .function
  exact ⟨hopened.built, hopened.current_lt, hopened.grows⟩

theorem enterBlock (h : r.Extends t) (id : StmtId) : (r.enterBlock id).Extends t := by
  unfold Resolver.enterBlock
  split
  · exact ⟨h.built, h.current_lt, h.grows⟩
  · have hopened := h.enterScope .block
    exact ⟨hopened.built, hopened.current_lt, hopened.grows⟩

theorem use {ident : Ident} (h : r.Extends t) (huse : r.use ident = .ok r') : r'.Extends t := by
  unfold Resolver.use at huse
  split at huse
  · cases huse
    exact ⟨h.built, h.current_lt, h.grows⟩
  · cases huse

/-- One event. -/
theorem step {event : Event} (h : r.Extends t) (hstep : r.step event = .ok r') : r'.Extends t := by
  unfold Resolver.step at hstep
  split at hstep
  next d =>
    obtain ⟨r₁, hdeclare, hr'⟩ := Except.bind_eq_ok.mp hstep
    have h₁ := h.declare hdeclare
    split at hr'
    · cases hr'
      exact h₁.enterFunction _ _
    · cases hr'
      exact h₁
  next =>
    cases hstep
    exact h.enterBlock _
  next => exact h.use hstep
  next =>
    cases hstep
    exact h.leaveScope
  next =>
    cases hstep
    exact h.leaveScope
  next =>
    cases hstep
    exact h

/-- Any number of events. -/
theorem run {events : List Event} (h : r.Extends t) (hrun : events.foldlM Resolver.step r = .ok r') :
    r'.Extends t :=
  foldlM_seen (fun _ r => r.Extends t) (fun _ _ _ _ _ h hstep => h.step hstep) h hrun

end Extends

end Resolver

/-! Where a resolution stops at an undeclared name. -/

section

variable {name : String} {span : Span} {found : List String}

theorem Scope.put_ne_undeclared (scope : Scope) (d : Decl) :
    (scope.put d).1 ≠ .error (.undeclared name span found) := by
  unfold Scope.put
  split
  · nofun
  · split
    · nofun
    · split
      · split <;> nofun
      · nofun

theorem ScopeTree.insert_ne_undeclared (t : ScopeTree) (s : ScopeId) (d : Decl) :
    t.insert s d ≠ .error (.undeclared name span found) := by
  intro h
  cases hget : t.get? s with
  | none =>
    simp only [ScopeTree.insert, ScopeTree.put, hget] at h
    cases h
  | some scope =>
    rw [ScopeTree.insert_eq hget] at h
    cases hresult : (scope.put d).1 with
    | ok outcome =>
      rw [hresult] at h
      cases h
    | error e =>
      rw [hresult] at h
      cases h
      exact scope.put_ne_undeclared d hresult

theorem Program.openFile_ne_undeclared (p : Program) :
    p.openFile ≠ .error (.undeclared name span found) := by
  intro h
  rw [openFile_eq] at h
  rcases Except.bind_eq_error.mp h with hall | ⟨_, _, hstart⟩
  · obtain ⟨_, d, _, t, _, _, hd⟩ := exists_of_foldlM_error hall
    rcases Except.bind_eq_error.mp hd with hinsert | ⟨_, _, hout⟩
    · exact t.insert_ne_undeclared 1 d hinsert
    · cases hout
  · cases hstart

theorem Resolver.declare_ne_undeclared (r : Resolver) (d : Decl) :
    r.declare d ≠ .error (.undeclared name span found) := by
  unfold Resolver.declare
  split
  · nofun
  · intro h
    rcases Except.bind_eq_error.mp h with hinsert | ⟨_, _, hout⟩
    · exact ScopeTree.insert_ne_undeclared _ _ d hinsert
    · cases hout

/-- Only a use of a name that cannot be looked up finds it undeclared. -/
theorem Resolver.step_eq_undeclared {r : Resolver} {event : Event}
    (h : r.step event = .error (.undeclared name span found)) :
    ∃ ident, event = .enter (.ident ident) ∧ ident.name = name ∧ ident.span = span ∧
      r.resolution.scopes.lookup r.current name = none ∧
      found = Similar.suggestions name (r.resolution.scopes.visibleNames r.current) := by
  unfold Resolver.step at h
  split at h
  next d =>
    rcases Except.bind_eq_error.mp h with hdeclare | ⟨_, _, hrest⟩
    · exact absurd hdeclare (r.declare_ne_undeclared d)
    · split at hrest <;> cases hrest
  next => cases h
  next ident =>
    unfold Resolver.use at h
    split at h
    · cases h
    next hnone =>
      cases h
      exact ⟨ident, rfl, rfl, rfl, hnone, rfl⟩
  next => cases h
  next => cases h
  next => cases h

end

namespace Program

/-- The trees of scopes that a resolution has had when it has gone through some events: while it
bound the declarations of the file, and during the events. -/
inductive Passes (p : Program) (before : List Event) : ScopeTree → Prop
  | binding {bound rest : List Decl} {t : ScopeTree} : p.file = bound ++ rest →
    ScopeTree.initial.insertAll 1 bound = .ok t → Passes p before t
  | walking {start r : Resolver} {seen rest : List Event} : p.openFile = .ok start →
    before = seen ++ rest → seen.foldlM Resolver.step start = .ok r →
    Passes p before r.resolution.scopes

/-- The resolution of a program comes, after some events, to a name that cannot be looked up. By
then each scope has its names in the order in which they have come in. -/
structure StopsAt (p : Program) (before : List Event) (ident : Ident) (r : Resolver) : Prop where
  run : ∃ start, p.openFile = .ok start ∧ before.foldlM Resolver.step start = .ok r
  next : ∃ after, p.events = before ++ .enter (.ident ident) :: after
  undeclared : r.resolution.scopes.lookup r.current ident.name = none
  grows : ∀ t, p.Passes before t → t.Grows r.resolution.scopes

variable {p : Program} {before : List Event} {start r : Resolver}

theorem openFile_extends {bound rest : List Decl} {t : ScopeTree} (hfile : p.file = bound ++ rest)
    (hbound : ScopeTree.initial.insertAll 1 bound = .ok t) (hstart : p.openFile = .ok start) :
    start.Extends t := by
  rw [openFile_eq] at hstart
  obtain ⟨scopes, hall, hscopes⟩ := Except.bind_eq_ok.mp hstart
  cases hscopes
  have hbuilt := ScopeTree.initial_built.of_insertAll hall
  have hsize := (ScopeTree.insertAll_shape hall).1
  rw [ScopeTree.insertAll, hfile, List.foldlM_append] at hall
  obtain ⟨t', ht', hrest⟩ := Except.bind_eq_ok.mp hall
  obtain rfl := Except.ok.inj (hbound.symm.trans ht')
  refine ⟨hbuilt, ?_, ScopeTree.grows_insertAll hrest⟩
  rw [hsize]
  exact Nat.lt_succ_self 1

theorem Passes.grows {t : ScopeTree} (ht : p.Passes before t) (hstart : p.openFile = .ok start)
    (hrun : before.foldlM Resolver.step start = .ok r) : t.Grows r.resolution.scopes := by
  cases ht with
  | binding hfile hbound => exact ((openFile_extends hfile hbound hstart).run hrun).grows
  | @walking start' r' seen rest hstart' hbefore hseen =>
    obtain rfl := Except.ok.inj (hstart.symm.trans hstart')
    rw [hbefore, List.foldlM_append] at hrun
    obtain ⟨r'', hr'', hrest⟩ := Except.bind_eq_ok.mp hrun
    obtain rfl := Except.ok.inj (hseen.symm.trans hr'')
    have hmiddle := (openFile_extends (List.nil_append _).symm rfl hstart).run hseen
    exact (Resolver.Extends.run ⟨hmiddle.built, hmiddle.current_lt, .refl _⟩ hrest).grows

/-- The name at which a resolution stops is reported with what is suggested for it. -/
theorem StopsAt.resolve_eq {ident : Ident} (h : p.StopsAt before ident r) :
    p.resolve = .error (.undeclared ident.name ident.span
      (Similar.suggestions ident.name (r.resolution.scopes.visibleNames r.current))) := by
  obtain ⟨start, hstart, hrun⟩ := h.run
  obtain ⟨after, hevents⟩ := h.next
  have hstep : r.step (.enter (.ident ident)) = .error (.undeclared ident.name ident.span
      (Similar.suggestions ident.name (r.resolution.scopes.visibleNames r.current))) := by
    simp only [Resolver.step, Resolver.use, h.undeclared]
  refine Except.bind_eq_error.mpr (.inr ⟨start, hstart, Except.bind_eq_error.mpr (.inl ?_)⟩)
  rw [hevents, List.foldlM_append]
  refine Except.bind_eq_error.mpr (.inr ⟨r, hrun, ?_⟩)
  rw [List.foldlM_cons]
  exact Except.bind_eq_error.mpr (.inl hstep)

/-- A resolution that fails for an undeclared name stops at a use of it, and suggests the best of
the names that are visible there: the nearest ones, and of equally near ones those that are seen
first on the way outwards. -/
theorem suggestions_of_undeclared (p : Program) {name : String} {span : Span} {found : List String}
    (h : p.resolve = .error (.undeclared name span found)) :
    ∃ before ident r, p.StopsAt before ident r ∧ ident.name = name ∧ ident.span = span ∧
      Similar.Best (fun other => (r.resolution.scopes.lookup r.current other).isSome)
        (r.resolution.scopes.SeenBefore r.current) name found := by
  rcases Except.bind_eq_error.mp h with hopen | ⟨start, hstart, hwalk⟩
  · exact absurd hopen p.openFile_ne_undeclared
  rcases Except.bind_eq_error.mp hwalk with hwalk | ⟨_, _, hfinal⟩
  · obtain ⟨before, event, after, r, hevents, hrun, hstep⟩ := exists_of_foldlM_error hwalk
    obtain ⟨ident, rfl, hname, hspan, hnone, rfl⟩ := Resolver.step_eq_undeclared hstep
    have hr := (openFile_extends (List.nil_append _).symm rfl hstart).run hrun
    have hdescending := hr.built.descending
    refine ⟨before, ident, r, ⟨⟨start, hstart, hrun⟩, ⟨after, hevents⟩, hname ▸ hnone,
      fun t ht => ht.grows hstart hrun⟩, hname, hspan, ?_⟩
    refine (Similar.suggestions_best name _).congr (fun _ => ScopeTree.mem_visibleNames_iff) ?_
    exact fun a b ha hb => hdescending.seenBefore_of_idxOf_lt hr.current_lt ha hb
  · cases hfinal

/-- Names around a misspelled one: `int count; int cost; int coat(int counts) { int cot; { int coun;
return cout; } }`. -/
def misspelled : Program := Build.finish do
  let intType ← Build.namedType "int"
  Build.push (← Build.var intType "count" none)
  let intType ← Build.namedType "int"
  Build.push (← Build.var intType "cost" none)
  let intType ← Build.namedType "int"
  let counts ← Build.param intType "counts"
  let intType ← Build.namedType "int"
  let cot ← Build.var intType "cot" none
  let intType ← Build.namedType "int"
  let coun ← Build.var intType "coun" none
  let use ← Build.name "cout"
  let result ← Build.ret (some use)
  let inner ← Build.block [.decl coun, .stmt result]
  let body ← Build.block [.decl cot, .stmt inner]
  let intType ← Build.namedType "int"
  Build.push (← Build.func "coat" intType [counts] (some body))

/-- The resolution comes to `cout` after 41 events. -/
theorem misspelled_stopsAt : ∃ r,
    misspelled.StopsAt (misspelled.events.take 41) ⟨5, "cout", ⟨47, 51⟩⟩ r ∧
      r.resolution.scopes.visibleNames r.current =
        ["coun", "counts", "cot", "count", "cost", "coat", "char", "int", "void"] := by
  obtain ⟨start, hstart, hwalk⟩ : ∃ start, misspelled.openFile = .ok start ∧
      ((misspelled.events.take 41).foldlM Resolver.step start).toOption.any fun r =>
        (r.resolution.scopes.lookup r.current "cout").isNone &&
          r.resolution.scopes.visibleNames r.current ==
            ["coun", "counts", "cot", "count", "cost", "coat", "char", "int", "void"] :=
    Except.exists_of_any (by decide +kernel)
  obtain ⟨r, hr, htest⟩ := Except.exists_of_any hwalk
  obtain ⟨hnone, hvisible⟩ := Bool.and_eq_true_iff.mp htest
  refine ⟨r, ⟨⟨start, hstart, hr⟩, ⟨misspelled.events.drop 42, ?_⟩,
    Option.isNone_iff_eq_none.mp hnone, fun t ht => ht.grows hstart hr⟩, eq_of_beq hvisible⟩
  have hany : misspelled.events[41]?.any
      fun event => Event.identUses [event] = [⟨5, "cout", ⟨47, 51⟩⟩] := by
    decide +kernel
  obtain ⟨event, hevent, huses⟩ := Option.any_eq_true _ _ |>.mp hany
  obtain ⟨hlt, hget⟩ := List.getElem?_eq_some_iff.mp hevent
  have huse : .enter (.ident ⟨5, "cout", ⟨47, 51⟩⟩) ∈ [event] := by
    rw [← Event.mem_identUses, of_decide_eq_true huses]
    exact List.mem_singleton_self _
  rw [List.mem_singleton.mp huse, ← hget, ← List.drop_eq_getElem_cons, List.take_append_drop]

/-- Of five names at distance one the three that are seen first are suggested. -/
theorem suggestions_of_undeclared_misspelled :
    ∃ span, misspelled.resolve = .error (.undeclared "cout" span ["coun", "cot", "count"]) ∧
      ∃ before ident r, misspelled.StopsAt before ident r ∧ ident.name = "cout" ∧ ident.span = span ∧
        Similar.Best (fun other => (r.resolution.scopes.lookup r.current other).isSome)
          (r.resolution.scopes.SeenBefore r.current) "cout" ["coun", "cot", "count"] := by
  obtain ⟨r, hstops, hvisible⟩ := misspelled_stopsAt
  have hscored : Similar.scored "cout"
      ["coun", "counts", "cot", "count", "cost", "coat", "char", "int", "void"] =
        [(1, "coun"), (2, "counts"), (1, "cot"), (1, "count"), (1, "cost"), (1, "coat")] := by
    decide +kernel
  have hfails : misspelled.resolve =
      .error (.undeclared "cout" ⟨47, 51⟩ ["coun", "cot", "count"]) := by
    rw [hstops.resolve_eq, hvisible, Similar.suggestions, hscored]
    simp [Similar.maxSuggestions, List.mergeSort]
  exact ⟨_, hfails, suggestions_of_undeclared misspelled hfails⟩

end Program

end MicroC
