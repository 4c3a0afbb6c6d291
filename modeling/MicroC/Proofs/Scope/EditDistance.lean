import MicroC.Scope.Similar

/-!
The distance of two names is the least number of edits from one to the other. An edit inserts,
deletes or replaces one character at any place. The least number of edits obeys the usual
recursion on the first characters, and as words can be reversed, on the last ones too. The latter
is what a row is overwritten by: up to the current entry it holds the distances of the longer word,
behind it those of the shorter one, and the one that was overwritten last is kept beside it.
-/

namespace MicroC.Similar

/-- One character is inserted, deleted or replaced. -/
inductive Edit : List Char → List Char → Prop
  | insert (before after : List Char) (c : Char) : Edit (before ++ after) (before ++ c :: after)
  | delete (before after : List Char) (c : Char) : Edit (before ++ c :: after) (before ++ after)
  | replace (before after : List Char) (c d : Char) :
    Edit (before ++ c :: after) (before ++ d :: after)

/-- A number of edits one after another. -/
inductive Edits : Nat → List Char → List Char → Prop
  | refl (s : List Char) : Edits 0 s s
  | head {n : Nat} {s t u : List Char} : Edit s t → Edits n t u → Edits (n + 1) s u

/-- The distance of two words by recursion on their first characters. -/
def levenshtein : List Char → List Char → Nat
  | [], ys => ys.length
  | x :: xs, [] => (x :: xs).length
  | x :: xs, y :: ys =>
    min (min (levenshtein xs ys + if x = y then 0 else 1) (levenshtein (x :: xs) ys + 1))
      (levenshtein xs (y :: ys) + 1)
termination_by xs ys => xs.length + ys.length

variable {n j : Nat} {c t : Char} {s u xs ys source target : List Char}

/-! Edits of longer and of reversed words. -/

theorem Edit.cons (h : Edit xs ys) (c : Char) : Edit (c :: xs) (c :: ys) := by
  cases h with
  | insert before after d => exact .insert (c :: before) after d
  | delete before after d => exact .delete (c :: before) after d
  | replace before after d d' => exact .replace (c :: before) after d d'

theorem Edits.cons (h : Edits n xs ys) (c : Char) : Edits n (c :: xs) (c :: ys) := by
  induction h with
  | refl s => exact .refl (c :: s)
  | head hedit _ ih => exact .head (hedit.cons c) ih

theorem Edit.reverse (h : Edit xs ys) : Edit xs.reverse ys.reverse := by
  cases h with
  | insert before after c => simpa using Edit.insert after.reverse before.reverse c
  | delete before after c => simpa using Edit.delete after.reverse before.reverse c
  | replace before after c d => simpa using Edit.replace after.reverse before.reverse c d

theorem Edits.reverse (h : Edits n xs ys) : Edits n xs.reverse ys.reverse := by
  induction h with
  | refl s => exact .refl s.reverse
  | head hedit _ ih => exact .head hedit.reverse ih

theorem edits_of_nil (ys : List Char) : Edits ys.length [] ys := by
  induction ys with
  | nil => exact .refl []
  | cons y ys ih => exact .head (.insert [] [] y) (ih.cons y)

theorem edits_to_nil (xs : List Char) : Edits xs.length xs [] := by
  induction xs with
  | nil => exact .refl []
  | cons x xs ih => exact .head (.delete [] xs x) ih

/-- The recursion counts edits that lead from one word to the other. -/
theorem edits_levenshtein (xs ys : List Char) : Edits (levenshtein xs ys) xs ys := by
  induction xs, ys using levenshtein.induct with
  | case1 ys =>
    rw [levenshtein]
    exact edits_of_nil ys
  | case2 x xs =>
    rw [levenshtein]
    exact edits_to_nil (x :: xs)
  | case3 x xs y ys hsubstitute hinsert hdelete =>
    rw [levenshtein]
    rcases Nat.le_total (levenshtein xs (y :: ys) + 1)
      (min (levenshtein xs ys + if x = y then 0 else 1) (levenshtein (x :: xs) ys + 1)) with hle | hle
    · rw [Nat.min_eq_right hle]
      exact .head (.delete [] xs x) hdelete
    · rw [Nat.min_eq_left hle]
      rcases Nat.le_total (levenshtein (x :: xs) ys + 1)
        (levenshtein xs ys + if x = y then 0 else 1) with hle' | hle'
      · rw [Nat.min_eq_right hle']
        exact .head (.insert [] (x :: xs) y) (hinsert.cons y)
      · rw [Nat.min_eq_left hle']
        by_cases heq : x = y
        · subst heq
          simpa using hsubstitute.cons x
        · rw [if_neg heq]
          exact .head (.replace [] xs x y) (hsubstitute.cons y)

/-! One edit changes a distance by one at most. -/

theorem levenshtein_nil_right (xs : List Char) : levenshtein xs [] = xs.length := by
  cases xs <;> rw [levenshtein]

theorem levenshtein_cons_cons (x y : Char) (xs ys : List Char) :
    levenshtein (x :: xs) (y :: ys) =
      min (min (levenshtein xs ys + if x = y then 0 else 1) (levenshtein (x :: xs) ys + 1))
        (levenshtein xs (y :: ys) + 1) := by
  rw [levenshtein]

theorem levenshtein_cons_le (x : Char) (xs ys : List Char) :
    levenshtein (x :: xs) ys ≤ levenshtein xs ys + 1 := by
  cases ys with
  | nil => simp [levenshtein_nil_right]
  | cons y ys =>
    rw [levenshtein_cons_cons]
    omega

theorem levenshtein_le_cons_right (y : Char) (xs ys : List Char) :
    levenshtein xs (y :: ys) ≤ levenshtein xs ys + 1 := by
  cases xs with
  | nil => simp [levenshtein]
  | cons x xs =>
    rw [levenshtein_cons_cons]
    omega

theorem levenshtein_le_cons (x : Char) (xs ys : List Char) :
    levenshtein xs ys ≤ levenshtein (x :: xs) ys + 1 := by
  induction ys with
  | nil =>
    rw [levenshtein_nil_right, levenshtein_nil_right, List.length_cons]
    omega
  | cons y ys ih =>
    have hright := levenshtein_le_cons_right y xs ys
    rw [levenshtein_cons_cons]
    omega

theorem levenshtein_replace_le (c d : Char) (xs ys : List Char) :
    levenshtein (c :: xs) ys ≤ levenshtein (d :: xs) ys + 1 := by
  induction ys with
  | nil => simp [levenshtein_nil_right]
  | cons y ys ih =>
    rw [levenshtein_cons_cons, levenshtein_cons_cons]
    split <;> split <;> omega

theorem levenshtein_cons_le_cons (h : ∀ ys, levenshtein s ys ≤ levenshtein u ys + 1) (c : Char)
    (ys : List Char) : levenshtein (c :: s) ys ≤ levenshtein (c :: u) ys + 1 := by
  induction ys with
  | nil =>
    have hlength := h []
    simpa [levenshtein_nil_right] using hlength
  | cons y ys ih =>
    have hsubstitute := h ys
    have hdelete := h (y :: ys)
    rw [levenshtein_cons_cons, levenshtein_cons_cons]
    omega

theorem Edit.levenshtein_le (h : Edit s u) (ys : List Char) :
    levenshtein s ys ≤ levenshtein u ys + 1 := by
  have along : ∀ (before : List Char) {rest rest' : List Char},
      (∀ ys, levenshtein rest ys ≤ levenshtein rest' ys + 1) →
      ∀ ys, levenshtein (before ++ rest) ys ≤ levenshtein (before ++ rest') ys + 1 := by
    intro before rest rest' hrest
    induction before with
    | nil => exact hrest
    | cons c before ih => exact levenshtein_cons_le_cons ih c
  cases h with
  | insert before after c => exact along before (levenshtein_le_cons c after) ys
  | delete before after c => exact along before (levenshtein_cons_le c after) ys
  | replace before after c d => exact along before (levenshtein_replace_le c d after) ys

theorem levenshtein_self (s : List Char) : levenshtein s s = 0 := by
  induction s with
  | nil => rw [levenshtein, List.length_nil]
  | cons c s ih =>
    rw [levenshtein_cons_cons, if_pos rfl, ih]
    omega

/-- There is no way with fewer edits. -/
theorem Edits.levenshtein_le (h : Edits n s u) : levenshtein s u ≤ n := by
  induction h with
  | refl s => exact Nat.le_of_eq (levenshtein_self s)
  | head hedit _ ih => exact Nat.le_trans (hedit.levenshtein_le _) (Nat.succ_le_succ ih)

/-! The recursion on the last characters. -/

theorem levenshtein_reverse (xs ys : List Char) :
    levenshtein xs.reverse ys.reverse = levenshtein xs ys := by
  have hle : ∀ xs ys : List Char, levenshtein xs.reverse ys.reverse ≤ levenshtein xs ys :=
    fun xs ys => (edits_levenshtein xs ys).reverse.levenshtein_le
  refine Nat.le_antisymm (hle xs ys) ?_
  simpa using hle xs.reverse ys.reverse

theorem levenshtein_concat (xs ys : List Char) (x y : Char) :
    levenshtein (xs ++ [x]) (ys ++ [y]) =
      min (min (levenshtein xs ys + if x = y then 0 else 1) (levenshtein (xs ++ [x]) ys + 1))
        (levenshtein xs (ys ++ [y]) + 1) := by
  have hreverse : ∀ (xs : List Char) (x : Char), (xs ++ [x]).reverse = x :: xs.reverse := by simp
  rw [← levenshtein_reverse (xs ++ [x]) (ys ++ [y]), ← levenshtein_reverse (xs ++ [x]) ys,
    ← levenshtein_reverse xs (ys ++ [y]), ← levenshtein_reverse xs ys, hreverse, hreverse,
    levenshtein_cons_cons]

/-! Rows. -/

/-- The distances of a word to the initial parts of another. -/
def IsRow (source target : List Char) (row : Array Nat) : Prop :=
  ∀ k, k ≤ target.length → row[k]? = some (levenshtein source (target.take k))

/-- The row of a word, overwritten up to the entry at `j` by that of the word with one more
character. -/
structure Sweep.Holds (source : List Char) (c : Char) (target : List Char) (j : Nat)
    (sweep : Sweep) : Prop where
  done : ∀ k, k ≤ j → sweep.row[k]? = some (levenshtein (source ++ [c]) (target.take k))
  pending : ∀ k, j < k → k ≤ target.length →
    sweep.row[k]? = some (levenshtein source (target.take k))
  diagonal_eq : sweep.diagonal = levenshtein source (target.take j)

/-- What is read is in the row, and the next entry gets its new value. -/
theorem Sweep.Holds.next {sweep : Sweep} (h : sweep.Holds source c target j)
    (ht : target[j]? = some t) :
    ∃ sweep', sweep.next c (t, j) = some sweep' ∧ sweep'.Holds source c target (j + 1) := by
  have hj : j < target.length := (List.getElem?_eq_some_iff.mp ht).1
  have hleft := h.done j (Nat.le_refl j)
  have habove := h.pending (j + 1) (Nat.lt_succ_self j) hj
  have htake : target.take (j + 1) = target.take j ++ [t] := by
    rw [List.take_add_one, ht, Option.toList_some]
  have hentry : min (min (if c = t then sweep.diagonal else sweep.diagonal + 1)
      (levenshtein (source ++ [c]) (target.take j) + 1))
      (levenshtein source (target.take (j + 1)) + 1) =
      levenshtein (source ++ [c]) (target.take (j + 1)) := by
    rw [htake, levenshtein_concat, h.diagonal_eq]
    split <;> rfl
  let sweep' : Sweep :=
    { row := sweep.row.setIfInBounds (j + 1) (levenshtein (source ++ [c]) (target.take (j + 1)))
      diagonal := levenshtein source (target.take (j + 1)) }
  have hnext : sweep.next c (t, j) = some sweep' := by
    simp only [Sweep.next, hleft, habove]
    exact congrArg (fun entry => some (Sweep.mk (sweep.row.setIfInBounds (j + 1) entry)
      (levenshtein source (target.take (j + 1))))) hentry
  have hin : j + 1 < sweep.row.size := (Array.getElem?_eq_some_iff.mp habove).1
  refine ⟨sweep', hnext, ?_, ?_, rfl⟩
  · intro k hk
    by_cases hlast : k = j + 1
    · subst hlast
      exact Array.getElem?_setIfInBounds_self_of_lt hin
    · rw [Array.getElem?_setIfInBounds_ne (Ne.symm hlast)]
      exact h.done k (by omega)
  · intro k hk hlength
    rw [Array.getElem?_setIfInBounds_ne (by omega)]
    exact h.pending k (by omega) hlength

/-- The whole row is overwritten. -/
theorem Sweep.Holds.run {rest : List Char} {sweep : Sweep} (h : sweep.Holds source c target j)
    (hrest : target.drop j = rest) :
    ∃ sweep', (rest.zipIdx j).foldlM (Sweep.next c) sweep = some sweep' ∧
      IsRow (source ++ [c]) target sweep'.row := by
  induction rest generalizing j sweep with
  | nil =>
    have hend : target.length ≤ j := List.drop_eq_nil_iff.mp hrest
    exact ⟨sweep, rfl, fun k hk => h.done k (Nat.le_trans hk hend)⟩
  | cons t rest ih =>
    have ht : target[j]? = some t := by
      rw [← Nat.add_zero j, ← List.getElem?_drop, hrest, List.getElem?_cons_zero]
    have hdrop : target.drop (j + 1) = rest := by
      rw [← List.drop_drop, hrest, List.drop_one, List.tail_cons]
    obtain ⟨sweep₁, hnext, h₁⟩ := h.next ht
    obtain ⟨sweep₂, hrun, hrow⟩ := ih h₁ hdrop
    refine ⟨sweep₂, ?_, hrow⟩
    rw [List.zipIdx_cons, List.foldlM_cons, hnext]
    exact hrun

theorem isRow_firstRow (target : List Char) : IsRow [] target (firstRow target) := by
  intro k hk
  have hlt : k < target.length + 1 := Nat.lt_succ_of_le hk
  rw [levenshtein, List.length_take, Nat.min_eq_left hk]
  simp [firstRow, hlt]

/-- One more character of the first word. -/
theorem IsRow.nextRow {row : Array Nat} (h : IsRow source target row) (c : Char) :
    ∃ row', nextRow target row (c, source.length) = some row' ∧
      IsRow (source ++ [c]) target row' := by
  have hfirst := h 0 (Nat.zero_le _)
  have hin : 0 < row.size := (Array.getElem?_eq_some_iff.mp hfirst).1
  let start : Sweep :=
    { row := row.setIfInBounds 0 (source.length + 1), diagonal := levenshtein source (target.take 0) }
  have hstart : start.Holds source c target 0 := by
    refine ⟨?_, ?_, rfl⟩
    · intro k hk
      obtain rfl : k = 0 := Nat.le_zero.mp hk
      simp [start, hin, levenshtein_nil_right]
    · intro k hk hlength
      rw [Array.getElem?_setIfInBounds_ne (Nat.ne_of_lt hk)]
      exact h k hlength
  obtain ⟨sweep, hrun, hrow⟩ := hstart.run List.drop_zero
  refine ⟨sweep.row, ?_, hrow⟩
  simp only [Similar.nextRow, hfirst]
  exact Option.bind_eq_some_iff.mpr ⟨_, rfl, Option.bind_eq_some_iff.mpr ⟨sweep, hrun, rfl⟩⟩

/-- All characters of the first word. -/
theorem IsRow.run {row : Array Nat} (rest : List Char) (h : IsRow source target row) :
    ∃ row', (rest.zipIdx source.length).foldlM (Similar.nextRow target) row = some row' ∧
      IsRow (source ++ rest) target row' := by
  induction rest generalizing source row with
  | nil => exact ⟨row, rfl, by rwa [List.append_nil]⟩
  | cons c rest ih =>
    obtain ⟨row₁, hnext, h₁⟩ := h.nextRow c
    obtain ⟨row₂, hrun, h₂⟩ := ih h₁
    rw [List.length_append, List.length_singleton] at hrun
    rw [List.append_assoc, List.singleton_append] at h₂
    refine ⟨row₂, ?_, h₂⟩
    rw [List.zipIdx_cons, List.foldlM_cons, hnext]
    exact hrun

theorem distance?_eq_some (s t : String) :
    distance? s t = some (levenshtein s.toList t.toList) := by
  obtain ⟨row, hrun, hrow⟩ := (isRow_firstRow t.toList).run s.toList
  have hlast := hrow t.toList.length (Nat.le_refl _)
  rw [List.take_length] at hlast
  simp only [distance?]
  exact Option.bind_eq_some_iff.mpr ⟨row, hrun, hlast⟩

theorem distance_eq (s t : String) : distance s t = levenshtein s.toList t.toList := by
  rw [distance, distance?_eq_some, Option.getD_some]

/-- The distance has a result, so that nothing outside of the row is read. It is the number that the
recursion gives, and the least number of edits from one name to the other. -/
theorem distance_isLeast (s t : String) :
    distance? s t = some (distance s t) ∧
    distance s t = levenshtein s.toList t.toList ∧
    Edits (distance s t) s.toList t.toList ∧
    ∀ n, Edits n s.toList t.toList → distance s t ≤ n := by
  rw [distance_eq]
  exact ⟨distance?_eq_some s t, rfl, edits_levenshtein _ _, fun _ h => h.levenshtein_le⟩

example : distance "kitten" "sitting" = 3 := by decide

end MicroC.Similar
