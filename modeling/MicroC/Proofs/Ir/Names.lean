import MicroC.Ir.Builder

/-!
Names with numbers. A name that is asked for again gets a number after a dot. From a base that
does not end in a dot and digits itself, the number can be read off again, so that two names agree
only if both the bases and the numbers do.
-/

namespace MicroC.Ir.Builder

/-- A name with the number that makes it unique. -/
def numberedName (base : String) (count : Nat) : String :=
  if count = 0 then base else base ++ "." ++ toString count

theorem toString_inj {n m : Nat} (h : toString n = toString m) : n = m := by
  have hdigits : Nat.toDigits 10 n = Nat.toDigits 10 m := by
    rw [← Nat.toList_repr, ← Nat.toList_repr, ← Nat.toString_eq_repr, ← Nat.toString_eq_repr, h]
  rw [← Nat.ofDigitChars_toDigits (b := 10) (n := n) (by decide) (by decide), hdigits,
    Nat.ofDigitChars_toDigits (by decide) (by decide)]

theorem isDigit_of_mem_toString {n : Nat} {c : Char} (h : c ∈ (toString n).toList) : c.isDigit := by
  rw [Nat.toString_eq_repr, Nat.toList_repr] at h
  exact Nat.isDigit_of_mem_toDigits (by decide) (by decide) h

/-- What stands in front of the digits at the end of a text, from its end. -/
def beforeDigits (text : String) : List Char := text.toList.reverse.dropWhile Char.isDigit

/-- The text does not end in a dot and digits. -/
def Unnumbered (base : String) : Prop := (beforeDigits base).head? ≠ some '.'

theorem beforeDigits_numberedName {base : String} {count : Nat} (h : count ≠ 0) :
    beforeDigits (numberedName base count) = '.' :: base.toList.reverse := by
  have hdigits : ∀ c ∈ (toString count).toList.reverse, c.isDigit :=
    fun c hc => isDigit_of_mem_toString (List.mem_reverse.mp hc)
  rw [numberedName, if_neg h]
  simp only [beforeDigits, String.toList_append, List.reverse_append]
  rw [List.dropWhile_append_of_pos hdigits]
  rfl

/-- A base is not itself a name with a number. -/
theorem Unnumbered.ne_numberedName {base base' : String} {count : Nat} (h : Unnumbered base)
    (hcount : count ≠ 0) : base ≠ numberedName base' count := by
  rintro rfl
  apply h
  rw [beforeDigits_numberedName hcount]
  rfl

@[simp] theorem numberedName_zero (base : String) : numberedName base 0 = base := rfl

/-- The number behind the last dot can be read off a name that has one, whatever its base. -/
theorem numberedName_inj_of_ne_zero {base base' : String} {count count' : Nat} (hcount : count ≠ 0)
    (hcount' : count' ≠ 0) (heq : numberedName base count = numberedName base' count') :
    base = base' ∧ count = count' := by
  have hbefore := congrArg beforeDigits heq
  rw [beforeDigits_numberedName hcount, beforeDigits_numberedName hcount', List.cons.injEq,
    List.reverse_inj] at hbefore
  obtain rfl := String.toList_inj.mp hbefore.2
  simp only [numberedName, if_neg hcount, if_neg hcount'] at heq
  refine ⟨rfl, toString_inj (String.toList_inj.mp ?_)⟩
  have hlists := congrArg String.toList heq
  rw [String.toList_append, @String.toList_append (base ++ ".") (toString count')] at hlists
  exact List.append_cancel_left hlists

/-- The base and the number can be read off a name. -/
theorem numberedName_inj {base base' : String} {count count' : Nat} (h : Unnumbered base)
    (h' : Unnumbered base') (heq : numberedName base count = numberedName base' count') :
    base = base' ∧ count = count' := by
  by_cases hcount : count = 0
  · rw [hcount, numberedName_zero] at heq
    by_cases hcount' : count' = 0
    · rw [hcount', numberedName_zero] at heq
      exact ⟨heq, hcount.trans hcount'.symm⟩
    · exact absurd heq (h.ne_numberedName hcount')
  · by_cases hcount' : count' = 0
    · rw [hcount', numberedName_zero] at heq
      exact absurd heq.symm (h'.ne_numberedName hcount)
    · exact numberedName_inj_of_ne_zero hcount hcount' heq

end MicroC.Ir.Builder
