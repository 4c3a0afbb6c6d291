import MicroC.Ir.Ty
import MicroC.Proofs.Ir.Names

/-!
Reading machine types. The text of a type starts with a width or with an array in brackets; stars
and lists of parameters follow, each of which applies to all that stands before it. So a text can be
read from the left with a stack: the type on top grows by what follows it, and what is not complete
waits below. Reading the text of a type pushes that type, so no text stands for two types.
-/

namespace MicroC.Ir.Ty

/-- What waits on the stack of the reader. -/
inductive Frame where
  | type (t : Ty)
  /-- The digits of a length. -/
  | digits (len : Nat)
  /-- An array that lacks the type of its elements. -/
  | elem (len : Nat)
  /-- A function that lacks further parameters. -/
  | params (result : Ty) (before : List Ty)

/-- The pieces that the texts of types are made from. -/
inductive Token where
  | base (t : Ty)
  | bracket | times | closeBracket | star | paren | comma | closeParen
  | digit (c : Char)

def Token.push : Token → List Frame → Option (List Frame)
  | base t, stack => some (.type t :: stack)
  | bracket, stack => some (.digits 0 :: stack)
  | digit c, .digits len :: stack => some (.digits (10 * len + (c.toNat - '0'.toNat)) :: stack)
  | times, .digits len :: stack => some (.elem len :: stack)
  | closeBracket, .type t :: .elem len :: stack => some (.type (array t len) :: stack)
  | star, .type t :: stack => some (.type (ptr t) :: stack)
  | paren, .type t :: stack => some (.params t [] :: stack)
  | comma, .type t :: .params result before :: stack => some (.params result (before ++ [t]) :: stack)
  | closeParen, .params result [] :: stack => some (.type (func result []) :: stack)
  | closeParen, .type t :: .params result before :: stack =>
    some (.type (func result (before ++ [t])) :: stack)
  | _, _ => none

def read : List Char → List Frame → Option (List Frame)
  | [], stack => some stack
  | 'v' :: 'o' :: 'i' :: 'd' :: rest, stack => (Token.base void).push stack >>= read rest
  | 'i' :: '8' :: rest, stack => (Token.base i8).push stack >>= read rest
  | 'i' :: '3' :: '2' :: rest, stack => (Token.base i32).push stack >>= read rest
  | '[' :: rest, stack => Token.bracket.push stack >>= read rest
  | ' ' :: 'x' :: ' ' :: rest, stack => Token.times.push stack >>= read rest
  | ']' :: rest, stack => Token.closeBracket.push stack >>= read rest
  | '*' :: rest, stack => Token.star.push stack >>= read rest
  | ' ' :: '(' :: rest, stack => Token.paren.push stack >>= read rest
  | ',' :: ' ' :: rest, stack => Token.comma.push stack >>= read rest
  | ')' :: rest, stack => Token.closeParen.push stack >>= read rest
  | c :: rest, stack => if c.isDigit then (Token.digit c).push stack >>= read rest else none

theorem ne_of_isDigit {c d : Char} (hc : c.isDigit) (hd : d.isDigit = false) : c ≠ d := by
  rintro rfl
  rw [hc] at hd
  cases hd

section

variable (rest : List Char) (stack : List Frame)

theorem read_digit {c : Char} (hc : c.isDigit) :
    read (c :: rest) stack = (Token.digit c).push stack >>= read rest := by
  rw [read, if_pos hc]
  all_goals simp [ne_of_isDigit hc]

theorem read_digits {digits : List Char} (hdigits : ∀ c ∈ digits, c.isDigit) (len : Nat) :
    read (digits ++ rest) (.digits len :: stack) =
      read rest (.digits (Nat.ofDigitChars 10 digits len) :: stack) := by
  induction digits generalizing len with
  | nil => rfl
  | cons c digits ih =>
    obtain ⟨hc, hdigits⟩ := List.forall_mem_cons.mp hdigits
    rw [List.cons_append, read_digit _ _ hc, Nat.ofDigitChars_cons]
    exact ih hdigits _

/-- The digits of a number. -/
theorem read_toString (len : Nat) :
    read ((toString len).toList ++ rest) (.digits 0 :: stack) = read rest (.digits len :: stack) := by
  rw [read_digits _ _ fun _ => Builder.isDigit_of_mem_toString, Nat.toString_eq_repr,
    Nat.toList_repr, Nat.ofDigitChars_ten_toDigits]

end

mutual

/-- The text of a type pushes the type, whatever follows and whatever is on the stack. -/
theorem read_text (rest : List Char) (stack : List Frame) : (t : Ty) →
    read (t.text.toList ++ rest) stack = read rest (.type t :: stack)
  | void | i8 | i32 => rfl
  | array elem len => by
    have htext : (array elem len).text.toList ++ rest = '[' :: ((toString len).toList ++
        ' ' :: 'x' :: ' ' :: (elem.text.toList ++ ']' :: rest)) := by simp [text]
    calc read ((array elem len).text.toList ++ rest) stack
        = read ((toString len).toList ++ ' ' :: 'x' :: ' ' :: (elem.text.toList ++ ']' :: rest))
            (.digits 0 :: stack) := by rw [htext]; rfl
      _ = read (elem.text.toList ++ ']' :: rest) (.elem len :: stack) := read_toString _ _ len
      _ = read rest (.type (array elem len) :: stack) := read_text _ _ elem
  | ptr pointee => by
    have htext : (ptr pointee).text.toList ++ rest = pointee.text.toList ++ '*' :: rest := by
      simp [text]
    rw [htext, read_text _ _ pointee]
    rfl
  | func result [] => by
    have htext : (func result []).text.toList ++ rest =
        result.text.toList ++ ' ' :: '(' :: ')' :: rest := by simp [text]
    rw [htext, read_text _ _ result]
    rfl
  | func result (param :: params) => by
    have htext : (func result (param :: params)).text.toList ++ rest = result.text.toList ++
        ' ' :: '(' :: (param.text.toList ++ ((textRest params).toList ++ ')' :: rest)) := by
      simp [text]
    calc read ((func result (param :: params)).text.toList ++ rest) stack
        = read (param.text.toList ++ ((textRest params).toList ++ ')' :: rest))
            (.params result [] :: stack) := by rw [htext, read_text _ _ result]; rfl
      _ = read ((textRest params).toList ++ ')' :: rest)
            (.type param :: .params result [] :: stack) := read_text _ _ param
      _ = read rest (.type (func result (param :: params)) :: stack) :=
          read_textRest rest stack result [] param params

/-- The parameters after the first, up to the parenthesis. -/
theorem read_textRest (rest : List Char) (stack : List Frame) (result : Ty) (before : List Ty)
    (param : Ty) : (params : List Ty) →
    read ((textRest params).toList ++ ')' :: rest) (.type param :: .params result before :: stack) =
      read rest (.type (func result (before ++ param :: params)) :: stack)
  | [] => rfl
  | next :: params => by
    have htext : (textRest (next :: params)).toList ++ ')' :: rest =
        ',' :: ' ' :: (next.text.toList ++ ((textRest params).toList ++ ')' :: rest)) := by
      simp [textRest]
    have hbefore : before ++ param :: next :: params = before ++ [param] ++ next :: params := by simp
    rw [hbefore, ← read_textRest rest stack result (before ++ [param]) next params,
      ← read_text _ _ next, htext]
    rfl

end

theorem read_text_self (t : Ty) : read t.text.toList [] = some [.type t] := by
  have h := read_text [] [] t
  rw [List.append_nil] at h
  exact h

theorem text_inj {s t : Ty} (h : s.text = t.text) : s = t := by
  have hs := s.read_text_self
  rw [h, t.read_text_self] at hs
  exact (Frame.type.inj (List.cons.inj (Option.some.inj hs)).1).symm

end MicroC.Ir.Ty
