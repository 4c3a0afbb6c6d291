import MicroC.Toml.Lexeme
import MicroC.Toml.Table

/-!
Integers and floats of TOML documents. An integer has 64 bits. A float is a double; a
number too large for one is refused unless it is negative.
-/

namespace MicroC.Toml

/-- Digits, with single underscores between them. -/
def digits (base : Nat) : List Char → List Char × List Char
  | c :: '_' :: d :: rest =>
    if isDigit base c && isDigit base d then
      let (more, rest) := digits base (d :: rest)
      (c :: more, rest)
    else if isDigit base c then ([c], '_' :: d :: rest)
    else ([], c :: '_' :: d :: rest)
  | c :: rest =>
    if isDigit base c then
      let (more, rest) := digits base rest
      (c :: more, rest)
    else ([], c :: rest)
  | [] => ([], [])

def leastInteger : Int := -9223372036854775808
def greatestInteger : Int := 9223372036854775807

/-- An integer that has 64 bits at most. -/
def integer? (value : Int) : Option Value :=
  if leastInteger ≤ value ∧ value ≤ greatestInteger then some (.integer value) else none

/-- The digits after the mark of a base. -/
def basedInteger (base : Nat) : Reader Value := fun cs => do
  let (ds, rest) := digits base cs
  if ds.isEmpty then none
  else return (← integer? (valueOf base ds), rest)

/-- A decimal number without its sign, as it is written. -/
structure Decimal where
  whole : List Char
  /-- The digits after the point; none if there is no point. -/
  fraction : List Char := []
  exponent : Option Int := none

namespace Decimal

/-- The digits before and after the point. -/
def digits (d : Decimal) : List Char := d.whole ++ d.fraction

/-- The power of ten by which the digits, read as one number, are to be multiplied. -/
def scale (d : Decimal) : Int := d.exponent.getD 0 - d.fraction.length

/-- Half way between the largest double and the power of two after it. Numbers from here on
are nearer to infinity than to any double. -/
def infinityBound : Nat := Nat.pow 2 1024 - Nat.pow 2 970

/-- Whether a number is too large for a double. Powers of ten are computed only where the
number of digits leaves it open. -/
def isInfinite (d : Decimal) : Bool :=
  let n := valueOf 10 d.digits
  match d.scale with
  | .ofNat e =>
    if n = 0 then false
    else if 309 ≤ e then true
    else infinityBound ≤ n * Nat.pow 10 e
  | .negSucc e =>
    if d.digits.length ≤ e + 1 then false
    else infinityBound * Nat.pow 10 (e + 1) ≤ n

end Decimal

/-- The digits after a point, or none if there is no point. -/
def fraction : Reader (List Char)
  | '.' :: rest =>
    match digits 10 rest with
    | ([], _) => none
    | (ds, rest) => some (ds, rest)
  | cs => some ([], cs)

/-- The exponent of a number, if it has one. -/
def exponent : Reader (Option Int)
  | e :: rest =>
    if e = 'e' || e = 'E' then
      let (negative, rest) := match rest with
        | '+' :: rest => (false, rest)
        | '-' :: rest => (true, rest)
        | _ => (false, rest)
      match digits 10 rest with
      | ([], _) => none
      | (ds, rest) =>
        let n : Int := valueOf 10 ds
        some (some (if negative then -n else n), rest)
    else some (none, e :: rest)
  | [] => some (none, [])

/-- A number without its sign. It starts with a zero only if it has no other digit before the point. -/
def decimal : Reader Decimal := fun cs => do
  let (whole, rest) := digits 10 cs
  match whole with
  | [] => none
  | '0' :: _ :: _ => none
  | _ =>
    let (fraction, rest) ← fraction rest
    let (exponent, rest) ← exponent rest
    return ({ whole, fraction, exponent }, rest)

/-- The value of a number; a point or an exponent makes it a float. -/
def Decimal.toValue? (negative : Bool) (d : Decimal) : Option Value :=
  if d.fraction.isEmpty && d.exponent.isNone then
    let n : Int := valueOf 10 d.whole
    integer? (if negative then -n else n)
  else if !negative && d.isInfinite then none
  else some .float

/-- A number after its sign. -/
def signedNumber (negative : Bool) : Reader Value
  | 'i' :: 'n' :: 'f' :: rest | 'n' :: 'a' :: 'n' :: rest => some (.float, rest)
  | cs => do
    let (d, rest) ← decimal cs
    return (← d.toValue? negative, rest)

def number : Reader Value
  | '0' :: 'x' :: rest => basedInteger 16 rest
  | '0' :: 'o' :: rest => basedInteger 8 rest
  | '0' :: 'b' :: rest => basedInteger 2 rest
  | '+' :: rest => signedNumber false rest
  | '-' :: rest => signedNumber true rest
  | cs => signedNumber false cs

end MicroC.Toml
