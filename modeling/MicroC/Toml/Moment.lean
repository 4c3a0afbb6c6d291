import MicroC.Toml.Lexeme

/-!
Dates and times of day in TOML documents: a date, a time, or both with a `T` or a blank
between them and an offset behind.
-/

namespace MicroC.Toml

/-- A number of `n` digits that lies between two bounds. -/
def field (n least greatest : Nat) : Reader Nat := fun cs =>
  let ds := cs.take n
  let value := valueOf 10 ds
  if ds.length = n ∧ ds.all (isDigit 10) ∧ least ≤ value ∧ value ≤ greatest then
    some (value, cs.drop n)
  else none

/-- Reads a character and nothing else. -/
def mark (c : Char) : Reader Unit
  | d :: rest => if d = c then some ((), rest) else none
  | [] => none

def isLeapYear (year : Nat) : Bool :=
  year % 4 = 0 && (year % 100 ≠ 0 || year % 400 = 0)

def daysIn (year month : Nat) : Nat :=
  match month with
  | 2 => if isLeapYear year then 29 else 28
  | 4 | 6 | 9 | 11 => 30
  | _ => 31

def date : Reader Unit := fun cs => do
  let (year, cs) ← field 4 0 9999 cs
  let ((), cs) ← mark '-' cs
  let (month, cs) ← field 2 1 12 cs
  let ((), cs) ← mark '-' cs
  let (_, cs) ← field 2 1 (daysIn year month) cs
  return ((), cs)

/-- Skips a point and the digits after it. -/
def skipSecondFraction : List Char → List Char
  | '.' :: d :: rest => if isDigit 10 d then rest.dropWhile (isDigit 10) else '.' :: d :: rest
  | cs => cs

def hourAndMinute : Reader Unit := fun cs => do
  let (_, cs) ← field 2 0 23 cs
  let ((), cs) ← mark ':' cs
  let (_, cs) ← field 2 0 59 cs
  return ((), cs)

/-- A time of day; a leap second is the sixtieth. -/
def timeOfDay : Reader Unit := fun cs => do
  let ((), cs) ← hourAndMinute cs
  let ((), cs) ← mark ':' cs
  let (_, cs) ← field 2 0 60 cs
  return ((), skipSecondFraction cs)

/-- Skips the distance from universal time, if it is given. -/
def skipOffset : List Char → List Char
  | 'Z' :: rest | 'z' :: rest => rest
  | c :: rest =>
    if c = '+' || c = '-' then
      match hourAndMinute rest with
      | some ((), rest) => rest
      | none => c :: rest
    else c :: rest
  | [] => []

/-- Skips the time that follows a date, if there is one. -/
def skipTime : List Char → List Char
  | c :: rest =>
    if c = 'T' || c = 't' || c = ' ' then
      match timeOfDay rest with
      | some ((), rest) => skipOffset rest
      | none => c :: rest
    else c :: rest
  | [] => []

/-- A date, with or without a time, or a time alone. -/
def moment : Reader Unit := fun cs =>
  match date cs with
  | some ((), rest) => some ((), skipTime rest)
  | none => timeOfDay cs

end MicroC.Toml
