/-!
Similar names. The distance of two names is the number of characters to insert,
delete or replace in order to get one from the other. It is computed in a single row,
which is overwritten once for each character of the first name; reading outside of
the row would leave the distance without a result.
-/

namespace MicroC.Similar

/-- A row of distances that is being overwritten from left to right, and what stood before in the
entry that was overwritten last. -/
structure Sweep where
  row : Array Nat
  diagonal : Nat

/-- Overwrites the entry behind the one at the position of a character of the target. -/
def Sweep.next (c : Char) (sweep : Sweep) (target : Char × Nat) : Option Sweep := do
  let (t, j) := target
  let left ← sweep.row[j]?
  let above ← sweep.row[j + 1]?
  let substitute := if c = t then sweep.diagonal else sweep.diagonal + 1
  let entry := min (min substitute (left + 1)) (above + 1)
  return { row := sweep.row.setIfInBounds (j + 1) entry, diagonal := above }

/-- The distances of a word that has one more character, at the given position, to the initial
parts of `target`. -/
def nextRow (target : List Char) (row : Array Nat) (source : Char × Nat) : Option (Array Nat) := do
  let (c, i) := source
  let diagonal ← row[0]?
  let start : Sweep := { row := row.setIfInBounds 0 (i + 1), diagonal }
  return (← target.zipIdx.foldlM (Sweep.next c) start).row

/-- The distances of the empty word. -/
def firstRow (target : List Char) : Array Nat := Array.range (target.length + 1)

def distance? (source target : String) : Option Nat := do
  let target := target.toList
  let row ← source.toList.zipIdx.foldlM (nextRow target) (firstRow target)
  row[target.length]?

def distance (source target : String) : Nat := (distance? source target).getD 0

/-- Names farther away than this are not similar. -/
def maxDistance : Nat := 2

def maxSuggestions : Nat := 3

/-- The similar candidates other than `target` itself, with their distances. -/
def scored (target : String) (candidates : List String) : List (Nat × String) :=
  let others := candidates.eraseDups.filter (· ≠ target)
  (others.map fun name => (distance target name, name)).filter (·.1 ≤ maxDistance)

/-- The nearest of the candidates, nearest first; at equal distance they keep their order. -/
def suggestions (target : String) (candidates : List String) : List String :=
  (((scored target candidates).mergeSort (·.1 ≤ ·.1)).take maxSuggestions).map (·.2)

end MicroC.Similar
