/-!
Lines and columns of a source text. Offsets count bytes, columns count characters;
a line ends after its line feed, and there is always a last line, which may be empty.
-/

namespace MicroC

structure SourceLine where
  number : Nat
  start : Nat
  /-- The characters of the line, its end included. -/
  chars : List Char
deriving DecidableEq, Repr, Inhabited

def byteLength (chars : List Char) : Nat := chars.foldl (fun n c => n + c.utf8Size) 0

/-- Cuts a text after each line feed. -/
def splitLines : List Char → List (List Char)
  | [] => [[]]
  | c :: rest =>
    if c = '\n' then [c] :: splitLines rest
    else match splitLines rest with
      | line :: more => (c :: line) :: more
      | [] => [[c]]

/-- Numbers lines and finds their offsets, from the given ones on. -/
def numberLines : Nat → Nat → List (List Char) → List SourceLine
  | _, _, [] => []
  | number, start, chars :: rest =>
    ⟨number, start, chars⟩ :: numberLines (number + 1) (start + byteLength chars) rest

structure SourceFile where
  name : String
  text : String

namespace SourceFile

def lines (f : SourceFile) : List SourceLine := numberLines 1 0 (splitLines f.text.toList)

/-- The line of an offset; what lies past the end counts to the last line. -/
def lineAt (f : SourceFile) (offset : Nat) : SourceLine :=
  (f.lines.filter (·.start ≤ offset)).getLast?.getD default

end SourceFile

/-- The number of characters that end at or before an offset, from `start` on. -/
def charsBefore (offset : Nat) : Nat → List Char → Nat
  | _, [] => 0
  | start, c :: rest =>
    let stop := start + c.utf8Size
    if stop ≤ offset then charsBefore offset stop rest + 1 else 0

/-- The column of an offset in its line, counted from 1. -/
def SourceLine.column (line : SourceLine) (offset : Nat) : Nat :=
  charsBefore offset line.start line.chars + 1

/-- A position as name, line and column. -/
def SourceFile.locate (f : SourceFile) (offset : Nat) : String :=
  let line := f.lineAt offset
  f.name ++ ":" ++ toString line.number ++ ":" ++ toString (line.column offset)

/-- The characters of a line that are shown: line feeds, carriage returns and NULs at its end
are not. -/
def SourceLine.visible (line : SourceLine) : List Char :=
  (line.chars.reverse.dropWhile fun c => c = '\n' || c = '\r' || c = '\x00').reverse

end MicroC
