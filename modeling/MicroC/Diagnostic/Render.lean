import MicroC.Diagnostic.Basic
import MicroC.Diagnostic.Source

/-!
The text of reports. The short style has one line for the primary label, the medium
style adds the notes, and the rich style shows the marked lines of the source with
carets below them.
-/

namespace MicroC

/-- One shown character: its bytes in the line and the number of columns it fills. -/
structure Cell where
  char : Char
  start : Nat
  size : Nat
  width : Nat

namespace Cell

/-- Whether a character is a control character, which is written but fills no column. -/
def isControl (c : Char) : Bool := c.toNat < 32 || (127 ≤ c.toNat && c.toNat < 160)

/-- A tab reaches to the next tab stop; other control characters fill no column, and every
other character fills one. Source lines are shown in ASCII, so no character fills two. -/
def widthOf (tabWidth column : Nat) (c : Char) : Nat :=
  if c = '\t' then (if tabWidth = 0 then 0 else tabWidth - column % tabWidth)
  else if isControl c then 0
  else 1

/-- The cells of a line, from a byte and a column on. -/
def ofChars (tabWidth : Nat) : Nat → Nat → List Char → List Cell
  | _, _, [] => []
  | start, column, c :: rest =>
    let width := widthOf tabWidth column c
    ⟨c, start, c.utf8Size, width⟩ :: ofChars tabWidth (start + c.utf8Size) (column + width) rest

def text (cell : Cell) : String :=
  if cell.char = '\t' then "".pushn ' ' cell.width else cell.char.toString

end Cell

/-- A label on one line: bytes from the start of the line; at least one is marked. -/
structure Mark where
  style : LabelStyle
  start : Nat
  stop : Nat
  message : String

namespace Mark

def ofLabel (line : SourceLine) (label : Label) : Mark where
  style := label.style
  start := label.span.start - line.start
  stop := max (label.span.stop - line.start) (label.span.start - line.start + 1)
  message := label.message

def covers (mark : Mark) (cell : Cell) : Bool :=
  max mark.start cell.start < min mark.stop (cell.start + cell.size)

end Mark

/-- What stands under a cell: a caret where a label covers it, otherwise a blank as far as a
label follows. -/
def caret (marks : List Mark) (cell : Cell) : String :=
  let covering := marks.filter (·.covers cell)
  if covering.any (·.style = .primary) then "".pushn '^' cell.width
  else if !covering.isEmpty then "".pushn '-' cell.width
  else if marks.any (cell.start < ·.stop) then "".pushn ' ' cell.width
  else ""

/-- The line of carets; one more character than the line has can be marked. The message of the
last label follows. -/
def caretLine (tabWidth : Nat) (line : SourceLine) (marks : List Mark) : String :=
  let cells := Cell.ofChars tabWidth 0 0 line.visible
  let afterEnd : Cell := ⟨'\x00', byteLength line.visible, 1, 1⟩
  let carets := String.join ((cells ++ [afterEnd]).map (caret marks))
  let message := (marks.getLast?.map (·.message)).getD ""
  if message = "" then carets else carets ++ " " ++ message

/-- The lines of a note; those after the first stand under its text. -/
def textLines (text : String) : List String :=
  let lines := (splitLines text.toList).filter (!·.isEmpty)
  lines.map fun chars =>
    match chars.reverse with
    | '\n' :: '\r' :: rest | '\n' :: rest => String.ofList rest.reverse
    | _ => String.ofList chars

def noteLines (margin note : String) : List String :=
  match textLines note with
  | [] => []
  | first :: rest => (margin ++ " = " ++ first) :: rest.map (margin ++ "   " ++ ·)

def padLeft (width : Nat) (text : String) : String := "".pushn ' ' (width - text.length) ++ text

/-- A line of the source, with its number. -/
def sourceLine (tabWidth width : Nat) (line : SourceLine) : String :=
  padLeft width (toString line.number) ++ " │ " ++
    String.join ((Cell.ofChars tabWidth 0 0 line.visible).map Cell.text)

/-- The marked lines in order. A single line between two of them is shown as well; where there
are more, a dot stands for them. -/
def markedLines (f : SourceFile) (tabWidth width : Nat) :
    List (SourceLine × List Mark) → List String
  | [] => []
  | (line, marks) :: rest =>
    let margin := "".pushn ' ' width
    let between := match rest with
      | [] => []
      | (next, _) :: _ =>
        if next.number = line.number + 1 then []
        else if next.number = line.number + 2 then
          (f.lines[line.number]?.map (sourceLine tabWidth width)).toList
        else [margin ++ " ·"]
    sourceLine tabWidth width line :: (margin ++ " │ " ++ caretLine tabWidth line marks) ::
      between ++ markedLines f tabWidth width rest

namespace Diagnostic

/-- Each line of the source on which labels start, with its labels. -/
def labelledLines (d : Diagnostic) (f : SourceFile) : List (SourceLine × List Mark) :=
  f.lines.filterMap fun line =>
    match d.labels.filter fun label => (f.lineAt label.span.start).number = line.number with
    | [] => none
    | labels => some (line, labels.map (Mark.ofLabel line))

/-- The number of digits of the largest line number that is shown. -/
def marginWidth (d : Diagnostic) (f : SourceFile) : Nat :=
  (d.labels.map fun label => (toString (f.lineAt label.span.stop).number).length).foldl max 0

/-- The lines that show the source. -/
def snippet (d : Diagnostic) (f : SourceFile) (tabWidth : Nat) : List String :=
  match d.primaryLabels ++ d.labels with
  | [] => []
  | label :: _ =>
    let width := d.marginWidth f
    let margin := "".pushn ' ' width
    (margin ++ " ┌─ " ++ f.locate label.span.start) :: (margin ++ " │") ::
      markedLines f tabWidth width (d.labelledLines f) ++
      (if d.notes.isEmpty then [] else [margin ++ " │"])

def headline (d : Diagnostic) : String := "error: " ++ d.message

/-- The headline with the position of each primary label, or alone if there is none. -/
def locatedHeadlines (d : Diagnostic) (f : SourceFile) : List String :=
  match d.primaryLabels with
  | [] => [d.headline]
  | labels => labels.map fun label => f.locate label.span.start ++ ": " ++ d.headline

def renderLines (d : Diagnostic) (f : SourceFile) (options : DisplayOptions) : List String :=
  match options.style with
  | .short => d.locatedHeadlines f
  | .medium => d.locatedHeadlines f ++ d.notes.flatMap (noteLines "")
  | .rich =>
    let margin := "".pushn ' ' (d.marginWidth f)
    d.headline :: d.snippet f options.tabWidth ++ d.notes.flatMap (noteLines margin) ++ [""]

/-- The report as text. -/
def render (d : Diagnostic) (f : SourceFile) (options : DisplayOptions) : String :=
  String.join ((d.renderLines f options).map (· ++ "\n"))

end Diagnostic

end MicroC
