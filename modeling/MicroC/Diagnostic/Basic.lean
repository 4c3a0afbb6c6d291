import MicroC.Span

/-!
Reports about a program: a message, marked places in the source, and notes.
-/

namespace MicroC

inductive LabelStyle where
  | primary | secondary
deriving DecidableEq, Repr

def LabelStyle.text : LabelStyle → String
  | .primary => "primary"
  | .secondary => "secondary"

/-- A marked place. A secondary label only explains the primary one. -/
structure Label where
  style : LabelStyle
  span : Span
  message : String
deriving DecidableEq, Repr

structure Diagnostic where
  message : String
  labels : List Label := []
  notes : List String := []
deriving DecidableEq, Repr

def Diagnostic.primaryLabels (d : Diagnostic) : List Label := d.labels.filter (·.style = .primary)

inductive DisplayStyle where
  | rich | medium | short
deriving DecidableEq, Repr, Inhabited

namespace DisplayStyle

def text : DisplayStyle → String
  | .rich => "rich"
  | .medium => "medium"
  | .short => "short"

def ofText? (text : String) : Option DisplayStyle :=
  [rich, medium, short].find? (·.text = text)

end DisplayStyle

/-- How reports are written: their style, and the distance of tab stops. -/
structure DisplayOptions where
  style : DisplayStyle := .rich
  tabWidth : Nat := 4
deriving DecidableEq, Repr, Inhabited

end MicroC
