import MicroC.Typing.Ty

/-!
Reasons to reject a program whose names are resolved.
-/

namespace MicroC

/-- Types are held as their texts: an expectation may also be a class of types. -/
inductive TypeError where
  | mismatch (expected found : String) (span : Span)
  | notAssignable (type : String) (span : Span)
  | notCallable (name type : String) (span : Span)
  | notIndexable (name type : String) (span : Span)
  | argumentCount (name : String) (expected found : Nat) (span : Span)
  | literalOutOfRange (value : Int) (span : Span)
  | missingReturn (name : String) (span : Span)
  | notAType (name : String) (span : Span)
  | notAValue (name : String) (span : Span)
  | invalidObjectType (name type : String) (span : Span)
  | unresolved (span : Span)
  | unsupported (construct : String) (span : Span)
deriving DecidableEq, Repr

namespace TypeError

def message : TypeError → String
  | mismatch expected found _ => s!"mismatched types: expected `{expected}`, found `{found}`"
  | notAssignable type _ => s!"cannot assign to expression of type `{type}`"
  | notCallable name type _ => s!"cannot call `{name}` of type `{type}`"
  | notIndexable name type _ => s!"cannot index `{name}` of type `{type}`"
  | argumentCount name expected found _ =>
    s!"`{name}` takes {expected} argument(s) but {found} were supplied"
  | literalOutOfRange value _ => s!"integer literal `{value}` does not fit in `int`"
  | missingReturn name _ => s!"function `{name}` does not return a value on every path"
  | notAType name _ => s!"`{name}` is not a type"
  | notAValue name _ => s!"expected a value, found type `{name}`"
  | invalidObjectType name type _ => s!"`{name}` cannot have type `{type}`"
  | unresolved _ => "identifier was not resolved"
  | unsupported construct _ => s!"unsupported construct: {construct}"

def span : TypeError → Span
  | mismatch _ _ span | notAssignable _ span | notCallable _ _ span | notIndexable _ _ span
  | argumentCount _ _ _ span | literalOutOfRange _ span | missingReturn _ span | notAType _ span
  | notAValue _ span | invalidObjectType _ _ span | unresolved span | unsupported _ span => span

/-- A type other than `char` and `int` where one of these has to stand. -/
def notScalar (found : Ty) (span : Span) : TypeError := mismatch "char or int" found.text span

/-- A type that values cannot have. -/
def invalidObject (d : Decl) (type : Ty) : TypeError :=
  invalidObjectType d.name type.text d.span

end TypeError

end MicroC
