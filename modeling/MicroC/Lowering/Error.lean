import MicroC.Constant.Fold
import MicroC.Ir.Builder

/-!
Reasons why a checked program has no module. Only a constant that cannot be computed
and an unsupported construct are faults of the program; all others mean that the
tables given to the lowering do not fit the program.
-/

namespace MicroC

inductive LowerError where
  | const (error : ConstError)
  | unsupported (construct : String) (span : Span)
  | unresolved (span : Span)
  | missingType (node : String) (span : Span)
  | unexpectedDecl (name expected : String) (span : Span)
  | notAnLvalue (span : Span)
  | unexpectedOperator (op : BinaryOp) (span : Span)
  | ir (error : Ir.BuildError)
deriving DecidableEq, Repr

namespace LowerError

/-- What the message of an internal error starts with. -/
def internalMark : String := "internal compiler error: "

def message : LowerError → String
  | const error => error.message
  | unsupported construct _ => construct ++ " is not supported"
  | unresolved span => internalMark ++ "identifier at " ++ span.text ++ " was not resolved"
  | missingType node span =>
    internalMark ++ "no type was computed for the " ++ node ++ " at " ++ span.text
  | unexpectedDecl name expected _ =>
    internalMark ++ "`" ++ name ++ "` cannot be used as a " ++ expected
  | notAnLvalue span => internalMark ++ "expression at " ++ span.text ++ " is not assignable"
  | unexpectedOperator op _ => internalMark ++ "unexpected operator `" ++ op.text ++ "`"
  | ir error => internalMark ++ error.message

def isInternal : LowerError → Bool
  | const _ | unsupported .. => false
  | _ => true

def span? : LowerError → Option Span
  | const error => some error.span
  | unsupported _ span | unresolved span | missingType _ span | unexpectedDecl _ _ span
  | notAnLvalue span | unexpectedOperator _ span => some span
  | ir _ => none

end LowerError

end MicroC
