import MicroC.Diagnostic.Render
import MicroC.Ir.Text
import MicroC.Lowering.Module
import MicroC.Settings

/-!
Whole compilations: names are resolved, types are checked, and the module is made.
The first error ends the compilation; it says whether the program or the compiler
is at fault and reports itself.
-/

namespace MicroC

inductive CompileError where
  | resolve (error : ResolveError)
  | type (error : TypeError)
  | lower (error : LowerError)
deriving DecidableEq, Repr

namespace CompileError

def message : CompileError → String
  | resolve error => error.message
  | type error => error.message
  | lower error => error.message

/-- Whether the fault lies with the compiler. -/
def isInternal : CompileError → Bool
  | resolve _ => false
  | type (.unresolved _) => true
  | type _ => false
  | lower error => error.isInternal

def exitCode (e : CompileError) : Nat := if e.isInternal then 101 else 1

def span? : CompileError → Option Span
  | resolve error => some error.span
  | type error => some error.span
  | lower error => error.span?

/-- The text at the place of a type error. -/
def typeLabel : TypeError → String
  | .mismatch expected .. => s!"expected `{expected}`"
  | .notAssignable .. => "cannot be assigned to"
  | .notCallable .. => "call expression"
  | .notIndexable .. => "index expression"
  | .argumentCount _ expected .. => s!"expected {expected} argument(s)"
  | .literalOutOfRange .. => "out of range for `int`"
  | .missingReturn .. => "missing `return`"
  | .notAType .. => "not a type"
  | .notAValue .. => "not a value"
  | .invalidObjectType .. => "invalid type"
  | .unresolved _ | .unsupported .. => ""

def labels : CompileError → List Label
  | resolve (.undeclared _ span _) => [⟨.primary, span, "not found in this scope"⟩]
  | resolve (.redeclaration _ first second) =>
    ⟨.primary, second, "redeclared here"⟩ ::
      (if first.isBuiltin then [] else [⟨.secondary, first, "previous declaration here"⟩])
  | type error => [⟨.primary, error.span, typeLabel error⟩]
  | lower error =>
    match error.span? with
    | some span => if span.isBuiltin then [] else [⟨.primary, span, ""⟩]
    | none => []

def notes (e : CompileError) : List String :=
  if e.isInternal then ["this is a bug in the compiler, not in the program"]
  else match e with
    | resolve (.undeclared _ _ suggestions) =>
      suggestions.map fun name => s!"help: a similar name exists: `{name}`"
    | _ => []

def diagnostic (e : CompileError) : Diagnostic where
  message := e.message
  labels := e.labels
  notes := e.notes

/-- The report about an error in a source file. -/
def render (e : CompileError) (file : SourceFile) (options : DisplayOptions) : String :=
  e.diagnostic.render file options

end CompileError

/-- All that a successful compilation computes. -/
structure Compilation where
  resolution : Resolution
  types : TypeTable
  module : Ir.Module

namespace Program

def resolveNames (p : Program) : Except CompileError Resolution :=
  p.resolve.mapError .resolve

def checkTypes (p : Program) (r : Resolution) : Except CompileError TypeTable :=
  (p.check r).mapError .type

def lowerModule (p : Program) (a : Analysis) (moduleName : String) :
    Except CompileError Ir.Module :=
  (p.lower a moduleName).mapError .lower

def compile (p : Program) (settings : Settings) : Except CompileError Compilation := do
  let resolution ← p.resolveNames
  let types ← p.checkTypes resolution
  let module ← p.lowerModule ⟨resolution, types⟩ settings.moduleName
  return { resolution, types, module }

end Program

end MicroC
