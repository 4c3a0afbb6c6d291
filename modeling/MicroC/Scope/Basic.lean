import MicroC.Syntax.Basic

/-!
Lexical scopes. A scope binds names to declarations and remembers the order of its
bindings; a scope tree numbers scopes in order of creation, and each but the
outermost points to the scope that encloses it. At file level a function or a
variable may be declared repeatedly: at most one declaration is a definition, and
the definition, once there is one, is what the name stands for.
-/

namespace MicroC

inductive ResolveError where
  | undeclared (name : String) (span : Span) (suggestions : List String)
  | redeclaration (name : String) (first second : Span)
deriving DecidableEq, Repr

namespace ResolveError

def message : ResolveError → String
  | undeclared name .. => s!"undeclared identifier `{name}`"
  | redeclaration name .. => s!"redeclaration of `{name}`"

def span : ResolveError → Span
  | undeclared _ span _ => span
  | redeclaration _ _ second => second

end ResolveError

abbrev ScopeId := Nat

inductive ScopeKind where
  | universal | file | function | block
deriving DecidableEq, Repr, Inhabited

def ScopeKind.text : ScopeKind → String
  | .universal => "universe"
  | .file => "file"
  | .function => "function"
  | .block => "block"

/-- Whether both declare functions or both declare variables. -/
def Decl.sameSort : Decl → Decl → Bool
  | .func .., .func .. | .var .., .var .. => true
  | _, _ => false

structure Scope where
  parent : Option ScopeId
  kind : ScopeKind
  /-- The bindings, in the order in which their names were first bound. -/
  defs : List (String × Decl) := []

/-- What an insertion does: the name was free, the declaration takes the name over, or
the binding stays as it is. -/
inductive Insertion where
  | bound | rebound | merged
deriving DecidableEq, Repr

def Insertion.text : Insertion → String
  | .bound => "bound"
  | .rebound => "rebound"
  | .merged => "merged"

namespace Scope

def get? (s : Scope) (name : String) : Option Decl := s.defs.lookup name

/-- Adds a binding of a name that has none. -/
def bind (s : Scope) (d : Decl) : Scope := { s with defs := s.defs ++ [(d.name, d)] }

/-- Lets a name that has a binding stand for another declaration; it keeps its place. -/
def rebind (s : Scope) (d : Decl) : Scope :=
  { s with defs := s.defs.map fun entry => if entry.1 = d.name then (entry.1, d) else entry }

/-- Puts a declaration into a scope: what comes of it, and the scope afterwards. -/
def put (s : Scope) (new : Decl) : Except ResolveError Insertion × Scope :=
  match s.get? new.name with
  | none => (.ok .bound, s.bind new)
  | some old =>
    if old.id = new.id then (.ok .merged, s)
    else if s.kind = .file ∧ old.sameSort new then
      match old.isDefinition, new.isDefinition with
      | true, true => (.error (.redeclaration new.name old.span new.span), s)
      | false, true => (.ok .rebound, s.rebind new)
      | _, false => (.ok .merged, s)
    else (.error (.redeclaration new.name old.span new.span), s)

end Scope

structure ScopeTree where
  scopes : Array Scope := #[]

namespace ScopeTree

def size (t : ScopeTree) : Nat := t.scopes.size

def get? (t : ScopeTree) (s : ScopeId) : Option Scope := t.scopes[s]?

def create (t : ScopeTree) (parent : Option ScopeId) (kind : ScopeKind) : ScopeId × ScopeTree :=
  (t.size, { scopes := t.scopes.push { parent, kind } })

/-- Replaces the contents of a scope. -/
def update (t : ScopeTree) (s : ScopeId) (scope : Scope) : ScopeTree :=
  { scopes := t.scopes.setIfInBounds s scope }

/-- Puts a declaration into a scope of the tree: what comes of it, and the tree afterwards. A
number that belongs to no scope binds nothing. -/
def put (t : ScopeTree) (s : ScopeId) (d : Decl) : Except ResolveError Insertion × ScopeTree :=
  match t.get? s with
  | none => (.ok .merged, t)
  | some scope =>
    let (outcome, scope) := scope.put d
    (outcome, t.update s scope)

/-- Puts a declaration into a scope, as a step of a run that ends with the first error. -/
def insert (t : ScopeTree) (s : ScopeId) (d : Decl) : Except ResolveError (Insertion × ScopeTree) :=
  let (outcome, t) := t.put s d
  outcome.map (·, t)

def parent? (t : ScopeTree) (s : ScopeId) : Option ScopeId := (t.get? s).bind (·.parent)

/-- The first scopes, at most `n`, on the way from a scope outwards. -/
def chain (t : ScopeTree) : Nat → ScopeId → List ScopeId
  | 0, _ => []
  | n + 1, s =>
    s :: match t.parent? s with
      | some outer => t.chain n outer
      | none => []

/-- A scope and all that enclose it, innermost first. No scope encloses itself, so there
are no more of them than scopes. -/
def ancestors (t : ScopeTree) (s : ScopeId) : List ScopeId := t.chain t.size s

/-- The innermost binding of a name that is visible from a scope. -/
def lookup (t : ScopeTree) (s : ScopeId) (name : String) : Option Decl :=
  (t.ancestors s).findSome? fun outer => (t.get? outer).bind (·.get? name)

def boundNames (t : ScopeTree) (s : ScopeId) : List String :=
  match t.get? s with
  | some scope => scope.defs.map (·.1)
  | none => []

/-- The names visible from a scope, innermost first; a shadowed name occurs repeatedly. -/
def visibleNames (t : ScopeTree) (s : ScopeId) : List String :=
  (t.ancestors s).flatMap t.boundNames

end ScopeTree

end MicroC
