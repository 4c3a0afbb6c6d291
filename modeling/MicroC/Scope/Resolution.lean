import Std.Data.TreeMap
import MicroC.Scope.Basic
import MicroC.Scope.Similar
import MicroC.Syntax.Program

/-!
What the names of a program stand for. All top-level declarations are bound before
any name is looked up; the file is then traversed, with one scope for each function,
which its body shares when it is a block, and one for every other block. The first
name that is undeclared or declared twice in a scope ends the run.
-/

namespace MicroC

structure Resolution where
  scopes : ScopeTree
  /-- The scope of each function, prototypes included. -/
  functionScopes : Std.TreeMap DeclId ScopeId := ∅
  /-- The scope of each block that has one of its own. -/
  blockScopes : Std.TreeMap StmtId ScopeId := ∅
  /-- The declaration each use of a name refers to. -/
  idents : Std.TreeMap IdentId Decl := ∅
  /-- The outermost scope, with the built-in names. -/
  root : ScopeId
  file : ScopeId

namespace Resolution

def declOf? (r : Resolution) (ident : Ident) : Option Decl := r.idents[ident.id]?

/-- What a name stands for at file level: its definition if it has one, else its first declaration. -/
def fileBinding? (r : Resolution) (name : String) : Option Decl :=
  (r.scopes.get? r.file).bind (·.get? name)

end Resolution

/-- A resolution in progress. `sharesScope` says that the next block to be entered is the
body of the function entered last. -/
structure Resolver where
  resolution : Resolution
  current : ScopeId
  sharesScope : Bool := false

namespace Resolver

/-- Opens a scope inside the current one. -/
def enterScope (r : Resolver) (kind : ScopeKind) : Resolver :=
  let (scope, scopes) := r.resolution.scopes.create (some r.current) kind
  { r with resolution.scopes := scopes, current := scope }

def leaveScope (r : Resolver) : Resolver :=
  match r.resolution.scopes.parent? r.current with
  | some outer => { r with current := outer }
  | none => r

/-- Declares a name in the current scope. The names at file level are bound beforehand. -/
def declare (r : Resolver) (d : Decl) : Except ResolveError Resolver :=
  if r.current = r.resolution.file then .ok r
  else do
    let (_, scopes) ← r.resolution.scopes.insert r.current d
    return { r with resolution.scopes := scopes }

def enterFunction (r : Resolver) (id : DeclId) (hasBody : Bool) : Resolver :=
  let r := { r with sharesScope := hasBody }.enterScope .function
  { r with resolution.functionScopes := r.resolution.functionScopes.insert id r.current }

def enterBlock (r : Resolver) (id : StmtId) : Resolver :=
  if r.sharesScope then { r with sharesScope := false }
  else
    let r := r.enterScope .block
    { r with resolution.blockScopes := r.resolution.blockScopes.insert id r.current }

/-- Looks a name up from the current scope. -/
def use (r : Resolver) (ident : Ident) : Except ResolveError Resolver :=
  match r.resolution.scopes.lookup r.current ident.name with
  | some d => .ok { r with resolution.idents := r.resolution.idents.insert ident.id d }
  | none =>
    let visible := r.resolution.scopes.visibleNames r.current
    .error (.undeclared ident.name ident.span (Similar.suggestions ident.name visible))

/-- One event of the traversal. A function without a body closes its scope itself; otherwise
the block that is its body does. -/
def step (r : Resolver) : Event → Except ResolveError Resolver
  | .enter (.decl d) => do
    let r ← r.declare d
    match d with
    | .func id _ _ _ body => return r.enterFunction id body.isSome
    | _ => return r
  | .enter (.stmt (.block id ..)) => .ok (r.enterBlock id)
  | .enter (.ident ident) => r.use ident
  | .leave (.stmt (.block ..)) => .ok r.leaveScope
  | .leave (.decl (.func _ _ _ _ none)) => .ok r.leaveScope
  | _ => .ok r

end Resolver

/-- Inserts declarations one after another. -/
def ScopeTree.insertAll (t : ScopeTree) (s : ScopeId) (decls : List Decl) :
    Except ResolveError ScopeTree :=
  decls.foldlM (fun t d => return (← t.insert s d).2) t

namespace Program

/-- The scope of the file, inside the scope of the built-in names, with all top-level
declarations bound. -/
def openFile (p : Program) : Except ResolveError Resolver := do
  let (root, scopes) := ScopeTree.create {} none .universal
  let scopes ← scopes.insertAll root Decl.builtins
  let (file, scopes) := scopes.create (some root) .file
  let scopes ← scopes.insertAll file p.file
  return { resolution := { scopes, root, file }, current := file }

def resolve (p : Program) : Except ResolveError Resolution := do
  let start ← p.openFile
  let final ← p.events.foldlM Resolver.step start
  return final.resolution

end Program

end MicroC
