import MicroC.Scope.Resolution

/-!
Lexical scoping by recursion on the program. The names a function or a block declares form
an environment; the environments that are open around a place form a chain, innermost first,
and a name stands for what the first environment that has it says. A function opens one
environment for its parameters and the items of its body, every other block opens one more,
and nothing is bound at file level beyond the top-level declarations themselves.
-/

namespace MicroC

/-- What each name stands for in one function, in one block, or at file level. -/
abbrev Env := String → Option Decl

namespace Env

def empty : Env := fun _ => none

def bind (env : Env) (d : Decl) : Env := fun name => if name = d.name then some d else env name

end Env

/-- What a name stands for after some declarations at file level: the one of them that defines
it, or else the first. -/
def Decl.bindingOf (decls : List Decl) (name : String) : Option Decl :=
  let same := decls.filter (·.name = name)
  (same.find? (·.isDefinition)).or same.head?

/-- Whether two declarations of one name at file level can stand beside each other. -/
def Decl.mergesWith (old new : Decl) : Bool :=
  old.id == new.id || (old.sameSort new && !(old.isDefinition && new.isDefinition))

/-- Compares a top-level declaration with what its name stands for before it. -/
def Decl.merge (earlier : List Decl) (d : Decl) : Except ResolveError Unit :=
  match Decl.bindingOf earlier d.name with
  | none => .ok ()
  | some old =>
    if old.mergesWith d then .ok () else .error (.redeclaration d.name old.span d.span)

def Decl.mergeAll (earlier : List Decl) : List Decl → Except ResolveError Unit
  | [] => .ok ()
  | d :: rest => do
    Decl.merge earlier d
    Decl.mergeAll (earlier ++ [d]) rest

/-- The environments that are open inside the current top-level declaration, and what the uses
of names met so far stand for, the last one first. -/
structure Lexical where
  inner : List Env := []
  uses : List (IdentId × Decl) := []

namespace Lexical

def enter (s : Lexical) : Lexical := { s with inner := .empty :: s.inner }

def leave (s : Lexical) : Lexical := { s with inner := s.inner.tail }

/-- Binds a declaration in the innermost open environment, if there is one. -/
def declare (s : Lexical) (d : Decl) : Except ResolveError Lexical :=
  match s.inner with
  | [] => .ok s
  | env :: rest =>
    match env d.name with
    | none => .ok { s with inner := env.bind d :: rest }
    | some old =>
      if old.id = d.id then .ok s else .error (.redeclaration d.name old.span d.span)

/-- Finds what a name stands for; `outer` are the environments at file level and around it. -/
def use (outer : List Env) (s : Lexical) (ident : Ident) : Except ResolveError Lexical :=
  match (s.inner ++ outer).findSome? (· ident.name) with
  | some d => .ok { s with uses := (ident.id, d) :: s.uses }
  | none => .error (.undeclared ident.name ident.span [])

end Lexical

mutual

def Expr.resolveIn (outer : List Env) : Expr → Lexical → Except ResolveError Lexical
  | .literal .., s => .ok s
  | .binary _ _ _ lhs rhs, s => lhs.resolveIn outer s >>= rhs.resolveIn outer
  | .call _ callee _ args _, s => s.use outer callee >>= Expr.resolveAllIn outer args
  | .name _ ident, s => s.use outer ident
  | .index _ array _ position _, s => s.use outer array >>= position.resolveIn outer
  | .paren _ _ inner _, s => inner.resolveIn outer s
  | .unary _ _ _ operand, s => operand.resolveIn outer s

def Expr.resolveAllIn (outer : List Env) : List Expr → Lexical → Except ResolveError Lexical
  | [], s => .ok s
  | e :: rest, s => e.resolveIn outer s >>= Expr.resolveAllIn outer rest

end

mutual

def TypeExpr.resolveIn (outer : List Env) : TypeExpr → Lexical → Except ResolveError Lexical
  | .named _ ident, s => s.use outer ident
  | .array _ elem _ _ _, s => elem.resolveIn outer s
  | .func _ result _ params _, s => result.resolveIn outer s >>= Decl.resolveAllIn outer params

/-- A declaration is bound before its own type and initializer are looked at. -/
def Decl.resolveIn (outer : List Env) : Decl → Lexical → Except ResolveError Lexical
  | d@(.func _ _ _ signature none), s => do
    let s ← s.declare d
    let s ← signature.resolveIn outer s.enter
    return s.leave
  | d@(.func _ _ _ signature (some (.block _ _ items _))), s => do
    let s ← s.declare d
    let s ← signature.resolveIn outer s.enter
    let s ← Item.resolveAllIn outer items s
    return s.leave
  | d@(.func _ _ _ signature (some body)), s => do
    let s ← s.declare d
    let s ← signature.resolveIn outer s.enter
    let s ← body.resolveIn outer s
    return s.leave
  | d@(.var _ _ _ type none), s => s.declare d >>= type.resolveIn outer
  | d@(.var _ _ _ type (some init)), s => do
    let s ← s.declare d
    let s ← type.resolveIn outer s
    init.resolveIn outer s
  | d@(.basic ..), s => s.declare d
  | d@(.typedef _ _ _ target), s => s.declare d >>= target.resolveIn outer

def Decl.resolveAllIn (outer : List Env) : List Decl → Lexical → Except ResolveError Lexical
  | [], s => .ok s
  | d :: rest, s => d.resolveIn outer s >>= Decl.resolveAllIn outer rest

def Stmt.resolveIn (outer : List Env) : Stmt → Lexical → Except ResolveError Lexical
  | .block _ _ items _, s => do
    let s ← Item.resolveAllIn outer items s.enter
    return s.leave
  | .empty .., s => .ok s
  | .expr _ value, s => value.resolveIn outer s
  | .branch _ _ cond onTrue none, s => cond.resolveIn outer s >>= onTrue.resolveIn outer
  | .branch _ _ cond onTrue (some onFalse), s => do
    let s ← cond.resolveIn outer s
    let s ← onTrue.resolveIn outer s
    onFalse.resolveIn outer s
  | .ret _ _ none, s => .ok s
  | .ret _ _ (some value), s => value.resolveIn outer s
  | .loop _ _ cond body, s => cond.resolveIn outer s >>= body.resolveIn outer

def Item.resolveIn (outer : List Env) : Item → Lexical → Except ResolveError Lexical
  | .decl d, s => d.resolveIn outer s
  | .stmt t, s => t.resolveIn outer s

def Item.resolveAllIn (outer : List Env) : List Item → Lexical → Except ResolveError Lexical
  | [], s => .ok s
  | item :: rest, s => item.resolveIn outer s >>= Item.resolveAllIn outer rest

end

/-- The environments around every top-level declaration. -/
def Program.outerEnvs (p : Program) : List Env :=
  [Decl.bindingOf p.file, Decl.bindingOf Decl.builtins]

/-- What each use of a name stands for, the last use first. -/
def Program.lexicalUses (p : Program) : Except ResolveError (List (IdentId × Decl)) := do
  Decl.mergeAll [] p.file
  let s ← Decl.resolveAllIn p.outerEnvs p.file {}
  return s.uses

/-- An error without the names it suggests. -/
def ResolveError.withoutSuggestions : ResolveError → ResolveError
  | undeclared name span _ => undeclared name span []
  | redeclaration name first second => redeclaration name first second

end MicroC
