import MicroC.Lowering.Body
import MicroC.Proofs.Meaning.Storage
import MicroC.Proofs.Syntax.Shape

/-!
The meaning of programs. Every parameter and every local variable is a storage object, and a
name denotes the object of the declaration that it resolves to. Operands and arguments are
evaluated from left to right, the right side of an assignment before the index on its left, and
the right operand of `&&` only if the left one is not zero. A call of a function whose body is
known runs that body in a frame with arbitrary contents; what other functions do is given.
-/

namespace MicroC

/-- What the names in a function body stand for during one call. -/
structure Activation where
  analysis : Analysis
  /-- Where the storage of a variable begins. -/
  address : Decl → Datum
  depth : Nat
  calls : Calls

namespace Activation

def declOf (x : Activation) (ident : Ident) : Action Decl :=
  .ofOption (x.analysis.resolution.declOf? ident)

def typeOf (x : Activation) (d : Decl) : Action Ty := .ofOption (x.analysis.types.decl? d)

end Activation

/-! Scalar operations, in the width of their left operand. -/

/-- The scalar type of a value of a type. -/
def Ty.scalar : Ty → Scalar
  | .basic .char => .char
  | _ => .int

/-- The type of the values that a name gives: the variable itself, an element, or the result of
a call. -/
def Analysis.scalar (a : Analysis) (ident : Ident) : Scalar :=
  match (a.resolution.declOf? ident).bind a.types.decl? with
  | some (.array elem _) => elem.scalar
  | some (.func result _) => result.scalar
  | some type => type.scalar
  | none => .int

/-- The scalar type of an expression. Comparisons and `&&` have that of their left operand. -/
def Expr.scalar (a : Analysis) : Expr → Scalar
  | .literal _ (.int _) _ => .int
  | .literal _ (.char _) _ => .char
  | .paren _ _ inner _ => inner.scalar a
  | .name _ ident | .index _ ident _ _ _ | .call _ ident _ _ _ => a.scalar ident
  | .unary _ .neg _ operand => operand.scalar a
  | .unary _ .not _ _ => .int
  | .binary _ _ _ lhs _ => lhs.scalar a

def UnaryOp.eval (width : Scalar) : UnaryOp → Int → Int
  | .neg, n => width.wrap (-n)
  | .not, n => (decide (n = 0)).toInt

/-- Arithmetic wraps around, and a division by zero goes wrong. The other two operators do not
evaluate both operands first. -/
def BinaryOp.eval (width : Scalar) : BinaryOp → Int → Int → Action Int
  | .add, m, n => pure (width.wrap (m + n))
  | .sub, m, n => pure (width.wrap (m - n))
  | .mul, m, n => pure (width.wrap (m * n))
  | .div, m, n => if n = 0 then Action.fail else pure (width.wrap (m.tdiv n))
  | .lt, m, n => pure (decide (m < n)).toInt
  | .gt, m, n => pure (decide (n < m)).toInt
  | .le, m, n => pure (decide (m ≤ n)).toInt
  | .ge, m, n => pure (decide (n ≤ m)).toInt
  | .eq, m, n => pure (decide (m = n)).toInt
  | .ne, m, n => pure (decide (m ≠ n)).toInt
  | .and, _, _ | .assign, _, _ => Action.fail

/-! Expressions. -/

/-- The value of a name. An array is the address of its first element. -/
def Ident.eval (x : Activation) (ident : Ident) : Action Datum := do
  let d ← x.declOf ident
  match ← x.typeOf d with
  | .basic _ => Action.load (x.address d)
  | .array .. => return x.address d
  | .func .. => return .function d.name

/-- The address of an element of an array. -/
def Ident.element (x : Activation) (array : Ident) (position : Action Datum) : Action Datum := do
  let d ← x.declOf array
  let position ← position
  (x.address d).element 1 position

mutual

def Expr.eval (x : Activation) : Expr → Action Datum
  | .literal _ (.int value) _ => return .int value
  | .literal _ (.char byte) _ => return .int (ScalarValue.ofByte byte).value
  | .paren _ _ inner _ => inner.eval x
  | .name _ ident => ident.eval x
  | .index _ array _ position _ => do
    let place ← array.element x (position.eval x)
    Action.load place
  | .call _ callee _ args _ => do
    let d ← x.declOf callee
    let args ← Expr.evalAll x args
    Action.call x.calls (x.depth + 1) d.name args
  | .unary _ op _ operand => do
    let value ← operand.eval x
    let n ← value.toInt
    return .int (op.eval (operand.scalar x.analysis) n)
  | .binary _ op _ lhs rhs =>
    match op with
    | .assign => do
      let value ← rhs.eval x
      let place ← lhs.place x
      Action.store place value
      return value
    | .and => do
      let left ← lhs.eval x
      let m ← left.toInt
      if m = 0 then return .int 0
      else
        let right ← rhs.eval x
        let n ← right.toInt
        return .int (decide (n ≠ 0)).toInt
    | op => do
      let left ← lhs.eval x
      let right ← rhs.eval x
      let m ← left.toInt
      let n ← right.toInt
      return .int (← op.eval (lhs.scalar x.analysis) m n)

/-- The address of the storage that an expression denotes. -/
def Expr.place (x : Activation) : Expr → Action Datum
  | .name _ ident => return x.address (← x.declOf ident)
  | .index _ array _ position _ => array.element x (position.eval x)
  | .paren _ _ inner _ => inner.place x
  | .literal .. | .binary .. | .call .. | .unary .. => Action.fail

def Expr.evalAll (x : Activation) : List Expr → Action (List Datum)
  | [] => return []
  | e :: rest => do
    let value ← e.eval x
    return value :: (← Expr.evalAll x rest)

end

/-! Statements. -/

/-- A declaration stores the initial value, if there is one. -/
def Decl.exec (x : Activation) (d : Decl) : Action Unit :=
  match d with
  | .var _ _ _ _ (some init) => do
    let value ← init.eval x
    Action.store (x.address d) value
  | _ => return ()

mutual

def Stmt.exec (x : Activation) : Stmt → Action Exit
  | .block _ _ items _ => Item.execAll x items
  | .empty .. => return .next
  | .expr _ value => do
    let _ ← value.eval x
    return .next
  | .branch _ _ cond onTrue none => do
    if ← (cond.eval x).test then onTrue.exec x else return .next
  | .branch _ _ cond onTrue (some onFalse) => do
    if ← (cond.eval x).test then onTrue.exec x else onFalse.exec x
  | .ret _ _ none => return .ret none
  | .ret _ _ (some value) => do
    let value ← value.eval x
    return .ret (some (← value.toInt))
  | .loop _ _ cond body => Action.loop (cond.eval x).test (body.exec x)

def Item.execAll (x : Activation) : List Item → Action Exit
  | [] => return .next
  | .decl d :: rest => do
    d.exec x
    Item.execAll x rest
  | .stmt s :: rest => do
    match ← s.exec x with
    | .next => Item.execAll x rest
    | .ret value => return .ret value

end

/-! Functions. -/

def Ty.isArray : Ty → Bool
  | .array .. => true
  | _ => false

namespace Decl

/-- The parameters of a function, with their types. -/
def params (a : Analysis) (f : Decl) : List (Decl × Ty) :=
  match f, a.types.decl? f with
  | .func _ _ _ (.func _ _ _ decls _) _, some (.func _ types) => decls.zip types
  | _, _ => []

/-- The position of the parameter with a number if it is an array, which is passed as it is. -/
def passed (a : Analysis) (f : Decl) (id : DeclId) : Option Nat :=
  (f.params a).findIdx? fun param => param.1.id = id ∧ param.2.isArray

def body? : Decl → Option Stmt
  | .func _ _ _ _ body => body
  | _ => none

/-- Stores the arguments for scalar parameters. An array parameter is the array that is passed. -/
def receive (x : Activation) : List ((Decl × Ty) × Datum) → Action Unit
  | [] => return ()
  | ((_, .array ..), _) :: rest => receive x rest
  | ((d, _), value) :: rest => do
    Action.store (x.address d) value
    receive x rest

end Decl

/-- What the names of the program stand for during a call with the given arguments; `home` gives
the slots of parameters and local variables. -/
def Program.activation (p : Program) (a : Analysis) (home : DeclId → Nat) (calls : Calls)
    (f : Decl) (depth : Nat) (args : List Datum) : Activation where
  analysis := a
  address d :=
    match f.passed a d.id with
    | some k => args.getD k .none
    | none =>
      if p.file.any (·.id = d.id) then .address (.global d.name) 0
      else .address (.slot depth (home d.id)) 0
  depth := depth
  calls := calls

/-- A call of a function: the storage it starts with, with its frame, its result and the storage
it leaves. -/
def Decl.Returns (p : Program) (a : Analysis) (home : DeclId → Nat) (calls : Calls) (f : Decl)
    (depth : Nat) (args : List Datum) (M : Memory) (result : Option Int) (M' : Memory) : Prop :=
  Datum.AreArguments depth ((f.params a).map (·.2.isArray)) args ∧
  ∃ body exit, f.body? = some body ∧ result = exit.result ∧
    (do Decl.receive (p.activation a home calls f depth args) ((f.params a).zip args)
        body.exec (p.activation a home calls f depth args)) M exit M'

/-- The parameters and local variables of a function that are objects of its own. -/
structure Decl.Owns (a : Analysis) (f d : Decl) : Prop where
  entered : .enter (.decl d) ∈ f.events
  isVar : d.isVar
  not_passed : f.passed a d.id = none

/-- The contents of a frame in which every variable has its size. -/
def Decl.Lays (a : Analysis) (home : DeclId → Nat) (f : Decl) (frame : Nat → List Int) : Prop :=
  ∀ d, f.Owns a d → ∀ type, a.types.decl? d = some type → (frame (home d.id)).length = type.cells

namespace Program

/-- The function definition with a name. -/
def definition? (p : Program) (name : String) : Option Decl :=
  p.file.find? fun d => d.name = name ∧ d.body?.isSome

/-- The calls that nest at most to a depth; `other` says what functions without a body do. -/
def callsWithin (p : Program) (a : Analysis) (home : String → DeclId → Nat) (other : Calls) :
    Nat → Calls
  | 0 => fun _ _ _ _ _ _ => False
  | n + 1 => fun depth name args M result M' =>
    match p.definition? name with
    | some f => ∃ frame after, f.Lays a (home name) frame ∧
      f.Returns p a (home name) (p.callsWithin a home other n) depth args (M.withFrame depth frame)
        result after ∧ M' = after.dropFrame depth
    | none => other depth name args M result M'

/-- The calls of functions of the program. -/
def calls (p : Program) (a : Analysis) (home : String → DeclId → Nat) (other : Calls) : Calls :=
  fun depth name args M result M' =>
    ∃ n, p.callsWithin a home other n depth name args M result M'

end Program

end MicroC
