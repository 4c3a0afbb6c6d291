import MicroC.Lowering.Error
import MicroC.Lowering.Machine
import MicroC.Typing.Check

/-!
Code for statements and expressions. Scalars live in stack slots: every read is a load
and every assignment a store. `if`, `while` and `&&` make blocks; a block that no path
can reach is not made, and statements after a `return` emit nothing.
-/

namespace MicroC

/-- What is known about the names and declarations of a program. -/
structure Analysis where
  resolution : Resolution
  types : TypeTable

namespace Analysis

def declOf (a : Analysis) (ident : Ident) : Except LowerError Decl :=
  match a.resolution.declOf? ident with
  | some d => .ok d
  | none => .error (.unresolved ident.span)

def typeOf (a : Analysis) (d : Decl) : Except LowerError Ty :=
  match a.types.decl? d with
  | some type => .ok type
  | none => .error (.missingType "declaration" d.span)

end Analysis

/-- A declaration that cannot be used as its use requires. -/
def LowerError.unexpected (d : Decl) (expected : String) (span : Span) : LowerError :=
  .unexpectedDecl d.name expected span

abbrev LowerM := StateT Ir.Builder (Except LowerError)

namespace LowerM

/-- An operation of the builder; its errors are internal. -/
def build {α : Type} (op : Ir.Builder → Ir.Outcome α) : LowerM α := fun b =>
  match op b with
  | (.ok value, b) => .ok (value, b)
  | (.error error, _) => .error (.ir error)

def newBlock (label : String) : LowerM Ir.BlockId := modifyGet (·.newBlock label)

def selectBlock (block : Ir.BlockId) : LowerM Unit := build (·.selectBlock block)

def terminate (terminator : Ir.Terminator) : LowerM Unit := build (·.terminate terminator)

def emit (operation : Ir.Operation) (type : Ir.Ty) : LowerM Ir.Value := build (·.emit operation type)

def allocate (binding : Option (DeclId × String)) (type : Ir.Ty) : LowerM Ir.Value :=
  build (·.emitAlloca binding type)

/-- Whether a block is selected. -/
def isOpen : LowerM Bool := return (← get).current.isSome

def load (pointer : Ir.Value) (type : Ir.Ty) : LowerM Ir.Value := emit (.load pointer) type

def store (value pointer : Ir.Value) : LowerM Unit := discard (emit (.store value pointer) .void)

/-- Compares a value with zero. -/
def isNonzero (value : Ir.Value) : LowerM Ir.Value :=
  emit (.cmp .ne value (.int value.type 0)) value.type

end LowerM

/-- What guides the lowering of a function body: what a name stands for, the type of a declaration,
and what becomes of the code of an expression. -/
structure Guide where
  declOf : Ident → Except LowerError Decl
  typeOf : Decl → Except LowerError Ty
  operand : Expr → LowerM Ir.Value → LowerM Ir.Value

/-- Names and types are read from the tables, and the code of an expression is emitted as it is. -/
abbrev Analysis.guide (a : Analysis) : Guide where
  declOf := a.declOf
  typeOf := a.typeOf
  operand _ code := code

instance : Coe Analysis Guide := ⟨Analysis.guide⟩

open LowerM

/-- The storage of a variable: its stack slot, the pointer passed for an array parameter, or
the address of a global variable. -/
def Decl.address (g : Guide) (d : Decl) (span : Span) : LowerM Ir.Value := do
  match (← get).binding? d.id with
  | some value => return value
  | none =>
    match d with
    | .var _ name .. => return .global name (.ptr (← g.typeOf d).machine)
    | _ => throw (.unexpected d "variable" span)

/-- A function as an operand, and the type of its result. -/
def Decl.functionValue (g : Guide) (d : Decl) (span : Span) :
    Except LowerError (Ir.Value × Ir.Ty) := do
  match d, ← g.typeOf d with
  | .func _ name .., type@(.func result _) =>
    return (.function name type.machine, result.machine)
  | _, _ => throw (.unexpected d "function" span)

/-- The value of a name. An array is the address of its first element. -/
def Ident.read (g : Guide) (ident : Ident) : LowerM Ir.Value := do
  let d ← g.declOf ident
  match ← g.typeOf d with
  | .func .. => return (← d.functionValue g ident.span).1
  | .array elem (some _) =>
    let base ← d.address g ident.span
    emit (.elementAddr base (.int .i32 0)) (.ptr elem.machine)
  | .array _ none => d.address g ident.span
  | scalar@(.basic _) =>
    let address ← d.address g ident.span
    load address scalar.machine

/-- The address of an element, and its type; `index` emits the code of the index. -/
def Ident.elementAddress (g : Guide) (array : Ident) (index : LowerM Ir.Value) :
    LowerM (Ir.Value × Ir.Ty) := do
  let d ← g.declOf array
  match ← g.typeOf d with
  | .array elem _ =>
    let base ← d.address g array.span
    let index ← index
    let address ← emit (.elementAddr base index) (.ptr elem.machine)
    return (address, elem.machine)
  | _ => throw (.unexpected d "array" array.span)

/-- The instruction of an operator other than `=` and `&&`. -/
def BinaryOp.emit (op : BinaryOp) (opSpan : Span) (lhs rhs : Ir.Value) : LowerM Ir.Value :=
  match op.predicate?, op.arithmetic? with
  | some predicate, _ => LowerM.emit (.cmp predicate lhs rhs) lhs.type
  | none, some op => LowerM.emit (.binary op lhs rhs) lhs.type
  | none, none => throw (.unexpectedOperator op opSpan)

/-- The code of `&&`: a slot receives the truth of the left operand and, if that holds, then
that of the right one. -/
def Expr.emitAnd (lhs rhs : LowerM Ir.Value) : LowerM Ir.Value := do
  let left ← lhs
  let slot ← allocate none left.type
  let holds ← isNonzero left
  store holds slot
  let rhsBlock ← newBlock "and.rhs"
  let endBlock ← newBlock "and.end"
  terminate (.condBr holds rhsBlock endBlock)
  selectBlock rhsBlock
  let right ← rhs
  let holds ← isNonzero right
  store holds slot
  terminate (.br endBlock)
  selectBlock endBlock
  load slot left.type

mutual

/-- Emits the code of an expression and gives the operand that holds its value. The right side
of an assignment is evaluated before the index on its left. -/
def Expr.lower (g : Guide) (e : Expr) : LowerM Ir.Value :=
  g.operand e <| match e with
    | .literal _ (.int value) _ => return .int .i32 value
    | .literal _ (.char byte) _ => return .int .i8 (ScalarValue.ofByte byte).value
    | .paren _ _ inner _ => inner.lower g
    | .name _ ident => ident.read g
    | .index _ array _ position _ => do
      let (address, elem) ← array.elementAddress g (position.lower g)
      load address elem
    | .call _ callee _ args _ => do
      let d ← g.declOf callee
      let (callee, result) ← d.functionValue g callee.span
      let args ← Expr.lowerAll g args
      emit (.call callee args) result
    | .unary _ op _ operand => do
      let operand ← operand.lower g
      let type := match op with
        | .neg => operand.type
        | .not => .i32
      emit (.unary op.instruction operand) type
    | .binary _ op opSpan lhs rhs =>
      match op with
      | .assign => do
        let value ← rhs.lower g
        let pointer ← lhs.lowerPlace g
        store value pointer
        return value
      | .and => Expr.emitAnd (lhs.lower g) (rhs.lower g)
      | op => do
        let left ← lhs.lower g
        let right ← rhs.lower g
        op.emit opSpan left right

/-- Emits the code that finds the storage an expression denotes. -/
def Expr.lowerPlace (g : Guide) : Expr → LowerM Ir.Value
  | .name _ ident => do
    let d ← g.declOf ident
    d.address g ident.span
  | .index _ array _ position _ => return (← array.elementAddress g (position.lower g)).1
  | .paren _ _ inner _ => inner.lowerPlace g
  | e@(.literal ..) | e@(.binary ..) | e@(.call ..) | e@(.unary ..) => throw (.notAnLvalue e.span)

/-- Emits the code of expressions from left to right. -/
def Expr.lowerAll (g : Guide) : List Expr → LowerM (List Ir.Value)
  | [] => return []
  | e :: rest => do
    let value ← e.lower g
    return value :: (← Expr.lowerAll g rest)

end

/-- Makes the slot of a local variable and stores its initial value. -/
def Decl.lowerLocal (g : Guide) (d : Decl) : LowerM Unit := do
  match d with
  | .var id name _ _ init =>
    let type ← g.typeOf d
    let slot ← allocate (some (id, name)) type.machine
    match init with
    | none => return ()
    | some init =>
      let value ← init.lower g
      store value slot
  | .func .. => throw (.unsupported "function declaration inside a function body" d.span)
  | .basic .. | .typedef .. => throw (.unsupported "type alias inside a function body" d.span)

/-- Ends a branch that is still open by a jump to the block after the statement, which is made
when the first branch needs it. -/
def Stmt.joinBranch (merge : Option Ir.BlockId) : LowerM (Option Ir.BlockId) := do
  if ← isOpen then
    let target ← match merge with
      | some target => pure target
      | none => newBlock "if.end"
    terminate (.br target)
    return some target
  else return merge

mutual

def Stmt.lower (g : Guide) : Stmt → LowerM Unit
  | .block _ _ items _ => Item.lowerAll g items
  | .empty .. => return ()
  | .expr _ value => discard (value.lower g)
  | .branch _ _ cond onTrue none => do
    let cond ← cond.lower g
    let thenBlock ← newBlock "if.then"
    let endBlock ← newBlock "if.end"
    terminate (.condBr cond thenBlock endBlock)
    selectBlock thenBlock
    onTrue.lower g
    let _ ← Stmt.joinBranch (some endBlock)
    selectBlock endBlock
  | .branch _ _ cond onTrue (some onFalse) => do
    let cond ← cond.lower g
    let thenBlock ← newBlock "if.then"
    let elseBlock ← newBlock "if.else"
    terminate (.condBr cond thenBlock elseBlock)
    selectBlock thenBlock
    onTrue.lower g
    let merge ← Stmt.joinBranch none
    selectBlock elseBlock
    onFalse.lower g
    match ← Stmt.joinBranch merge with
    | some endBlock => selectBlock endBlock
    | none => return ()
  | .ret _ _ none => terminate (.ret none)
  | .ret _ _ (some value) => do
    let value ← value.lower g
    terminate (.ret (some value))
  | .loop _ _ cond body => do
    let header ← newBlock "while.cond"
    terminate (.br header)
    selectBlock header
    let cond ← cond.lower g
    let bodyBlock ← newBlock "while.body"
    let endBlock ← newBlock "while.end"
    terminate (.condBr cond bodyBlock endBlock)
    selectBlock bodyBlock
    body.lower g
    if ← isOpen then terminate (.br header)
    selectBlock endBlock

def Item.lower (g : Guide) : Item → LowerM Unit
  | .decl d => d.lowerLocal g
  | .stmt s => s.lower g

/-- Emits the code of the items of a block, as far as they can be reached. -/
def Item.lowerAll (g : Guide) : List Item → LowerM Unit
  | [] => return ()
  | item :: rest => do
    if ← isOpen then
      item.lower g
      Item.lowerAll g rest
    else return ()

end

end MicroC
