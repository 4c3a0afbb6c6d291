import MicroC.Ir.Ty

/-!
Operands, instructions and the ends of blocks. An operand carries its type; the
result of an instruction is named by the number of the instruction.
-/

namespace MicroC.Ir

abbrev BlockId := Nat
abbrev InstId := Nat

/-- How a block is written where it has no label. -/
def BlockId.text (block : BlockId) : String := "bb" ++ toString block

inductive Constant where
  | int (type : Ty) (value : Int)
  | zeroInit (type : Ty)
deriving DecidableEq, Repr

namespace Constant

/-- The value with all bits zero. -/
def zero (type : Ty) : Constant := if type.isInteger then .int type 0 else .zeroInit type

def type : Constant → Ty
  | int type _ | zeroInit type => type

def text : Constant → String
  | int _ value => toString value
  | zeroInit _ => "zeroinitializer"

theorem type_zero (t : Ty) : (zero t).type = t := by
  unfold zero
  split <;> rfl

end Constant

inductive Value where
  | const (constant : Constant)
  | inst (id : InstId) (type : Ty)
  | param (index : Nat) (type : Ty)
  | global (name : String) (type : Ty)
  | function (name : String) (type : Ty)
deriving DecidableEq, Repr

namespace Value

def int (type : Ty) (value : Int) : Value := .const (.int type value)

def type : Value → Ty
  | const constant => constant.type
  | inst _ type | param _ type | global _ type | function _ type => type

end Value

inductive BinaryOp where
  | add | sub | mul | sdiv
deriving DecidableEq, Repr, Inhabited

def BinaryOp.text : BinaryOp → String
  | .add => "add"
  | .sub => "sub"
  | .mul => "mul"
  | .sdiv => "sdiv"

inductive Predicate where
  | eq | ne | slt | sgt | sle | sge
deriving DecidableEq, Repr, Inhabited

def Predicate.text : Predicate → String
  | .eq => "eq"
  | .ne => "ne"
  | .slt => "slt"
  | .sgt => "sgt"
  | .sle => "sle"
  | .sge => "sge"

inductive UnaryOp where
  | neg | not
deriving DecidableEq, Repr, Inhabited

def UnaryOp.text : UnaryOp → String
  | .neg => "neg"
  | .not => "not"

inductive Operation where
  | alloca (type : Ty)
  | load (pointer : Value)
  | store (value pointer : Value)
  | binary (op : BinaryOp) (lhs rhs : Value)
  | cmp (predicate : Predicate) (lhs rhs : Value)
  | unary (op : UnaryOp) (operand : Value)
  | call (callee : Value) (args : List Value)
  | elementAddr (base index : Value)
deriving DecidableEq, Repr

/-- One instruction, with the type of its result. -/
structure Instruction where
  id : InstId
  operation : Operation
  type : Ty
  name : Option String := none
deriving DecidableEq, Repr

inductive Terminator where
  | br (target : BlockId)
  | condBr (cond : Value) (onTrue onFalse : BlockId)
  | ret (value : Option Value)
deriving DecidableEq, Repr

def Terminator.successors : Terminator → List BlockId
  | .br target => [target]
  | .condBr _ onTrue onFalse => [onTrue, onFalse]
  | .ret _ => []

/-- A straight line of instructions. Only a function under construction has blocks without
a terminator. -/
structure Block where
  id : BlockId
  label : String
  insts : List Instruction := []
  terminator : Option Terminator := none
deriving DecidableEq, Repr

end MicroC.Ir
