import MicroC.Ir.Instruction
import MicroC.Typing.Ty

/-!
Machine types and machine operators of the language. An array is passed to a
function as the address of its first element.
-/

namespace MicroC

/-- The type in which a value is passed: a pointer to the first element instead of an array. -/
def Ir.Ty.decay : Ir.Ty → Ir.Ty
  | .array elem _ => .ptr elem
  | t => t

namespace Ty

mutual

/-- The machine type of a variable or function. An array of unknown length can only be a
parameter, so it is a pointer to its elements. -/
def machine : Ty → Ir.Ty
  | basic .char => .i8
  | basic .int => .i32
  | basic .void => .void
  | array elem (some len) => .array elem.machine len
  | array elem none => .ptr elem.machine
  | func result params => .func result.machine (machineParams params)

def machineParams : List Ty → List Ir.Ty
  | [] => []
  | param :: params => param.machine.decay :: machineParams params

end

/-- The machine type of a parameter. -/
def machineParam (t : Ty) : Ir.Ty := t.machine.decay

theorem machineParams_eq_map (params : List Ty) : machineParams params = params.map machineParam := by
  induction params with
  | nil => rfl
  | cons p ps ih => simp [machineParams, machineParam, ih]

end Ty

namespace BinaryOp

/-- The arithmetic instruction for an operator. -/
def arithmetic? : BinaryOp → Option Ir.BinaryOp
  | .add => some .add
  | .sub => some .sub
  | .mul => some .mul
  | .div => some .sdiv
  | _ => none

/-- The predicate of the comparison for an operator. -/
def predicate? : BinaryOp → Option Ir.Predicate
  | .eq => some .eq
  | .ne => some .ne
  | .lt => some .slt
  | .gt => some .sgt
  | .le => some .sle
  | .ge => some .sge
  | _ => none

end BinaryOp

def UnaryOp.instruction : UnaryOp → Ir.UnaryOp
  | .neg => .neg
  | .not => .not

end MicroC
