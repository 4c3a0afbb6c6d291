import MicroC.Ir.Instruction

/-!
Functions, global variables and modules. The first block of a function is its
entry; a function without blocks is only declared.
-/

namespace MicroC.Ir

structure Param where
  name : String
  type : Ty
deriving DecidableEq, Repr

structure Function where
  name : String
  result : Ty
  params : List Param
  blocks : List Block := []
deriving DecidableEq, Repr

namespace Function

def type (f : Function) : Ty := .func f.result (f.params.map (·.type))

def isDeclaration (f : Function) : Bool := f.blocks.isEmpty

/-- The instructions of all blocks, in the order of the blocks. -/
def insts (f : Function) : List Instruction := f.blocks.flatMap (·.insts)

end Function

structure Global where
  name : String
  type : Ty
  init : Constant
deriving DecidableEq, Repr

/-- The storage of a global variable, as an operand. -/
def Global.address (g : Global) : Value := .global g.name (.ptr g.type)

structure Module where
  name : String
  functions : List Function := []
  globals : List Global := []
deriving DecidableEq, Repr

namespace Module

def addFunction (m : Module) (f : Function) : Module := { m with functions := m.functions ++ [f] }

def addGlobal (m : Module) (g : Global) : Module := { m with globals := m.globals ++ [g] }

def function? (m : Module) (name : String) : Option Function := m.functions.find? (·.name = name)

def global? (m : Module) (name : String) : Option Global := m.globals.find? (·.name = name)

end Module

end MicroC.Ir
