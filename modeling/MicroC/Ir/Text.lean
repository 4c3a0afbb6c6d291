import MicroC.Ir.Module

/-!
The text of modules. Parameters, named instructions and blocks are written with their
names; the remaining instructions that have a result are numbered in the order in
which they stand.
-/

namespace MicroC.Ir

/-- The written names of the results in a sequence of instructions, numbered from `next`. -/
def resultNames : Nat → List Instruction → List (InstId × String)
  | _, [] => []
  | next, inst :: rest =>
    match inst.name with
    | some name => (inst.id, name) :: resultNames next rest
    | none =>
      if inst.type = .void then resultNames next rest
      else (inst.id, toString next) :: resultNames (next + 1) rest

/-- The names that stand for the operands of one function. -/
structure Naming where
  params : List String
  labels : List String
  results : List (InstId × String)

namespace Naming

def ofFunction (f : Function) : Naming where
  params := f.params.map (·.name)
  labels := f.blocks.map (·.label)
  results := resultNames 0 f.insts

def value (n : Naming) : Value → String
  | .const constant => constant.text
  | .inst id _ =>
    match n.results.lookup id with
    | some name => "%" ++ name
    | none => "%<inst " ++ toString id ++ ">"
  | .param index _ =>
    match n.params[index]? with
    | some name => "%" ++ name
    | none => "%<param " ++ toString index ++ ">"
  | .global name _ | .function name _ => "@" ++ name

def typed (n : Naming) (v : Value) : String := v.type.text ++ " " ++ n.value v

def label (n : Naming) (block : BlockId) : String :=
  match n.labels[block]? with
  | some label => label
  | none => BlockId.text block

/-- An operation; `type` is that of its result. -/
def operation (n : Naming) (type : Ty) : Operation → String
  | .alloca allocated => "alloca " ++ allocated.text
  | .load pointer => "load " ++ type.text ++ ", " ++ n.typed pointer
  | .store value pointer => "store " ++ n.typed value ++ ", " ++ n.typed pointer
  | .binary op lhs rhs =>
    op.text ++ " " ++ lhs.type.text ++ " " ++ n.value lhs ++ ", " ++ n.value rhs
  | .cmp predicate lhs rhs =>
    "cmp " ++ predicate.text ++ " " ++ lhs.type.text ++ " " ++ n.value lhs ++ ", " ++ n.value rhs
  | .unary op operand => op.text ++ " " ++ n.typed operand
  | .call callee args =>
    "call " ++ type.text ++ " " ++ n.value callee ++ "(" ++ ", ".intercalate (args.map n.typed) ++ ")"
  | .elementAddr base index => "elementaddr " ++ n.typed base ++ ", " ++ n.typed index

def instruction (n : Naming) (inst : Instruction) : String :=
  match n.results.lookup inst.id with
  | some name => "%" ++ name ++ " = " ++ n.operation inst.type inst.operation
  | none => n.operation inst.type inst.operation

def terminator (n : Naming) : Terminator → String
  | .br target => "br label %" ++ n.label target
  | .condBr cond onTrue onFalse =>
    "br " ++ n.typed cond ++ ", label %" ++ n.label onTrue ++ ", label %" ++ n.label onFalse
  | .ret none => "ret void"
  | .ret (some value) => "ret " ++ n.typed value

/-- A block as lines. -/
def block (n : Naming) (b : Block) : List String :=
  (b.label ++ ":") :: b.insts.map (fun inst => "  " ++ n.instruction inst) ++
    [match b.terminator with
      | some terminator => "  " ++ n.terminator terminator
      | none => "  ; no terminator"]

end Naming

/-- Lines, each with its end. -/
def unlines (lines : List String) : String := String.join (lines.map (· ++ "\n"))

namespace Function

def headParams (f : Function) : String :=
  ", ".intercalate (f.params.map fun p => p.type.text ++ " %" ++ p.name)

/-- A function as lines; an empty line stands between two blocks. -/
def lines (f : Function) : List String :=
  if f.isDeclaration then
    ["declare " ++ f.result.text ++ " @" ++ f.name ++ "(" ++
      ", ".intercalate (f.params.map (·.type.text)) ++ ")"]
  else
    ("define " ++ f.result.text ++ " @" ++ f.name ++ "(" ++ f.headParams ++ ") \x7b") ::
      [""].intercalate (f.blocks.map (Naming.ofFunction f).block) ++ ["\x7d"]

def text (f : Function) : String := unlines f.lines

end Function

def Global.line (g : Global) : String :=
  "@" ++ g.name ++ " = global " ++ g.type.text ++ " " ++ g.init.text

def Module.text (m : Module) : String :=
  unlines (("; module " ++ m.name) :: m.globals.map (·.line) ++
    m.functions.flatMap fun f => "" :: f.lines)

end MicroC.Ir
