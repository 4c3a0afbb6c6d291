import MicroC.Ir.Module
import MicroC.Proofs.Meaning.Storage

/-!
The meaning of the machine code. A run goes through the instructions of a block, whose results
are kept under their numbers, and then where the end of the block leads; it finishes when that is
a return. A stack slot is an object of the frame, with the number of the instruction.
-/

namespace MicroC.Ir

/-- One call of a function. -/
structure Activation where
  depth : Nat
  args : List Datum
  calls : Calls

/-- The results of the instructions so far, and the storage. -/
structure State where
  results : InstId → Datum
  memory : Memory

/-- The state after an instruction. -/
def State.after (s : State) (id : InstId) (result : Datum) (memory : Memory) : State where
  results i := if i = id then result else s.results i
  memory := memory

@[simp] theorem State.after_memory (s : State) (id : InstId) (result : Datum) (memory : Memory) :
    (s.after id result memory).memory = memory := rfl

@[simp] theorem State.after_results_self (s : State) (id : InstId) (result : Datum)
    (memory : Memory) : (s.after id result memory).results id = result := by
  simp [after]

theorem State.after_results_of_ne (s : State) {i id : InstId} (h : i ≠ id) (result : Datum)
    (memory : Memory) : (s.after id result memory).results i = s.results i := by
  simp [after, h]

/-- What an operand stands for. -/
def Value.eval (x : Activation) (results : InstId → Datum) : Value → Datum
  | .const (.int _ value) => .int value
  | .const (.zeroInit _) => .none
  | .inst id _ => results id
  | .param index _ => x.args.getD index .none
  | .global name _ => .address (.global name) 0
  | .function name _ => .function name

/-- Arithmetic wraps around; `sdiv` is undefined for the divisor zero. -/
def BinaryOp.eval (type : Ty) : BinaryOp → Int → Int → Action Int
  | .add, m, n => pure (type.wrap (m + n))
  | .sub, m, n => pure (type.wrap (m - n))
  | .mul, m, n => pure (type.wrap (m * n))
  | .sdiv, m, n => if n = 0 then Action.fail else pure (type.wrap (m.tdiv n))

def Predicate.eval : Predicate → Int → Int → Bool
  | .eq, m, n => m = n
  | .ne, m, n => m ≠ n
  | .slt, m, n => m < n
  | .sgt, m, n => n < m
  | .sle, m, n => m ≤ n
  | .sge, m, n => n ≤ m

def UnaryOp.eval (type : Ty) : UnaryOp → Int → Int
  | .neg, n => type.wrap (-n)
  | .not, n => (decide (n = 0)).toInt

/-- The size of what a pointer type points to. -/
def Ty.stride (type : Ty) : Nat := (type.pointee?.map cells).getD 0

/-- One instruction, given the results so far. -/
def Instruction.run (x : Activation) (results : InstId → Datum) (inst : Instruction) :
    Action Datum :=
  match inst.operation with
  | .alloca _ => return .address (.slot x.depth inst.id) 0
  | .load pointer => Action.load (pointer.eval x results)
  | .store value pointer => do
    Action.store (pointer.eval x results) (value.eval x results)
    return .none
  | .binary op lhs rhs => do
    let m ← (lhs.eval x results).toInt
    let n ← (rhs.eval x results).toInt
    return .int (← op.eval inst.type m n)
  | .cmp predicate lhs rhs => do
    let m ← (lhs.eval x results).toInt
    let n ← (rhs.eval x results).toInt
    return .int (predicate.eval m n).toInt
  | .unary op operand => do
    let n ← (operand.eval x results).toInt
    return .int (op.eval inst.type n)
  | .call callee args =>
    match callee.eval x results with
    | .function name => Action.call x.calls (x.depth + 1) name (args.map (·.eval x results))
    | _ => Action.fail
  | .elementAddr base index => (base.eval x results).element inst.type.stride (index.eval x results)

namespace Instruction

variable (x : Activation) (results : InstId → Datum) {id : InstId} {type : Ty} {name : Option String}

theorem run_load {pointer : Value} :
    (Instruction.mk id (.load pointer) type name).run x results =
      Action.load (pointer.eval x results) := rfl

theorem run_store {value pointer : Value} :
    (Instruction.mk id (.store value pointer) type name).run x results = (do
      Action.store (pointer.eval x results) (value.eval x results)
      return .none) := rfl

theorem run_binary {op : BinaryOp} {lhs rhs : Value} :
    (Instruction.mk id (.binary op lhs rhs) type name).run x results = (do
      let m ← (lhs.eval x results).toInt
      let n ← (rhs.eval x results).toInt
      return .int (← op.eval type m n)) := rfl

theorem run_cmp {predicate : Predicate} {lhs rhs : Value} :
    (Instruction.mk id (.cmp predicate lhs rhs) type name).run x results = (do
      let m ← (lhs.eval x results).toInt
      let n ← (rhs.eval x results).toInt
      return .int (predicate.eval m n).toInt) := rfl

theorem run_unary {op : UnaryOp} {operand : Value} :
    (Instruction.mk id (.unary op operand) type name).run x results = (do
      let n ← (operand.eval x results).toInt
      return .int (op.eval type n)) := rfl

theorem run_call {callee : String} {calleeType : Ty} {args : List Value} :
    (Instruction.mk id (.call (.function callee calleeType) args) type name).run x results =
      Action.call x.calls (x.depth + 1) callee (args.map (·.eval x results)) := rfl

theorem run_elementAddr {base index : Value} :
    (Instruction.mk id (.elementAddr base index) type name).run x results =
      (base.eval x results).element type.stride (index.eval x results) := rfl

end Instruction

namespace Function

/-- Whether a run through the rest of a block comes to a return with the given value and storage
in at most that many steps. -/
def Finishes (f : Function) (x : Activation) :
    Nat → List Instruction → Option Terminator → State → Option Int → Memory → Prop
  | 0, _, _, _, _, _ => False
  | n + 1, inst :: rest, terminator, s, value, M => ∃ result memory,
    inst.run x s.results s.memory result memory ∧
      f.Finishes x n rest terminator (s.after inst.id result memory) value M
  | n + 1, [], some (.br target), s, value, M => ∃ block, f.blocks[target]? = some block ∧
    f.Finishes x n block.insts block.terminator s value M
  | n + 1, [], some (.condBr cond onTrue onFalse), s, value, M => ∃ c block,
    cond.eval x s.results = .int c ∧
      f.blocks[if c = 0 then onFalse else onTrue]? = some block ∧
      f.Finishes x n block.insts block.terminator s value M
  | _ + 1, [], some (.ret none), s, value, M => value = none ∧ M = s.memory
  | _ + 1, [], some (.ret (some operand)), s, value, M => ∃ n, operand.eval x s.results = .int n ∧
    value = some n ∧ M = s.memory
  | _ + 1, [], none, _, _, _ => False

/-- A call of a function: the storage it starts with, with its frame, its result and the storage
it leaves. -/
def Returns (f : Function) (calls : Calls) (depth : Nat) (args : List Datum) (M : Memory)
    (result : Option Int) (M' : Memory) : Prop :=
  Datum.AreArguments depth (f.params.map (·.type.pointee?.isSome)) args ∧
  ∃ entry n, f.blocks.head? = some entry ∧
    f.Finishes ⟨depth, args, calls⟩ n entry.insts entry.terminator ⟨fun _ => .none, M⟩ result M'

/-- The contents of a frame in which every stack slot has its size. -/
def Lays (f : Function) (frame : Nat → List Int) : Prop :=
  ∀ inst ∈ f.insts, ∀ type, inst.operation = .alloca type → (frame inst.id).length = type.cells

end Function

namespace Module

/-- The function with a name, if it has a body. -/
def definition? (m : Module) (name : String) : Option Function :=
  (m.function? name).filter fun f => !f.isDeclaration

/-- The calls that nest at most to a depth; `other` says what functions without a body do. -/
def callsWithin (m : Module) (other : Calls) : Nat → Calls
  | 0 => fun _ _ _ _ _ _ => False
  | n + 1 => fun depth name args M result M' =>
    match m.definition? name with
    | some f => ∃ frame after, f.Lays frame ∧
      f.Returns (m.callsWithin other n) depth args (M.withFrame depth frame) result after ∧
      M' = after.dropFrame depth
    | none => other depth name args M result M'

/-- The calls of functions of the module. -/
def calls (m : Module) (other : Calls) : Calls :=
  fun depth name args M result M' => ∃ n, m.callsWithin other n depth name args M result M'

end Module

end MicroC.Ir
