import MicroC.Constant.Scalar
import MicroC.Lowering.Machine

/-!
Storage and what can be done with it. Storage consists of objects: the global variables, and
the slots in the frames of the calls that are going on. An object is a row of cells, each with
an integer. A computation relates the storage before it to its results and the storage after
it; it may have several results, and it has none if it goes wrong. A call is given only the
objects that it can name: the global variables and the arrays that are passed to it.
-/

namespace MicroC

/-- A storage object. The frames of calls are told apart by their depth. -/
inductive Object where
  | global (name : String)
  | slot (depth number : Nat)
deriving DecidableEq, Repr

/-- What an expression or an instruction can yield. -/
inductive Datum where
  | int (value : Int)
  | address (object : Object) (cell : Int)
  | function (name : String)
  | none
deriving DecidableEq, Repr, Inhabited

abbrev Memory := Object → List Int

namespace Memory

def read? (M : Memory) (object : Object) (cell : Int) : Option Int :=
  if 0 ≤ cell then (M object)[cell.toNat]? else none

def write? (M : Memory) (object : Object) (cell value : Int) : Option Memory :=
  if 0 ≤ cell ∧ cell.toNat < (M object).length then
    some fun o => if o = object then (M object).set cell.toNat value else M o
  else none

/-- The storage with other contents in the frame at a depth. -/
def withFrame (M : Memory) (depth : Nat) (frame : Nat → List Int) : Memory
  | .global name => M (.global name)
  | .slot k number => if k = depth then frame number else M (.slot k number)

/-- The storage after a call has ended. -/
def dropFrame (M : Memory) (depth : Nat) : Memory := M.withFrame depth fun _ => []

end Memory

/-- Whether a call with the given arguments can name an object. -/
def Object.isShared (args : List Datum) : Object → Bool
  | .global _ => true
  | object => args.any fun
    | .address o _ => o == object
    | _ => false

namespace Memory

/-- What a call with the given arguments is given. -/
def share (M : Memory) (args : List Datum) : Memory :=
  fun object => if object.isShared args then M object else []

/-- The storage after a call has left its part of it behind. -/
def join (M : Memory) (args : List Datum) (after : Memory) : Memory :=
  fun object => if object.isShared args then after object else M object

end Memory

/-- A computation, as a relation between the storage before, a result and the storage after. -/
def Action (α : Type) : Type := Memory → α → Memory → Prop

/-- Which calls are possible: the depth of the new frame, the name of the function, the
arguments, what the call is given, its result and what it leaves behind. -/
abbrev Calls := Nat → String → List Datum → Memory → Option Int → Memory → Prop

namespace Action

instance : Monad Action where
  pure x := fun M y M' => y = x ∧ M' = M
  bind m f := fun M y M' => ∃ x M₁, m M x M₁ ∧ f x M₁ y M'

variable {α β : Type} {M M' : Memory}

@[simp] theorem pure_iff {x y : α} : (pure x : Action α) M y M' ↔ y = x ∧ M' = M := Iff.rfl

@[simp] theorem bind_iff {m : Action α} {f : α → Action β} {y : β} :
    (m >>= f) M y M' ↔ ∃ x M₁, m M x M₁ ∧ f x M₁ y M' := Iff.rfl

/-- The computation that goes wrong. -/
def fail : Action α := fun _ _ _ => False

@[simp] theorem fail_iff {x : α} : (fail : Action α) M x M' ↔ False := Iff.rfl

instance : LawfulMonad Action := by
  refine .mk' Action ?_ ?_ ?_
  · intro α m
    funext M y M'
    refine propext ⟨?_, fun h => ⟨y, M', h, rfl, rfl⟩⟩
    rintro ⟨_, _, h, rfl, rfl⟩
    exact h
  · intro α β x f
    funext M y M'
    refine propext ⟨?_, fun h => ⟨x, M, ⟨rfl, rfl⟩, h⟩⟩
    rintro ⟨_, _, ⟨rfl, rfl⟩, h⟩
    exact h
  · intro α β γ m f g
    funext M z M'
    simp only [bind_iff, eq_iff_iff]
    constructor
    · rintro ⟨y, M₂, ⟨x, M₁, hm, hf⟩, hg⟩
      exact ⟨x, M₁, hm, y, M₂, hf, hg⟩
    · rintro ⟨x, M₁, hm, y, M₂, hf, hg⟩
      exact ⟨y, M₂, ⟨x, M₁, hm, hf⟩, hg⟩

def ofOption : Option α → Action α
  | some x => pure x
  | none => fail

end Action

namespace Datum

/-- The number that a datum is. -/
def toInt : Datum → Action Int
  | .int value => pure value
  | _ => Action.fail

/-- The address of an element of the array at an address; an element has `size` cells. -/
def element (size : Nat) : Datum → Datum → Action Datum
  | .address object cell, .int index => pure (.address object (cell + index * size))
  | _, _ => Action.fail

/-- The value of a call. -/
def ofResult : Option Int → Datum
  | some value => .int value
  | Option.none => .none

end Datum

namespace Action

/-- Reads the cell at an address. -/
def load : Datum → Action Datum
  | .address object cell => fun M x M' => M' = M ∧ ∃ n, M.read? object cell = some n ∧ x = .int n
  | _ => fail

/-- Writes a number to the cell at an address. -/
def store : Datum → Datum → Action Unit
  | .address object cell, .int value => fun M _ M' => M.write? object cell value = some M'
  | _, _ => fail

/-- Whether a condition holds. -/
def test (cond : Action Datum) : Action Bool := do
  let value ← cond
  let n ← value.toInt
  return n ≠ 0

/-- Calls a function; its frame is at the given depth. -/
def call (calls : Calls) (depth : Nat) (name : String) (args : List Datum) : Action Datum :=
  fun M x M' => ∃ result after, calls depth name args (M.share args) result after ∧
    x = .ofResult result ∧ M' = M.join args after

end Action

/-- How a statement ends: the next one follows, or the function returns. -/
inductive Exit where
  | next
  | ret (value : Option Int)
deriving DecidableEq, Repr

/-- What a function gives back if its body ends so. -/
def Exit.result : Exit → Option Int
  | .next => none
  | .ret value => value

/-- The rounds of a loop. -/
inductive Action.Loop (cond : Action Bool) (body : Action Exit) : Memory → Exit → Memory → Prop
  | done {M M' : Memory} : cond M false M' → Loop cond body M .next M'
  | round {M M₁ M₂ M' : Memory} {exit : Exit} : cond M true M₁ → body M₁ .next M₂ →
    Loop cond body M₂ exit M' → Loop cond body M exit M'
  | leave {M M₁ M' : Memory} {value : Option Int} : cond M true M₁ → body M₁ (.ret value) M' →
    Loop cond body M (.ret value) M'

/-- Goes on while the condition holds and the body does not return. -/
def Action.loop (cond : Action Bool) (body : Action Exit) : Action Exit := Action.Loop cond body

/-! Two's complement arithmetic. -/

/-- The number of the type with the same low bits. -/
def Scalar.wrap : Scalar → Int → Int
  | .char, n => n.bmod 256
  | .int, n => n.bmod 4294967296

/-- The number of the machine type with the same low bits. -/
def Ir.Ty.wrap : Ir.Ty → Int → Int
  | .i8, n => n.bmod 256
  | .i32, n => n.bmod 4294967296
  | _, n => n

/-! Sizes in cells. -/

/-- How many cells a variable of the type has. -/
def Ty.cells : Ty → Nat
  | .basic _ => 1
  | .array _ len => len.getD 0
  | .func .. => 0

def Ir.Ty.cells : Ir.Ty → Nat
  | .i8 | .i32 | .ptr _ => 1
  | .array elem len => len * elem.cells
  | .void | .func .. => 0

/-! What can be passed to a function. -/

/-- An object that exists before a frame at a depth does. -/
def Object.IsBelow (depth : Nat) : Object → Prop
  | .global _ => True
  | .slot k _ => k < depth

/-- A number for a scalar parameter, an array of a caller or of the program for an array. -/
def Datum.IsArgument (depth : Nat) (isArray : Bool) : Datum → Prop
  | .int _ => isArray = false
  | .address object _ => isArray = true ∧ object.IsBelow depth
  | _ => False

/-- Arguments for parameters of which it is known whether they are arrays. -/
def Datum.AreArguments (depth : Nat) : List Bool → List Datum → Prop
  | [], [] => True
  | isArray :: rest, arg :: args => arg.IsArgument depth isArray ∧ AreArguments depth rest args
  | _, _ => False

end MicroC
