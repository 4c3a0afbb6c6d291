import MicroC.Constant.Scalar
import MicroC.Proofs.Ir.Cursor

/-!
Well-typed code. Every operation states what the types of its operands have to do with the
type of its result, a function returns just what its result type says, and constants lie in
the ranges of their types. A function under construction stays well typed if what is added
to it is.
-/

namespace MicroC.Ir

/-- An integer constant is of one of the two widths and lies in its range. -/
def Constant.InRange : Constant → Prop
  | .int .i8 value => Scalar.char.Fits value
  | .int .i32 value => Scalar.int.Fits value
  | .int _ _ => False
  | .zeroInit _ => True

theorem Constant.zero_inRange (type : Ty) : (Constant.zero type).InRange := by
  cases type with
  | i8 | i32 => exact ⟨by decide, by decide⟩
  | void | array _ _ | ptr _ | func _ _ => trivial

/-- What can be an operand has a type other than `void`. -/
structure Value.IsOperand (v : Value) : Prop where
  ne_void : v.type ≠ .void
  inRange : ∀ c, v = .const c → c.InRange

def Operation.operands : Operation → List Value
  | .alloca _ => []
  | .load pointer => [pointer]
  | .store value pointer => [value, pointer]
  | .binary _ lhs rhs | .cmp _ lhs rhs => [lhs, rhs]
  | .unary _ operand => [operand]
  | .call callee args => callee :: args
  | .elementAddr base index => [base, index]

/-- The result type that an operation gives, by the types of its operands. -/
def Operation.Gives : Operation → Ty → Prop
  | .alloca slot, type => type = .ptr slot
  | .load pointer, type => pointer.type = .ptr type
  | .store value pointer, type => pointer.type = .ptr value.type ∧ type = .void
  | .binary _ lhs rhs, type | .cmp _ lhs rhs, type =>
    type.isInteger ∧ lhs.type = type ∧ rhs.type = type
  | .unary .neg operand, type => type.isInteger ∧ operand.type = type
  | .unary .not operand, type => operand.type.isInteger ∧ type = .i32
  | .call callee args, type => callee.type = .func type (args.map Value.type)
  | .elementAddr base index, type =>
    index.type.isInteger ∧ ∃ elem, type = .ptr elem ∧
      (base.type = .ptr elem ∨ ∃ len, base.type = .ptr (.array elem len))

structure Instruction.WellTyped (inst : Instruction) : Prop where
  gives : inst.operation.Gives inst.type
  operands : ∀ v ∈ inst.operation.operands, v.IsOperand

/-- The end of a block in a function with a given result type. -/
def Terminator.WellTyped (result : Ty) : Terminator → Prop
  | .br _ => True
  | .condBr cond _ _ => cond.type.isInteger ∧ cond.IsOperand
  | .ret none => result = .void
  | .ret (some value) => value.type = result ∧ value.IsOperand

structure Block.WellTyped (result : Ty) (block : Block) : Prop where
  insts : ∀ inst ∈ block.insts, inst.WellTyped
  ends : ∀ terminator ∈ block.terminator, terminator.WellTyped result

def Function.WellTyped (f : Function) : Prop := ∀ block ∈ f.blocks, block.WellTyped f.result

structure Global.WellTyped (g : Global) : Prop where
  type_eq : g.init.type = g.type
  inRange : g.init.InRange

structure Module.WellTyped (m : Module) : Prop where
  functions : ∀ f ∈ m.functions, f.WellTyped
  globals : ∀ g ∈ m.globals, g.WellTyped

/-- All that has been built so far is well typed. -/
structure Builder.WellTyped (b : Builder) : Prop where
  slots : ∀ inst ∈ b.slots, inst.WellTyped
  blocks : ∀ block ∈ b.blocks, block.WellTyped b.result

namespace Builder

variable {b : Builder}

theorem wellTyped_of_blocks_nil (hslots : b.slots = []) (hblocks : b.blocks = []) :
    b.WellTyped :=
  ⟨by simp [hslots], by simp [hblocks]⟩

/-- A step that changes neither the slots nor the blocks. -/
theorem WellTyped.congr {b' : Builder} (h : b.WellTyped) (hslots : b'.slots = b.slots)
    (hblocks : b'.blocks = b.blocks) (hresult : b'.result = b.result) : b'.WellTyped := by
  refine ⟨hslots ▸ h.slots, ?_⟩
  rw [hblocks, hresult]
  exact h.blocks

theorem WellTyped.withBlock (h : b.WellTyped) (label : String) : (b.withBlock label).WellTyped := by
  refine ⟨h.slots, ?_⟩
  obtain ⟨text, hblocks⟩ := b.withBlock_blocks label
  intro block hblock
  rw [hblocks] at hblock
  rcases List.mem_append.mp hblock with hold | hnew
  · exact h.blocks block hold
  · obtain rfl := List.mem_singleton.mp hnew
    exact ⟨by simp, by simp⟩

/-- A step that changes one block. -/
theorem WellTyped.modify {b' : Builder} {id : BlockId} {change : Block → Block}
    (h : b.WellTyped) (hslots : b'.slots = b.slots) (hresult : b'.result = b.result)
    (hblocks : b'.blocks = b.blocks.modify id change)
    (hchange : ∀ block, block.WellTyped b.result → (change block).WellTyped b.result) :
    b'.WellTyped := by
  refine ⟨hslots ▸ h.slots, ?_⟩
  intro block hblock
  rw [hresult]
  rw [hblocks] at hblock
  obtain ⟨i, hi⟩ := List.mem_iff_getElem?.mp hblock
  rw [List.getElem?_modify] at hi
  obtain ⟨old, hold, rfl⟩ := Option.map_eq_some_iff.mp hi
  have hold := h.blocks old (List.mem_of_getElem? hold)
  split
  · exact hchange old hold
  · exact hold

theorem WellTyped.withInst {id : BlockId} {operation : Operation} {type : Ty}
    {name : Option String} (h : b.WellTyped) (hgives : operation.Gives type)
    (hoperands : ∀ v ∈ operation.operands, v.IsOperand) :
    (b.withInst id operation type name).WellTyped := by
  refine h.modify rfl rfl rfl ?_
  intro block hblock
  refine ⟨?_, hblock.ends⟩
  intro inst hinst
  rcases List.mem_append.mp hinst with hold | hnew
  · exact hblock.insts inst hold
  · obtain rfl := List.mem_singleton.mp hnew
    exact ⟨hgives, hoperands⟩

theorem WellTyped.withTerminator {id : BlockId} {terminator : Terminator} (h : b.WellTyped)
    (hterminator : terminator.WellTyped b.result) :
    (b.withTerminator id terminator).WellTyped := by
  refine h.modify rfl rfl rfl ?_
  intro block hblock
  refine ⟨hblock.insts, ?_⟩
  intro t ht
  exact Option.some.inj ht ▸ hterminator

theorem WellTyped.withSlot (h : b.WellTyped) (type : Ty) (name : Option String) :
    (b.withSlot type name).WellTyped := by
  refine ⟨?_, h.blocks⟩
  intro inst hinst
  rw [withSlot_slots] at hinst
  rcases List.mem_append.mp hinst with hold | hnew
  · exact h.slots inst hold
  · obtain rfl := List.mem_singleton.mp hnew
    exact ⟨rfl, by simp [Operation.operands]⟩

theorem WellTyped.withLocal (h : b.WellTyped) (decl : DeclId) (name : String) (type : Ty) :
    (b.withLocal decl name type).WellTyped := by
  have hnamed : (b.uniqueName name).2.WellTyped := h.congr rfl rfl rfl
  exact (hnamed.withSlot type (some (b.uniqueName name).1)).congr rfl rfl rfl

/-- The slots stand in the entry block at the end. -/
theorem WellTyped.toFunction (h : b.WellTyped) : b.toFunction.WellTyped := by
  unfold Function.WellTyped Builder.toFunction
  cases hblocks : b.blocks with
  | nil => simp
  | cons entry rest =>
    have hall : ∀ block ∈ entry :: rest, block.WellTyped b.result := hblocks ▸ h.blocks
    intro block hblock
    rcases List.mem_cons.mp hblock with rfl | hrest
    · have hentry := hall entry List.mem_cons_self
      refine ⟨?_, hentry.ends⟩
      intro inst hinst
      rcases List.mem_append.mp hinst with hslot | hinst
      · exact h.slots inst hslot
      · exact hentry.insts inst hinst
    · exact hall block (List.mem_cons_of_mem _ hrest)

end Builder

end MicroC.Ir
