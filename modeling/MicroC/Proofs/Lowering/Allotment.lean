import MicroC.Proofs.Ir.Slots
import MicroC.Proofs.Lowering.Blocks

/-!
What needs a stack slot gets one. The requests of a statement are served one after another: each
step of its construction that makes a slot serves one of them, and no other step changes what has
been served.
-/

namespace MicroC

open LowerM

/-- The variables among some requests. -/
def Decl.requested (requests : List (Option Decl)) : List Decl :=
  requests.filterMap fun request => request

theorem Decl.requested_append (requests requests' : List (Option Decl)) :
    Decl.requested (requests ++ requests') = Decl.requested requests ++ Decl.requested requests' :=
  List.filterMap_append

theorem Decl.requested_cons (d : Decl) (requests : List (Option Decl)) :
    Decl.requested (some d :: requests) = d :: Decl.requested requests := rfl

/-- The slot of a variable has a name and the type of the variable; the slot for the result of an
`&&` has no name. -/
def Ir.Instruction.IsSlotFor (a : Analysis) (slot : Ir.Instruction) : Option Decl → Prop
  | some d => slot.name.isSome ∧ ∃ type, a.types.decl? d = some type ∧
    slot.operation = .alloca type.machine ∧ slot.type = .ptr type.machine
  | none => slot.name = none ∧ ∃ type, slot.operation = .alloca type ∧ slot.type = .ptr type

/-- Some requests have been served: each one has its slot, in order, and variables are bound to
their slots. The slots and the code of the entry continue those of `start`. -/
structure Ir.Builder.Allots (start : Ir.Builder) (a : Analysis) (requests : List (Option Decl))
    (b : Ir.Builder) : Prop where
  length : requests.length = b.slots.length
  serves : ∀ request slot, (request, slot) ∈ requests.zip b.slots → slot.IsSlotFor a request
  bound : ((Decl.requested requests).map Decl.id).Nodup → ∀ d slot,
    (some d, slot) ∈ requests.zip b.slots → b.binding? d.id = some (.inst slot.id slot.type)
  plain : ∀ block ∈ b.blocks, block.SlotFree
  slots : start.slots <+: b.slots
  entry : ∃ entry entry', start.blocks[0]? = some entry ∧ b.blocks[0]? = some entry' ∧
    entry.insts <+: entry'.insts

namespace Ir.Builder.Allots

variable {a : Analysis} {start b b' : Ir.Builder} {requests : List (Option Decl)}

theorem blocks_pos (h : start.Allots a requests b) : b.blocks.length ≠ 0 := by
  obtain ⟨_, entry, _, hentry, _⟩ := h.entry
  have hlt := (List.getElem?_eq_some_iff.mp hentry).1
  omega

/-- A step that only touches the code. -/
theorem of_blocks (h : start.Allots a requests b) (hslots : b'.slots = b.slots)
    (hbindings : b'.bindings = b.bindings)
    (hblocks : ∀ (i : Nat) (block : Ir.Block), b.blocks[i]? = some block →
      ∃ block', b'.blocks[i]? = some block' ∧ block.insts <+: block'.insts)
    (hplain : ∀ block ∈ b'.blocks, block.SlotFree) : start.Allots a requests b' := by
  obtain ⟨entry, entry', hentry, hentry', hcode⟩ := h.entry
  obtain ⟨entry'', hentry'', hcode'⟩ := hblocks 0 entry' hentry'
  refine ⟨hslots ▸ h.length, hslots ▸ h.serves, ?_, hplain, hslots ▸ h.slots,
    entry, entry'', hentry, hentry'', hcode.trans hcode'⟩
  intro hnodup d slot hmem
  rw [Ir.Builder.binding?, hbindings]
  exact h.bound hnodup d slot (hslots ▸ hmem)

theorem withCurrent (h : start.Allots a requests b) (current : Option Ir.BlockId) :
    start.Allots a requests (b.withCurrent current) :=
  h.of_blocks rfl rfl (fun _ block hblock => ⟨block, hblock, List.prefix_refl _⟩) h.plain

theorem withBlock (h : start.Allots a requests b) (label : String) :
    start.Allots a requests (b.withBlock label) := by
  obtain ⟨text, hblocks⟩ := b.withBlock_blocks label
  refine h.of_blocks rfl rfl ?_ ?_
  · intro i block hblock
    refine ⟨block, ?_, List.prefix_refl _⟩
    rw [hblocks, List.getElem?_append_left (List.getElem?_eq_some_iff.mp hblock).1]
    exact hblock
  · intro block hblock
    rw [hblocks] at hblock
    rcases List.mem_append.mp hblock with hold | hnew
    · exact h.plain block hold
    · obtain rfl := List.mem_singleton.mp hnew
      exact ⟨by simp, by simp⟩

/-- A step that changes one block. -/
theorem of_changed (h : start.Allots a requests b) {i : Ir.BlockId} {change : Ir.Block → Ir.Block}
    (hslots : b'.slots = b.slots) (hbindings : b'.bindings = b.bindings)
    (hblocks : ∀ j : Nat, b'.blocks[j]? =
      b.blocks[j]?.map fun block => if i = j then change block else block)
    (hinsts : ∀ block : Ir.Block, block.insts <+: (change block).insts)
    (hplain : ∀ block : Ir.Block, block.SlotFree → (change block).SlotFree) :
    start.Allots a requests b' := by
  refine h.of_blocks hslots hbindings ?_ ?_
  · intro j block hblock
    refine ⟨if i = j then change block else block, by rw [hblocks, hblock, Option.map_some], ?_⟩
    split
    · exact hinsts block
    · exact List.prefix_refl _
  · intro block hblock
    obtain ⟨j, hj⟩ := List.mem_iff_getElem?.mp hblock
    rw [hblocks] at hj
    obtain ⟨old, hold, rfl⟩ := Option.map_eq_some_iff.mp hj
    have hold := h.plain old (List.mem_of_getElem? hold)
    split
    · exact hplain old hold
    · exact hold

theorem withInst (h : start.Allots a requests b) {i : Ir.BlockId} {operation : Ir.Operation}
    {type : Ir.Ty} {name : Option String} (hop : operation.isAlloca = false) :
    start.Allots a requests (b.withInst i operation type name) := by
  refine h.of_changed rfl rfl Ir.Builder.withInst_getElem? (fun _ => List.prefix_append _ _) ?_
  intro block hplain
  refine ⟨?_, hplain.targets⟩
  intro inst hinst
  rcases List.mem_append.mp hinst with hold | hnew
  · exact hplain.insts inst hold
  · obtain rfl := List.mem_singleton.mp hnew
    exact hop

theorem withTerminator (h : start.Allots a requests b) {i : Ir.BlockId} {t : Ir.Terminator}
    (ht : 0 ∉ t.successors) : start.Allots a requests (b.withTerminator i t) := by
  refine h.of_changed rfl rfl Ir.Builder.withTerminator_getElem? (fun _ => List.prefix_refl _) ?_
  intro block hplain
  refine ⟨hplain.insts, ?_⟩
  rintro t' ⟨⟩
  exact ht

/-- A new slot serves one more request. -/
theorem addSlot (h : start.Allots a requests b) {request : Option Decl} {slot : Ir.Instruction}
    (hslots : b'.slots = b.slots ++ [slot]) (hblocks : b'.blocks = b.blocks)
    (hslot : slot.IsSlotFor a request)
    (hself : ∀ d, request = some d → b'.binding? d.id = some (.inst slot.id slot.type))
    (hother : ∀ id, (∀ d, request = some d → d.id ≠ id) → b'.binding? id = b.binding? id) :
    start.Allots a (requests ++ [request]) b' := by
  have hzip : (requests ++ [request]).zip b'.slots = requests.zip b.slots ++ [(request, slot)] := by
    rw [hslots, List.zip_append h.length]
    rfl
  refine ⟨?_, ?_, ?_, hblocks ▸ h.plain, ?_, hblocks ▸ h.entry⟩
  · rw [hslots, List.length_append, List.length_append, h.length]
    rfl
  · intro request' slot' hmem
    rw [hzip] at hmem
    rcases List.mem_append.mp hmem with hold | hnew
    · exact h.serves request' slot' hold
    · cases List.mem_singleton.mp hnew
      exact hslot
  · intro hnodup d slot' hmem
    rw [Decl.requested_append, List.map_append, List.nodup_append] at hnodup
    obtain ⟨hnodup, _, hapart⟩ := hnodup
    rw [hzip] at hmem
    rcases List.mem_append.mp hmem with hold | hnew
    · rw [hother]
      · exact h.bound hnodup d slot' hold
      · rintro d' rfl hid
        have hd : d ∈ Decl.requested requests :=
          List.mem_filterMap.mpr ⟨some d, (List.of_mem_zip hold).1, rfl⟩
        exact hapart d.id (List.mem_map_of_mem hd) d'.id List.mem_cons_self hid.symm
    · cases List.mem_singleton.mp hnew
      exact hself d rfl
  · rw [hslots]
    exact h.slots.trans (List.prefix_append _ _)

theorem withSlot (h : start.Allots a requests b) (type : Ir.Ty) :
    start.Allots a (requests ++ [none]) (b.withSlot type none) :=
  h.addSlot Ir.Builder.withSlot_slots rfl ⟨rfl, type, rfl, rfl⟩ nofun fun _ _ => rfl

theorem withLocal (h : start.Allots a requests b) {d : Decl} {type : MicroC.Ty}
    (hknown : a.types.decl? d = some type) (name : String) :
    start.Allots a (requests ++ [some d]) (b.withLocal d.id name type.machine) := by
  obtain ⟨text, hslots⟩ := @Ir.Builder.withLocal_slots b d.id name type.machine
  refine h.addSlot hslots rfl ⟨rfl, type, hknown, rfl, rfl⟩ ?_ ?_
  · rintro d' ⟨⟩
    rw [Ir.Builder.withLocal_binding?, if_pos rfl]
  · intro id hne
    rw [Ir.Builder.withLocal_binding?, if_neg (hne d rfl)]

end Ir.Builder.Allots

/-- Slots are made for variables of known types, and control does not go back to the entry. -/
def Analysis.slotRules (a : Analysis) : Ir.Sketch.Rules where
  operand := fun _ => True
  declares := fun d type => ∃ known, a.types.decl? d = some known ∧ type = known.machine
  passes := fun _ _ => False
  first := 1
  typed := False

section

variable {a : Analysis} {start b : Ir.Builder} {requests : List (Option Decl)} {s s' : Ir.Sketch}

/-- A step serves the requests that it says it serves. -/
theorem Ir.Sketch.Step.allots (hstep : Ir.Sketch.Step a.slotRules s s')
    (h : start.Allots a s.served s.builder) : start.Allots a s'.served s'.builder := by
  cases hstep with
  | inst _ hop _ _ => exact h.withInst hop
  | slot => exact h.withSlot _
  | declare hd =>
    obtain ⟨type, hknown, rfl⟩ := hd
    exact h.withLocal hknown _
  | pass hpasses _ => exact hpasses.elim
  | select _ _ => exact h.withCurrent _
  | fork _ _ _ _ _ _ _ _ =>
    refine ((h.withBlock _).withBlock _).withTerminator ?_
    simp [Ir.Terminator.successors, h.blocks_pos.symm]
  | enter _ _ _ _ =>
    refine (h.withBlock _).withTerminator ?_
    simp [Ir.Terminator.successors, h.blocks_pos.symm]
  | jump _ _ hfirst _ _ =>
    refine h.withTerminator ?_
    simpa [Ir.Terminator.successors] using (Nat.ne_of_lt hfirst)
  | ret _ _ _ _ => exact h.withTerminator (by simp [Ir.Terminator.successors])

theorem Ir.Sketch.Steps.allots (h : Ir.Sketch.Steps a.slotRules s s')
    (hs : start.Allots a s.served s.builder) : start.Allots a s'.served s'.builder :=
  h.keeps (I := fun s => start.Allots a s.served s.builder) (fun _ _ hstep => hstep.allots) hs

/-- A statement serves the requests in the part of it that is reached. -/
theorem Stmt.lower_allots (stmt : Stmt) (hopen : b.current.isSome)
    (h : start.Allots a requests b) :
    (stmt.lower a).Ensures b fun _ b' => start.Allots a (requests ++ stmt.requests) b' := by
  have hs : (a.setting stmt.events a.slotRules (fun _ => trivial) not_false
      fun _ _ hknown => ⟨_, hknown, rfl⟩).Ready [] ⟨b, [], fun _ => [], requests⟩ :=
    Analysis.setting_ready hopen (Nat.pos_of_ne_zero h.blocks_pos)
  refine Run.mono (stmt.lower_follows _ ⟨False.elim, False.elim, List.Subset.refl _⟩ hs).draws ?_
  rintro _ _ ⟨s', rfl, hends⟩
  have hallots := hends.steps.allots h
  rwa [hends.served] at hallots

end

end MicroC
