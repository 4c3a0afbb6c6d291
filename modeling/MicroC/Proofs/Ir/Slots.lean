import MicroC.Proofs.Ir.Paths

/-!
Stack slots along the paths of a function. All slots are made by the first instructions of the
entry, and no block leads back to the entry; so every path makes each slot once, before it does
anything else. What the entry does next, such as storing the values that are passed, comes before
every other use of the slots.
-/

namespace MicroC.Ir

theorem Operation.operands_of_isAlloca {operation : Operation} (h : operation.isAlloca) :
    operation.operands = [] := by
  cases operation with
  | alloca type => rfl
  | load _ | store _ _ | binary _ _ _ | cmp _ _ _ | unary _ _ | call _ _ | elementAddr _ _ => cases h

/-- A block that makes no slot and does not lead back to the entry. -/
structure Block.SlotFree (block : Block) : Prop where
  insts : ∀ inst ∈ block.insts, inst.operation.isAlloca = false
  targets : ∀ t ∈ block.terminator, 0 ∉ t.successors

/-- The slots are made by the first instructions of the entry and nowhere else, they differ, and
the entry is not entered again. -/
structure Function.HasSlots (F : Function) (slots : List Instruction) : Prop where
  entry : ∃ entry, F.blocks[0]? = some entry ∧ slots <+: entry.insts
  only : ∀ (i k : Nat) (block : Block) (inst : Instruction), F.blocks[i]? = some block →
    block.insts[k]? = some inst → (inst.operation.isAlloca ↔ i = 0 ∧ k < slots.length)
  distinct : (slots.map (·.id)).Nodup
  targets : ∀ block ∈ F.blocks, ∀ t ∈ block.terminator, 0 ∉ t.successors

namespace Function

variable {F : Function} {slots executed : List Instruction} {i k : Nat} {entry : Block}

/-- A path is in the entry, or the entry lies behind it. -/
theorem Reaches.behind_entry (htargets : ∀ block ∈ F.blocks, ∀ t ∈ block.terminator, 0 ∉ t.successors)
    (hentry : F.blocks[0]? = some entry) (h : F.Reaches executed i k) :
    (i = 0 ∧ executed = entry.insts.take k) ∨ (i ≠ 0 ∧ entry.insts <+: executed) := by
  induction h with
  | entry => exact .inl ⟨rfl, by simp⟩
  | @next executed i k block inst _ hblock hinst ih =>
    rcases ih with ⟨rfl, rfl⟩ | ⟨hne, hbehind⟩
    · obtain rfl := Option.some.inj (hentry.symm.trans hblock)
      refine .inl ⟨rfl, ?_⟩
      rw [List.take_add_one, hinst]
      rfl
    · exact .inr ⟨hne, hbehind.trans (List.prefix_append _ _)⟩
  | @jump executed i j block t _ hblock hterm hj ih =>
    have hne : j ≠ 0 := by
      rintro rfl
      exact htargets block (List.mem_of_getElem? hblock) t hterm hj
    refine .inr ⟨hne, ?_⟩
    rcases ih with ⟨rfl, rfl⟩ | ⟨_, hbehind⟩
    · obtain rfl := Option.some.inj (hentry.symm.trans hblock)
      exact ⟨[], by rw [List.append_nil, List.take_length]⟩
    · exact hbehind

/-- On every path each slot is made once, and all of them before the first other instruction. -/
theorem HasSlots.made (hF : F.HasSlots slots) (h : F.Reaches executed i k) :
    executed.filter (·.operation.isAlloca) = if i = 0 then slots.take k else slots := by
  obtain ⟨entry, hentry, rest, hinsts⟩ := hF.entry
  induction h with
  | entry => simp
  | @next executed i k block inst _ hblock hinst ih =>
    have hone : [inst].filter (·.operation.isAlloca) =
        if i = 0 ∧ k < slots.length then [inst] else [] := by
      simp [List.filter_cons, hF.only i k block inst hblock hinst]
    rw [List.filter_append, ih, hone]
    by_cases hi : i = 0
    · subst hi
      obtain rfl := Option.some.inj (hentry.symm.trans hblock)
      rw [if_pos rfl, if_pos rfl]
      by_cases hk : k < slots.length
      · have hslot : slots[k]? = some inst := by
          rw [← hinsts, List.getElem?_append_left hk] at hinst
          exact hinst
        rw [if_pos ⟨rfl, hk⟩, List.take_add_one, hslot]
        rfl
      · have hle : slots.length ≤ k := Nat.le_of_not_lt hk
        rw [List.take_of_length_le hle, List.take_of_length_le (Nat.le_succ_of_le hle),
          if_neg fun hboth => hk hboth.2, List.append_nil]
    · rw [if_neg hi, if_neg hi, if_neg fun hboth => hi hboth.1, List.append_nil]
  | @jump executed i j block t _ hblock hterm hj ih =>
    have hne : j ≠ 0 := by
      rintro rfl
      exact hF.targets block (List.mem_of_getElem? hblock) t hterm hj
    rw [ih, if_neg hne]
    split
    next hi =>
      subst hi
      obtain rfl := Option.some.inj (hentry.symm.trans hblock)
      rw [List.take_of_length_le]
      simp [← hinsts]
    · rfl

end Function

/-- The instruction stores the parameter with a number into a slot. -/
def Instruction.Spills (inst : Instruction) (index : Nat) (slot : Instruction) : Prop :=
  ∃ type, inst.operation = .store (.param index type) (.inst slot.id slot.type)

namespace Function

variable {F : Function} {slots spills : List Instruction} {m index : Nat} {slot spill : Instruction}
  {entry : Block}

theorem HasSlots.position_eq (hF : F.HasSlots slots) {m' : Nat} {slot' : Instruction}
    (hslot : slots[m]? = some slot) (hslot' : slots[m']? = some slot') (hid : slot'.id = slot.id) :
    m' = m := by
  have hlt : m' < (slots.map (·.id)).length := by
    rw [List.length_map]
    exact (List.getElem?_eq_some_iff.mp hslot').1
  refine (List.getElem?_inj hlt hF.distinct).mp ?_
  rw [List.getElem?_map, List.getElem?_map, hslot, hslot', Option.map_some, Option.map_some, hid]

/-- Behind the slots the entry stores some of the parameters into them, so that these slots are
not used before. -/
theorem HasSlots.spilled_first (hF : F.HasSlots slots) (hentry : F.blocks[0]? = some entry)
    (hinsts : slots ++ spills <+: entry.insts)
    (hspills : ∀ (m : Nat) (spill : Instruction), spills[m]? = some spill →
      ∃ index slot, slots[m]? = some slot ∧ spill.Spills index slot)
    (hslot : slots[m]? = some slot) (hspill : spills[m]? = some spill) {executed : List Instruction}
    {i k : Nat} {type : Ty} (h : F.Reaches executed i k) (huse : F.Uses i k (.inst slot.id type)) :
    spill ∈ executed ∨ (i = 0 ∧ k = slots.length + m) := by
  obtain ⟨code, hcode⟩ := hinsts
  have hm : m < spills.length := (List.getElem?_eq_some_iff.mp hspill).1
  have hplace : entry.insts[slots.length + m]? = some spill := by
    rw [← hcode, List.append_assoc, List.getElem?_append_right (by omega), Nat.add_sub_cancel_left,
      List.getElem?_append_left hm]
    exact hspill
  rcases h.behind_entry hF.targets hentry with ⟨rfl, rfl⟩ | ⟨_, hbehind⟩
  · rcases Nat.lt_trichotomy k (slots.length + m) with hlt | heq | hgt
    · -- in front of it only slots are made and other parameters are stored
      obtain ⟨block, hblock, huse⟩ := huse
      obtain rfl := Option.some.inj (hentry.symm.trans hblock)
      rcases huse with ⟨inst, hinst, huses⟩ | ⟨rfl, _⟩
      · by_cases hk : k < slots.length
        · have halloca := (hF.only 0 k entry inst hentry hinst).mpr ⟨rfl, hk⟩
          rw [Operation.operands_of_isAlloca halloca] at huses
          cases huses
        · have hother : spills[k - slots.length]? = some inst := by
            rw [← hcode, List.append_assoc, List.getElem?_append_right (by omega),
              List.getElem?_append_left (by omega)] at hinst
            exact hinst
          obtain ⟨index, slot', hslot', type', hstore⟩ := hspills _ inst hother
          rw [hstore] at huses
          have hid : slot'.id = slot.id := by
            simp [Operation.operands] at huses
            exact huses.1.symm
          have hposition := hF.position_eq hslot hslot' hid
          omega
      · have hlength := congrArg List.length hcode
        simp only [List.length_append] at hlength
        omega
    · exact .inr ⟨rfl, heq⟩
    · refine .inl (List.mem_of_getElem? (i := slots.length + m) ?_)
      rw [List.getElem?_take_of_lt hgt]
      exact hplace
  · exact .inl (hbehind.subset (List.mem_of_getElem? hplace))

end Function

end MicroC.Ir
