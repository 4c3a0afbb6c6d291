import MicroC.Proofs.Ir.Cursor

/-!
How construction goes on from any state with a selected block, whatever the state looks like
otherwise. The code so far stays as it is. Code that is emitted from there goes to the selected
block and to new blocks; the other blocks that exist are left alone and are not selected.
-/

namespace MicroC.Ir.Builder

variable {b b' b'' final : Builder} {i j k l : Nat}

/-- The cursor stands after `k` instructions of a block. -/
def At (b : Builder) (i k : Nat) : Prop :=
  b.current = some i ∧ ∃ block, b.blocks[i]? = some block ∧ block.insts.length = k

/-- The cursor is at a block of the function. -/
def Selected (b : Builder) : Prop := ∃ i k, b.At i k

theorem At.lt (h : b.At i k) : i < b.blocks.length := by
  obtain ⟨_, block, hblock, _⟩ := h
  exact (List.getElem?_eq_some_iff.mp hblock).1

theorem At.unique (h : b.At i k) (h' : b.At j l) : i = j ∧ k = l := by
  obtain ⟨hid, block, hblock, rfl⟩ := h
  obtain ⟨hid', block', hblock', rfl⟩ := h'
  obtain rfl : i = j := Option.some.inj (hid.symm.trans hid')
  obtain rfl : block = block' := Option.some.inj (hblock.symm.trans hblock')
  exact ⟨rfl, rfl⟩

theorem Selected.exists_at (h : b.Selected) (hid : b.current = some i) : ∃ k, b.At i k := by
  obtain ⟨j, k, hat⟩ := h
  obtain rfl : j = i := Option.some.inj (hat.1.symm.trans hid)
  exact ⟨k, hat⟩

section

variable {operation : Operation} {type : Ty} {name : Option String}

theorem At.withInst (h : b.At i k) : (b.withInst i operation type name).At i (k + 1) := by
  obtain ⟨hid, block, hblock, rfl⟩ := h
  exact ⟨hid, _, by rw [withInst_getElem?, hblock]; rfl, by simp⟩

theorem At.withSlot (h : b.At i k) : (b.withSlot type name).At i k := h

theorem At.withBlock (h : b.At i k) (label : String) : (b.withBlock label).At i k := by
  obtain ⟨hid, block, hblock, hlength⟩ := h
  obtain ⟨text, hblocks⟩ := b.withBlock_blocks label
  refine ⟨hid, block, ?_, hlength⟩
  rw [hblocks, List.getElem?_append_left (List.getElem?_eq_some_iff.mp hblock).1, hblock]

end

/-! What has been built stays. -/

/-- The code of a state is part of a later one: blocks only get longer, and a block that has
ended does not, unless it is selected. -/
structure Kept (b final : Builder) : Prop where
  blocks : ∀ (i : Nat) (block : Block), b.blocks[i]? = some block →
    ∃ block', final.blocks[i]? = some block' ∧ block.insts <+: block'.insts ∧
      (block.terminator.isSome → block'.terminator = block.terminator ∧
        (b.current ≠ some i → block'.insts = block.insts))

theorem Kept.refl (b : Builder) : b.Kept b :=
  ⟨fun _ block hblock => ⟨block, hblock, List.prefix_refl _, fun _ => ⟨rfl, fun _ => rfl⟩⟩⟩

/-- One state comes before another: it is kept wherever the later one is. -/
structure Precedes (b b' : Builder) : Prop where
  kept : ∀ final, b'.Kept final → b.Kept final
  nextInst : b.nextInst ≤ b'.nextInst
  slots : b.slots ⊆ b'.slots

namespace Precedes

variable {operation : Operation} {type : Ty} {name : Option String}

theorem refl (b : Builder) : b.Precedes b := ⟨fun _ h => h, Nat.le_refl _, List.Subset.refl _⟩

theorem trans (h : b.Precedes b') (h' : b'.Precedes b'') : b.Precedes b'' :=
  ⟨fun final hfinal => h.kept final (h'.kept final hfinal), Nat.le_trans h.nextInst h'.nextInst,
    List.Subset.trans h.slots h'.slots⟩

theorem withInst (hid : b.current = some i) :
    b.Precedes (b.withInst i operation type name) := by
  refine ⟨fun final hfinal => ⟨?_⟩, Nat.le_succ _, List.Subset.refl _⟩
  intro j block hblock
  have hnew : (b.withInst i operation type name).blocks[j]? = some (if i = j then
      { block with insts := block.insts ++ [⟨b.nextInst, operation, type, name⟩] } else block) := by
    rw [withInst_getElem?, hblock]
    rfl
  obtain ⟨block', hblock', hinsts, hfinished⟩ := hfinal.blocks j _ hnew
  refine ⟨block', hblock', ?_, ?_⟩
  · split at hinsts
    · exact List.IsPrefix.trans (List.prefix_append _ _) hinsts
    · exact hinsts
  · intro hterm
    by_cases hij : i = j
    · subst hij
      rw [if_pos rfl] at hfinished
      exact ⟨(hfinished hterm).1, fun hne => absurd hid hne⟩
    · rw [if_neg hij] at hfinished
      exact hfinished hterm

theorem withTerminator {terminator : Terminator} (hopen : b.Unfinished i) :
    b.Precedes (b.withTerminator i terminator) := by
  refine ⟨fun final hfinal => ⟨?_⟩, Nat.le_refl _, List.Subset.refl _⟩
  intro j block hblock
  have hnew : (b.withTerminator i terminator).blocks[j]? = some (if i = j then
      { block with terminator := some terminator } else block) := by
    rw [withTerminator_getElem?, hblock]
    rfl
  obtain ⟨block', hblock', hinsts, hfinished⟩ := hfinal.blocks j _ hnew
  by_cases hij : i = j
  · subst hij
    obtain ⟨old, hold, hterm⟩ := hopen
    obtain rfl : old = block := Option.some.inj (hold.symm.trans hblock)
    rw [if_pos rfl] at hinsts
    exact ⟨block', hblock', hinsts, by simp [hterm]⟩
  · rw [if_neg hij] at hinsts hfinished
    refine ⟨block', hblock', hinsts, fun hterm => ?_⟩
    obtain ⟨hsame, hlast⟩ := hfinished hterm
    exact ⟨hsame, fun _ => hlast (by simp)⟩

theorem withBlock (label : String) : b.Precedes (b.withBlock label) := by
  refine ⟨fun final hfinal => ⟨?_⟩, Nat.le_refl _, List.Subset.refl _⟩
  intro j block hblock
  obtain ⟨text, hblocks⟩ := b.withBlock_blocks label
  refine hfinal.blocks j block ?_
  rw [hblocks, List.getElem?_append_left (List.getElem?_eq_some_iff.mp hblock).1, hblock]

theorem withSlot : b.Precedes (b.withSlot type name) := by
  refine ⟨fun final hfinal => ⟨hfinal.blocks⟩, Nat.le_succ _, ?_⟩
  rw [withSlot_slots]
  exact List.subset_append_left _ _

/-- Only blocks that have not ended are selected. -/
theorem withCurrent (hopen : b.Unfinished i) : b.Precedes (b.withCurrent (some i)) := by
  refine ⟨fun final hfinal => ⟨?_⟩, Nat.le_refl _, List.Subset.refl _⟩
  intro j block hblock
  obtain ⟨block', hblock', hinsts, hfinished⟩ := hfinal.blocks j block hblock
  refine ⟨block', hblock', hinsts, fun hterm => ?_⟩
  obtain ⟨hsame, hlast⟩ := hfinished hterm
  refine ⟨hsame, fun _ => hlast ?_⟩
  intro heq
  obtain rfl : i = j := Option.some.inj heq
  obtain ⟨old, hold, hnone⟩ := hopen
  obtain rfl : old = block := Option.some.inj (hold.symm.trans hblock)
  rw [hnone] at hterm
  cases hterm

end Precedes

/-! Other blocks are left alone. -/

/-- Construction from one state to another one, both of which may have a selected block. -/
structure Continues (b b' : Builder) : Prop extends b.Precedes b' where
  length : b.blocks.length ≤ b'.blocks.length
  others : ∀ i < b.blocks.length, b.current ≠ some i →
    b'.blocks[i]? = b.blocks[i]? ∧ b'.current ≠ some i

namespace Continues

variable {operation : Operation} {type : Ty} {name : Option String}

theorem refl (b : Builder) : b.Continues b :=
  ⟨.refl b, Nat.le_refl _, fun _ _ hne => ⟨rfl, hne⟩⟩

theorem trans (h : b.Continues b') (h' : b'.Continues b'') : b.Continues b'' := by
  refine ⟨h.toPrecedes.trans h'.toPrecedes, Nat.le_trans h.length h'.length, ?_⟩
  intro i hi hne
  obtain ⟨hsame, hcurrent⟩ := h.others i hi hne
  obtain ⟨hsame', hcurrent'⟩ := h'.others i (Nat.lt_of_lt_of_le hi h.length) hcurrent
  exact ⟨hsame'.trans hsame, hcurrent'⟩

theorem withInst (h : b.Continues b') (hid : b'.current = some i) :
    b.Continues (b'.withInst i operation type name) := by
  refine ⟨h.toPrecedes.trans (.withInst hid), by simpa using h.length, ?_⟩
  intro j hj hne
  obtain ⟨hsame, hcurrent⟩ := h.others j hj hne
  have hij : ¬ i = j := by
    intro heq
    exact hcurrent (heq ▸ hid)
  refine ⟨?_, hcurrent⟩
  rw [withInst_getElem?, ← hsame]
  cases b'.blocks[j]? with
  | none => rfl
  | some block => simp [hij]

theorem withTerminator {terminator : Terminator} (h : b.Continues b') (hid : b'.current = some i)
    (hopen : b'.Unfinished i) : b.Continues (b'.withTerminator i terminator) := by
  refine ⟨h.toPrecedes.trans (.withTerminator hopen), by simpa using h.length, ?_⟩
  intro j hj hne
  obtain ⟨hsame, hcurrent⟩ := h.others j hj hne
  have hij : ¬ i = j := by
    intro heq
    exact hcurrent (heq ▸ hid)
  refine ⟨?_, by simp⟩
  rw [withTerminator_getElem?, ← hsame]
  cases b'.blocks[j]? with
  | none => rfl
  | some block => simp [hij]

theorem withBlock (h : b.Continues b') (label : String) : b.Continues (b'.withBlock label) := by
  obtain ⟨text, hblocks⟩ := b'.withBlock_blocks label
  refine ⟨h.toPrecedes.trans (.withBlock label), ?_, ?_⟩
  · rw [hblocks, List.length_append]
    exact Nat.le_trans h.length (Nat.le_add_right _ _)
  · intro j hj hne
    obtain ⟨hsame, hcurrent⟩ := h.others j hj hne
    refine ⟨?_, hcurrent⟩
    rw [hblocks, List.getElem?_append_left (Nat.lt_of_lt_of_le hj h.length), hsame]

theorem withSlot (h : b.Continues b') : b.Continues (b'.withSlot type name) :=
  ⟨h.toPrecedes.trans .withSlot, h.length, h.others⟩

/-- Names and bindings do not matter. -/
theorem congr (h : b.Continues b') (hblocks : b''.blocks = b'.blocks)
    (hcurrent : b''.current = b'.current) (hnext : b''.nextInst = b'.nextInst)
    (hslots : b''.slots = b'.slots) : b.Continues b'' := by
  refine ⟨⟨fun final hfinal => h.kept final ⟨?_⟩, hnext ▸ h.nextInst, hslots ▸ h.slots⟩,
    hblocks ▸ h.length, hblocks ▸ hcurrent ▸ h.others⟩
  exact hblocks ▸ hcurrent ▸ hfinal.blocks

theorem bind (h : b.Continues b') (decl : DeclId) (v : Value) : b.Continues (b'.bind decl v) :=
  h.congr rfl rfl rfl rfl

theorem withLocal (h : b.Continues b') (decl : DeclId) (text : String) :
    b.Continues (b'.withLocal decl text type) :=
  have hnamed : b.Continues (b'.uniqueName text).2 := h.congr rfl rfl rfl rfl
  hnamed.withSlot.bind decl _

/-- Only new blocks are selected. -/
theorem withCurrent (h : b.Continues b') (hopen : b'.Unfinished i) (hnew : b.blocks.length ≤ i) :
    b.Continues (b'.withCurrent (some i)) := by
  refine ⟨h.toPrecedes.trans (.withCurrent hopen), h.length, ?_⟩
  intro j hj hne
  refine ⟨(h.others j hj hne).1, ?_⟩
  rw [withCurrent_current]
  intro heq
  have hij : i = j := Option.some.inj heq
  omega

end Continues

/-! Blocks into which nothing has been emitted yet. -/

/-- A block that is still empty. -/
def Fresh (b : Builder) (i : BlockId) : Prop :=
  ∃ block, b.blocks[i]? = some block ∧ block.insts = [] ∧ block.terminator = none

theorem withBlock_fresh (b : Builder) (label : String) :
    (b.withBlock label).Fresh b.blocks.length := by
  obtain ⟨text, hblocks⟩ := b.withBlock_blocks label
  refine ⟨{ id := b.blocks.length, label := text }, ?_, rfl, rfl⟩
  rw [hblocks, List.getElem?_concat_length]

namespace Fresh

theorem unfinished (h : b.Fresh i) : b.Unfinished i := by
  obtain ⟨block, hblock, _, hterm⟩ := h
  exact ⟨block, hblock, hterm⟩

theorem congr (h : b.Fresh i) (heq : b'.blocks[i]? = b.blocks[i]?) : b'.Fresh i := by
  obtain ⟨block, hblock, hempty⟩ := h
  exact ⟨block, heq.trans hblock, hempty⟩

theorem withBlock (h : b.Fresh i) (label : String) : (b.withBlock label).Fresh i := by
  obtain ⟨text, hblocks⟩ := b.withBlock_blocks label
  refine h.congr ?_
  rw [hblocks, List.getElem?_append_left h.unfinished.lt]

theorem withTerminator (h : b.Fresh i) (hne : j ≠ i) (terminator : Terminator) :
    (b.withTerminator j terminator).Fresh i := by
  refine h.congr ?_
  rw [withTerminator_getElem?]
  cases b.blocks[i]? with
  | none => rfl
  | some block => simp [hne]

/-- A block that is not selected stays empty. -/
theorem continues (h : b.Fresh i) (hne : b.current ≠ some i) (hb : b.Continues b') :
    b'.Fresh i ∧ b'.current ≠ some i := by
  obtain ⟨hsame, hcurrent⟩ := hb.others i h.unfinished.lt hne
  exact ⟨h.congr hsame, hcurrent⟩

/-- The code of a block begins where the block is selected. -/
theorem at_zero (h : b.Fresh i) : (b.withCurrent (some i)).At i 0 := by
  obtain ⟨block, hblock, hempty, _⟩ := h
  exact ⟨rfl, block, hblock, by simp [hempty]⟩

end Fresh

end MicroC.Ir.Builder
