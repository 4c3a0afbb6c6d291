import MicroC.Proofs.Ir.Flow

/-!
Paths through a function. A path executes the instructions of a block one after another and
then goes on with a successor. In a function that is built from a sound sketch every block can be
reached, and the instruction that an operand names is executed on every path to its use.
-/

namespace MicroC.Ir

namespace Function

/-- Blocks that can be reached along the successors of terminators. -/
inductive Reachable (F : Function) : BlockId → Prop
  | entry : Reachable F 0
  | successor {i j : BlockId} {block : Block} {t : Terminator} : Reachable F i →
    F.blocks[i]? = some block → block.terminator = some t → j ∈ t.successors → Reachable F j

/-- A path leads to the instruction with number `k` of a block, or to the end of the block, after
the instructions in `executed`. -/
inductive Reaches (F : Function) : List Instruction → BlockId → Nat → Prop
  | entry : Reaches F [] 0 0
  | next {executed : List Instruction} {i : BlockId} {k : Nat} {block : Block}
    {inst : Instruction} : Reaches F executed i k → F.blocks[i]? = some block →
    block.insts[k]? = some inst → Reaches F (executed ++ [inst]) i (k + 1)
  | jump {executed : List Instruction} {i j : BlockId} {block : Block} {t : Terminator} :
    Reaches F executed i block.insts.length → F.blocks[i]? = some block →
    block.terminator = some t → j ∈ t.successors → Reaches F executed j 0

/-- An operand of the instruction with number `k` of a block, or of its end. -/
def Uses (F : Function) (i : BlockId) (k : Nat) (v : Value) : Prop :=
  ∃ block, F.blocks[i]? = some block ∧
    ((∃ inst, block.insts[k]? = some inst ∧ v ∈ inst.operation.operands) ∨
      (k = block.insts.length ∧ ∃ t, block.terminator = some t ∧ v ∈ t.operands))

/-- An operand stands for something that is there whenever its place of use is reached: a single
instruction that has been executed by then, or a parameter. -/
def Defines (F : Function) (i : BlockId) (k : Nat) : Value → Prop
  | .inst id type => ∃ inst, F.insts.filter (·.id = id) = [inst] ∧ inst.type = type ∧
    ∀ executed, F.Reaches executed i k → inst ∈ executed
  | .param index type => ∃ param, F.params[index]? = some param ∧ param.type = type
  | .const _ | .global _ _ | .function _ _ => True

/-- The blocks form a graph: they are numbered by their positions, each one ends in a jump to
blocks of the function or in a return, all can be reached, and no label is used twice. -/
structure FlowGraph (F : Function) : Prop where
  numbered : ∀ (i : Nat) (block : Block), F.blocks[i]? = some block → block.id = i
  ends : ∀ block ∈ F.blocks, block.terminator.isSome
  targets : ∀ block ∈ F.blocks, ∀ t ∈ block.terminator, ∀ j ∈ t.successors, j < F.blocks.length
  reachable : ∀ i, i < F.blocks.length → F.Reachable i
  labels : (F.blocks.map (·.label)).Nodup

variable {F : Function} {executed : List Instruction} {i k : Nat}

theorem Reaches.subset (h : F.Reaches executed i k) : executed ⊆ F.insts := by
  induction h with
  | entry => exact List.nil_subset _
  | next _ hblock hinst ih =>
    apply List.append_subset.mpr ⟨ih, ?_⟩
    intro inst hmem
    obtain rfl := List.mem_singleton.mp hmem
    exact List.mem_flatMap.mpr ⟨_, List.mem_of_getElem? hblock, List.mem_of_getElem? hinst⟩
  | jump _ _ _ _ ih => exact ih

/-- A path can be followed to any place in its block. -/
theorem Reaches.within (h : F.Reaches executed i 0) {block : Block}
    (hblock : F.blocks[i]? = some block) (hk : k ≤ block.insts.length) :
    ∃ executed', F.Reaches executed' i k := by
  induction k with
  | zero => exact ⟨executed, h⟩
  | succ k ih =>
    obtain ⟨executed', hreaches⟩ := ih (Nat.le_of_succ_le hk)
    exact ⟨_, hreaches.next hblock (List.getElem?_eq_getElem hk)⟩

theorem Reachable.reaches (h : F.Reachable i) : ∃ executed, F.Reaches executed i 0 := by
  induction h with
  | entry => exact ⟨[], .entry⟩
  | successor _ hblock hterm hj ih =>
    obtain ⟨executed, hreaches⟩ := ih
    obtain ⟨executed', hend⟩ := hreaches.within hblock (Nat.le_refl _)
    exact ⟨executed', hend.jump hblock hterm hj⟩

/-- Every place of use can be reached. -/
theorem FlowGraph.reaches (h : F.FlowGraph) {v : Value} (hv : F.Uses i k v) :
    ∃ executed, F.Reaches executed i k := by
  obtain ⟨block, hblock, hplace⟩ := hv
  obtain ⟨executed, hreaches⟩ := (h.reachable i (List.getElem?_eq_some_iff.mp hblock).1).reaches
  refine hreaches.within hblock ?_
  rcases hplace with ⟨inst, hinst, _⟩ | ⟨hk, _⟩
  · exact Nat.le_of_lt (List.getElem?_eq_some_iff.mp hinst).1
  · exact Nat.le_of_eq hk

end Function

namespace Builder

variable {b : Builder} {i j : Nat}

/-! Edges between blocks. -/

/-- A finished block that leads to another one. -/
def Edge (b : Builder) (i j : BlockId) : Prop :=
  ∃ block t, b.blocks[i]? = some block ∧ block.terminator = some t ∧ j ∈ t.successors

theorem Edge.withBlock (h : b.Edge i j) (label : String) : (b.withBlock label).Edge i j := by
  obtain ⟨block, t, hblock, hterm, hj⟩ := h
  obtain ⟨text, hblocks⟩ := b.withBlock_blocks label
  refine ⟨block, t, ?_, hterm, hj⟩
  rw [hblocks, List.getElem?_append_left (List.getElem?_eq_some_iff.mp hblock).1]
  exact hblock

theorem Edge.withInst (h : b.Edge i j) (id : BlockId) (operation : Operation) (type : Ty)
    (name : Option String) : (b.withInst id operation type name).Edge i j := by
  obtain ⟨block, t, hblock, hterm, hj⟩ := h
  have hnew := @withInst_getElem? b id operation type name i
  rw [hblock, Option.map_some] at hnew
  refine ⟨_, t, hnew, ?_, hj⟩
  split <;> exact hterm

theorem Edge.withTerminator (h : b.Edge i j) {id : BlockId} (hid : b.Unfinished id)
    (t : Terminator) : (b.withTerminator id t).Edge i j := by
  obtain ⟨block, t', hblock, hterm, hj⟩ := h
  have hne : id ≠ i := by
    rintro rfl
    obtain ⟨block', hblock', hnone⟩ := hid
    obtain rfl := Option.some.inj (hblock.symm.trans hblock')
    rw [hterm] at hnone
    cases hnone
  exact ⟨block, t', by simp [withTerminator_getElem?, hblock, hne], hterm, hj⟩

theorem Unfinished.edge {id : BlockId} (h : b.Unfinished id) {t : Terminator}
    (hj : j ∈ t.successors) : (b.withTerminator id t).Edge id j := by
  obtain ⟨block, hblock, _⟩ := h
  exact ⟨{ block with terminator := some t }, t, by simp [withTerminator_getElem?, hblock], rfl, hj⟩

/-- Every block but the entry is led to from one with a smaller number. -/
def Preceded (b : Builder) : Prop :=
  ∀ j, 0 < j → j < b.blocks.length → ∃ i, i < j ∧ b.Edge i j

/-- A step that makes no block. -/
theorem Preceded.of_edges {b' : Builder} (h : b.Preceded)
    (hlength : b'.blocks.length = b.blocks.length)
    (hedges : ∀ i j, b.Edge i j → b'.Edge i j) : b'.Preceded := by
  intro j hpos hlt
  obtain ⟨i, hi, hedge⟩ := h j hpos (hlength ▸ hlt)
  exact ⟨i, hi, hedges i j hedge⟩

theorem toFunction_insts (h : b.blocks ≠ []) : b.toFunction.insts = b.insts := by
  unfold Function.insts insts toFunction
  cases hblocks : b.blocks with
  | nil => exact absurd hblocks h
  | cons entry rest => simp

theorem toFunction_length (b : Builder) : b.toFunction.blocks.length = b.blocks.length := by
  unfold toFunction
  cases b.blocks with
  | nil => rfl
  | cons entry rest => rfl

end Builder

namespace Sketch

variable {P : Value → Prop} {R : Rules} {s s' : Sketch}

theorem Step.preceded (hstep : Step R s s') (hs : s.Sound P) (h : s.builder.Preceded) :
    s'.builder.Preceded := by
  cases hstep with
  | slot | declare _ | pass _ _ | select _ _ => exact h
  | inst _ _ _ _ => exact h.of_edges (by simp) fun i j hedge => hedge.withInst ..
  | jump _ hopen _ _ _ | ret _ hopen _ _ =>
    exact h.of_edges (by simp) fun i j hedge => hedge.withTerminator hopen _
  | @fork i onTrue onFalse cond results hi hopen _ _ _ _ _ _ =>
    have hlt := (hs.selected i hi).lt
    intro j hpos hj
    by_cases hold : j < s.builder.blocks.length
    · obtain ⟨k, hk, hedge⟩ := h j hpos hold
      exact ⟨k, hk, ((hedge.withBlock onTrue).withBlock onFalse).withTerminator hopen _⟩
    · refine ⟨i, by omega, hopen.edge ?_⟩
      have hcases : j = s.builder.blocks.length ∨ j = s.builder.blocks.length + 1 := by
        simp only [Builder.withTerminator_length, Builder.withBlock_length] at hj
        omega
      simpa [Terminator.successors] using hcases
  | @enter i label results hi hopen _ _ =>
    have hlt := (hs.selected i hi).lt
    intro j hpos hj
    by_cases hold : j < s.builder.blocks.length
    · obtain ⟨k, hk, hedge⟩ := h j hpos hold
      exact ⟨k, hk, (hedge.withBlock label).withTerminator hopen _⟩
    · refine ⟨i, by omega, hopen.edge ?_⟩
      have heq : j = s.builder.blocks.length := by
        simp only [Builder.withTerminator_length, Builder.withBlock_length] at hj
        omega
      simpa [Terminator.successors] using heq

theorem Steps.preceded (h : Steps R s s') (hs : s.Sound R.operand) (hp : s.builder.Preceded) :
    s'.builder.Preceded := by
  have hboth : s'.Sound R.operand ∧ s'.builder.Preceded :=
    h.keeps (I := fun s => s.Sound R.operand ∧ s.builder.Preceded)
      (fun _ _ hstep hb => ⟨hstep.sound hb.1, hstep.preceded hb.1 hb.2⟩) ⟨hs, hp⟩
  exact hboth.2

namespace Sound

/-- The graph of a function that is finished. -/
theorem flowGraph (h : s.Sound P) (hp : s.builder.Preceded)
    (hfinished : ∀ i, ¬ s.builder.Unfinished i) : s.builder.toFunction.FlowGraph := by
  have hblock : ∀ {i : Nat} {block : Block}, s.builder.toFunction.blocks[i]? = some block →
      ∃ old, s.builder.blocks[i]? = some old ∧ block.id = old.id ∧ block.label = old.label ∧
        block.terminator = old.terminator := by
    intro i block hi
    rw [Builder.toFunction_getElem?_eq] at hi
    obtain ⟨old, hold, rfl⟩ := Option.map_eq_some_iff.mp hi
    exact ⟨old, hold, rfl, rfl, rfl⟩
  constructor
  · intro i block hi
    obtain ⟨old, hold, hid, _⟩ := hblock hi
    exact hid.trans (h.numbered i old hold)
  · intro block hmem
    obtain ⟨i, hi⟩ := List.mem_iff_getElem?.mp hmem
    obtain ⟨old, hold, _, _, hterm⟩ := hblock hi
    rw [hterm, Option.isSome_iff_ne_none]
    exact fun hnone => hfinished i ⟨old, hold, hnone⟩
  · intro block hmem t ht j hj
    obtain ⟨i, hi⟩ := List.mem_iff_getElem?.mp hmem
    obtain ⟨old, hold, _, _, hterm⟩ := hblock hi
    rw [s.builder.toFunction_length]
    exact ((h.flows i old hold).successors t (hterm ▸ ht) j hj).1
  · intro i
    -- Along predecessors the numbers get smaller, down to the entry.
    induction i using Nat.strongRecOn with
    | ind j ih =>
      intro hj
      rw [s.builder.toFunction_length] at hj
      by_cases hzero : j = 0
      · rw [hzero]
        exact .entry
      · obtain ⟨i, hi, block, t, hblock', hterm, hmem⟩ := hp j (Nat.pos_of_ne_zero hzero) hj
        have hreachable := ih i hi (by rw [s.builder.toFunction_length]; omega)
        have hget := s.builder.toFunction_getElem?_eq i
        rw [hblock', Option.map_some] at hget
        exact hreachable.successor hget hterm hmem
  · have hlabels : s.builder.toFunction.blocks.map (·.label) = s.builder.blocks.map (·.label) := by
      unfold Builder.toFunction
      cases s.builder.blocks <;> rfl
    rw [hlabels]
    exact h.labelled.nodup

end Sound

/-- What has been executed where a path has come to a place: the code in front of it in its block,
the slots, and what is noted for the block. -/
structure Covers (s : Sketch) (executed : List Instruction) (i k : Nat) : Prop where
  taken : ∀ block, s.builder.blocks[i]? = some block →
    (s.builder.front i ++ block.insts).take k ⊆ executed
  slots : i ≠ 0 → s.builder.slots ⊆ executed
  noted : s.known i ⊆ executed.map Instruction.result

/-- What is known after some instructions of a block has been executed. -/
theorem Covers.of_supplies {executed : List Instruction} {i k m : Nat} {block : Block} {id : InstId}
    {type : Ty} (h : s.Covers executed i k) (hblock : s.builder.blocks[i]? = some block)
    (hk : k = (s.builder.front i).length + m)
    (hv : s.builder.Supplies (s.known i ++ (block.insts.take m).map Instruction.result)
      (.inst id type)) : (id, type) ∈ executed.map Instruction.result := by
  have htaken := h.taken block hblock
  rw [hk, List.take_length_add_append, List.append_subset] at htaken
  have hslots : s.builder.slots ⊆ executed := by
    by_cases hi : i = 0
    · rw [Builder.front, if_pos hi] at htaken
      exact htaken.1
    · exact h.slots hi
  rcases hv with hslot | hresult
  · exact List.map_subset _ hslots hslot
  · rcases List.mem_append.mp hresult with hnoted | hinst
    · exact h.noted hnoted
    · exact List.map_subset _ htaken.2 hinst

namespace Sound

/-- Any path has executed what is known at the place it leads to. -/
theorem covers (h : s.Sound P) {executed : List Instruction} {i k : Nat}
    (hr : s.builder.toFunction.Reaches executed i k) : s.Covers executed i k := by
  induction hr with
  | entry =>
    exact ⟨by simp, fun hne => absurd rfl hne, by simp [h.entry]⟩
  | @next executed i k block inst _ hblock hinst ih =>
    rw [Builder.toFunction_getElem?_eq] at hblock
    obtain ⟨old, hold, rfl⟩ := Option.map_eq_some_iff.mp hblock
    refine ⟨?_, fun hne => List.Subset.trans (ih.slots hne) (List.subset_append_left _ _), ?_⟩
    · intro block hblock'
      obtain rfl := Option.some.inj (hold.symm.trans hblock')
      dsimp only at hinst
      rw [List.take_add_one, hinst]
      exact List.append_subset.mpr ⟨List.Subset.trans (ih.taken old hold)
        (List.subset_append_left _ _), List.subset_append_right _ _⟩
    · rw [List.map_append]
      exact List.Subset.trans ih.noted (List.subset_append_left _ _)
  | @jump executed i j block t _ hblock hterm hj ih =>
    rw [Builder.toFunction_getElem?_eq] at hblock
    obtain ⟨old, hold, rfl⟩ := Option.map_eq_some_iff.mp hblock
    refine ⟨by simp, fun _ => ?_, ?_⟩
    · by_cases hi : i = 0
      · have htaken := ih.taken old hold
        rw [List.take_length, List.append_subset, Builder.front, if_pos hi] at htaken
        exact htaken.1
      · exact ih.slots hi
    · intro x hmem
      refine ih.of_supplies hold List.length_append ?_
      rw [List.take_length]
      exact ((h.flows i old hold).successors t hterm j hj).2 x hmem

/-- An operand is known where it is used. -/
theorem supplies_of_uses (h : s.Sound P) {i k : Nat} {v : Value}
    (hv : s.builder.toFunction.Uses i k v) : P v ∧ ∃ block m,
      s.builder.blocks[i]? = some block ∧ k = (s.builder.front i).length + m ∧
      s.builder.Supplies (s.known i ++ (block.insts.take m).map Instruction.result) v := by
  obtain ⟨block, hblock, huse⟩ := hv
  rw [Builder.toFunction_getElem?_eq] at hblock
  obtain ⟨old, hold, rfl⟩ := Option.map_eq_some_iff.mp hblock
  have hflows := h.flows i old hold
  rcases huse with ⟨inst, hinst, hmem⟩ | ⟨hk, t, hterm, hmem⟩
  · dsimp only at hinst
    rw [List.getElem?_append] at hinst
    split at hinst
    · -- A slot has no operands.
      obtain ⟨type, halloca⟩ :=
        h.slots inst (s.builder.front_subset i (List.mem_of_getElem? hinst))
      rw [halloca] at hmem
      cases hmem
    next hge =>
      obtain ⟨hP, hsupplies⟩ := hflows.insts _ inst hinst v hmem
      exact ⟨hP, old, _, hold, by omega, hsupplies⟩
  · obtain ⟨hP, hsupplies⟩ := hflows.operands t hterm v hmem
    refine ⟨hP, old, old.insts.length, hold, hk.trans List.length_append, ?_⟩
    rw [List.take_length]
    exact hsupplies

/-- Only one instruction has a given number. -/
theorem filter_id_eq {insts : List Instruction} (hnodup : (insts.map (·.id)).Nodup)
    {inst : Instruction} (hinst : inst ∈ insts) : insts.filter (·.id = inst.id) = [inst] := by
  induction insts with
  | nil => cases hinst
  | cons first rest ih =>
    rw [List.map_cons, List.nodup_cons] at hnodup
    rcases List.mem_cons.mp hinst with rfl | hrest
    · have hnone : rest.filter (·.id = inst.id) = [] := by
        apply List.filter_eq_nil_iff.mpr
        intro other hother heq
        exact hnodup.1 (List.mem_map.mpr ⟨other, hother, of_decide_eq_true heq⟩)
      simp [hnone]
    · have hne : first.id ≠ inst.id :=
        fun heq => hnodup.1 (List.mem_map.mpr ⟨inst, hrest, heq.symm⟩)
      simp [hne, ih hnodup.2 hrest]

/-- In a finished function the definition of an operand comes before its use. -/
theorem defines (h : s.Sound P) (hp : s.builder.Preceded)
    (hfinished : ∀ i, ¬ s.builder.Unfinished i) {i k : Nat} {v : Value}
    (hv : s.builder.toFunction.Uses i k v) : s.builder.toFunction.Defines i k v := by
  obtain ⟨_, block, m, hblock, hk, hsupplies⟩ := h.supplies_of_uses hv
  cases v with
  | const _ | global _ _ | function _ _ => trivial
  | param index type => exact hsupplies
  | inst id type =>
    have hexecuted : ∀ executed, s.builder.toFunction.Reaches executed i k →
        (id, type) ∈ executed.map Instruction.result :=
      fun executed hr => (h.covers hr).of_supplies hblock hk hsupplies
    have hne : s.builder.blocks ≠ [] := List.ne_nil_of_length_pos
      (Nat.zero_lt_of_lt (List.getElem?_eq_some_iff.mp hblock).1)
    have hnodup : (s.builder.toFunction.insts.map (·.id)).Nodup := by
      rw [Builder.toFunction_insts hne]
      exact h.unique.nodup
    obtain ⟨executed, hr⟩ := (h.flowGraph hp hfinished).reaches hv
    obtain ⟨inst, hinst, hresult⟩ := List.mem_map.mp (hexecuted executed hr)
    obtain ⟨rfl, rfl⟩ := Prod.mk.inj hresult
    have honly := filter_id_eq hnodup (hr.subset hinst)
    refine ⟨inst, honly, rfl, ?_⟩
    intro executed' hr'
    obtain ⟨other, hother, hsame⟩ := List.mem_map.mp (hexecuted executed' hr')
    have hid : other.id = inst.id := (Prod.mk.inj hsame).1
    have hmem : other ∈ s.builder.toFunction.insts.filter (·.id = inst.id) :=
      List.mem_filter.mpr ⟨hr'.subset hother, decide_eq_true hid⟩
    rw [honly, List.mem_singleton] at hmem
    exact hmem ▸ hother

end Sound

end Sketch

end MicroC.Ir
