import MicroC.Proofs.Ir.Names
import MicroC.Proofs.Ir.WellTyped

/-!
Construction step by step. A sketch is a function under construction with a note, for each block,
of results that are computed on every path to it. All that a lowering does is a sequence of a few
kinds of steps, and a step uses only results that are noted or computed before in the same block,
slots, and what variables are bound to. New blocks are made together with the jump that leads to
them, so that no block is without a predecessor. What every step keeps, every construction keeps.
-/

namespace MicroC.Ir

def Terminator.operands : Terminator → List Value
  | .br _ => []
  | .condBr cond _ _ => [cond]
  | .ret value => value.toList

/-- A stack slot is made. -/
def Operation.isAlloca : Operation → Bool
  | .alloca _ => true
  | _ => false

/-- What an operand says of the instruction whose result it is. -/
def Instruction.result (inst : Instruction) : InstId × Ty := (inst.id, inst.type)

namespace Builder

/-- Whether an operand can be used where some results are known. Stack slots and parameters can
be used everywhere. -/
def Supplies (b : Builder) (results : List (InstId × Ty)) : Value → Prop
  | .inst id type => (id, type) ∈ b.slots.map Instruction.result ∨ (id, type) ∈ results
  | .param index type => ∃ param, b.params[index]? = some param ∧ param.type = type
  | .const _ | .global _ _ | .function _ _ => True

variable {b b' : Builder} {results results' : List (InstId × Ty)} {v : Value}

theorem Supplies.mono (h : b.Supplies results v) (hslots : b.slots ⊆ b'.slots)
    (hparams : b'.params = b.params) (hresults : results ⊆ results') : b'.Supplies results' v := by
  cases v with
  | const _ | global _ _ | function _ _ => trivial
  | param index type =>
    obtain ⟨param, hparam, htype⟩ := h
    exact ⟨param, hparams ▸ hparam, htype⟩
  | inst id type =>
    rcases h with hslot | hresult
    · exact .inl (List.map_subset _ hslots hslot)
    · exact .inr (hresults hresult)

/-- The labels that blocks are made from. -/
def blockLabels : List String :=
  ["entry", "if.then", "if.else", "if.end", "while.cond", "while.body", "while.end", "and.rhs",
    "and.end"]

end Builder

/-- A function under construction, with what is known of it: the results that can be used where the
cursor is, those that can be used from the beginning of each block on, and what the stack slots have
been made for. -/
structure Sketch where
  builder : Builder
  here : List (InstId × Ty)
  known : BlockId → List (InstId × Ty)
  served : List (Option Decl)

namespace Sketch

/-- An operand that can be used where the cursor is. -/
def Usable (s : Sketch) (v : Value) : Prop :=
  (∃ id, s.builder.binding? id = some v) ∨ s.builder.Supplies s.here v

/-- The notes when some results are noted for the blocks that are made next. -/
def noted (s : Sketch) (results : List (InstId × Ty)) (i : BlockId) : List (InstId × Ty) :=
  if i < s.builder.blocks.length then s.known i else results

/-- What restricts a construction: the operands that may be used, the declarations for which slots
of a type may be made, those that parameters of a type may be bound to, the first block that control
may go to, and whether the code has to be well typed. -/
structure Rules where
  operand : Value → Prop
  declares : Decl → Ty → Prop
  passes : Decl → Ty → Prop
  first : BlockId
  typed : Prop

/-- One step of a construction. -/
inductive Step (R : Rules) (s : Sketch) : Sketch → Prop
  | inst {i : BlockId} {operation : Operation} {type : Ty} : s.builder.current = some i →
    operation.isAlloca = false → (∀ v ∈ operation.operands, R.operand v ∧ s.Usable v) →
    (R.typed → Instruction.WellTyped ⟨s.builder.nextInst, operation, type, none⟩) →
    Step R s { s with
      builder := s.builder.withInst i operation type none
      here := (s.builder.nextInst, type) :: s.here }
  | slot {type : Ty} : Step R s { s with
      builder := s.builder.withSlot type none
      served := s.served ++ [none] }
  | declare {d : Decl} {type : Ty} : R.declares d type → Step R s { s with
      builder := s.builder.withLocal d.id d.name type
      served := s.served ++ [some d] }
  | pass {d : Decl} {index : Nat} {param : Param} : R.passes d param.type →
    s.builder.params[index]? = some param →
    Step R s { s with builder := s.builder.bind d.id (.param index param.type) }
  | select {i : BlockId} : s.builder.Unfinished i → R.first ≤ i →
    Step R s { s with builder := s.builder.withCurrent (some i), here := s.known i }
  /-- Two new blocks that the selected one branches to. -/
  | fork {i : BlockId} {onTrue onFalse : String} {cond : Value} {results : List (InstId × Ty)} :
    s.builder.current = some i → ((s.builder.withBlock onTrue).withBlock onFalse).Unfinished i →
    onTrue ∈ Builder.blockLabels → onFalse ∈ Builder.blockLabels → R.operand cond → s.Usable cond →
    (∀ x ∈ results, s.Usable (.inst x.1 x.2)) → (R.typed → cond.type.isInteger ∧ cond.IsOperand) →
    Step R s { s with
      builder := ((s.builder.withBlock onTrue).withBlock onFalse).withTerminator i
        (.condBr cond s.builder.blocks.length (s.builder.blocks.length + 1))
      known := s.noted results }
  /-- A new block that the selected one leads to. -/
  | enter {i : BlockId} {label : String} {results : List (InstId × Ty)} :
    s.builder.current = some i → (s.builder.withBlock label).Unfinished i →
    label ∈ Builder.blockLabels →
    (∀ x ∈ results, s.Usable (.inst x.1 x.2)) → Step R s { s with
      builder := (s.builder.withBlock label).withTerminator i (.br s.builder.blocks.length)
      known := s.noted results }
  | jump {i target : BlockId} : s.builder.current = some i → s.builder.Unfinished i →
    R.first ≤ target → target < s.builder.blocks.length →
    (∀ x ∈ s.known target, s.Usable (.inst x.1 x.2)) →
    Step R s { s with builder := s.builder.withTerminator i (.br target) }
  | ret {i : BlockId} {value : Option Value} : s.builder.current = some i →
    s.builder.Unfinished i → (∀ v ∈ value, R.operand v ∧ s.Usable v) →
    (R.typed → (Terminator.ret value).WellTyped s.builder.result) →
    Step R s { s with builder := s.builder.withTerminator i (.ret value) }

/-- A construction. -/
inductive Steps (R : Rules) (s : Sketch) : Sketch → Prop
  | refl : Steps R s s
  | tail {s' s'' : Sketch} : Steps R s s' → Step R s' s'' → Steps R s s''

variable {R : Rules} {s s' s'' : Sketch}

theorem Step.steps (h : Step R s s') : Steps R s s' := .tail .refl h

theorem Steps.trans (h : Steps R s s') (h' : Steps R s' s'') : Steps R s s'' := by
  induction h' with
  | refl => exact h
  | tail _ hstep ih => exact .tail ih hstep

/-- What each step keeps is kept. -/
theorem Steps.keeps {I : Sketch → Prop} (h : Steps R s s')
    (hstep : ∀ s₁ s₂, Step R s₁ s₂ → I s₁ → I s₂) (hs : I s) : I s' := by
  induction h with
  | refl => exact hs
  | tail _ hlast ih => exact hstep _ _ hlast ih

/-! What a construction never changes. -/

/-- The signature stays, and so does what has been noted; slots, blocks and bindings are only
added. -/
structure Keeps (s s' : Sketch) : Prop where
  name : s'.builder.name = s.builder.name
  result : s'.builder.result = s.builder.result
  params : s'.builder.params = s.builder.params
  slots : s.builder.slots ⊆ s'.builder.slots
  length : s.builder.blocks.length ≤ s'.builder.blocks.length
  known : ∀ i < s.builder.blocks.length, s'.known i = s.known i
  bound : ∀ id, (s.builder.binding? id).isSome → (s'.builder.binding? id).isSome

theorem Keeps.refl (s : Sketch) : s.Keeps s :=
  ⟨rfl, rfl, rfl, List.Subset.refl _, Nat.le_refl _, fun _ _ => rfl, fun _ hid => hid⟩

theorem Keeps.trans (h : s.Keeps s') (h' : s'.Keeps s'') : s.Keeps s'' := by
  refine ⟨h'.name.trans h.name, h'.result.trans h.result, h'.params.trans h.params,
    List.Subset.trans h.slots h'.slots, Nat.le_trans h.length h'.length, ?_,
    fun id hid => h'.bound id (h.bound id hid)⟩
  intro i hi
  rw [h'.known i (Nat.lt_of_lt_of_le hi h.length), h.known i hi]

theorem Step.keeps (h : Step R s s') : s.Keeps s' := by
  cases h with
  | inst _ _ _ _ | jump _ _ _ _ _ | ret _ _ _ _ =>
    exact ⟨rfl, rfl, rfl, List.Subset.refl _, by simp, fun _ _ => rfl, fun _ hid => hid⟩
  | select _ _ =>
    exact ⟨rfl, rfl, rfl, List.Subset.refl _, Nat.le_refl _, fun _ _ => rfl, fun _ hid => hid⟩
  | slot =>
    exact ⟨rfl, rfl, rfl, List.subset_append_left _ _, Nat.le_refl _, fun _ _ => rfl,
      fun _ hid => hid⟩
  | declare _ =>
    refine ⟨rfl, rfl, rfl, List.subset_append_left _ _, Nat.le_refl _, fun _ _ => rfl, ?_⟩
    intro id hid
    rw [Builder.withLocal_binding?]
    split
    · rfl
    · exact hid
  | pass _ _ =>
    refine ⟨rfl, rfl, rfl, List.Subset.refl _, Nat.le_refl _, fun _ _ => rfl, ?_⟩
    intro id hid
    rw [Builder.binding?_bind]
    split
    · rfl
    · exact hid
  | fork _ _ _ _ _ _ _ _ | enter _ _ _ _ =>
    refine ⟨rfl, rfl, rfl, List.Subset.refl _, by simp [Nat.add_assoc], ?_, fun _ hid => hid⟩
    exact fun i hi => if_pos hi

theorem Steps.kept (h : Steps R s s') : s.Keeps s' :=
  h.keeps (I := s.Keeps) (fun _ _ hstep hkeeps => hkeeps.trans hstep.keeps) (.refl s)

/-- Under the rules a property of the bindings survives every declaration. -/
structure Rules.Keep (R : Rules) (J : Builder → Prop) : Prop where
  congr : ∀ {b b' : Builder}, J b → b'.bindings = b.bindings → J b'
  declare : ∀ {b : Builder} {d : Decl} {type : Ty}, R.declares d type → J b →
    J (b.withLocal d.id d.name type)
  pass : ∀ {b : Builder} {d : Decl} {index : Nat} {type : Ty}, R.passes d type → J b →
    J (b.bind d.id (.param index type))

theorem Steps.holds {J : Builder → Prop} (h : Steps R s s') (hR : R.Keep J) (hs : J s.builder) :
    J s'.builder := by
  refine h.keeps (I := fun s => J s.builder) (fun s₁ s₂ hstep hs₁ => ?_) hs
  cases hstep with
  | declare hd => exact hR.declare hd hs₁
  | pass hpass _ => exact hR.pass hpass hs₁
  | inst _ _ _ _ | slot | select _ _ | fork _ _ _ _ _ _ _ _ | enter _ _ _ _ | jump _ _ _ _ _
  | ret _ _ _ _ =>
    exact hR.congr hs₁ rfl

/-! Types. -/

theorem Step.wellTyped (hstep : Step R s s') (hR : R.typed) (h : s.builder.WellTyped) :
    s'.builder.WellTyped := by
  cases hstep with
  | inst _ _ _ hinst => exact h.withInst (hinst hR).gives (hinst hR).operands
  | slot => exact h.withSlot _ none
  | declare _ => exact h.withLocal _ _ _
  | pass _ _ | select _ _ => exact h.congr rfl rfl rfl
  | fork _ _ _ _ _ _ _ hcond => exact ((h.withBlock _).withBlock _).withTerminator (hcond hR)
  | enter _ _ _ _ => exact (h.withBlock _).withTerminator trivial
  | jump _ _ _ _ _ => exact h.withTerminator trivial
  | ret _ _ _ hret => exact h.withTerminator (hret hR)

theorem Steps.wellTyped (h : Steps R s s') (hR : R.typed) (hs : s.builder.WellTyped) :
    s'.builder.WellTyped :=
  h.keeps (I := fun s => s.builder.WellTyped) (fun _ _ hstep => hstep.wellTyped hR) hs

end Sketch

namespace Builder

variable {b b' : Builder}

/-! Numbers of blocks. -/

/-- Blocks are numbered by their position. -/
def Numbered (b : Builder) : Prop :=
  ∀ (i : Nat) (block : Block), b.blocks[i]? = some block → block.id = i

namespace Numbered

theorem append {text : String} (h : b.Numbered)
    (hblocks : b'.blocks = b.blocks ++ [{ id := b.blocks.length, label := text }]) :
    b'.Numbered := by
  intro i block hblock
  rw [hblocks, List.getElem?_append] at hblock
  split at hblock
  · exact h i block hblock
  next hge =>
    obtain ⟨hlt, hget⟩ := List.getElem?_eq_some_iff.mp hblock
    have hi : i = b.blocks.length := by
      simp only [List.length_singleton] at hlt
      omega
    simp [← hget, hi]

theorem withBlock (h : b.Numbered) (label : String) : (b.withBlock label).Numbered := by
  obtain ⟨text, hblocks⟩ := b.withBlock_blocks label
  exact h.append hblocks

theorem withTerminator (h : b.Numbered) (i : BlockId) (t : Terminator) :
    (b.withTerminator i t).Numbered := by
  intro j block hblock
  rw [withTerminator_getElem?] at hblock
  obtain ⟨old, hold, rfl⟩ := Option.map_eq_some_iff.mp hblock
  split <;> exact h j old hold

theorem withInst (h : b.Numbered) (i : BlockId) (operation : Operation) (type : Ty)
    (name : Option String) : (b.withInst i operation type name).Numbered := by
  intro j block hblock
  rw [withInst_getElem?] at hblock
  obtain ⟨old, hold, rfl⟩ := Option.map_eq_some_iff.mp hblock
  split <;> exact h j old hold

end Numbered

/-! Numbers of instructions. -/

/-- A part of the blocks that a change of one block leaves alone. -/
theorem map_modify {α : Type} {part : Block → α} {change : Block → Block} {blocks : List Block}
    (h : ∀ block, part (change block) = part block) (i : Nat) :
    (blocks.modify i change).map part = blocks.map part := by
  induction blocks generalizing i with
  | nil => simp
  | cons first rest ih =>
    cases i with
    | zero => simp [h]
    | succ i => simp [ih]

/-- All instructions, the stack slots first. -/
def insts (b : Builder) : List Instruction := b.slots ++ b.blocks.flatMap (·.insts)

/-- The instructions in a row of blocks after one is appended to one of them. -/
theorem flatMap_modify_insts (blocks : List Block) {i : Nat} (hi : i < blocks.length)
    (inst : Instruction) :
    List.Perm ((blocks.modify i fun block => { block with insts := block.insts ++ [inst] }).flatMap
      (·.insts)) (inst :: blocks.flatMap (·.insts)) := by
  induction blocks generalizing i with
  | nil => exact absurd hi (Nat.not_lt_zero i)
  | cons first rest ih =>
    cases i with
    | zero =>
      simp only [List.modify_zero_cons, List.flatMap_cons, List.append_assoc, List.singleton_append]
      exact List.perm_middle
    | succ i =>
      simp only [List.modify_succ_cons, List.flatMap_cons]
      exact ((ih (Nat.lt_of_succ_lt_succ hi)).append_left first.insts).trans List.perm_middle

theorem withTerminator_insts (i : BlockId) (t : Terminator) :
    (b.withTerminator i t).insts = b.insts := by
  have hmap : (b.withTerminator i t).blocks.map (·.insts) = b.blocks.map (·.insts) := by
    refine map_modify ?_ i
    exact fun _ => rfl
  rw [insts, insts, List.flatMap_def, List.flatMap_def, hmap]
  rfl

theorem withInst_insts {i : BlockId} (hi : i < b.blocks.length) (operation : Operation) (type : Ty)
    (name : Option String) : List.Perm (b.withInst i operation type name).insts
      (⟨b.nextInst, operation, type, name⟩ :: b.insts) := by
  have hperm := flatMap_modify_insts b.blocks hi ⟨b.nextInst, operation, type, name⟩
  exact (hperm.append_left b.slots).trans List.perm_middle

/-- Instructions are told apart by numbers below the next one. -/
structure Unique (b : Builder) : Prop where
  below : ∀ inst ∈ b.insts, inst.id < b.nextInst
  nodup : (b.insts.map (·.id)).Nodup

namespace Unique

theorem congr (h : b.Unique) (hinsts : b'.insts = b.insts) (hnext : b'.nextInst = b.nextInst) :
    b'.Unique :=
  ⟨hinsts ▸ hnext ▸ h.below, hinsts ▸ h.nodup⟩

/-- A step that makes one instruction. -/
theorem add (h : b.Unique) {inst : Instruction} (hid : inst.id = b.nextInst)
    (hnext : b'.nextInst = b.nextInst + 1) (hinsts : List.Perm b'.insts (inst :: b.insts)) :
    b'.Unique := by
  constructor
  · intro other hother
    rw [hnext]
    rcases List.mem_cons.mp (hinsts.subset hother) with rfl | hold
    · exact hid ▸ Nat.lt_succ_self _
    · exact Nat.lt_succ_of_lt (h.below other hold)
  · rw [(hinsts.map _).nodup_iff, List.map_cons, List.nodup_cons]
    refine ⟨?_, h.nodup⟩
    intro hmem
    obtain ⟨other, hother, heq⟩ := List.mem_map.mp hmem
    exact Nat.ne_of_lt (h.below other hother) (heq.trans hid)

theorem withBlock (h : b.Unique) (label : String) : (b.withBlock label).Unique := by
  obtain ⟨text, hblocks⟩ := b.withBlock_blocks label
  exact h.congr (by simp [insts, hblocks]) rfl

theorem withTerminator (h : b.Unique) (i : BlockId) (t : Terminator) :
    (b.withTerminator i t).Unique :=
  h.congr (withTerminator_insts i t) rfl

theorem withInst (h : b.Unique) {i : BlockId} (hi : i < b.blocks.length) (operation : Operation)
    (type : Ty) (name : Option String) : (b.withInst i operation type name).Unique :=
  h.add rfl rfl (withInst_insts hi operation type name)

/-- A step that adds one slot and leaves the blocks alone. -/
theorem addSlot (h : b.Unique) {slot : Instruction} (hid : slot.id = b.nextInst)
    (hnext : b'.nextInst = b.nextInst + 1) (hslots : b'.slots = b.slots ++ [slot])
    (hblocks : b'.blocks = b.blocks) : b'.Unique := by
  refine h.add hid hnext ?_
  rw [insts, insts, hslots, hblocks, List.append_assoc]
  exact List.perm_middle

end Unique

/-! Labels of blocks. -/

theorem unnumbered_of_mem_blockLabels {label : String} (h : label ∈ blockLabels) :
    Unnumbered label := by
  have hall : ∀ label ∈ blockLabels, (beforeDigits label).head? ≠ some '.' := by decide
  exact hall label h

/-- The labels differ, and the numbers that will be used next are not used yet. -/
structure Labelled (b : Builder) : Prop where
  made : ∀ label ∈ b.blocks.map (·.label), ∃ base ∈ blockLabels, ∃ count,
    count < b.names.getD base 0 ∧ label = numberedName base count
  nodup : (b.blocks.map (·.label)).Nodup

namespace Labelled

/-- A step that makes no block. -/
theorem of_labels (h : b.Labelled) (hlabels : b'.blocks.map (·.label) = b.blocks.map (·.label))
    (hnames : ∀ base, b.names.getD base 0 ≤ b'.names.getD base 0) : b'.Labelled := by
  refine ⟨?_, hlabels ▸ h.nodup⟩
  intro label hlabel
  obtain ⟨base, hbase, count, hlt, hname⟩ := h.made label (hlabels ▸ hlabel)
  exact ⟨base, hbase, count, Nat.lt_of_lt_of_le hlt (hnames base), hname⟩

theorem uniqueName_getD (b : Builder) (name base : String) :
    (b.uniqueName name).2.names.getD base 0 =
      if name = base then b.names.getD name 0 + 1 else b.names.getD base 0 := by
  simp [uniqueName, Std.TreeMap.getD_insert]

theorem le_uniqueName (b : Builder) (name base : String) :
    b.names.getD base 0 ≤ (b.uniqueName name).2.names.getD base 0 := by
  rw [uniqueName_getD]
  split
  next heq => exact heq ▸ Nat.le_succ _
  · exact Nat.le_refl _

theorem withBlock (h : b.Labelled) {label : String} (hlabel : label ∈ blockLabels) :
    (b.withBlock label).Labelled := by
  have hlabels : (b.withBlock label).blocks.map (·.label) =
      b.blocks.map (·.label) ++ [numberedName label (b.names.getD label 0)] :=
    List.map_append
  have hold : ∀ text ∈ b.blocks.map (·.label), ∃ base ∈ blockLabels, ∃ count,
      count < (b.withBlock label).names.getD base 0 ∧ text = numberedName base count := by
    intro text htext
    obtain ⟨base, hbase, count, hlt, hname⟩ := h.made text htext
    exact ⟨base, hbase, count, Nat.lt_of_lt_of_le hlt (le_uniqueName b label base), hname⟩
  constructor
  · intro text htext
    rw [hlabels] at htext
    rcases List.mem_append.mp htext with hmem | hnew
    · exact hold text hmem
    · refine ⟨label, hlabel, _, ?_, List.mem_singleton.mp hnew⟩
      have hnext := uniqueName_getD b label label
      rw [if_pos rfl] at hnext
      exact Nat.lt_of_lt_of_eq (Nat.lt_succ_self _) hnext.symm
  · rw [hlabels, List.nodup_append]
    refine ⟨h.nodup, by simp, ?_⟩
    intro text htext text' htext' heq
    obtain ⟨base, hbase, count, hlt, hname⟩ := h.made text htext
    rw [heq, List.mem_singleton.mp htext'] at hname
    obtain ⟨rfl, rfl⟩ := numberedName_inj (unnumbered_of_mem_blockLabels hlabel)
      (unnumbered_of_mem_blockLabels hbase) hname
    exact Nat.lt_irrefl _ hlt

theorem withTerminator (h : b.Labelled) (i : BlockId) (t : Terminator) :
    (b.withTerminator i t).Labelled := by
  refine h.of_labels (map_modify ?_ i) fun _ => Nat.le_refl _
  exact fun _ => rfl

theorem withInst (h : b.Labelled) (i : BlockId) (operation : Operation) (type : Ty)
    (name : Option String) : (b.withInst i operation type name).Labelled := by
  refine h.of_labels (map_modify ?_ i) fun _ => Nat.le_refl _
  exact fun _ => rfl

end Labelled

end Builder

end MicroC.Ir
