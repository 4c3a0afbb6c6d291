import MicroC.Proofs.Ir.Sketch

/-!
Values along the paths of a function. In a sound sketch every operand is known where it is used,
and whatever is noted for a block is known at the end of each block that leads to it; so in the
finished function an instruction is executed before its result is used, whatever path is taken.
Every block but the entry has a predecessor with a smaller number, so that all of them can be
reached.
-/

namespace MicroC.Ir

def Value.isLocal : Value → Bool
  | .inst _ _ | .param _ _ => true
  | .const _ | .global _ _ | .function _ _ => false

/-- What a block uses is known there, and what is noted for its successors is known at its end. -/
structure Block.Flows (P : Value → Prop) (b : Builder) (known : BlockId → List (InstId × Ty))
    (start : List (InstId × Ty)) (block : Block) : Prop where
  insts : ∀ (k : Nat) (inst : Instruction), block.insts[k]? = some inst →
    ∀ v ∈ inst.operation.operands,
      P v ∧ b.Supplies (start ++ (block.insts.take k).map Instruction.result) v
  operands : ∀ t ∈ block.terminator, ∀ v ∈ t.operands,
    P v ∧ b.Supplies (start ++ block.insts.map Instruction.result) v
  successors : ∀ t ∈ block.terminator, ∀ j ∈ t.successors, j < b.blocks.length ∧
    ∀ x ∈ known j, b.Supplies (start ++ block.insts.map Instruction.result) (.inst x.1 x.2)

theorem Block.Flows.mono {P : Value → Prop} {b b' : Builder}
    {known known' : BlockId → List (InstId × Ty)} {start : List (InstId × Ty)} {block : Block}
    (h : block.Flows P b known start) (hslots : b.slots ⊆ b'.slots) (hparams : b'.params = b.params)
    (hlength : b.blocks.length ≤ b'.blocks.length)
    (hknown : ∀ j < b.blocks.length, known' j = known j) : block.Flows P b' known' start := by
  have hkeep : ∀ {results : List (InstId × Ty)} {v : Value}, b.Supplies results v →
      b'.Supplies results v :=
    fun hv => hv.mono hslots hparams (List.Subset.refl _)
  constructor
  · intro k inst hinst v hv
    obtain ⟨hP, hsupplies⟩ := h.insts k inst hinst v hv
    exact ⟨hP, hkeep hsupplies⟩
  · intro t ht v hv
    obtain ⟨hP, hsupplies⟩ := h.operands t ht v hv
    exact ⟨hP, hkeep hsupplies⟩
  · intro t ht j hj
    obtain ⟨hlt, hall⟩ := h.successors t ht j hj
    refine ⟨Nat.lt_of_lt_of_le hlt hlength, ?_⟩
    rw [hknown j hlt]
    exact fun x hx => hkeep (hall x hx)

namespace Sketch

/-- Between two steps of a construction the blocks are in order, and the notes are right. -/
structure Sound (P : Value → Prop) (s : Sketch) : Prop where
  numbered : s.builder.Numbered
  unique : s.builder.Unique
  labelled : s.builder.Labelled
  selected : ∀ i, s.builder.current = some i → s.builder.Unfinished i
  nonempty : 0 < s.builder.blocks.length
  entry : s.known 0 = []
  slots : ∀ slot ∈ s.builder.slots, ∃ type, slot.operation = .alloca type
  bindings : ∀ id v, s.builder.binding? id = some v → v.isLocal ∧ s.builder.Supplies [] v
  cursor : ∀ (i : BlockId) (block : Block), s.builder.current = some i →
    s.builder.blocks[i]? = some block → s.here ⊆ s.known i ++ block.insts.map Instruction.result
  flows : ∀ (i : Nat) (block : Block), s.builder.blocks[i]? = some block →
    block.Flows P s.builder s.known (s.known i)

variable {P : Value → Prop} {R : Rules} {s s' : Sketch} {v : Value}

namespace Sound

/-- What can be used at the cursor is noted for the selected block, or computed in it. -/
theorem supplies (h : s.Sound P) {i : BlockId} {block : Block} (hi : s.builder.current = some i)
    (hblock : s.builder.blocks[i]? = some block) (hv : s.Usable v) :
    s.builder.Supplies (s.known i ++ block.insts.map Instruction.result) v := by
  rcases hv with ⟨id, hbound⟩ | hsupplies
  · exact (h.bindings id v hbound).2.mono (List.Subset.refl _) rfl (List.nil_subset _)
  · exact hsupplies.mono (List.Subset.refl _) rfl (h.cursor i block hi hblock)

/-- A new block, for which some results are noted. -/
theorem withBlock (h : s.Sound P) {label : String} (hlabel : label ∈ Builder.blockLabels)
    (results : List (InstId × Ty)) :
    Sound P { s with builder := s.builder.withBlock label, known := s.noted results } := by
  obtain ⟨text, hblocks⟩ := s.builder.withBlock_blocks label
  have hlength : s.builder.blocks.length ≤ (s.builder.withBlock label).blocks.length := by simp
  refine ⟨h.numbered.withBlock label, h.unique.withBlock label, h.labelled.withBlock hlabel, ?_,
    Nat.lt_of_lt_of_le h.nonempty hlength, (if_pos h.nonempty).trans h.entry, h.slots, h.bindings,
    ?_, ?_⟩
  · intro i hi
    exact (Builder.withBlock_unfinished label).mpr (.inl (h.selected i hi))
  · intro i block hi hblock
    have hlt := (h.selected i hi).lt
    simp only [hblocks, List.getElem?_append_left hlt] at hblock
    simp only [noted, if_pos hlt]
    exact h.cursor i block hi hblock
  · intro i block hblock
    simp only [hblocks, List.getElem?_append] at hblock
    split at hblock
    next hlt =>
      simp only [noted, if_pos hlt]
      exact (h.flows i block hblock).mono (List.Subset.refl _) rfl hlength fun j hj => if_pos hj
    next =>
      obtain rfl := List.mem_singleton.mp (List.mem_of_getElem? hblock)
      exact ⟨by simp, by simp, by simp⟩

theorem withTerminator (h : s.Sound P) {i : BlockId} {t : Terminator}
    (hi : s.builder.current = some i) (hoperands : ∀ v ∈ t.operands, P v ∧ s.Usable v)
    (hsuccessors : ∀ j ∈ t.successors, j < s.builder.blocks.length ∧
      ∀ x ∈ s.known j, s.Usable (.inst x.1 x.2)) :
    Sound P { s with builder := s.builder.withTerminator i t } := by
  obtain ⟨last, hlast, _⟩ := h.selected i hi
  refine ⟨h.numbered.withTerminator i t, h.unique.withTerminator i t,
    h.labelled.withTerminator i t, by simp, by simpa using h.nonempty, h.entry, h.slots, h.bindings,
    by simp, ?_⟩
  intro j block hblock
  rw [Builder.withTerminator_getElem?] at hblock
  obtain ⟨old, hold, rfl⟩ := Option.map_eq_some_iff.mp hblock
  have hflows : old.Flows P (s.builder.withTerminator i t) s.known (s.known j) :=
    (h.flows j old hold).mono (List.Subset.refl _) rfl (by simp) fun _ _ => rfl
  split
  next heq =>
    subst heq
    obtain rfl : last = old := Option.some.inj (hlast.symm.trans hold)
    have hkeep : ∀ {v}, s.Usable v → (s.builder.withTerminator i t).Supplies
        (s.known i ++ last.insts.map Instruction.result) v :=
      fun hv => (h.supplies hi hlast hv).mono (List.Subset.refl _) rfl (List.Subset.refl _)
    refine ⟨hflows.insts, ?_, ?_⟩
    · rintro t' ht' v hv
      cases ht'
      obtain ⟨hP, husable⟩ := hoperands v hv
      exact ⟨hP, hkeep husable⟩
    · rintro t' ht' j hj
      cases ht'
      obtain ⟨hlt, hresults⟩ := hsuccessors j hj
      exact ⟨by simpa using hlt, fun x hx => hkeep (hresults x hx)⟩
  · exact hflows

theorem withInst (h : s.Sound P) {i : BlockId} {operation : Operation} {type : Ty}
    (hi : s.builder.current = some i) (hoperands : ∀ v ∈ operation.operands, P v ∧ s.Usable v) :
    Sound P { s with
      builder := s.builder.withInst i operation type none
      here := (s.builder.nextInst, type) :: s.here } := by
  obtain ⟨last, hlast, hterm⟩ := h.selected i hi
  refine ⟨h.numbered.withInst i operation type none,
    h.unique.withInst (List.getElem?_eq_some_iff.mp hlast).1 operation type none,
    h.labelled.withInst i operation type none, ?_, by simpa using h.nonempty, h.entry, h.slots,
    h.bindings, ?_, ?_⟩
  · intro j hj
    exact Builder.withInst_unfinished.mpr (h.selected j hj)
  · intro j block hj hblock
    obtain rfl : i = j := Option.some.inj (hi.symm.trans hj)
    simp only [Builder.withInst_getElem?, hlast, Option.map_some, if_pos] at hblock
    obtain rfl := Option.some.inj hblock
    have hhere := h.cursor i last hi hlast
    rw [List.map_append, ← List.append_assoc]
    refine List.cons_subset.mpr ⟨List.mem_append_right _ List.mem_cons_self, ?_⟩
    exact List.Subset.trans hhere (List.subset_append_left _ _)
  · intro j block hblock
    rw [Builder.withInst_getElem?] at hblock
    obtain ⟨old, hold, rfl⟩ := Option.map_eq_some_iff.mp hblock
    have hflows : old.Flows P (s.builder.withInst i operation type none) s.known (s.known j) :=
      (h.flows j old hold).mono (List.Subset.refl _) rfl (by simp) fun _ _ => rfl
    split
    next heq =>
      subst heq
      obtain rfl : last = old := Option.some.inj (hlast.symm.trans hold)
      refine ⟨?_, by simp [hterm], by simp [hterm]⟩
      intro k inst hinst
      dsimp only at hinst ⊢
      rw [List.getElem?_append] at hinst
      split at hinst
      next hlt =>
        rw [List.take_append_of_le_length (Nat.le_of_lt hlt)]
        exact hflows.insts k inst hinst
      next hge =>
        obtain ⟨hpos, hget⟩ := List.getElem?_eq_some_iff.mp hinst
        have hk : k = last.insts.length := by
          simp only [List.length_singleton] at hpos
          omega
        subst hk
        simp only [Nat.sub_self, List.getElem_cons_zero] at hget
        rw [List.take_left, ← hget]
        intro v hv
        obtain ⟨hP, husable⟩ := hoperands v hv
        exact ⟨hP, (h.supplies hi hlast husable).mono (List.Subset.refl _) rfl
          (List.Subset.refl _)⟩
    · exact hflows

/-- A step that adds one slot. -/
theorem addSlot (h : s.Sound P) {b : Builder} {slot : Instruction} {type : Ty}
    {served : List (Option Decl)} (hid : slot.id = s.builder.nextInst)
    (halloca : slot.operation = .alloca type) (hnext : b.nextInst = s.builder.nextInst + 1)
    (hslots : b.slots = s.builder.slots ++ [slot]) (hblocks : b.blocks = s.builder.blocks)
    (hcurrent : b.current = s.builder.current) (hparams : b.params = s.builder.params)
    (hnames : ∀ base, s.builder.names.getD base 0 ≤ b.names.getD base 0)
    (hbindings : ∀ id v, b.binding? id = some v →
      s.builder.binding? id = some v ∨ v = .inst slot.id slot.type) :
    Sound P { s with builder := b, served := served } := by
  have hsubset : s.builder.slots ⊆ b.slots := hslots ▸ List.subset_append_left _ _
  refine ⟨?_, h.unique.addSlot hid hnext hslots hblocks, h.labelled.of_labels (by rw [hblocks]) hnames,
    ?_, hblocks ▸ h.nonempty, h.entry, ?_, ?_, ?_, ?_⟩
  · intro i block hblock
    exact h.numbered i block (hblocks ▸ hblock)
  · intro i hi
    obtain ⟨block, hblock, hterm⟩ := h.selected i (hcurrent ▸ hi)
    exact ⟨block, hblocks ▸ hblock, hterm⟩
  · intro other hother
    rw [hslots] at hother
    rcases List.mem_append.mp hother with hold | hnew
    · exact h.slots other hold
    · exact ⟨type, List.mem_singleton.mp hnew ▸ halloca⟩
  · intro id v hv
    rcases hbindings id v hv with hold | rfl
    · obtain ⟨hlocal, hsupplies⟩ := h.bindings id v hold
      exact ⟨hlocal, hsupplies.mono hsubset hparams (List.Subset.refl _)⟩
    · refine ⟨rfl, .inl ?_⟩
      rw [hslots]
      exact List.mem_map_of_mem (List.mem_append_right _ List.mem_cons_self)
  · intro i block hi hblock
    exact h.cursor i block (hcurrent ▸ hi) (hblocks ▸ hblock)
  · intro i block hblock
    exact (h.flows i block (hblocks ▸ hblock)).mono hsubset hparams
      (Nat.le_of_eq (congrArg List.length hblocks.symm)) fun _ _ => rfl

end Sound

/-- Making a block takes nothing away. -/
theorem Usable.withBlock (hv : s.Usable v) (label : String)
    (known : BlockId → List (InstId × Ty)) :
    Usable { s with builder := s.builder.withBlock label, known := known } v :=
  hv.imp id fun hsupplies => hsupplies.mono (List.Subset.refl _) rfl (List.Subset.refl _)

namespace Sound

/-- Two new blocks, for which the same is noted, and a branch to them. -/
theorem fork (h : s.Sound P) {i : BlockId} {onTrue onFalse : String} {results : List (InstId × Ty)}
    {cond : Value} (hi : s.builder.current = some i) (hTrue : onTrue ∈ Builder.blockLabels)
    (hFalse : onFalse ∈ Builder.blockLabels) (hP : P cond) (hcond : s.Usable cond)
    (hresults : ∀ x ∈ results, s.Usable (.inst x.1 x.2)) :
    Sound P { s with
      builder := ((s.builder.withBlock onTrue).withBlock onFalse).withTerminator i
        (.condBr cond s.builder.blocks.length (s.builder.blocks.length + 1))
      known := s.noted results } := by
  -- for the second block the same is noted as for the first one
  have hsame : noted { s with builder := s.builder.withBlock onTrue, known := s.noted results }
      results = s.noted results := by
    funext j
    simp only [noted, Builder.withBlock_length]
    split
    · rfl
    next hge => rw [if_neg fun hlt => hge (Nat.lt_succ_of_lt hlt)]
  have hboth := (h.withBlock hTrue results).withBlock hFalse results
  rw [hsame] at hboth
  have husable : ∀ {v}, s.Usable v → Usable { s with
      builder := (s.builder.withBlock onTrue).withBlock onFalse, known := s.noted results } v :=
    fun hv => (hv.withBlock onTrue (s.noted results)).withBlock onFalse (s.noted results)
  refine hboth.withTerminator hi ?_ ?_
  · intro v hv
    obtain rfl := List.mem_singleton.mp hv
    exact ⟨hP, husable hcond⟩
  · intro j hj
    have hnew : s.builder.blocks.length ≤ j ∧ j < s.builder.blocks.length + 2 := by
      rcases List.mem_cons.mp hj with rfl | hj
      · exact ⟨Nat.le_refl _, by simp⟩
      · obtain rfl := List.mem_singleton.mp hj
        exact ⟨Nat.le_succ _, Nat.lt_succ_self _⟩
    refine ⟨by simpa [Nat.add_assoc] using hnew.2, fun x hx => husable (hresults x ?_)⟩
    simpa [noted, Nat.not_lt.mpr hnew.1] using hx

end Sound

theorem Step.sound (hstep : Step R s s') (h : s.Sound R.operand) : s'.Sound R.operand := by
  cases hstep with
  | inst hi _ hoperands _ => exact h.withInst hi hoperands
  | slot =>
    exact h.addSlot rfl rfl rfl Builder.withSlot_slots rfl rfl rfl (fun _ => Nat.le_refl _)
      fun _ _ hv => .inl hv
  | @declare d type _ =>
    obtain ⟨text, hslots⟩ := @Builder.withLocal_slots s.builder d.id d.name type
    refine h.addSlot rfl rfl rfl hslots rfl rfl rfl
      (Builder.Labelled.le_uniqueName s.builder d.name) ?_
    intro id v hv
    rw [Builder.withLocal_binding?] at hv
    split at hv
    · exact .inr (Option.some.inj hv).symm
    · exact .inl hv
  | @pass decl index param _ hparam =>
    refine ⟨h.numbered, ⟨h.unique.below, h.unique.nodup⟩, ⟨h.labelled.made, h.labelled.nodup⟩,
      h.selected, h.nonempty, h.entry, h.slots, ?_, h.cursor, fun i block hblock =>
        (h.flows i block hblock).mono (List.Subset.refl _) rfl (Nat.le_refl _) fun _ _ => rfl⟩
    intro id v hv
    rw [Builder.binding?_bind] at hv
    split at hv
    · cases hv
      exact ⟨rfl, param, hparam, rfl⟩
    · exact h.bindings id v hv
  | select hi _ =>
    refine ⟨h.numbered, ⟨h.unique.below, h.unique.nodup⟩, ⟨h.labelled.made, h.labelled.nodup⟩,
      ?_, h.nonempty, h.entry, h.slots, h.bindings, ?_, fun i block hblock =>
        (h.flows i block hblock).mono (List.Subset.refl _) rfl (Nat.le_refl _) fun _ _ => rfl⟩
    · intro j hj
      cases hj
      exact hi
    · intro j block hj _
      cases hj
      exact List.subset_append_left _ _
  | fork hi _ hTrue hFalse hP hcond hresults _ => exact h.fork hi hTrue hFalse hP hcond hresults
  | @enter i label results hi _ hlabel hresults =>
    refine (h.withBlock hlabel results).withTerminator hi (by simp [Terminator.operands]) ?_
    intro j hj
    obtain rfl := List.mem_singleton.mp hj
    refine ⟨by simp, fun x hx => (hresults x ?_).withBlock label _⟩
    simpa [noted] using hx
  | @jump i target hi _ _ htarget hresults =>
    refine h.withTerminator hi (by simp [Terminator.operands]) ?_
    intro j hj
    obtain rfl := List.mem_singleton.mp hj
    exact ⟨htarget, hresults⟩
  | ret hi _ hvalue _ =>
    refine h.withTerminator hi ?_ (by simp [Terminator.successors])
    intro v hv
    exact hvalue v (Option.mem_toList.mp hv)

theorem Steps.sound (h : Steps R s s') (hs : s.Sound R.operand) : s'.Sound R.operand :=
  h.keeps (I := Sound R.operand) (fun _ _ hstep hsound => hstep.sound hsound) hs

end Sketch

end MicroC.Ir
