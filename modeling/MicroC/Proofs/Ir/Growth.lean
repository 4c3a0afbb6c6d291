import MicroC.Proofs.Ir.Cursor

/-!
Growth of a function under construction. What has been built stays: instructions are only added
at the ends of unfinished blocks, a block with a terminator is final, and slots get ever larger
numbers. In a tidy state all unfinished blocks but the selected one are still empty, so that
the code that will be emitted into a block begins where the block is selected.
-/

namespace MicroC.Ir

/-- Instructions are added at the end, and nothing after the terminator. -/
structure Block.Grows (block block' : Block) : Prop where
  insts : block.insts <+: block'.insts
  final : block.terminator.isSome →
    block'.insts = block.insts ∧ block'.terminator = block.terminator

namespace Block.Grows

variable {block block' block'' : Block}

theorem refl (block : Block) : block.Grows block := ⟨List.prefix_refl _, fun _ => ⟨rfl, rfl⟩⟩

theorem trans (h : block.Grows block') (h' : block'.Grows block'') : block.Grows block'' := by
  refine ⟨h.insts.trans h'.insts, ?_⟩
  intro hterm
  obtain ⟨hinsts, hterminator⟩ := h.final hterm
  obtain ⟨hinsts', hterminator'⟩ := h'.final (hterminator ▸ hterm)
  exact ⟨hinsts'.trans hinsts, hterminator'.trans hterminator⟩

/-- An unfinished block may get more instructions, or its terminator. -/
theorem of_unfinished (hterm : block.terminator = none) (h : block.insts <+: block'.insts) :
    block.Grows block' :=
  ⟨h, by simp [hterm]⟩

end Block.Grows

namespace Builder

variable {b b' b'' : Builder}

/-- Nothing that has been built is changed later. -/
structure Grows (b b' : Builder) : Prop where
  blocks : ∀ (i : Nat) (block : Block), b.blocks[i]? = some block →
    ∃ block', b'.blocks[i]? = some block' ∧ block.Grows block'
  slots : ∃ more, b'.slots = b.slots ++ more ∧ ∀ slot ∈ more, b.nextInst ≤ slot.id
  nextInst : b.nextInst ≤ b'.nextInst
  bindings : ∀ id v, b.binding? id = some v → b'.binding? id = some v
  name : b'.name = b.name
  params : b'.params = b.params

namespace Grows

theorem trans (h : b.Grows b') (h' : b'.Grows b'') : b.Grows b'' := by
  refine ⟨?_, ?_, Nat.le_trans h.nextInst h'.nextInst,
    fun id v hv => h'.bindings id v (h.bindings id v hv), h'.name.trans h.name,
    h'.params.trans h.params⟩
  · intro i block hblock
    obtain ⟨block', hblock', hgrows⟩ := h.blocks i block hblock
    obtain ⟨block'', hblock'', hgrows'⟩ := h'.blocks i block' hblock'
    exact ⟨block'', hblock'', hgrows.trans hgrows'⟩
  · obtain ⟨more, hslots, hmore⟩ := h.slots
    obtain ⟨more', hslots', hmore'⟩ := h'.slots
    refine ⟨more ++ more', by rw [hslots', hslots, List.append_assoc], ?_⟩
    intro slot hslot
    rcases List.mem_append.mp hslot with hold | hnew
    · exact hmore slot hold
    · exact Nat.le_trans h.nextInst (hmore' slot hnew)

theorem slots_subset (h : b.Grows b') : b.slots ⊆ b'.slots := by
  obtain ⟨more, hslots, _⟩ := h.slots
  rw [hslots]
  exact List.subset_append_left b.slots more

/-- A step that leaves the slots and bindings alone. -/
theorem of_blocks (hslots : b'.slots = b.slots) (hbindings : b'.bindings = b.bindings)
    (hnext : b.nextInst ≤ b'.nextInst)
    (hblocks : ∀ (i : Nat) (block : Block), b.blocks[i]? = some block →
      ∃ block', b'.blocks[i]? = some block' ∧ block.Grows block')
    (hname : b'.name = b.name) (hparams : b'.params = b.params) : b.Grows b' := by
  refine ⟨hblocks, ⟨[], by simp [hslots], by simp⟩, hnext, ?_, hname, hparams⟩
  intro id v hv
  rw [binding?, hbindings]
  exact hv

/-- A step that leaves the blocks alone. -/
theorem of_slots {more : List Instruction} (hblocks : b'.blocks = b.blocks)
    (hslots : b'.slots = b.slots ++ more) (hmore : ∀ slot ∈ more, b.nextInst ≤ slot.id)
    (hnext : b.nextInst ≤ b'.nextInst)
    (hbindings : ∀ id v, b.binding? id = some v → b'.binding? id = some v)
    (hname : b'.name = b.name) (hparams : b'.params = b.params) : b.Grows b' := by
  refine ⟨?_, ⟨more, hslots, hmore⟩, hnext, hbindings, hname, hparams⟩
  intro i block hblock
  exact ⟨block, hblocks ▸ hblock, .refl block⟩

theorem refl (b : Builder) : b.Grows b :=
  .of_slots rfl (List.append_nil _).symm (by simp) (Nat.le_refl _) (fun _ _ hv => hv) rfl rfl

end Grows

theorem grows_withBlock (b : Builder) (label : String) : b.Grows (b.withBlock label) := by
  obtain ⟨text, hblocks⟩ := b.withBlock_blocks label
  refine .of_blocks rfl rfl (Nat.le_refl _) ?_ rfl rfl
  intro i block hblock
  refine ⟨block, ?_, .refl block⟩
  rw [hblocks, List.getElem?_append_left (List.getElem?_eq_some_iff.mp hblock).1]
  exact hblock

theorem grows_withCurrent (b : Builder) (current : Option BlockId) :
    b.Grows (b.withCurrent current) :=
  .of_slots rfl (List.append_nil _).symm (by simp) (Nat.le_refl _) (fun _ _ hv => hv) rfl rfl

theorem Unfinished.grows_withInst {id : BlockId} {operation : Operation} {type : Ty}
    {name : Option String} (h : b.Unfinished id) : b.Grows (b.withInst id operation type name) := by
  refine .of_blocks rfl rfl (Nat.le_succ _) ?_ rfl rfl
  intro i block hblock
  rw [withInst_getElem?, hblock]
  by_cases hid : id = i
  · subst hid
    obtain ⟨block', hblock', hterm⟩ := h
    obtain rfl : block' = block := Option.some.inj (hblock'.symm.trans hblock)
    exact ⟨_, rfl, .of_unfinished hterm (by simp)⟩
  · exact ⟨block, by simp [hid], .refl block⟩

theorem Unfinished.grows_withTerminator {id : BlockId} {terminator : Terminator}
    (h : b.Unfinished id) : b.Grows (b.withTerminator id terminator) := by
  refine .of_blocks rfl rfl (Nat.le_refl _) ?_ rfl rfl
  intro i block hblock
  rw [withTerminator_getElem?, hblock]
  by_cases hid : id = i
  · subst hid
    obtain ⟨block', hblock', hterm⟩ := h
    obtain rfl : block' = block := Option.some.inj (hblock'.symm.trans hblock)
    exact ⟨_, rfl, .of_unfinished hterm (by simp)⟩
  · exact ⟨block, by simp [hid], .refl block⟩

theorem grows_withSlot (b : Builder) (type : Ty) (name : Option String) :
    b.Grows (b.withSlot type name) :=
  .of_slots rfl withSlot_slots (by simp) (Nat.le_succ _) (fun _ _ hv => hv) rfl rfl

theorem grows_withLocal {decl : DeclId} {name : String} {type : Ty}
    (h : b.binding? decl = none) : b.Grows (b.withLocal decl name type) := by
  obtain ⟨text, hslots⟩ := @withLocal_slots b decl name type
  refine .of_slots rfl hslots (by simp) (Nat.le_succ _) ?_ rfl rfl
  intro id v hv
  rw [withLocal_binding?, if_neg]
  · exact hv
  · rintro rfl
    rw [h] at hv
    cases hv

theorem grows_bind {decl : DeclId} {v : Value} (h : b.binding? decl = none) :
    b.Grows (b.bind decl v) := by
  refine .of_slots rfl (List.append_nil _).symm (by simp) (Nat.le_refl _) ?_ rfl rfl
  intro id w hw
  rw [binding?_bind, if_neg]
  · exact hw
  · rintro rfl
    rw [h] at hw
    cases hw

/-- Variables and the slots with a name belong to each other. -/
structure Housed (b : Builder) : Prop where
  bound : ∀ decl id type, b.binding? decl = some (.inst id type) → id < b.nextInst
  apart : ∀ decl decl' id type type', b.binding? decl = some (.inst id type) →
    b.binding? decl' = some (.inst id type') → decl = decl'
  named : ∀ slot ∈ b.slots, slot.name.isSome → ∃ decl type, b.binding? decl = some (.inst slot.id type)

namespace Housed

/-- A step that at most adds slots without a name. -/
theorem of_bindings (h : b.Housed) (hbindings : ∀ decl, b'.binding? decl = b.binding? decl)
    (hnext : b.nextInst ≤ b'.nextInst)
    (hslots : ∀ slot ∈ b'.slots, slot.name.isSome → slot ∈ b.slots) : b'.Housed := by
  constructor
  · intro decl id type hv
    rw [hbindings] at hv
    exact Nat.lt_of_lt_of_le (h.bound decl id type hv) hnext
  · intro decl decl' id type type' hv hv'
    rw [hbindings] at hv hv'
    exact h.apart decl decl' id type type' hv hv'
  · intro slot hslot hname
    obtain ⟨decl, type, hv⟩ := h.named slot (hslots slot hslot hname) hname
    exact ⟨decl, type, (hbindings decl).trans hv⟩

theorem withLocal (h : b.Housed) {decl : DeclId} (hnew : b.binding? decl = none) (name : String)
    (type : Ty) : (b.withLocal decl name type).Housed := by
  have hkept : ∀ d k t, b.binding? d = some (.inst k t) → decl ≠ d := by
    rintro d k t hv rfl
    rw [hnew] at hv
    cases hv
  constructor
  · intro d k t hv
    rw [withLocal_binding?] at hv
    split at hv
    · cases hv
      exact Nat.lt_succ_self _
    · exact Nat.lt_succ_of_lt (h.bound d k t hv)
  · intro d d' k t t' hv hv'
    rw [withLocal_binding?] at hv hv'
    split at hv <;> split at hv'
    next hd hd' => exact hd.symm.trans hd'
    · cases hv
      exact absurd (h.bound d' _ t' hv') (Nat.lt_irrefl _)
    · cases hv'
      exact absurd (h.bound d _ t hv) (Nat.lt_irrefl _)
    · exact h.apart d d' k t t' hv hv'
  · intro slot hslot hname
    obtain ⟨text, hslots⟩ := @withLocal_slots b decl name type
    rw [hslots] at hslot
    rcases List.mem_append.mp hslot with hold | hself
    · obtain ⟨d, t, hv⟩ := h.named slot hold hname
      exact ⟨d, t, by rw [withLocal_binding?, if_neg (hkept d _ t hv), hv]⟩
    · obtain rfl := List.mem_singleton.mp hself
      exact ⟨decl, _, by rw [withLocal_binding?, if_pos rfl]⟩

/-- A parameter that is bound to what is passed. -/
theorem bind (h : b.Housed) {decl : DeclId} (hnew : b.binding? decl = none) (index : Nat)
    (type : Ty) : (b.bind decl (.param index type)).Housed := by
  have hother : ∀ d k t, (b.bind decl (.param index type)).binding? d = some (.inst k t) ↔
      b.binding? d = some (.inst k t) := by
    intro d k t
    rw [binding?_bind]
    split
    next heq => simp [← heq, hnew]
    · rfl
  constructor
  · intro d k t hv
    exact h.bound d k t ((hother d k t).mp hv)
  · intro d d' k t t' hv hv'
    exact h.apart d d' k t t' ((hother d k t).mp hv) ((hother d' k t').mp hv')
  · intro slot hslot hname
    obtain ⟨d, t, hv⟩ := h.named slot hslot hname
    exact ⟨d, t, (hother d _ t).mpr hv⟩

end Housed

/-- What holds of a function under construction between two steps. Slots are made nowhere else,
and a slot without a name holds a scalar. -/
structure Tidy (b : Builder) : Prop where
  selected : ∀ i, b.current = some i → b.Unfinished i
  pending : ∀ (i : Nat) (block : Block), b.blocks[i]? = some block → block.terminator = none →
    b.current ≠ some i → block.insts = []
  slots : ∀ slot ∈ b.slots, slot.id < b.nextInst ∧
    ∃ type, slot.operation = .alloca type ∧ (slot.name = none → type.isInteger)
  unique : (b.slots.map (·.id)).Nodup
  plain : ∀ block ∈ b.blocks, ∀ inst ∈ block.insts, ∀ slot, inst.operation ≠ .alloca slot
  housed : b.Housed

namespace Tidy

theorem withBlock (h : b.Tidy) (label : String) : (b.withBlock label).Tidy := by
  obtain ⟨text, hblocks⟩ := b.withBlock_blocks label
  refine ⟨fun i hi => (withBlock_unfinished label).mpr (.inl (h.selected i hi)), ?_, h.slots,
    h.unique, ?_, h.housed.of_bindings (fun _ => rfl) (Nat.le_refl _) fun _ hslot _ => hslot⟩
  · intro i block hblock hterm hne
    rw [hblocks, List.getElem?_append] at hblock
    split at hblock
    · exact h.pending i block hblock hterm hne
    · have hmem := List.mem_of_getElem? hblock
      rw [List.mem_singleton] at hmem
      rw [hmem]
  · intro block hblock
    rw [hblocks] at hblock
    rcases List.mem_append.mp hblock with hold | hnew
    · exact h.plain block hold
    · obtain rfl := List.mem_singleton.mp hnew
      simp

theorem withCurrent (h : b.Tidy) (hnone : b.current = none) {i : Nat} (hi : b.Unfinished i) :
    (b.withCurrent (some i)).Tidy := by
  refine ⟨?_, ?_, h.slots, h.unique, h.plain,
    h.housed.of_bindings (fun _ => rfl) (Nat.le_refl _) fun _ hslot _ => hslot⟩
  · intro j hj
    cases hj
    exact hi
  · intro j block hblock hterm _
    exact h.pending j block hblock hterm (by simp [hnone])

theorem withInst (h : b.Tidy) {id : BlockId} {operation : Operation} {type : Ty}
    {name : Option String} (hid : b.current = some id) (hop : ∀ slot, operation ≠ .alloca slot) :
    (b.withInst id operation type name).Tidy := by
  refine ⟨fun i hi => withInst_unfinished.mpr (h.selected i hi), ?_, ?_, h.unique, ?_,
    h.housed.of_bindings (fun _ => rfl) (Nat.le_succ _) fun _ hslot _ => hslot⟩
  · intro i block hblock hterm hne
    rw [withInst_getElem?] at hblock
    obtain ⟨old, hold, rfl⟩ := Option.map_eq_some_iff.mp hblock
    have hother : id ≠ i := by
      rintro rfl
      exact hne hid
    rw [if_neg hother] at hterm ⊢
    exact h.pending i old hold hterm hne
  · intro slot hslot
    obtain ⟨hlt, halloca⟩ := h.slots slot hslot
    exact ⟨Nat.lt_succ_of_lt hlt, halloca⟩
  · intro block hblock inst hinst
    obtain ⟨i, hi⟩ := List.mem_iff_getElem?.mp hblock
    rw [withInst_getElem?] at hi
    obtain ⟨old, hold, rfl⟩ := Option.map_eq_some_iff.mp hi
    have hplain := h.plain old (List.mem_of_getElem? hold)
    split at hinst
    · rcases List.mem_append.mp hinst with hinst | hnew
      · exact hplain inst hinst
      · obtain rfl := List.mem_singleton.mp hnew
        exact hop
    · exact hplain inst hinst

theorem withTerminator (h : b.Tidy) {id : BlockId} {terminator : Terminator}
    (hid : b.current = some id) : (b.withTerminator id terminator).Tidy := by
  refine ⟨fun i hi => by simp at hi, ?_, h.slots, h.unique, ?_,
    h.housed.of_bindings (fun _ => rfl) (Nat.le_refl _) fun _ hslot _ => hslot⟩
  · intro i block hblock hterm _
    rw [withTerminator_getElem?] at hblock
    obtain ⟨old, hold, rfl⟩ := Option.map_eq_some_iff.mp hblock
    have hother : id ≠ i := by
      rintro rfl
      simp at hterm
    rw [if_neg hother] at hterm ⊢
    refine h.pending i old hold hterm ?_
    rw [hid]
    exact fun heq => hother (Option.some.inj heq)
  · intro block hblock
    obtain ⟨i, hi⟩ := List.mem_iff_getElem?.mp hblock
    rw [withTerminator_getElem?] at hi
    obtain ⟨old, hold, rfl⟩ := Option.map_eq_some_iff.mp hi
    have hplain := h.plain old (List.mem_of_getElem? hold)
    split <;> exact hplain

/-- A step that adds one slot and leaves the blocks alone. -/
theorem of_slot (h : b.Tidy) {slot : Instruction} {type : Ty} (hblocks : b'.blocks = b.blocks)
    (hcurrent : b'.current = b.current) (hslots : b'.slots = b.slots ++ [slot])
    (hnext : b'.nextInst = b.nextInst + 1) (hid : slot.id = b.nextInst)
    (halloca : slot.operation = .alloca type) (hname : slot.name = none → type.isInteger)
    (hhoused : b'.Housed) : b'.Tidy := by
  refine ⟨?_, ?_, ?_, ?_, hblocks ▸ h.plain, hhoused⟩
  · intro i hi
    obtain ⟨block, hblock, hterm⟩ := h.selected i (hcurrent ▸ hi)
    exact ⟨block, hblocks ▸ hblock, hterm⟩
  · intro i block hblock hterm hne
    exact h.pending i block (hblocks ▸ hblock) hterm (hcurrent ▸ hne)
  · intro other hother
    rw [hslots] at hother
    rw [hnext]
    rcases List.mem_append.mp hother with hold | hnew
    · obtain ⟨hlt, hrest⟩ := h.slots other hold
      exact ⟨Nat.lt_succ_of_lt hlt, hrest⟩
    · obtain rfl := List.mem_singleton.mp hnew
      exact ⟨hid ▸ Nat.lt_succ_self _, type, halloca, hname⟩
  · rw [hslots, List.map_append, List.nodup_append]
    refine ⟨h.unique, by simp, ?_⟩
    intro k hk k' hk'
    obtain ⟨other, hother, rfl⟩ := List.mem_map.mp hk
    obtain rfl : k' = slot.id := by simpa using hk'
    rw [hid]
    exact Nat.ne_of_lt (h.slots other hother).1

theorem withSlot (h : b.Tidy) {type : Ty} (htype : type.isInteger) :
    (b.withSlot type none).Tidy := by
  refine h.of_slot rfl rfl withSlot_slots rfl rfl rfl (fun _ => htype)
    (h.housed.of_bindings (fun _ => rfl) (Nat.le_succ _) ?_)
  intro slot hslot hname
  rw [withSlot_slots] at hslot
  rcases List.mem_append.mp hslot with hold | hself
  · exact hold
  · rw [List.mem_singleton.mp hself] at hname
    cases hname

theorem withLocal (h : b.Tidy) {decl : DeclId} (hnew : b.binding? decl = none) (name : String)
    (type : Ty) : (b.withLocal decl name type).Tidy := by
  obtain ⟨text, hslots⟩ := @withLocal_slots b decl name type
  exact h.of_slot rfl rfl hslots rfl rfl rfl (by simp) (h.housed.withLocal hnew name type)

theorem bind (h : b.Tidy) {decl : DeclId} (hnew : b.binding? decl = none) (index : Nat)
    (type : Ty) : (b.bind decl (.param index type)).Tidy :=
  ⟨h.selected, h.pending, h.slots, h.unique, h.plain, h.housed.bind hnew index type⟩

/-- The entry block is the only one at first. -/
theorem startBody (hblocks : b.blocks = []) (hslots : b.slots = [])
    (hbindings : ∀ decl, b.binding? decl = none) :
    ((b.withBlock "entry").withCurrent (some 0)).Tidy := by
  obtain ⟨text, hentry⟩ := b.withBlock_blocks "entry"
  rw [hblocks, List.nil_append] at hentry
  have hfree : ∀ decl, ((b.withBlock "entry").withCurrent (some 0)).binding? decl = none := hbindings
  have hhoused : ((b.withBlock "entry").withCurrent (some 0)).Housed :=
    ⟨by simp [hfree], by simp [hfree], by simp [hslots]⟩
  refine ⟨?_, ?_, by simp [hslots], by simp [hslots], by simp [hentry], hhoused⟩
  · intro i hi
    cases hi
    rw [withCurrent_unfinished, withBlock_unfinished]
    exact .inr (by simp [hblocks])
  · intro i block hblock _ _
    rw [withCurrent_blocks, hentry] at hblock
    have hmem := List.mem_of_getElem? hblock
    rw [List.mem_singleton] at hmem
    rw [hmem]

end Tidy

end Builder

end MicroC.Ir
