import MicroC.Proofs.Ir.Growth
import MicroC.Proofs.Meaning.Execution

/-!
Places in the code of a finished builder. A place is where the cursor of an earlier state of the
builder stood; a run from there begins with the instruction that was emitted next.
-/

namespace MicroC.Ir

/-- More steps do not hurt. -/
theorem Function.Finishes.mono {f : Function} {x : Activation} {v : Option Int} {M : Memory} :
    {n m : Nat} → n ≤ m → {insts : List Instruction} → {terminator : Option Terminator} →
    {s : State} → f.Finishes x n insts terminator s v M → f.Finishes x m insts terminator s v M
  | 0, _, _, _, _, _, h => h.elim
  | _ + 1, 0, hle, _, _, _, _ => absurd hle (Nat.not_succ_le_zero _)
  | n + 1, m + 1, hle, insts, terminator, s, h => by
    have hle' : n ≤ m := Nat.le_of_succ_le_succ hle
    cases insts with
    | cons inst rest =>
      obtain ⟨result, memory, hrun, hrest⟩ := h
      exact ⟨result, memory, hrun, hrest.mono hle'⟩
    | nil =>
      cases terminator with
      | none => exact h
      | some terminator =>
        cases terminator with
        | br target =>
          obtain ⟨block, hblock, hrest⟩ := h
          exact ⟨block, hblock, hrest.mono hle'⟩
        | condBr cond onTrue onFalse =>
          obtain ⟨c, block, hc, hblock, hrest⟩ := h
          exact ⟨c, block, hc, hblock, hrest.mono hle'⟩
        | ret value => cases value <;> exact h

/-- Where a run is: before an instruction of a block, or at a return. -/
inductive Place where
  | before (block index : Nat)
  | done (value : Option Int)
  | nowhere

/-- Whether a run from a place in the finished code comes to a return. -/
def Place.Finishes (final : Builder) (x : Activation) (n : Nat) :
    Place → State → Option Int → Memory → Prop
  | .before i k, s, v, M => ∃ block, final.blocks[i]? = some block ∧
    final.toFunction.Finishes x n (block.insts.drop k) block.terminator s v M
  | .done value, s, v, M => v = value ∧ M = s.memory
  | .nowhere, _, _, _ => False

/-- A run from a place goes on to another one by a step that changes nothing. -/
def Place.LeadsTo (final : Builder) (x : Activation) (P next : Place) : Prop :=
  ∀ n s v M, P.Finishes final x n s v M ↔ ∃ m, n = m + 1 ∧ next.Finishes final x m s v M

theorem Place.Finishes.mono {final : Builder} {x : Activation} {n m : Nat} {P : Place} {s : State}
    {v : Option Int} {M : Memory} (h : P.Finishes final x n s v M) (hle : n ≤ m) :
    P.Finishes final x m s v M := by
  cases P with
  | before i k =>
    obtain ⟨block, hblock, hrun⟩ := h
    exact ⟨block, hblock, hrun.mono hle⟩
  | done _ | nowhere => exact h

namespace Builder

/-- The end of the selected block. -/
def place (b : Builder) : Place :=
  match b.current with
  | some i => .before i ((b.blocks[i]?.map (·.insts.length)).getD 0)
  | none => .nowhere

/-- Only the entry block gets the slots in front. -/
theorem toFunction_getElem? (b : Builder) {i : Nat} (hi : i ≠ 0) :
    b.toFunction.blocks[i]? = b.blocks[i]? := by
  unfold toFunction
  cases b.blocks with
  | nil => rfl
  | cons entry rest =>
    cases i with
    | zero => exact absurd rfl hi
    | succ i => rfl

variable {final b : Builder} {x : Activation} {id : BlockId} {s : State} {v : Option Int}
  {M : Memory} {n : Nat}

/-- What has been emitted last is what a run does next. -/
theorem finishes_withInst {operation : Operation} {type : Ty} {name : Option String}
    (hid : b.current = some id) (hopen : b.Unfinished id)
    (hgrows : (b.withInst id operation type name).Grows final) :
    b.place.Finishes final x n s v M ↔ ∃ m, n = m + 1 ∧ ∃ result memory,
      (Instruction.mk b.nextInst operation type name).run x s.results s.memory result memory ∧
        (b.withInst id operation type name).place.Finishes final x m
          (s.after b.nextInst result memory) v M := by
  obtain ⟨block, hblock, _⟩ := hopen
  have hnew : (b.withInst id operation type name).blocks[id]? = some { block with
      insts := block.insts ++ [⟨b.nextInst, operation, type, name⟩] } := by
    simp [withInst_getElem?, hblock]
  obtain ⟨last, hlast, hblockGrows⟩ := hgrows.blocks id _ hnew
  obtain ⟨more, hmore⟩ := hblockGrows.insts
  have hplace : b.place = .before id block.insts.length := by simp [place, hid, hblock]
  have hplace' : (b.withInst id operation type name).place = .before id (block.insts.length + 1) := by
    simp [place, hid, hnew]
  have hdrop : last.insts.drop block.insts.length =
      ⟨b.nextInst, operation, type, name⟩ :: last.insts.drop (block.insts.length + 1) := by
    simp [← hmore, List.drop_append]
  rw [hplace, hplace']
  simp only [Place.Finishes, hlast, Option.some.injEq, exists_eq_left', hdrop]
  cases n with
  | zero => simp [Function.Finishes]
  | succ n => simp [Function.Finishes]

/-- After the last instruction of a block a run goes where the terminator leads. -/
theorem finishes_withTerminator {terminator : Terminator} (hid : b.current = some id)
    (hopen : b.Unfinished id) (hgrows : (b.withTerminator id terminator).Grows final) :
    b.place.Finishes final x n s v M ↔
      final.toFunction.Finishes x n [] (some terminator) s v M := by
  obtain ⟨block, hblock, _⟩ := hopen
  have hnew : (b.withTerminator id terminator).blocks[id]? =
      some { block with terminator := some terminator } := by
    simp [withTerminator_getElem?, hblock]
  obtain ⟨last, hlast, hblockGrows⟩ := hgrows.blocks id _ hnew
  obtain ⟨hinsts, hterminator⟩ := hblockGrows.final rfl
  have hplace : b.place = .before id block.insts.length := by simp [place, hid, hblock]
  rw [hplace]
  simp [Place.Finishes, hlast, hinsts, hterminator]

/-- A block that is selected is still empty. -/
theorem Tidy.place_withCurrent (h : b.Tidy) (hnone : b.current = none) {i : Nat}
    (hi : b.Unfinished i) : (b.withCurrent (some i)).place = .before i 0 := by
  obtain ⟨block, hblock, hterm⟩ := hi
  have hempty := h.pending i block hblock hterm (by simp [hnone])
  simp [place, hblock, hempty]

theorem Tidy.place_withBlock (h : b.Tidy) (label : String) : (b.withBlock label).place = b.place := by
  unfold place
  rw [withBlock_current]
  split
  next i hi =>
    obtain ⟨block, hblock, _⟩ := h.selected i hi
    obtain ⟨text, hblocks⟩ := b.withBlock_blocks label
    rw [hblocks, List.getElem?_append_left (List.getElem?_eq_some_iff.mp hblock).1]
  · rfl

/-- The number of an instruction is not that of a slot. -/
theorem Tidy.slot_ne (h : b.Tidy) {operation : Operation} {type : Ty} {name : Option String}
    (hgrows : (b.withInst id operation type name).Grows final) {slot : Instruction}
    (hslot : slot ∈ final.slots) : slot.id ≠ b.nextInst := by
  obtain ⟨more, hslots, hmore⟩ := hgrows.slots
  rw [hslots] at hslot
  rcases List.mem_append.mp hslot with hold | hnew
  · exact Nat.ne_of_lt (h.slots slot hold).1
  · exact Nat.ne_of_gt (hmore slot hnew)

end Builder

/-! The entry of a function. -/

/-- The state after stack slots have been made. -/
def State.withSlots (s : State) (x : Activation) (slots : List Instruction) : State where
  results i := if slots.any (·.id = i) then .address (.slot x.depth i) 0 else s.results i
  memory := s.memory

theorem State.withSlots_cons (s : State) (x : Activation) (slot : Instruction)
    (slots : List Instruction) :
    (s.after slot.id (.address (.slot x.depth slot.id) 0) s.memory).withSlots x slots =
      s.withSlots x (slot :: slots) := by
  unfold withSlots after
  congr 1
  funext i
  by_cases hrest : slots.any (·.id = i)
  · simp [hrest]
  · by_cases hid : i = slot.id
    · simp [hid]
    · have hne : ¬ slot.id = i := fun heq => hid heq.symm
      simp [hrest, hid, hne]

/-- The slots at the head of the entry block are made first. -/
theorem Function.finishes_slots {f : Function} {x : Activation} {insts : List Instruction}
    {terminator : Option Terminator} {v : Option Int} {M : Memory} (slots : List Instruction)
    (hslots : ∀ slot ∈ slots, ∃ type, slot.operation = .alloca type) {n : Nat} {s : State} :
    f.Finishes x n (slots ++ insts) terminator s v M ↔
      ∃ m, n = m + slots.length ∧ f.Finishes x m insts terminator (s.withSlots x slots) v M := by
  induction slots generalizing n s with
  | nil => simp [State.withSlots]
  | cons slot rest ih =>
    obtain ⟨type, halloca⟩ := hslots slot List.mem_cons_self
    have hrun : slot.run x s.results = pure (.address (.slot x.depth slot.id) 0) := by
      rw [Instruction.run, halloca]
    cases n with
    | zero => simp [Finishes]
    | succ n =>
      rw [List.cons_append, Finishes, hrun]
      constructor
      · rintro ⟨_, _, ⟨rfl, rfl⟩, hrest⟩
        obtain ⟨m, rfl, hm⟩ := (ih fun slot hslot => hslots slot (List.mem_cons_of_mem _ hslot)).mp hrest
        exact ⟨m, rfl, State.withSlots_cons s x slot rest ▸ hm⟩
      · rintro ⟨m, hn, hm⟩
        refine ⟨_, _, ⟨rfl, rfl⟩, (ih fun slot hslot => hslots slot (List.mem_cons_of_mem _ hslot)).mpr
          ⟨m, Nat.succ.inj hn, ?_⟩⟩
        rw [State.withSlots_cons]
        exact hm

/-- A call of a function runs its code from the beginning of the entry block. -/
theorem Builder.returns_iff {final : Builder} (hslots : final.Tidy) {entry : Block}
    (hentry : final.blocks[0]? = some entry) {calls : Calls} {depth : Nat} {args : List Datum}
    {M M' : Memory} {v : Option Int} :
    final.toFunction.Returns calls depth args M v M' ↔
      Datum.AreArguments depth (final.params.map (·.type.pointee?.isSome)) args ∧
        ∃ n, (Place.before 0 0).Finishes final ⟨depth, args, calls⟩ n
          (State.withSlots ⟨fun _ => .none, M⟩ ⟨depth, args, calls⟩ final.slots) v M' := by
  have halloca : ∀ slot ∈ final.slots, ∃ type, slot.operation = .alloca type := by
    intro slot hslot
    obtain ⟨_, type, htype, _⟩ := hslots.slots slot hslot
    exact ⟨type, htype⟩
  have hhead : final.toFunction.blocks.head? =
      some { entry with insts := final.slots ++ entry.insts } := by
    unfold toFunction
    cases hblocks : final.blocks with
    | nil => simp [hblocks] at hentry
    | cons block rest =>
      obtain rfl : block = entry := by simpa [hblocks] using hentry
      rfl
  unfold Function.Returns
  refine and_congr Iff.rfl ?_
  constructor
  · rintro ⟨_, n, hblock, hrun⟩
    obtain rfl := Option.some.inj (hhead.symm.trans hblock)
    obtain ⟨m, _, hm⟩ := (Function.finishes_slots _ halloca).mp hrun
    exact ⟨m, entry, hentry, hm⟩
  · rintro ⟨m, block, hblock, hm⟩
    obtain rfl := Option.some.inj (hentry.symm.trans hblock)
    exact ⟨_, _, hhead, (Function.finishes_slots _ halloca).mpr ⟨m, rfl, hm⟩⟩

end MicroC.Ir
