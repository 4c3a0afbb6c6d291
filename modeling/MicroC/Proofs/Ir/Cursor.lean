import MicroC.Ir.Builder

/-!
The cursor of a function under construction. A block is unfinished while it has no
terminator; the cursor is ready if it stands at an unfinished block, and the other unfinished
blocks are pending. Each operation is described by what it needs to succeed and by the
state it leaves; a body can be completed once no block is pending.
-/

namespace MicroC.Ir.Builder

variable {b : Builder} {i j : Nat}

/-- A block that can still get instructions and a terminator. -/
def Unfinished (b : Builder) (i : BlockId) : Prop :=
  ∃ block, b.blocks[i]? = some block ∧ block.terminator = none

/-- The cursor is at an unfinished block. -/
def Ready (b : Builder) : Prop := ∃ i, b.current = some i ∧ b.Unfinished i

/-- An unfinished block that is not selected. -/
def Pending (b : Builder) (i : BlockId) : Prop := b.Unfinished i ∧ b.current ≠ some i

theorem Unfinished.lt (h : b.Unfinished i) : i < b.blocks.length := by
  obtain ⟨block, hblock, _⟩ := h
  exact (List.getElem?_eq_some_iff.mp hblock).1

theorem Ready.isSome (h : b.Ready) : b.current.isSome := by
  obtain ⟨i, hi, _⟩ := h
  simp [hi]

theorem Ready.blocks_ne_nil (h : b.Ready) : b.blocks ≠ [] := by
  obtain ⟨i, _, hi⟩ := h
  exact List.ne_nil_of_length_pos (Nat.zero_lt_of_lt hi.lt)

/-! New blocks. -/

/-- The state after a block is appended. -/
def withBlock (b : Builder) (label : String) : Builder := (b.newBlock label).2

theorem newBlock_eq (b : Builder) (label : String) :
    b.newBlock label = (b.blocks.length, b.withBlock label) := rfl

@[simp] theorem withBlock_current (label : String) : (b.withBlock label).current = b.current := rfl

@[simp] theorem withBlock_slots (label : String) : (b.withBlock label).slots = b.slots := rfl

@[simp] theorem withBlock_bindings (label : String) :
    (b.withBlock label).bindings = b.bindings := rfl

@[simp] theorem withBlock_nextInst (label : String) :
    (b.withBlock label).nextInst = b.nextInst := rfl

@[simp] theorem withBlock_result (label : String) : (b.withBlock label).result = b.result := rfl

@[simp] theorem withBlock_params (label : String) : (b.withBlock label).params = b.params := rfl

theorem withBlock_blocks (label : String) :
    ∃ text, (b.withBlock label).blocks = b.blocks ++ [{ id := b.blocks.length, label := text }] :=
  ⟨_, rfl⟩

@[simp] theorem withBlock_length (label : String) :
    (b.withBlock label).blocks.length = b.blocks.length + 1 := by
  obtain ⟨text, hblocks⟩ := b.withBlock_blocks label
  rw [hblocks, List.length_append, List.length_singleton]

@[simp] theorem withBlock_unfinished (label : String) :
    (b.withBlock label).Unfinished i ↔ b.Unfinished i ∨ i = b.blocks.length := by
  obtain ⟨text, hblocks⟩ := b.withBlock_blocks label
  unfold Unfinished
  rw [hblocks, List.getElem?_append]
  split
  next hlt =>
    have hne : i ≠ b.blocks.length := Nat.ne_of_lt hlt
    simp [hne]
  next hge =>
    have hnone : b.blocks[i]? = none := List.getElem?_eq_none (Nat.le_of_not_lt hge)
    by_cases hi : i = b.blocks.length
    · simp [hi]
    · have hpos : i - b.blocks.length ≠ 0 := by omega
      simp [hnone, hi, hpos]

/-! Selection. -/

/-- The state with another block selected, or none. -/
def withCurrent (b : Builder) (current : Option BlockId) : Builder := { b with current }

@[simp] theorem withCurrent_current (c : Option BlockId) : (b.withCurrent c).current = c := rfl

@[simp] theorem withCurrent_blocks (c : Option BlockId) : (b.withCurrent c).blocks = b.blocks := rfl

@[simp] theorem withCurrent_slots (c : Option BlockId) : (b.withCurrent c).slots = b.slots := rfl

@[simp] theorem withCurrent_bindings (c : Option BlockId) :
    (b.withCurrent c).bindings = b.bindings := rfl

@[simp] theorem withCurrent_nextInst (c : Option BlockId) :
    (b.withCurrent c).nextInst = b.nextInst := rfl

@[simp] theorem withCurrent_result (c : Option BlockId) : (b.withCurrent c).result = b.result := rfl

@[simp] theorem withCurrent_params (c : Option BlockId) : (b.withCurrent c).params = b.params := rfl

@[simp] theorem withCurrent_unfinished (c : Option BlockId) :
    (b.withCurrent c).Unfinished i ↔ b.Unfinished i := Iff.rfl

theorem selectBlock_eq (h : b.Unfinished i) :
    b.selectBlock i = (.ok (), b.withCurrent (some i)) := by
  obtain ⟨block, hblock, hterm⟩ := h
  simp [selectBlock, hblock, hterm, withCurrent]

theorem selectBlock_cases {b' : Builder} {u : Unit} (h : b.selectBlock i = (.ok u, b')) :
    b.Unfinished i ∧ b' = b.withCurrent (some i) := by
  unfold selectBlock at h
  split at h
  · cases h
  next block hblock =>
    split at h
    · cases h
    next hterm =>
      cases h
      exact ⟨⟨block, hblock, by simpa using hterm⟩, rfl⟩

/-! Instructions. -/

/-- The state after an instruction is appended to a block. -/
def withInst (b : Builder) (id : BlockId) (operation : Operation) (type : Ty)
    (name : Option String) : Builder :=
  { b with
    blocks := b.blocks.modify id fun block =>
      { block with insts := block.insts ++ [{ id := b.nextInst, operation, type, name }] }
    nextInst := b.nextInst + 1 }

section

variable {id : BlockId} {operation : Operation} {type : Ty} {name : Option String}

theorem append_eq (h : b.current = some id) :
    b.append operation type name =
      (.ok (.inst b.nextInst type), b.withInst id operation type name) := by
  simp [append, h, withInst]

@[simp] theorem withInst_current : (b.withInst id operation type name).current = b.current := rfl

@[simp] theorem withInst_slots : (b.withInst id operation type name).slots = b.slots := rfl

@[simp] theorem withInst_bindings : (b.withInst id operation type name).bindings = b.bindings := rfl

@[simp] theorem withInst_nextInst :
    (b.withInst id operation type name).nextInst = b.nextInst + 1 := rfl

@[simp] theorem withInst_result : (b.withInst id operation type name).result = b.result := rfl

@[simp] theorem withInst_params : (b.withInst id operation type name).params = b.params := rfl

@[simp] theorem withInst_length :
    (b.withInst id operation type name).blocks.length = b.blocks.length := by
  simp [withInst]

theorem withInst_getElem? (i : Nat) :
    (b.withInst id operation type name).blocks[i]? = b.blocks[i]?.map fun block =>
      if id = i then
        { block with insts := block.insts ++ [{ id := b.nextInst, operation, type, name }] }
      else block := by
  simp only [withInst, List.getElem?_modify]
  cases b.blocks[i]? with
  | none => rfl
  | some block => by_cases hid : id = i <;> simp [hid]

@[simp] theorem withInst_unfinished :
    (b.withInst id operation type name).Unfinished i ↔ b.Unfinished i := by
  unfold Unfinished
  rw [withInst_getElem?]
  cases b.blocks[i]? with
  | none => simp
  | some block => by_cases hid : id = i <;> simp [hid]

end

/-! Stack slots. -/

/-- The state after a stack slot is made. -/
def withSlot (b : Builder) (type : Ty) (name : Option String) : Builder := (b.addSlot type name).2

section

variable {type : Ty} {name : Option String}

theorem addSlot_eq : b.addSlot type name = (.inst b.nextInst (.ptr type), b.withSlot type name) := rfl

@[simp] theorem withSlot_current : (b.withSlot type name).current = b.current := rfl

@[simp] theorem withSlot_blocks : (b.withSlot type name).blocks = b.blocks := rfl

@[simp] theorem withSlot_bindings : (b.withSlot type name).bindings = b.bindings := rfl

@[simp] theorem withSlot_nextInst : (b.withSlot type name).nextInst = b.nextInst + 1 := rfl

@[simp] theorem withSlot_result : (b.withSlot type name).result = b.result := rfl

@[simp] theorem withSlot_params : (b.withSlot type name).params = b.params := rfl

theorem withSlot_slots : (b.withSlot type name).slots =
    b.slots ++ [{ id := b.nextInst, operation := .alloca type, type := .ptr type, name }] := rfl

@[simp] theorem withSlot_unfinished : (b.withSlot type name).Unfinished i ↔ b.Unfinished i := Iff.rfl

end

theorem binding?_bind (d : DeclId) (v : Value) (id : DeclId) :
    (b.bind d v).binding? id = if d = id then some v else b.binding? id := by
  simp [bind, binding?, Std.TreeMap.getElem?_insert]

/-- The state after a slot is made for a declaration. -/
def withLocal (b : Builder) (decl : DeclId) (name : String) (type : Ty) : Builder :=
  ((b.uniqueName name).2.withSlot type (some (b.uniqueName name).1)).bind decl
    (.inst b.nextInst (.ptr type))

section

variable {decl : DeclId} {name : String} {type : Ty}

@[simp] theorem withLocal_current : (b.withLocal decl name type).current = b.current := rfl

@[simp] theorem withLocal_blocks : (b.withLocal decl name type).blocks = b.blocks := rfl

@[simp] theorem withLocal_nextInst :
    (b.withLocal decl name type).nextInst = b.nextInst + 1 := rfl

@[simp] theorem withLocal_result : (b.withLocal decl name type).result = b.result := rfl

@[simp] theorem withLocal_params : (b.withLocal decl name type).params = b.params := rfl

theorem withLocal_slots : ∃ text, (b.withLocal decl name type).slots =
    b.slots ++
      [{ id := b.nextInst, operation := .alloca type, type := .ptr type, name := some text }] :=
  ⟨_, rfl⟩

theorem withLocal_binding? (d : DeclId) : (b.withLocal decl name type).binding? d =
    if decl = d then some (.inst b.nextInst (.ptr type)) else b.binding? d := by
  simp [withLocal, bind, binding?, withSlot, addSlot, uniqueName, Std.TreeMap.getElem?_insert]

@[simp] theorem withLocal_unfinished :
    (b.withLocal decl name type).Unfinished i ↔ b.Unfinished i := Iff.rfl

theorem emitAlloca_none_eq (h : b.blocks ≠ []) :
    b.emitAlloca none type = (.ok (.inst b.nextInst (.ptr type)), b.withSlot type none) := by
  simp [emitAlloca, h, addSlot_eq]

theorem emitAlloca_some_eq (h : b.blocks ≠ []) :
    b.emitAlloca (some (decl, name)) type =
      (.ok (.inst b.nextInst (.ptr type)), b.withLocal decl name type) := by
  simp only [emitAlloca, List.isEmpty_iff, h, if_false]
  rfl

end

/-! Terminators. -/

/-- The state after a block is ended. -/
def withTerminator (b : Builder) (id : BlockId) (terminator : Terminator) : Builder :=
  { b with
    blocks := b.blocks.modify id fun block => { block with terminator := some terminator }
    current := none }

section

variable {id : BlockId} {terminator : Terminator}

@[simp] theorem withTerminator_current : (b.withTerminator id terminator).current = none := rfl

@[simp] theorem withTerminator_slots : (b.withTerminator id terminator).slots = b.slots := rfl

@[simp] theorem withTerminator_bindings :
    (b.withTerminator id terminator).bindings = b.bindings := rfl

@[simp] theorem withTerminator_nextInst :
    (b.withTerminator id terminator).nextInst = b.nextInst := rfl

@[simp] theorem withTerminator_result : (b.withTerminator id terminator).result = b.result := rfl

@[simp] theorem withTerminator_params : (b.withTerminator id terminator).params = b.params := rfl

@[simp] theorem withTerminator_length :
    (b.withTerminator id terminator).blocks.length = b.blocks.length := by
  simp [withTerminator]

theorem withTerminator_getElem? (i : Nat) :
    (b.withTerminator id terminator).blocks[i]? = b.blocks[i]?.map fun block =>
      if id = i then { block with terminator := some terminator } else block := by
  simp only [withTerminator, List.getElem?_modify]
  cases b.blocks[i]? with
  | none => rfl
  | some block => by_cases hid : id = i <;> simp [hid]

@[simp] theorem withTerminator_unfinished :
    (b.withTerminator id terminator).Unfinished i ↔ b.Unfinished i ∧ i ≠ id := by
  unfold Unfinished
  rw [withTerminator_getElem?]
  cases b.blocks[i]? with
  | none => simp
  | some block =>
    by_cases hid : id = i
    · simp [hid]
    · have hne : i ≠ id := fun heq => hid heq.symm
      simp [hid, hne]

theorem setTerminator_eq (h : b.Unfinished id) :
    b.setTerminator id terminator = (.ok (), { b with
      blocks := b.blocks.modify id fun block => { block with terminator := some terminator } }) := by
  obtain ⟨block, hblock, hterm⟩ := h
  simp [setTerminator, hblock, hterm]

theorem terminate_eq (hcurrent : b.current = some id) (h : b.Unfinished id) :
    b.terminate terminator = (.ok (), b.withTerminator id terminator) := by
  simp [terminate, hcurrent, setTerminator_eq h, withTerminator]

theorem setTerminator_cases {b' : Builder} {u : Unit}
    (h : b.setTerminator id terminator = (.ok u, b')) :
    b.Unfinished id ∧ b' = { b with
      blocks := b.blocks.modify id fun block => { block with terminator := some terminator } } := by
  unfold setTerminator at h
  split at h
  · cases h
  next block hblock =>
    split at h
    · cases h
    next hterm =>
      cases h
      exact ⟨⟨block, hblock, by simpa using hterm⟩, rfl⟩

theorem terminate_cases {b' : Builder} {u : Unit} (h : b.terminate terminator = (.ok u, b')) :
    ∃ id, b.current = some id ∧ b.Unfinished id ∧ b' = b.withTerminator id terminator := by
  unfold terminate at h
  split at h
  · cases h
  next id hid =>
    split at h
    next hset =>
      obtain ⟨hopen, rfl⟩ := setTerminator_cases hset
      cases h
      exact ⟨id, hid, hopen, rfl⟩
    next hset => exact (hset _ h).elim

end

/-! The function so far, with the slots in front of the entry. -/

/-- What stands in front of the code of a block: the slots, if it is the entry. -/
def front (b : Builder) (i : BlockId) : List Instruction := if i = 0 then b.slots else []

theorem front_subset (b : Builder) (i : BlockId) : b.front i ⊆ b.slots := by
  unfold front
  split
  · exact List.Subset.refl _
  · exact List.nil_subset _

theorem toFunction_getElem?_eq (b : Builder) (i : Nat) :
    b.toFunction.blocks[i]? = b.blocks[i]?.map fun block =>
      { block with insts := b.front i ++ block.insts } := by
  unfold toFunction
  cases b.blocks with
  | nil => simp
  | cons entry rest =>
    cases i with
    | zero => rfl
    | succ i => simp [front]

/-! The beginning and the end of a body. -/

theorem startBody_eq (h : b.blocks = []) :
    b.startBody = (.ok 0, (b.withBlock "entry").withCurrent (some 0)) := by
  simp only [startBody, h, List.isEmpty_nil, if_true, newBlock_eq, List.length_nil]
  rfl

theorem checkTerminated_eq (h : ∀ i, ¬ b.Unfinished i) : b.checkTerminated = (.ok (), b) := by
  have hnone : b.blocks.find? (·.terminator.isNone) = none := by
    rw [List.find?_eq_none]
    intro block hblock hterm
    obtain ⟨i, hi⟩ := List.mem_iff_getElem?.mp hblock
    exact h i ⟨block, hi, by simpa using hterm⟩
  simp [checkTerminated, hnone]

theorem endBody_eq_of_closed (hcurrent : b.current = none) (h : ∀ i, ¬ b.Pending i) :
    b.endBody = (.ok (), b) := by
  simp only [endBody, hcurrent]
  exact checkTerminated_eq fun i hi => h i ⟨hi, by simp [hcurrent]⟩

theorem endBody_eq_of_ready {id : BlockId} (hcurrent : b.current = some id)
    (hid : b.Unfinished id) (hresult : b.result = .void) (h : ∀ i, ¬ b.Pending i) :
    b.endBody = (.ok (), b.withTerminator id (.ret none)) := by
  have hset : ({ b with current := none } : Builder).setTerminator id (.ret none) =
      (.ok (), b.withTerminator id (.ret none)) :=
    setTerminator_eq (b := b.withCurrent none) hid
  simp only [endBody, hcurrent, if_pos hresult, hset]
  refine checkTerminated_eq fun i hi => ?_
  obtain ⟨hopen, hne⟩ := withTerminator_unfinished.mp hi
  exact h i ⟨hopen, by simp [hcurrent, Ne.symm hne]⟩

theorem checkTerminated_cases {b' : Builder} {u : Unit} (h : b.checkTerminated = (.ok u, b')) :
    b' = b := by
  unfold checkTerminated at h
  split at h <;> cases h
  rfl

/-- The end of a body adds at most the return of a function without result. -/
theorem endBody_cases {b' : Builder} {u : Unit} (h : b.endBody = (.ok u, b')) :
    b.current = none ∧ b' = b ∨ ∃ id, b.current = some id ∧ b.Unfinished id ∧ b.result = .void ∧
      b' = b.withTerminator id (.ret none) := by
  unfold endBody at h
  split at h
  next hnone => exact .inl ⟨hnone, checkTerminated_cases h⟩
  next id hid =>
    dsimp only at h
    split at h
    next hvoid =>
      split at h
      next hset =>
        obtain ⟨hopen, rfl⟩ := setTerminator_cases hset
        exact .inr ⟨id, hid, hopen, hvoid, checkTerminated_cases h⟩
      next hset => exact (hset _ h).elim
    next =>
      split at h <;> cases h

/-- A body that is completed has no unfinished block. -/
theorem endBody_finished {b' : Builder} {u : Unit} (h : b.endBody = (.ok u, b')) (i : BlockId) :
    ¬ b'.Unfinished i := by
  have hchecked : ∀ {b : Builder}, b.checkTerminated = (.ok u, b') → ¬ b'.Unfinished i := by
    intro b h
    obtain rfl := checkTerminated_cases h
    rintro ⟨block, hblock, hterm⟩
    unfold checkTerminated at h
    split at h
    · cases h
    next hnone =>
      have hall := List.find?_eq_none.mp hnone block (List.mem_of_getElem? hblock)
      simp [hterm] at hall
  unfold endBody at h
  split at h
  · exact hchecked h
  · dsimp only at h
    split at h
    · split at h
      · exact hchecked h
      next hset => exact (hset _ h).elim
    · split at h <;> cases h

/-- The cursor is ready, and exactly the blocks in `P` are pending. -/
structure Open (b : Builder) (result : Ty) (P : BlockId → Prop) : Prop where
  ready : b.Ready
  pending : ∀ i, b.Pending i ↔ P i
  result_eq : b.result = result

/-- No block is selected, and exactly the blocks in `P` are unfinished. -/
structure Closed (b : Builder) (result : Ty) (P : BlockId → Prop) : Prop where
  current : b.current = none
  unfinished : ∀ i, b.Unfinished i ↔ P i
  result_eq : b.result = result

/-- The cursor after some code, which may have closed it. -/
def Ends (b : Builder) (closed : Bool) (result : Ty) (P : BlockId → Prop) : Prop :=
  match closed with
  | true => b.Closed result P
  | false => b.Open result P

section

variable {b' : Builder} {result : Ty} {P P' : BlockId → Prop}

theorem Open.ends (h : b.Open result P) : b.Ends false result P := h

theorem Closed.ends (h : b.Closed result P) : b.Ends true result P := h

theorem Ends.isSome {closed : Bool} (h : b.Ends closed result P) : b.current.isSome = !closed := by
  cases closed with
  | true => simp [Closed.current h]
  | false => exact (Open.ready h).isSome

theorem Open.congr (h : b.Open result P) (hP : ∀ i, P i ↔ P' i) : b.Open result P' :=
  ⟨h.ready, fun i => (h.pending i).trans (hP i), h.result_eq⟩

theorem Closed.congr (h : b.Closed result P) (hP : ∀ i, P i ↔ P' i) : b.Closed result P' :=
  ⟨h.current, fun i => (h.unfinished i).trans (hP i), h.result_eq⟩

/-- A step that leaves the cursor and the terminators alone. -/
theorem Open.of_same (h : b.Open result P) (hcurrent : b'.current = b.current)
    (hunfinished : ∀ i, b'.Unfinished i ↔ b.Unfinished i) (hresult : b'.result = b.result) :
    b'.Open result P := by
  refine ⟨?_, ?_, hresult.trans h.result_eq⟩
  · obtain ⟨i, hi, hopen⟩ := h.ready
    exact ⟨i, hcurrent.trans hi, (hunfinished i).mpr hopen⟩
  · intro i
    rw [← h.pending i, Pending, Pending, hunfinished, hcurrent]

theorem Open.not_length (h : b.Open result P) : ¬ P b.blocks.length := by
  intro hP
  exact Nat.lt_irrefl _ ((h.pending _).mpr hP).1.lt

theorem Open.withBlock (h : b.Open result P) (label : String) :
    (b.withBlock label).Open result fun i => P i ∨ i = b.blocks.length := by
  obtain ⟨id, hid, hopen⟩ := h.ready
  refine ⟨⟨id, hid, (withBlock_unfinished label).mpr (.inl hopen)⟩, ?_, h.result_eq⟩
  intro i
  rw [← h.pending i, Pending, Pending, withBlock_unfinished, withBlock_current]
  constructor
  · rintro ⟨hold | hnew, hne⟩
    · exact .inl ⟨hold, hne⟩
    · exact .inr hnew
  · rintro (⟨hold, hne⟩ | rfl)
    · exact ⟨.inl hold, hne⟩
    · refine ⟨.inr rfl, ?_⟩
      rw [hid]
      intro heq
      exact Nat.ne_of_lt hopen.lt (Option.some.inj heq)

theorem Closed.withBlock (h : b.Closed result P) (label : String) :
    (b.withBlock label).Closed result fun i => P i ∨ i = b.blocks.length := by
  refine ⟨h.current, ?_, h.result_eq⟩
  intro i
  rw [← h.unfinished i, withBlock_unfinished]

theorem Open.withTerminator {id : BlockId} {terminator : Terminator} (h : b.Open result P)
    (hid : b.current = some id) : (b.withTerminator id terminator).Closed result P := by
  refine ⟨rfl, ?_, h.result_eq⟩
  intro i
  rw [← h.pending i, withTerminator_unfinished, Pending, hid]
  simp [eq_comm]

theorem Closed.withCurrent {id : BlockId} (h : b.Closed result P) (hid : P id) :
    (b.withCurrent (some id)).Open result fun i => P i ∧ i ≠ id := by
  refine ⟨⟨id, rfl, (h.unfinished id).mpr hid⟩, ?_, h.result_eq⟩
  intro i
  rw [← h.unfinished i, Pending]
  simp [eq_comm]

/-- The entry block is the only one at first. -/
theorem startBody_open (hblocks : b.blocks = []) (hcurrent : b.current = none) :
    ((b.withBlock "entry").withCurrent (some 0)).Open b.result fun _ => False := by
  have hclosed : b.Closed b.result fun _ => False :=
    ⟨hcurrent, fun i => by simp [Unfinished, hblocks], rfl⟩
  have hentry : 0 = b.blocks.length := by simp [hblocks]
  refine ((hclosed.withBlock "entry").withCurrent (.inr hentry)).congr fun i => ?_
  simp [← hentry]

end

end MicroC.Ir.Builder
