import MicroC.Ir.Assembly
import MicroC.Proofs.Ir.Calls

/-!
Functions assembled in place, by any calls. Each call answers as it does when the slots are
collected apart, and the states stay the same but for where the slots stand: these are at the head
of the entry, and the count of them says where the next one is to be inserted. So the function has
the same form after any calls. A call raises no counter by more than one.
-/

namespace MicroC.Ir

/-- What is inserted between two lists moves the second one. -/
theorem insertIdx_length_append {α : Type} (before after : List α) (x : α) :
    (before ++ after).insertIdx before.length x = (before ++ [x]) ++ after := by
  induction before with
  | nil => rfl
  | cons y before ih => simpa using ih

/-- The function with its slots in the entry. -/
def Builder.assembled (b : Builder) : Assembly where
  name := b.name
  result := b.result
  params := b.params
  blocks := b.toFunction.blocks
  bindings := b.bindings
  current := b.current
  nextInst := b.nextInst
  entrySlots := b.slots.length
  names := b.names

def Outcome.assembled {α : Type} (outcome : Outcome α) : Assembly.Outcome α :=
  (outcome.1, outcome.2.assembled)

namespace Builder

variable {b : Builder}

/-! One call. -/

theorem isEmpty_assembled (b : Builder) : b.assembled.blocks.isEmpty = b.blocks.isEmpty := by
  simp only [assembled, toFunction]
  cases b.blocks <;> rfl

theorem length_assembled (b : Builder) : b.assembled.blocks.length = b.blocks.length :=
  b.toFunction_length

theorem block_assembled (b : Builder) (i : BlockId) : b.assembled.block i =
    match b.blocks[i]? with
    | some block => .ok { block with insts := b.front i ++ block.insts }
    | none => .error (.unknownBlock b.name i) := by
  simp only [Assembly.block, assembled, toFunction_getElem?_eq]
  cases b.blocks[i]? <;> rfl

/-- A change of a block that leaves alone what stands at its head. -/
theorem modify_assembled (b : Builder) (i : BlockId) (change : Block → Block)
    (h : ∀ (block : Block) (slots : List Instruction),
      change { block with insts := slots ++ block.insts } =
        { change block with insts := slots ++ (change block).insts }) :
    { b.assembled with blocks := b.assembled.blocks.modify i change } =
      ({ b with blocks := b.blocks.modify i change } : Builder).assembled := by
  obtain ⟨name, result, params, slots, blocks, bindings, current, nextInst, names⟩ := b
  simp only [assembled, toFunction]
  cases blocks with
  | nil => simp
  | cons entry rest =>
    cases i with
    | zero => simp [h]
    | succ i => simp

theorem uniqueName_assembled (b : Builder) (base : String) :
    b.assembled.uniqueName base = ((b.uniqueName base).1, (b.uniqueName base).2.assembled) := rfl

theorem bind_assembled (b : Builder) (decl : DeclId) (value : Value) :
    b.assembled.bind decl value = (b.bind decl value).assembled := rfl

/-- The first block has no slots before it. -/
theorem newBlock_assembled (h : b.blocks = [] → b.slots = []) (label : String) :
    b.assembled.newBlock label = ((b.newBlock label).1, (b.newBlock label).2.assembled) := by
  obtain ⟨name, result, params, slots, blocks, bindings, current, nextInst, names⟩ := b
  simp only [Assembly.newBlock, newBlock, Assembly.uniqueName, uniqueName, assembled, toFunction]
  cases blocks with
  | nil =>
    have hslots : slots = [] := h rfl
    simp [hslots]
  | cons entry rest => simp

theorem startBody_assembled (h : b.blocks = [] → b.slots = []) :
    b.assembled.startBody = b.startBody.assembled := by
  simp only [Assembly.startBody, startBody, isEmpty_assembled, newBlock_assembled h]
  split <;> rfl

theorem selectBlock_assembled (b : Builder) (i : BlockId) :
    b.assembled.selectBlock i = (b.selectBlock i).assembled := by
  simp only [Assembly.selectBlock, selectBlock, block_assembled]
  cases b.blocks[i]? with
  | none => rfl
  | some block =>
    dsimp only
    split <;> rfl

/-- The cursor is at a block that exists. -/
theorem append_assembled (h : ∀ i, b.current = some i → i < b.blocks.length)
    (operation : Operation) (type : Ty) (name : Option String) :
    b.assembled.append operation type name = (b.append operation type name).assembled := by
  cases hcurrent : b.current with
  | none =>
    have hnone : b.assembled.current = none := hcurrent
    simp only [Assembly.append, append, hnone, hcurrent, Option.filter_none]
    rfl
  | some i =>
    have hselected : b.assembled.current.filter (· < b.assembled.blocks.length) = some i := by
      rw [length_assembled]
      exact Option.filter_eq_some_iff.mpr ⟨hcurrent, decide_eq_true (h i hcurrent)⟩
    let inst : Instruction := { id := b.nextInst, operation, type, name }
    have hmodify := ({ b with nextInst := b.nextInst + 1 } : Builder).modify_assembled i
      (fun block => { block with insts := block.insts ++ [inst] }) (by simp)
    simp only [Assembly.append, hselected, append_eq hcurrent]
    exact Prod.ext rfl hmodify

theorem emitNamed_assembled (h : ∀ i, b.current = some i → i < b.blocks.length) (decl : DeclId)
    (name : String) (operation : Operation) (type : Ty) :
    b.assembled.emitNamed decl name operation type =
      (b.emitNamed decl name operation type).assembled := by
  have hnamed : ∀ i, (b.uniqueName name).2.current = some i →
      i < (b.uniqueName name).2.blocks.length := h
  simp only [Assembly.emitNamed, emitNamed, uniqueName_assembled, append_assembled hnamed,
    Outcome.assembled]
  rcases (b.uniqueName name).2.append operation type (some (b.uniqueName name).1) with ⟨_ | _, _⟩
  · rfl
  · rfl

/-- The slot is inserted behind the others, since all of them have been counted. -/
theorem insertSlot_assembled (b : Builder) (type : Ty) (name : Option String) :
    b.assembled.insertSlot type name =
      ((b.addSlot type name).1, (b.addSlot type name).2.assembled) := by
  obtain ⟨_, result, params, slots, blocks, bindings, current, nextInst, names⟩ := b
  simp only [Assembly.insertSlot, addSlot, assembled, toFunction]
  cases blocks with
  | nil => simp
  | cons entry rest => simp [insertIdx_length_append]

theorem emitAlloca_assembled (b : Builder) (binding : Option (DeclId × String)) (type : Ty) :
    b.assembled.emitAlloca binding type = (b.emitAlloca binding type).assembled := by
  simp only [Assembly.emitAlloca, emitAlloca, isEmpty_assembled]
  split
  · rfl
  · cases binding with
    | none => simp only [insertSlot_assembled, Outcome.assembled]
    | some named =>
      simp only [uniqueName_assembled, insertSlot_assembled, bind_assembled, Outcome.assembled]

theorem setTerminator_assembled (b : Builder) (i : BlockId) (terminator : Terminator) :
    b.assembled.setTerminator i terminator = (b.setTerminator i terminator).assembled := by
  simp only [Assembly.setTerminator, setTerminator, block_assembled]
  cases b.blocks[i]? with
  | none => rfl
  | some block =>
    dsimp only
    split
    · rfl
    · have hmodify := b.modify_assembled i
        (fun block => { block with terminator := some terminator }) (by simp)
      exact Prod.ext rfl hmodify

theorem terminate_assembled (b : Builder) (terminator : Terminator) :
    b.assembled.terminate terminator = (b.terminate terminator).assembled := by
  have hcurrent : b.assembled.current = b.current := rfl
  simp only [Assembly.terminate, terminate, hcurrent]
  cases b.current with
  | none => rfl
  | some i =>
    simp only [setTerminator_assembled, Outcome.assembled]
    rcases b.setTerminator i terminator with ⟨_ | _, _⟩
    · rfl
    · rfl

theorem checkTerminated_assembled (b : Builder) :
    b.assembled.checkTerminated = b.checkTerminated.assembled := by
  have hblocks : b.assembled.blocks = b.toFunction.blocks := rfl
  simp only [Assembly.checkTerminated, checkTerminated, hblocks, toFunction]
  cases b.blocks with
  | nil => rfl
  | cons entry rest =>
    simp only [List.find?_cons]
    cases entry.terminator.isNone with
    | true => rfl
    | false => cases rest.find? (·.terminator.isNone) <;> rfl

theorem close_assembled (b : Builder) :
    b.assembled.close = ({ b with current := none } : Builder).assembled := rfl

theorem endBody_assembled (b : Builder) : b.assembled.endBody = b.endBody.assembled := by
  cases hcurrent : b.current with
  | none =>
    have hnone : b.assembled.current = none := hcurrent
    simp only [Assembly.endBody, endBody, hnone, hcurrent]
    exact b.checkTerminated_assembled
  | some i =>
    have hsome : b.assembled.current = some i := hcurrent
    have hresult : ({ b with current := none } : Builder).assembled.result = b.result := rfl
    simp only [Assembly.endBody, endBody, hsome, hcurrent, close_assembled, hresult]
    by_cases hvoid : b.result = .void
    · simp only [hvoid, if_true, setTerminator_assembled, Outcome.assembled]
      rcases Builder.setTerminator _ i (.ret none) with ⟨_ | _, _⟩
      · rfl
      · exact checkTerminated_assembled _
    · simp only [hvoid, if_false, block_assembled]
      cases b.blocks[i]? <;> rfl

end Builder

/-! Any calls. -/

namespace Assembly

def Outcome.map {α β : Type} (f : α → β) (outcome : Outcome α) : Outcome β :=
  (outcome.1.map f, outcome.2)

def perform (f : Assembly) : Call → Outcome Reply
  | .startBody => f.startBody.map .block
  | .newBlock label => (.ok (.block (f.newBlock label).1), (f.newBlock label).2)
  | .selectBlock block => (f.selectBlock block).map fun _ => .done
  | .emit operation type => (f.emit operation type).map .value
  | .emitNamed decl name operation type => (f.emitNamed decl name operation type).map .value
  | .emitAlloca binding type => (f.emitAlloca binding type).map .value
  | .bind decl value => (.ok .done, f.bind decl value)
  | .terminate terminator => (f.terminate terminator).map fun _ => .done
  | .setTerminator block terminator => (f.setTerminator block terminator).map fun _ => .done
  | .endBody => f.endBody.map fun _ => .done

def after (f : Assembly) (calls : List Call) : Assembly := Call.runAll perform f calls

def log (f : Assembly) (calls : List Call) : List LogEntry := Call.logAll perform f calls

end Assembly

namespace Builder

variable {b : Builder}

theorem perform_assembled (hselected : ∀ i, b.current = some i → i < b.blocks.length)
    (hhoisted : b.blocks = [] → b.slots = []) (call : Call) :
    b.assembled.perform call = (b.perform call).assembled := by
  cases call with
  | startBody =>
    rw [Assembly.perform, startBody_assembled hhoisted]
    rfl
  | newBlock label =>
    rw [Assembly.perform, newBlock_assembled hhoisted]
    rfl
  | selectBlock i =>
    rw [Assembly.perform, selectBlock_assembled]
    rfl
  | emit operation type =>
    rw [Assembly.perform, Assembly.emit, append_assembled hselected]
    rfl
  | emitNamed decl name operation type =>
    rw [Assembly.perform, emitNamed_assembled hselected]
    rfl
  | emitAlloca binding type =>
    rw [Assembly.perform, emitAlloca_assembled]
    rfl
  | bind decl value => rfl
  | terminate terminator =>
    rw [Assembly.perform, terminate_assembled]
    rfl
  | setTerminator i terminator =>
    rw [Assembly.perform, setTerminator_assembled]
    rfl
  | endBody =>
    rw [Assembly.perform, endBody_assembled]
    rfl

theorem Matches.assembled {log : List LogEntry} (h : b.Matches log) (calls : List Call) :
    b.assembled.after calls = (b.after calls).assembled ∧
      b.assembled.log calls = b.log calls := by
  induction calls generalizing b log with
  | nil => exact ⟨rfl, rfl⟩
  | cons call rest ih =>
    obtain ⟨hafter, hlog⟩ := ih ((b.perform_effect call).matches h)
    have hstep := perform_assembled h.selected h.hoisted call
    refine ⟨?_, ?_⟩
    · change (b.assembled.perform call).2.after rest = _
      rw [hstep]
      exact hafter
    · change ⟨call, (b.assembled.perform call).1⟩ :: (b.assembled.perform call).2.log rest = _
      rw [hstep]
      exact congrArg (List.cons _) hlog

end Builder

/-! The counters. -/

namespace Builder

variable {b : Builder}

theorem names_setTerminator (b : Builder) (i : BlockId) (terminator : Terminator) :
    (b.setTerminator i terminator).2.names = b.names := by
  rcases b.setTerminator_result i terminator with ⟨e, hfail⟩ | ⟨_, hset⟩
  · rw [hfail]
  · rw [hset]
    rfl

theorem names_terminate (b : Builder) (terminator : Terminator) :
    (b.terminate terminator).2.names = b.names := by
  unfold terminate
  split
  · rfl
  next i _ =>
    rcases b.setTerminator_result i terminator with ⟨e, hfail⟩ | ⟨_, hset⟩
    · rw [hfail]
    · rw [hset]
      rfl

theorem names_endBody (b : Builder) : b.endBody.2.names = b.names := by
  unfold endBody
  split
  · rw [checkTerminated_snd]
  next i _ =>
    dsimp only
    split
    · rcases ({ b with current := none } : Builder).setTerminator_result i (.ret none) with
        ⟨e, hfail⟩ | ⟨_, hset⟩
      · rw [hfail]
      · rw [hset]
        dsimp only
        rw [checkTerminated_snd]
        rfl
    · split <;> rfl

/-- A call asks for one name at most. -/
theorem names_perform (b : Builder) (call : Call) :
    (b.perform call).2.names = b.names ∨
      ∃ base, (b.perform call).2.names = (b.uniqueName base).2.names := by
  cases call with
  | startBody =>
    by_cases hblocks : b.blocks = []
    · rw [perform, startBody_eq hblocks]
      exact .inr ⟨"entry", rfl⟩
    · left
      simp [perform, startBody, hblocks, Outcome.map]
  | newBlock label => exact .inr ⟨label, rfl⟩
  | selectBlock i =>
    left
    simp only [perform, Outcome.map, selectBlock]
    split
    · rfl
    · split <;> rfl
  | emit operation type =>
    left
    simp only [perform, Outcome.map, emit, append]
    split <;> rfl
  | emitNamed decl name operation type =>
    refine .inr ⟨name, ?_⟩
    simp only [perform, Outcome.map, emitNamed, append]
    cases (b.uniqueName name).2.current <;> rfl
  | emitAlloca binding type =>
    by_cases hblocks : b.blocks = []
    · left
      simp [perform, emitAlloca, hblocks, Outcome.map]
    · cases binding with
      | none =>
        rw [perform, emitAlloca_none_eq hblocks]
        exact .inl rfl
      | some named =>
        rw [perform, emitAlloca_some_eq hblocks]
        exact .inr ⟨named.2, rfl⟩
  | bind decl value => exact .inl rfl
  | terminate terminator => exact .inl (b.names_terminate terminator)
  | setTerminator i terminator => exact .inl (b.names_setTerminator i terminator)
  | endBody => exact .inl b.names_endBody

theorem Effect.length_blocks_le {b' : Builder} {entry : LogEntry} (h : Effect b b' entry) :
    b'.blocks.length ≤ b.blocks.length + 1 := by
  cases h with
  | rest _ _ hblocks _ _ | slot _ _ _ _ hblocks _ _ => simp [hblocks]
  | block _ _ hblocks _ _ => simp [hblocks]
  | inst _ _ _ _ hblocks _ _ => simp [hblocks]
  | finish _ _ _ hblocks _ _ => simp [hblocks]

/-- The number of blocks and how often a name was asked for. -/
theorem counts_after_le (b : Builder) (calls : List Call) :
    (b.after calls).blocks.length ≤ b.blocks.length + calls.length ∧
      ∀ base, (b.after calls).names.getD base 0 ≤ b.names.getD base 0 + calls.length := by
  induction calls generalizing b with
  | nil => exact ⟨Nat.le_refl _, fun _ => Nat.le_refl _⟩
  | cons call rest ih =>
    obtain ⟨hblocks, hnames⟩ := ih (b.perform call).2
    have hblock := (b.perform_effect call).length_blocks_le
    refine ⟨?_, fun base => ?_⟩
    · change ((b.perform call).2.after rest).blocks.length ≤ _
      simp only [List.length_cons]
      omega
    · have hname : (b.perform call).2.names.getD base 0 ≤ b.names.getD base 0 + 1 := by
        rcases b.names_perform call with hsame | ⟨name, hname⟩
        · rw [hsame]
          exact Nat.le_succ _
        · rw [hname, Labelled.uniqueName_getD]
          split
          next heq => exact heq ▸ Nat.le_refl _
          next => exact Nat.le_succ _
      have hrest := hnames base
      change ((b.perform call).2.after rest).names.getD base 0 ≤ _
      simp only [List.length_cons]
      omega

end Builder

namespace Assembly

/-- No counter is above the number of calls. The names of the parameters have been asked for once
before. -/
structure CountedBy (f : Assembly) (calls : Nat) : Prop where
  insts : f.nextInst ≤ calls
  blocks : f.blocks.length ≤ calls
  slots : f.entrySlots ≤ calls
  names : ∀ base, f.names.getD base 0 ≤ calls + 1

theorem names_new_le (name : String) (result : Ty) (params : List Param) (base : String) :
    (new name result params).names.getD base 0 ≤ 1 := by
  have hfold : ∀ names : Std.TreeMap String Nat, names.getD base 0 ≤ 1 →
      (params.foldl (fun names p => names.insert p.name 1) names).getD base 0 ≤ 1 := by
    induction params with
    | nil => exact fun _ h => h
    | cons param rest ih =>
      intro names h
      refine ih _ ?_
      rw [Std.TreeMap.getD_insert]
      split
      · exact Nat.le_refl _
      · exact h
  exact hfold ∅ (by simp)

/-- The slots are part of the entry. -/
theorem length_slots_le {b : Builder} {entry : Block} (h : b.assembled.blocks.head? = some entry) :
    b.slots.length ≤ entry.insts.length := by
  simp only [Builder.assembled, Builder.toFunction] at h
  split at h
  · cases h
  · obtain rfl := Option.some.inj h
    simp

theorem countedBy_after (name : String) (result : Ty) (params : List Param) (calls : List Call) :
    ((Builder.new name result params).after calls).assembled.CountedBy calls.length := by
  have hmatches := Builder.matches_after name result params calls
  have hlength : ((Builder.new name result params).log calls).length = calls.length :=
    Call.length_logAll ..
  obtain ⟨hblocks, hnames⟩ := (Builder.new name result params).counts_after_le calls
  refine ⟨?_, ?_, ?_, fun base => ?_⟩
  · rw [← hlength]
    exact Nat.le_trans (Nat.le_of_eq hmatches.emitted) List.countP_le_length
  · rw [Builder.length_assembled]
    exact Nat.le_trans hblocks (Nat.le_of_eq (Nat.zero_add _))
  · rw [← hlength]
    exact Nat.le_trans (Nat.le_of_eq hmatches.length_slots) (List.length_filterMap_le _ _)
  · have hcount := hnames base
    have hfirst : (Builder.new name result params).names.getD base 0 ≤ 1 :=
      names_new_le name result params base
    change ((Builder.new name result params).after calls).names.getD base 0 ≤ calls.length + 1
    omega

/-- After any calls blocks and instructions are numbered without gaps and the slots stand at the
head of the entry in the order in which they were made; further calls add instructions at the ends
of the blocks and take no terminator away. The place of the next slot is the number of those made,
which is inside of the entry, and no counter has run ahead of the calls. -/
theorem after_builtBy_earlier (name : String) (result : Ty) (params : List Param)
    (calls more : List Call) :
    let start := new name result params
    (start.after calls).toFunction.BuiltBy (start.log calls) ∧
    (start.after calls).toFunction.Earlier (start.log calls) (start.log (calls ++ more))
      (start.after (calls ++ more)).toFunction ∧
    (start.after calls).entrySlots = (slotsMade (start.log calls)).length ∧
    (∀ entry, (start.after calls).blocks.head? = some entry →
      (start.after calls).entrySlots ≤ entry.insts.length) ∧
    (start.after calls).CountedBy calls.length := by
  intro start
  let b := Builder.new name result params
  have hnew : b.Matches [] := Builder.matches_new name result params
  have hcalls : (b.after calls).Matches (b.log calls) := hnew.after calls
  have hstart : start = b.assembled := rfl
  obtain ⟨hafter, hlog⟩ := hnew.assembled calls
  obtain ⟨hafter', hlog'⟩ := hnew.assembled (calls ++ more)
  obtain ⟨hbuilt, hearlier⟩ := Builder.toFunction_builtBy_earlier name result params calls more
  rw [hstart, hafter, hlog, hafter', hlog']
  exact ⟨hbuilt, hearlier, hcalls.length_slots, fun entry => length_slots_le,
    countedBy_after name result params calls⟩

end Assembly

end MicroC.Ir
