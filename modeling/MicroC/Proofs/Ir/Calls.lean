import MicroC.Proofs.Ir.Paths

/-!
Functions built by any calls. A sequence of construction calls is performed one after another,
whether they succeed or not, and the answers are logged. A call has one of five effects: it may
move the cursor, append a block, append an instruction to the selected block, add a stack slot, or
end a block. From these it follows what the function looks like after any calls, that later calls
only add to it, and when the cursor can come to stand at a finished block.
-/

namespace MicroC.Ir

/-- A call that builds a function. -/
inductive Call where
  | startBody
  | newBlock (label : String)
  | selectBlock (block : BlockId)
  | emit (operation : Operation) (type : Ty)
  | emitNamed (decl : DeclId) (name : String) (operation : Operation) (type : Ty)
  | emitAlloca (binding : Option (DeclId × String)) (type : Ty)
  | bind (decl : DeclId) (value : Value)
  | terminate (terminator : Terminator)
  | setTerminator (block : BlockId) (terminator : Terminator)
  | endBody

/-- What a call that succeeds gives back. -/
inductive Reply where
  | done
  | block (id : BlockId)
  | value (v : Value)

/-- A call and its answer. -/
structure LogEntry where
  call : Call
  answer : Except BuildError Reply

section

variable {σ : Type} (perform : σ → Call → Except BuildError Reply × σ)

/-- The state after some calls. -/
def Call.runAll (s : σ) (calls : List Call) : σ := calls.foldl (fun s call => (perform s call).2) s

/-- The calls with their answers. -/
def Call.logAll (s : σ) : List Call → List LogEntry
  | [] => []
  | call :: rest => ⟨call, (perform s call).1⟩ :: logAll (perform s call).2 rest

theorem Call.length_logAll (s : σ) (calls : List Call) :
    (logAll perform s calls).length = calls.length := by
  induction calls generalizing s with
  | nil => rfl
  | cons call rest ih => exact congrArg (· + 1) (ih _)

end

def Outcome.map {α β : Type} (f : α → β) (outcome : Outcome α) : Outcome β :=
  (outcome.1.map f, outcome.2)

namespace Builder

def perform (b : Builder) : Call → Outcome Reply
  | .startBody => b.startBody.map .block
  | .newBlock label => (.ok (.block (b.newBlock label).1), (b.newBlock label).2)
  | .selectBlock block => (b.selectBlock block).map fun _ => .done
  | .emit operation type => (b.emit operation type).map .value
  | .emitNamed decl name operation type => (b.emitNamed decl name operation type).map .value
  | .emitAlloca binding type => (b.emitAlloca binding type).map .value
  | .bind decl value => (.ok .done, b.bind decl value)
  | .terminate terminator => (b.terminate terminator).map fun _ => .done
  | .setTerminator block terminator => (b.setTerminator block terminator).map fun _ => .done
  | .endBody => b.endBody.map fun _ => .done

def after (b : Builder) (calls : List Call) : Builder := Call.runAll perform b calls

def log (b : Builder) (calls : List Call) : List LogEntry := Call.logAll perform b calls

theorem after_append (b : Builder) (calls more : List Call) :
    b.after (calls ++ more) = (b.after calls).after more :=
  List.foldl_append

end Builder

namespace LogEntry

variable {entry : LogEntry}

/-- The call has made an instruction. -/
def emits : LogEntry → Bool
  | ⟨.emit .., .ok _⟩ | ⟨.emitNamed .., .ok _⟩ | ⟨.emitAlloca .., .ok _⟩ => true
  | _ => false

/-- The number and the type of the stack slot that the call has made. -/
def slot? : LogEntry → Option (InstId × Ty)
  | ⟨.emitAlloca _ type, .ok (.value (.inst id _))⟩ => some (id, type)
  | _ => none

theorem slot?_of_not_emits (h : entry.emits = false) : entry.slot? = none := by
  unfold slot?
  split
  · cases h
  · rfl

end LogEntry

/-- The stack slots that calls have made, in the order of the calls. -/
def slotsMade (log : List LogEntry) : List (InstId × Ty) := log.filterMap LogEntry.slot?

/-- The number and the type of an instruction that is a stack slot. -/
def Instruction.slot? (inst : Instruction) : Option (InstId × Ty) :=
  match inst.operation with
  | .alloca type => if inst.type = .ptr type then some (inst.id, type) else none
  | _ => none

namespace Builder

variable {b b' b'' : Builder} {entry : LogEntry} {call : Call}

/-! What a call can do. -/

/-- The effect of a call on the code and on the cursor. -/
inductive Effect (b b' : Builder) (entry : LogEntry) : Prop
  /-- At most the cursor is moved. -/
  | rest : entry.emits = false → b'.slots = b.slots → b'.blocks = b.blocks →
    b'.nextInst = b.nextInst →
    (∀ i, b'.current = some i → b.current = some i ∨ b.Unfinished i) → Effect b b' entry
  | block {text : String} : entry.emits = false → b'.slots = b.slots →
    b'.blocks = b.blocks ++ [{ id := b.blocks.length, label := text }] →
    b'.nextInst = b.nextInst →
    (∀ i, b'.current = some i → b.current = some i ∨ i = b.blocks.length) → Effect b b' entry
  | inst {i : BlockId} {operation : Operation} {type : Ty} {name : Option String} :
    entry.emits = true → entry.slot? = none → b.current = some i → b'.slots = b.slots →
    b'.blocks = (b.withInst i operation type name).blocks → b'.nextInst = b.nextInst + 1 →
    b'.current = b.current → Effect b b' entry
  | slot {type : Ty} {name : Option String} : entry.emits = true →
    entry.slot? = some (b.nextInst, type) → b.blocks ≠ [] →
    b'.slots = (b.withSlot type name).slots → b'.blocks = b.blocks →
    b'.nextInst = b.nextInst + 1 → b'.current = b.current → Effect b b' entry
  /-- A block gets its terminator; only one kind of call leaves the cursor where it is. -/
  | finish {i : BlockId} {terminator : Terminator} : entry.emits = false → b.Unfinished i →
    b'.slots = b.slots → b'.blocks = (b.withTerminator i terminator).blocks →
    b'.nextInst = b.nextInst →
    b'.current = none ∨ b'.current = b.current ∧ entry.call = .setTerminator i terminator →
    Effect b b' entry

/-- A call that leaves the code and the cursor alone. -/
theorem Effect.same (h : entry.emits = false) : Effect b b entry :=
  .rest h rfl rfl rfl fun _ hi => .inl hi

/-- A block is ended, or there is an error and nothing happens. -/
theorem setTerminator_result (b : Builder) (i : BlockId) (terminator : Terminator) :
    (∃ e, b.setTerminator i terminator = (.error e, b)) ∨
      b.Unfinished i ∧ b.setTerminator i terminator =
        (.ok (), (b.withTerminator i terminator).withCurrent b.current) := by
  by_cases hopen : b.Unfinished i
  · exact .inr ⟨hopen, setTerminator_eq hopen⟩
  · left
    unfold setTerminator
    cases hblock : b.blocks[i]? with
    | none => exact ⟨_, rfl⟩
    | some block =>
      cases hterm : block.terminator with
      | none => exact absurd ⟨block, hblock, hterm⟩ hopen
      | some t => exact ⟨.terminatorAlreadySet b.name block.label, by simp [hterm]⟩

theorem startBody_effect (b : Builder) :
    Effect b (b.perform .startBody).2 ⟨.startBody, (b.perform .startBody).1⟩ := by
  by_cases hblocks : b.blocks = []
  · have hstart : b.perform .startBody =
        (.ok (.block 0), (b.withBlock "entry").withCurrent (some 0)) := by
      rw [perform, startBody_eq hblocks]
      rfl
    obtain ⟨text, hnew⟩ := b.withBlock_blocks "entry"
    rw [hstart]
    refine .block rfl rfl hnew rfl fun i hi => .inr ?_
    rw [hblocks, ← Option.some.inj hi]
    rfl
  · have hfail : b.startBody = (.error (.bodyAlreadyStarted b.name), b) := by
      simp [startBody, hblocks]
    rw [perform, hfail]
    exact .same rfl

theorem newBlock_effect (b : Builder) (label : String) :
    Effect b (b.perform (.newBlock label)).2 ⟨.newBlock label, (b.perform (.newBlock label)).1⟩ := by
  obtain ⟨text, hnew⟩ := b.withBlock_blocks label
  exact .block rfl rfl hnew rfl fun i hi => .inl hi

theorem selectBlock_effect (b : Builder) (i : BlockId) :
    Effect b (b.perform (.selectBlock i)).2
      ⟨.selectBlock i, (b.perform (.selectBlock i)).1⟩ := by
  rcases hselect : b.selectBlock i with ⟨answer, b'⟩
  rw [perform, hselect]
  cases answer with
  | ok u =>
    obtain ⟨hopen, rfl⟩ := selectBlock_cases hselect
    refine .rest rfl rfl rfl rfl fun j hj => .inr ?_
    obtain rfl := Option.some.inj hj
    exact hopen
  | error e =>
    have hkept : b' = b := by
      unfold selectBlock at hselect
      split at hselect
      · cases hselect
        rfl
      · split at hselect
        · cases hselect
          rfl
        · cases hselect
    subst hkept
    exact .same rfl

theorem emit_effect (b : Builder) (operation : Operation) (type : Ty) :
    Effect b (b.perform (.emit operation type)).2
      ⟨.emit operation type, (b.perform (.emit operation type)).1⟩ := by
  cases hcurrent : b.current with
  | none =>
    have hfail : b.emit operation type = (.error (.noCurrentBlock b.name), b) := by
      simp [emit, append, hcurrent]
    rw [perform, hfail]
    exact .same rfl
  | some i =>
    rw [perform, emit, append_eq hcurrent]
    exact .inst rfl rfl hcurrent rfl rfl rfl rfl

/-- The name is used up in any case. -/
theorem emitNamed_effect (b : Builder) (decl : DeclId) (name : String) (operation : Operation)
    (type : Ty) :
    Effect b (b.perform (.emitNamed decl name operation type)).2
      ⟨.emitNamed decl name operation type, (b.perform (.emitNamed decl name operation type)).1⟩ := by
  have hkept : (b.uniqueName name).2.current = b.current := rfl
  cases hcurrent : b.current with
  | none =>
    have hfail : b.emitNamed decl name operation type =
        (.error (.noCurrentBlock b.name), (b.uniqueName name).2) := by
      simp only [emitNamed, append, hkept, hcurrent]
      rfl
    rw [perform, hfail]
    exact .rest rfl rfl rfl rfl fun i hi => .inl hi
  | some i =>
    rw [perform, emitNamed]
    dsimp only
    rw [append_eq (hkept.trans hcurrent)]
    exact .inst rfl rfl hcurrent rfl rfl rfl rfl

theorem emitAlloca_effect (b : Builder) (binding : Option (DeclId × String)) (type : Ty) :
    Effect b (b.perform (.emitAlloca binding type)).2
      ⟨.emitAlloca binding type, (b.perform (.emitAlloca binding type)).1⟩ := by
  by_cases hblocks : b.blocks = []
  · have hfail : b.emitAlloca binding type = (.error (.noCurrentBlock b.name), b) := by
      simp [emitAlloca, hblocks]
    rw [perform, hfail]
    exact .same rfl
  · cases binding with
    | none =>
      rw [perform, emitAlloca_none_eq hblocks]
      exact .slot rfl rfl hblocks rfl rfl rfl rfl
    | some named =>
      obtain ⟨decl, name⟩ := named
      rw [perform, emitAlloca_some_eq hblocks]
      exact .slot rfl rfl hblocks rfl rfl rfl rfl

theorem setTerminator_effect (b : Builder) (i : BlockId) (terminator : Terminator) :
    Effect b (b.perform (.setTerminator i terminator)).2
      ⟨.setTerminator i terminator, (b.perform (.setTerminator i terminator)).1⟩ := by
  rcases b.setTerminator_result i terminator with ⟨e, hfail⟩ | ⟨hopen, hset⟩
  · rw [perform, hfail]
    exact .same rfl
  · rw [perform, hset]
    exact .finish rfl hopen rfl rfl rfl (.inr ⟨rfl, rfl⟩)

theorem terminate_effect (b : Builder) (terminator : Terminator) :
    Effect b (b.perform (.terminate terminator)).2
      ⟨.terminate terminator, (b.perform (.terminate terminator)).1⟩ := by
  rw [perform, terminate]
  cases hcurrent : b.current with
  | none => exact .same rfl
  | some i =>
    dsimp only
    rcases b.setTerminator_result i terminator with ⟨e, hfail⟩ | ⟨hopen, hset⟩
    · rw [hfail]
      exact .same rfl
    · rw [hset]
      exact .finish rfl hopen rfl rfl rfl (.inl rfl)

theorem checkTerminated_snd (b : Builder) : b.checkTerminated.2 = b := by
  unfold checkTerminated
  split <;> rfl

/-- The cursor is closed whether the body is complete or not. -/
theorem endBody_effect (b : Builder) :
    Effect b (b.perform .endBody).2 ⟨.endBody, (b.perform .endBody).1⟩ := by
  change Effect b b.endBody.2 _
  have hclosed : Effect b (b.withCurrent none) ⟨.endBody, (b.perform .endBody).1⟩ :=
    .rest rfl rfl rfl rfl nofun
  unfold endBody
  cases hcurrent : b.current with
  | none =>
    dsimp only
    rw [checkTerminated_snd]
    exact .same rfl
  | some i =>
    dsimp only
    split
    · rcases (b.withCurrent none).setTerminator_result i (.ret none) with
        ⟨e, hfail⟩ | ⟨hopen, hset⟩
      · rw [withCurrent] at hfail
        rw [hfail]
        exact hclosed
      · rw [withCurrent] at hset
        rw [hset]
        dsimp only
        rw [checkTerminated_snd]
        exact .finish rfl hopen rfl rfl rfl (.inl rfl)
    · split <;> exact hclosed

theorem perform_effect (b : Builder) (call : Call) :
    Effect b (b.perform call).2 ⟨call, (b.perform call).1⟩ := by
  cases call with
  | startBody => exact b.startBody_effect
  | newBlock label => exact b.newBlock_effect label
  | selectBlock block => exact b.selectBlock_effect block
  | emit operation type => exact b.emit_effect operation type
  | emitNamed decl name operation type => exact b.emitNamed_effect decl name operation type
  | emitAlloca binding type => exact b.emitAlloca_effect binding type
  | bind decl value => exact .rest rfl rfl rfl rfl fun i hi => .inl hi
  | terminate terminator => exact b.terminate_effect terminator
  | setTerminator block terminator => exact b.setTerminator_effect block terminator
  | endBody => exact b.endBody_effect

/-! What the function looks like. -/

/-- What has been built, as the log tells it. -/
structure Matches (b : Builder) (log : List LogEntry) : Prop where
  selected : ∀ i, b.current = some i → i < b.blocks.length
  numbered : b.Numbered
  ids : List.Perm (b.insts.map (·.id)) (List.range b.nextInst)
  emitted : b.nextInst = log.countP LogEntry.emits
  slots : b.slots.map Instruction.slot? = (slotsMade log).map some
  hoisted : b.blocks = [] → b.slots = []

theorem matches_new (name : String) (result : Ty) (params : List Param) :
    (new name result params).Matches [] :=
  ⟨nofun, nofun, .refl _, rfl, rfl, fun _ => rfl⟩

section

variable {log : List LogEntry}

/-- A call that makes no instruction. -/
theorem Matches.of_not_emits (h : b.Matches log) (hemits : entry.emits = false)
    (hselected : ∀ i, b'.current = some i → i < b'.blocks.length) (hnumbered : b'.Numbered)
    (hinsts : b'.insts = b.insts) (hnext : b'.nextInst = b.nextInst) (hslots : b'.slots = b.slots)
    (hblocks : b'.blocks = [] → b.blocks = []) : b'.Matches (log ++ [entry]) := by
  refine ⟨hselected, hnumbered, ?_, ?_, ?_, ?_⟩
  · rw [hinsts, hnext]
    exact h.ids
  · rw [hnext, h.emitted]
    simp [hemits]
  · rw [hslots, h.slots]
    simp [slotsMade, LogEntry.slot?_of_not_emits hemits]
  · intro hnil
    rw [hslots]
    exact h.hoisted (hblocks hnil)

/-- A call that makes an instruction, which gets the next number. -/
theorem Matches.of_emits (h : b.Matches log) (hemits : entry.emits)
    (hselected : ∀ i, b'.current = some i → i < b'.blocks.length) (hnumbered : b'.Numbered)
    {inst : Instruction} (hid : inst.id = b.nextInst)
    (hinsts : List.Perm b'.insts (inst :: b.insts)) (hnext : b'.nextInst = b.nextInst + 1)
    (hslots : b'.slots.map Instruction.slot? = (slotsMade (log ++ [entry])).map some)
    (hblocks : b'.blocks ≠ []) : b'.Matches (log ++ [entry]) := by
  refine ⟨hselected, hnumbered, ?_, ?_, hslots, fun hnil => absurd hnil hblocks⟩
  · have hmap := hinsts.map (·.id)
    rw [List.map_cons, hid] at hmap
    rw [hnext, List.range_succ]
    exact hmap.trans ((h.ids.cons _).trans (List.perm_append_singleton _ _).symm)
  · rw [hnext, h.emitted]
    simp [hemits]

theorem Effect.matches (heffect : Effect b b' entry) (h : b.Matches log) :
    b'.Matches (log ++ [entry]) := by
  cases heffect with
  | rest hemits hslots hblocks hnext hcurrent =>
    refine h.of_not_emits hemits ?_ ?_ ?_ hnext hslots fun hnil => hblocks ▸ hnil
    · intro i hi
      rw [hblocks]
      rcases hcurrent i hi with hold | hopen
      · exact h.selected i hold
      · exact hopen.lt
    · rw [Numbered, hblocks]
      exact h.numbered
    · rw [insts, insts, hslots, hblocks]
  | @block text hemits hslots hblocks hnext hcurrent =>
    refine h.of_not_emits hemits ?_ ?_ ?_ hnext hslots ?_
    · intro i hi
      rw [hblocks, List.length_append, List.length_singleton]
      rcases hcurrent i hi with hold | hnew
      · exact Nat.lt_succ_of_lt (h.selected i hold)
      · exact hnew ▸ Nat.lt_succ_self _
    · exact h.numbered.append hblocks
    · simp [insts, hslots, hblocks]
    · simp [hblocks]
  | @inst i operation type name hemits hslot hcurrent hslots hblocks hnext hkept =>
    have hlt := h.selected i hcurrent
    have hlength : b'.blocks.length = b.blocks.length := by simp [hblocks]
    have hinsts : List.Perm b'.insts (⟨b.nextInst, operation, type, name⟩ :: b.insts) := by
      rw [insts, hslots, hblocks]
      exact withInst_insts hlt operation type name
    refine h.of_emits hemits ?_ ?_ rfl hinsts hnext ?_ ?_
    · intro j hj
      rw [hlength]
      exact h.selected j (hkept ▸ hj)
    · rw [Numbered, hblocks]
      exact h.numbered.withInst i operation type name
    · rw [hslots, h.slots]
      simp [slotsMade, hslot]
    · apply List.ne_nil_of_length_pos
      rw [hlength]
      exact Nat.zero_lt_of_lt hlt
  | @slot type name hemits hslot hne hslots hblocks hnext hkept =>
    have hinsts : List.Perm b'.insts
        (⟨b.nextInst, .alloca type, .ptr type, name⟩ :: b.insts) := by
      rw [insts, insts, hslots, hblocks, withSlot_slots, List.append_assoc]
      exact List.perm_middle
    refine h.of_emits hemits ?_ ?_ rfl hinsts hnext ?_ (hblocks ▸ hne)
    · intro j hj
      rw [hblocks]
      exact h.selected j (hkept ▸ hj)
    · rw [Numbered, hblocks]
      exact h.numbered
    · rw [hslots, withSlot_slots, List.map_append, h.slots]
      simp [slotsMade, hslot, Instruction.slot?]
  | @finish i terminator hemits hopen hslots hblocks hnext hcurrent =>
    have hlength : b'.blocks.length = b.blocks.length := by simp [hblocks]
    refine h.of_not_emits hemits ?_ ?_ ?_ hnext hslots ?_
    · intro j hj
      rw [hlength]
      rcases hcurrent with hnone | ⟨hkept, _⟩
      · rw [hnone] at hj
        cases hj
      · exact h.selected j (hkept ▸ hj)
    · rw [Numbered, hblocks]
      exact h.numbered.withTerminator i terminator
    · refine Eq.trans ?_ (withTerminator_insts i terminator)
      rw [insts, insts, hslots, hblocks]
      rfl
    · intro hnil
      rw [hnil] at hlength
      exact List.length_eq_zero_iff.mp hlength.symm

theorem Matches.after (h : b.Matches log) (calls : List Call) :
    (b.after calls).Matches (log ++ b.log calls) := by
  induction calls generalizing b log with
  | nil =>
    rw [Builder.log, Call.logAll, List.append_nil]
    exact h
  | cons call rest ih =>
    have hrest := ih ((b.perform_effect call).matches h)
    rw [List.append_assoc] at hrest
    exact hrest

end

theorem matches_after (name : String) (result : Ty) (params : List Param) (calls : List Call) :
    ((new name result params).after calls).Matches ((new name result params).log calls) :=
  (matches_new name result params).after calls

end Builder

/-! Later calls only add. -/

/-- Instructions are added at the end, and a terminator stays. -/
structure Block.Earlier (block block' : Block) : Prop where
  label : block'.label = block.label
  insts : block.insts <+: block'.insts
  terminator : ∀ t, block.terminator = some t → block'.terminator = some t

theorem Block.Earlier.refl (block : Block) : block.Earlier block :=
  ⟨rfl, List.prefix_refl _, fun _ ht => ht⟩

theorem Block.Earlier.trans {block block' block'' : Block} (h : block.Earlier block')
    (h' : block'.Earlier block'') : block.Earlier block'' :=
  ⟨h'.label.trans h.label, h.insts.trans h'.insts, fun t ht => h'.terminator t (h.terminator t ht)⟩

namespace Builder

variable {b b' b'' : Builder} {entry : LogEntry} {call : Call}

structure Earlier (b b' : Builder) : Prop where
  slots : b.slots <+: b'.slots
  blocks : ∀ (i : Nat) (block : Block), b.blocks[i]? = some block →
    ∃ block', b'.blocks[i]? = some block' ∧ block.Earlier block'

theorem Earlier.trans (h : b.Earlier b') (h' : b'.Earlier b'') : b.Earlier b'' := by
  refine ⟨h.slots.trans h'.slots, ?_⟩
  intro i block hblock
  obtain ⟨block', hblock', hearlier⟩ := h.blocks i block hblock
  obtain ⟨block'', hblock'', hearlier'⟩ := h'.blocks i block' hblock'
  exact ⟨block'', hblock'', hearlier.trans hearlier'⟩

theorem Effect.earlier (h : Effect b b' entry) : b.Earlier b' := by
  cases h with
  | rest _ hslots hblocks _ _ =>
    refine ⟨hslots ▸ List.prefix_refl _, ?_⟩
    intro i block hblock
    exact ⟨block, hblocks ▸ hblock, .refl block⟩
  | block _ hslots hblocks _ _ =>
    refine ⟨hslots ▸ List.prefix_refl _, ?_⟩
    intro i block hblock
    refine ⟨block, ?_, .refl block⟩
    rw [hblocks, List.getElem?_append_left (List.getElem?_eq_some_iff.mp hblock).1]
    exact hblock
  | @inst i operation type name _ _ _ hslots hblocks _ _ =>
    refine ⟨hslots ▸ List.prefix_refl _, ?_⟩
    intro j block hblock
    rw [hblocks, withInst_getElem?, hblock]
    by_cases hij : i = j
    · exact ⟨_, rfl, by simp [hij], by simp [hij], by simp [hij]⟩
    · exact ⟨block, by simp [hij], .refl block⟩
  | slot _ _ _ hslots hblocks _ _ =>
    refine ⟨?_, ?_⟩
    · rw [hslots, withSlot_slots]
      exact List.prefix_append _ _
    · intro i block hblock
      exact ⟨block, hblocks ▸ hblock, .refl block⟩
  | @finish i terminator _ hopen hslots hblocks _ _ =>
    refine ⟨hslots ▸ List.prefix_refl _, ?_⟩
    intro j block hblock
    rw [hblocks, withTerminator_getElem?, hblock]
    by_cases hij : i = j
    · -- The block had no terminator before.
      subst hij
      obtain ⟨block', hblock', hnone⟩ := hopen
      obtain rfl := Option.some.inj (hblock.symm.trans hblock')
      exact ⟨_, rfl, by simp, by simp, by simp [hnone]⟩
    · exact ⟨block, by simp [hij], .refl block⟩

theorem earlier_after (b : Builder) (calls : List Call) : b.Earlier (b.after calls) := by
  induction calls generalizing b with
  | nil => exact ⟨List.prefix_refl _, fun i block hblock => ⟨block, hblock, .refl block⟩⟩
  | cons call rest ih => exact (b.perform_effect call).earlier.trans (ih _)

end Builder

/-- The instructions of a block but for the stack slots at the head of the entry. -/
def Block.code (log : List LogEntry) (block : Block) : List Instruction :=
  if block.id = 0 then block.insts.drop (slotsMade log).length else block.insts

namespace Function

/-- The first instructions of the entry, as many as slots were made. -/
def hoisted (log : List LogEntry) (F : Function) : List Instruction :=
  (F.blocks.head?.elim [] (·.insts)).take (slotsMade log).length

/-- A function has been built by calls with these answers. -/
structure BuiltBy (log : List LogEntry) (F : Function) : Prop where
  numbered : ∀ (i : Nat) (block : Block), F.blocks[i]? = some block → block.id = i
  /-- Each number below the number of instructions made is used once. -/
  ids : List.Perm (F.insts.map (·.id)) (List.range (log.countP LogEntry.emits))
  slots : (F.hoisted log).map Instruction.slot? = (slotsMade log).map some

/-- Later calls have only added to a function. -/
structure Earlier (log log' : List LogEntry) (F F' : Function) : Prop where
  hoisted : F.hoisted log <+: F'.hoisted log'
  blocks : ∀ (i : Nat) (block : Block), F.blocks[i]? = some block → ∃ block',
    F'.blocks[i]? = some block' ∧ block'.label = block.label ∧
      block.code log <+: block'.code log' ∧
      ∀ t, block.terminator = some t → block'.terminator = some t

end Function

namespace Builder

variable {b b' : Builder} {log log' : List LogEntry}

theorem Matches.length_slots (h : b.Matches log) : b.slots.length = (slotsMade log).length := by
  have hlength := congrArg List.length h.slots
  simpa using hlength

/-- The slots stand in front of what was emitted into the entry. -/
theorem Matches.hoisted_eq (h : b.Matches log) : b.toFunction.hoisted log = b.slots := by
  unfold Function.hoisted toFunction
  cases hblocks : b.blocks with
  | nil => simp [h.hoisted hblocks]
  | cons entry rest => simp [← h.length_slots]

theorem Matches.code_eq (h : b.Matches log) {i : Nat} {block : Block}
    (hblock : b.blocks[i]? = some block) :
    Block.code log { block with insts := b.front i ++ block.insts } = block.insts := by
  unfold Block.code front
  rw [h.numbered i block hblock]
  by_cases hi : i = 0
  · simp [hi, ← h.length_slots]
  · simp [hi]

theorem Matches.builtBy (h : b.Matches log) : b.toFunction.BuiltBy log := by
  refine ⟨?_, ?_, ?_⟩
  · intro i block hblock
    rw [toFunction_getElem?_eq] at hblock
    obtain ⟨old, hold, rfl⟩ := Option.map_eq_some_iff.mp hblock
    exact h.numbered i old hold
  · rw [← h.emitted]
    by_cases hblocks : b.blocks = []
    · have hempty : b.insts = [] := by simp [insts, h.hoisted hblocks, hblocks]
      have hids := h.ids
      rw [hempty] at hids
      simpa [Function.insts, toFunction, hblocks] using hids
    · rw [toFunction_insts hblocks]
      exact h.ids
  · rw [h.hoisted_eq]
    exact h.slots

theorem Matches.earlier (h : b.Matches log) (h' : b'.Matches log') (hearlier : b.Earlier b') :
    b.toFunction.Earlier log log' b'.toFunction := by
  refine ⟨?_, ?_⟩
  · rw [h.hoisted_eq, h'.hoisted_eq]
    exact hearlier.slots
  · intro i block hblock
    rw [toFunction_getElem?_eq] at hblock
    obtain ⟨old, hold, rfl⟩ := Option.map_eq_some_iff.mp hblock
    obtain ⟨new, hnew, hblocks⟩ := hearlier.blocks i old hold
    refine ⟨{ new with insts := b'.front i ++ new.insts }, ?_, hblocks.label, ?_,
      hblocks.terminator⟩
    · rw [toFunction_getElem?_eq, hnew]
      rfl
    · rw [h.code_eq hold, h'.code_eq hnew]
      exact hblocks.insts

/-- After any calls blocks and instructions are numbered without gaps and the slots stand at the
head of the entry in the order in which they were made; further calls add instructions at the ends
of the blocks and take no terminator away. -/
theorem toFunction_builtBy_earlier (name : String) (result : Ty) (params : List Param)
    (calls more : List Call) :
    ((new name result params).after calls).toFunction.BuiltBy
        ((new name result params).log calls) ∧
      ((new name result params).after calls).toFunction.Earlier
        ((new name result params).log calls) ((new name result params).log (calls ++ more))
        ((new name result params).after (calls ++ more)).toFunction := by
  have hcalls := matches_after name result params calls
  have hmore := matches_after name result params (calls ++ more)
  refine ⟨hcalls.builtBy, hcalls.earlier hmore ?_⟩
  rw [after_append]
  exact earlier_after _ more

/-! The cursor. -/

/-- The cursor is not at a finished block. -/
def Poised (b : Builder) : Prop := ∀ i, b.current = some i → b.Unfinished i

/-- The call ends the selected block without closing the cursor. -/
def EndsUnderCursor (b : Builder) (call : Call) : Prop :=
  ∃ i terminator, call = .setTerminator i terminator ∧ b.current = some i ∧ b.Unfinished i

/-- Of all calls only one kind leaves the cursor at a block that it ends. -/
theorem Poised.perform_iff (h : b.Poised) (call : Call) :
    (b.perform call).2.Poised ↔ ¬ b.EndsUnderCursor call := by
  constructor
  · rintro hafter ⟨i, terminator, rfl, hi, hopen⟩
    have hset : (b.perform (.setTerminator i terminator)).2 =
        (b.withTerminator i terminator).withCurrent b.current := by
      rw [perform, setTerminator_eq hopen]
      rfl
    rw [hset] at hafter
    have hstill := hafter i hi
    rw [withCurrent_unfinished, withTerminator_unfinished] at hstill
    exact hstill.2 rfl
  · intro hnot j hj
    cases b.perform_effect call with
    | rest _ _ hblocks _ hcurrent =>
      rw [Unfinished, hblocks]
      rcases hcurrent j hj with hold | hopen
      · exact h j hold
      · exact hopen
    | @block text _ _ hblocks _ hcurrent =>
      rcases hcurrent j hj with hold | hnew
      · obtain ⟨block, hblock, hterm⟩ := h j hold
        refine ⟨block, ?_, hterm⟩
        rw [hblocks, List.getElem?_append_left (List.getElem?_eq_some_iff.mp hblock).1]
        exact hblock
      · exact ⟨_, by rw [hblocks, hnew, List.getElem?_concat_length], rfl⟩
    | @inst i operation type name _ _ _ _ hblocks _ hkept =>
      rw [Unfinished, hblocks]
      exact withInst_unfinished.mpr (h j (hkept ▸ hj))
    | slot _ _ _ _ hblocks _ hkept =>
      rw [Unfinished, hblocks]
      exact h j (hkept ▸ hj)
    | @finish i terminator _ hopen _ hblocks _ hcurrent =>
      rcases hcurrent with hnone | ⟨hkept, hcall⟩
      · rw [hnone] at hj
        cases hj
      · rw [hkept] at hj
        rw [Unfinished, hblocks]
        refine withTerminator_unfinished.mpr ⟨h j hj, ?_⟩
        rintro rfl
        exact hnot ⟨j, terminator, hcall, hj, hopen⟩

theorem Poised.after (h : b.Poised) {calls : List Call}
    (hnot : ∀ before call rest, calls = before ++ call :: rest →
      ¬ (b.after before).EndsUnderCursor call) {before : List Call} (hbefore : before <+: calls) :
    (b.after before).Poised := by
  induction calls generalizing b before with
  | nil =>
    obtain rfl := List.prefix_nil.mp hbefore
    exact h
  | cons first rest ih =>
    cases before with
    | nil => exact h
    | cons call before =>
      obtain ⟨rfl, hrest⟩ := List.cons_prefix_cons.mp hbefore
      have hfirst := (h.perform_iff call).mpr (hnot [] call rest rfl)
      refine ih hfirst ?_ hrest
      intro before' call' rest' heq
      exact hnot (call :: before') call' rest' (by rw [heq, List.cons_append])

end Builder

/-- The call asks for an instruction in the selected block. -/
def Call.appends : Call → Bool
  | .emit .. | .emitNamed .. => true
  | _ => false

namespace Builder

variable {b : Builder} {log : List LogEntry}

/-- The call changes a block that has its terminator. -/
def ChangesFinished (b : Builder) (call : Call) : Prop :=
  ∃ (i : BlockId) (block : Block), b.blocks[i]? = some block ∧ block.terminator.isSome ∧
    (b.perform call).2.blocks[i]? ≠ some block

/-- With the cursor at an unfinished block, a finished one is final. -/
theorem Poised.not_changesFinished (h : b.Poised) (call : Call) : ¬ b.ChangesFinished call := by
  rintro ⟨j, block, hblock, hterm, hchanged⟩
  have hne : ∀ i, b.Unfinished i → i ≠ j := by
    rintro i ⟨block', hblock', hnone⟩ rfl
    obtain rfl := Option.some.inj (hblock.symm.trans hblock')
    simp [hnone] at hterm
  apply hchanged
  cases b.perform_effect call with
  | rest _ _ hblocks _ _ | slot _ _ _ _ hblocks _ _ => rw [hblocks, hblock]
  | block _ _ hblocks _ _ =>
    rw [hblocks, List.getElem?_append_left (List.getElem?_eq_some_iff.mp hblock).1, hblock]
  | @inst i _ _ _ _ _ hcurrent _ hblocks _ _ =>
    rw [hblocks, withInst_getElem?, hblock]
    simp [hne i (h i hcurrent)]
  | @finish i _ _ hopen _ hblocks _ _ =>
    rw [hblocks, withTerminator_getElem?, hblock]
    simp [hne i hopen]

theorem perform_appends {call : Call} (hcall : call.appends) {i : BlockId}
    (hcurrent : b.current = some i) : ∃ operation type name,
      (b.perform call).2.blocks = (b.withInst i operation type name).blocks := by
  cases call with
  | emit operation type =>
    refine ⟨operation, type, none, ?_⟩
    rw [perform, emit, append_eq hcurrent]
    rfl
  | emitNamed decl name operation type =>
    refine ⟨operation, type, some (b.uniqueName name).1, ?_⟩
    have hkept : (b.uniqueName name).2.current = some i := hcurrent
    rw [perform, emitNamed]
    dsimp only
    rw [append_eq hkept]
    rfl
  | startBody | newBlock | selectBlock | emitAlloca | bind | terminate | setTerminator
  | endBody => cases hcall

/-- An instruction goes to a finished block exactly if the cursor is there. -/
theorem changesFinished_iff (hselected : ∀ i, b.current = some i → i < b.blocks.length)
    {call : Call} (hcall : call.appends) : b.ChangesFinished call ↔ ¬ b.Poised := by
  constructor
  · intro hchanges hpoised
    exact hpoised.not_changesFinished call hchanges
  · intro hnot
    obtain ⟨i, hi⟩ := Classical.not_forall.mp hnot
    obtain ⟨hcurrent, hfinished⟩ := Classical.not_imp.mp hi
    have hblock := List.getElem?_eq_getElem (hselected i hcurrent)
    obtain ⟨operation, type, name, hblocks⟩ := perform_appends hcall hcurrent
    refine ⟨i, _, hblock, ?_, ?_⟩
    · apply Option.isSome_iff_ne_none.mpr
      intro hnone
      exact hfinished ⟨_, hblock, hnone⟩
    · rw [hblocks, withInst_getElem?, hblock]
      intro heq
      have hinsts := congrArg Block.insts (Option.some.inj heq)
      simp at hinsts

/-- The cursor is always at a block of the function. It stays off finished blocks as long as no
call sets the terminator of the selected block without closing the cursor, and after such a call
the next instruction goes to the finished block. -/
theorem after_poised_iff (name : String) (result : Ty) (params : List Param) (calls : List Call) :
    (∀ i, ((new name result params).after calls).current = some i →
      i < ((new name result params).after calls).blocks.length) ∧
    ((∀ before, before <+: calls → ((new name result params).after before).Poised) ↔
      ∀ before call rest, calls = before ++ call :: rest →
        ¬ ((new name result params).after before).EndsUnderCursor call) ∧
    ∀ call, call.appends → (((new name result params).after calls).ChangesFinished call ↔
      ¬ ((new name result params).after calls).Poised) := by
  have hselected := (matches_after name result params calls).selected
  refine ⟨hselected, ⟨?_, ?_⟩, fun call hcall => changesFinished_iff hselected hcall⟩
  · rintro hpoised before call rest rfl
    have hbefore := hpoised before (List.prefix_append _ _)
    refine (hbefore.perform_iff call).mp ?_
    have hnext := hpoised (before ++ [call]) (by simp)
    rw [after_append] at hnext
    exact hnext
  · intro hnot before hbefore
    have hstart : (new name result params).Poised := nofun
    exact hstart.after hnot hbefore

/-- A body with its terminator set from outside: the cursor stays, and an instruction is appended
after the end of the block. -/
theorem setTerminator_not_poised :
    ¬ ((new "f" .void []).after [.startBody, .setTerminator 0 (.ret none)]).Poised ∧
    ((new "f" .void []).after [.startBody, .setTerminator 0 (.ret none)]).ChangesFinished
      (.emit (.load (.global "x" (.ptr .i32))) .i32) := by
  have hnot : ¬ ((new "f" .void []).after [.startBody, .setTerminator 0 (.ret none)]).Poised := by
    intro hpoised
    obtain ⟨block, hblock, hterm⟩ := hpoised 0 rfl
    cases hblock
    cases hterm
  exact ⟨hnot, (changesFinished_iff (matches_after "f" .void [] _).selected rfl).mpr hnot⟩

end Builder

end MicroC.Ir
