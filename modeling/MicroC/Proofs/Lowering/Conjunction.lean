import MicroC.Proofs.Lowering.Operations

/-!
The code of `&&`. The truth of the left operand is kept in a slot without a name, which the
program does not know; the code of the right operand is gone through only if the left one
holds, and then the slot gets the truth of the right one.
-/

namespace MicroC

open LowerM

namespace Ir

variable {final b : Builder} {x : Activation} {id : BlockId} {K : State → Prop} {k : Nat} {n : Int}

/-- A slot that is made without a name stays without one. -/
theorem Builder.Tidy.hides (h : b.Tidy) {type : Ty}
    (hgrows : (b.withSlot type none).Grows final) : final.Hides b.nextInst := by
  obtain ⟨more, hslots, hmore⟩ := hgrows.slots
  rw [withSlot_slots] at hslots
  constructor
  · exact ⟨⟨b.nextInst, .alloca type, .ptr type, none⟩, by simp [hslots], rfl⟩
  · rintro ⟨slot, hslot, hid, hname⟩
    rw [hslots] at hslot
    rcases List.mem_append.mp hslot with hold | hnew
    · rcases List.mem_append.mp hold with hold | hself
      · exact Nat.ne_of_lt (h.slots slot hold).1 hid
      · rw [List.mem_singleton.mp hself] at hname
        cases hname
    · exact Nat.ne_of_gt (hmore slot hnew) hid

/-- The contents of the slot are one number. -/
theorem Builder.Hides.contents (h : final.Hides k) {M : Memory} {s : State}
    (hs : Simulates final x M s) : ∃ m, s.memory (.slot x.depth k) = [m] :=
  List.length_eq_one_iff.mp (hs.mirrors.hidden k h)

/-- Where the program does not look, anything can be written. -/
theorem Mirrors.write_hidden {M N : Memory} (hM : Mirrors final x M N) (h : final.Hides k)
    (contents : List Int) (hlength : contents.length = 1) :
    Mirrors final x M fun o => if o = .slot x.depth k then contents else N o := by
  constructor
  · intro o ho
    have hne : o ≠ .slot x.depth k := fun heq => h.not_names (ho k heq)
    rw [if_neg hne]
    exact hM.shown o ho
  · intro k' hk'
    split
    · exact hlength
    · exact hM.hidden k' hk'

/-- Writing to the slot is not seen by the program. -/
theorem Translates.keep {value : Value} {type : Ty} (htidy : b.Tidy) (hid : b.current = some id)
    (hgrows : (b.withInst id (.store value (.inst k type)) .void none).Grows final)
    (hhides : final.Hides k) (hK : Stable b.nextInst K)
    (hvalue : ∀ s, K s → value.eval x s.results = .int n) :
    Translates final x b.place K (Pure.pure ())
      (fun _ => (b.withInst id (.store value (.inst k type)) .void none).place)
      (fun _ s => K s ∧ s.memory (.slot x.depth k) = [n]) := by
  have hwrite : ∀ M s, Simulates final x M s → ∀ N',
      s.memory.write? (.slot x.depth k) 0 n = some N' ↔
        N' = fun o => if o = .slot x.depth k then [n] else s.memory o := by
    intro M s hs N'
    obtain ⟨m, hm⟩ := hhides.contents hs
    simp [Memory.write?, hm, eq_comm]
  have hrun : ∀ M s, Simulates final x M s → K s →
      (Instruction.mk b.nextInst (.store value (.inst k type)) .void none).run x s.results = (do
        Action.store (.address (.slot x.depth k) 0) (.int n)
        return .none) := by
    intro M s hs hpre
    obtain ⟨slot, hslot, rfl⟩ := hhides.exists_slot
    rw [Instruction.run_store, hvalue s hpre, Value.eval, hs.slots slot hslot]
  refine .emit (f := fun _ => .none) htidy hid hgrows ?_ ?_
  · intro M s hs hpre
    rw [hrun M s hs hpre]
    have hmirrors := hs.mirrors.write_hidden hhides [n] rfl
    constructor
    · rintro _ _ ⟨rfl, rfl⟩
      exact ⟨_, ⟨(), _, (hwrite _ s hs _).mpr rfl, rfl, rfl⟩, hmirrors⟩
    · rintro _ _ ⟨_, N', hN', rfl, rfl⟩
      rw [(hwrite M s hs _).mp hN']
      exact ⟨(), M, rfl, ⟨rfl, rfl⟩, hmirrors⟩
  · rintro M M' s _ N hs hpre _ hN
    rw [hrun M s hs hpre] at hN
    obtain ⟨_, N', hN', _, rfl⟩ := hN
    refine ⟨hK.after hpre, ?_⟩
    rw [State.after_memory, (hwrite M s hs _).mp hN']
    exact if_pos rfl

/-- Reading the slot gives what was written last. -/
theorem Translates.recall {type loaded : Ty} (htidy : b.Tidy) (hid : b.current = some id)
    (hgrows : (b.withInst id (.load (.inst k type)) loaded none).Grows final)
    (hhides : final.Hides k) (hK : Stable b.nextInst K) :
    Translates final x b.place (fun s => K s ∧ s.memory (.slot x.depth k) = [n]) (Pure.pure (.int n))
      (fun _ => (b.withInst id (.load (.inst k type)) loaded none).place)
      (fun r s => K s ∧ (Value.inst b.nextInst loaded).Holds final x r s) := by
  have hrun : ∀ M s, Simulates final x M s → s.memory (.slot x.depth k) = [n] → ∀ d N,
      (Instruction.mk b.nextInst (.load (.inst k type)) loaded none).run x s.results s.memory d N ↔
        d = .int n ∧ N = s.memory := by
    intro M s hs hn d N
    obtain ⟨slot, hslot, rfl⟩ := hhides.exists_slot
    have hload : (Instruction.mk b.nextInst (.load (.inst slot.id type)) loaded none).run x
        s.results = Action.load (.address (.slot x.depth slot.id) 0) := by
      rw [Instruction.run_load, Value.eval, hs.slots slot hslot]
    have hread : s.memory.read? (.slot x.depth slot.id) 0 = some n := by
      simp [Memory.read?, hn]
    rw [hload]
    constructor
    · rintro ⟨rfl, m, hm, rfl⟩
      obtain rfl := Option.some.inj (hread.symm.trans hm)
      exact ⟨rfl, rfl⟩
    · rintro ⟨rfl, rfl⟩
      exact ⟨rfl, n, hread, rfl⟩
  refine .emit (f := fun r => r) htidy hid hgrows ?_ ?_
  · intro M s hs hpre
    constructor
    · rintro _ _ ⟨rfl, rfl⟩
      exact ⟨s.memory, (hrun _ s hs hpre.2 _ _).mpr ⟨rfl, rfl⟩, hs.mirrors⟩
    · intro d N' hN'
      obtain ⟨rfl, rfl⟩ := (hrun M s hs hpre.2 d N').mp hN'
      exact ⟨_, M, rfl, ⟨rfl, rfl⟩, hs.mirrors⟩
  · rintro M M' s _ N _ hpre ⟨rfl, _⟩ _
    exact ⟨hK.after hpre.1, by simp [Value.eval], trivial⟩

end Ir

section

variable (final : Ir.Builder) (y : Ir.Activation) {b : Ir.Builder} {k : Nat} {t : Ir.Ty}

/-! The same as steps of the lowering. -/

theorem LowerM.allocate_step {type : Ir.Ty} (htype : type.isInteger) (hb : b.Active) :
    (allocate none type).Ensures b fun slot b' => b.Extends b' ∧ b'.place = b.place ∧
      ∃ k, slot = .inst k (.ptr type) ∧ (b'.Grows final → final.Hides k) :=
  allocate_none_ensures ⟨⟨⟨hb.tidy.withSlot htype, hb.isOpen⟩, b.grows_withSlot type none, rfl⟩, rfl,
    b.nextInst, rfl, fun hgrows => hb.tidy.hides hgrows⟩

theorem LowerM.keep_step (value : Ir.Value) (hb : b.Active) :
    (store value (.inst k t)).Ensures b fun _ b' => b.Extends b' ∧
      (b'.Grows final → final.Hides k → ∀ (K : Ir.State → Prop) (n : Int), Ir.Stable b.nextInst K →
        (∀ s, K s → value.eval y s.results = .int n) →
        Ir.Translates final y b.place K (pure ()) (fun _ => b'.place)
          fun _ s => K s ∧ s.memory (.slot y.depth k) = [n]) := by
  refine Run.discard_iff.mpr (emit_ensures fun id hid => ?_)
  exact ⟨hb.withInst hid (by simp) _, fun hgrows hhides K n hK hvalue =>
    .keep hb.tidy hid hgrows hhides hK hvalue⟩

/-- The truth of a value is found and kept in the slot. -/
theorem LowerM.keepTruth_ensures {α : Type} {f : Ir.Value → LowerM α} {Q : α → Ir.Builder → Prop}
    (value : Ir.Value) (hb : b.Active)
    (hf : ∀ holds b', b.Extends b' →
      (b'.Grows final → final.Hides k → ∀ (K : Ir.State → Prop) (d : Datum),
        Ir.Stable b.nextInst K →
        Ir.Translates final y b.place (fun s => K s ∧ value.Holds final y d s) d.truth
          (fun _ => b'.place) fun n s =>
            (K s ∧ holds.Holds final y (.int n) s) ∧ s.memory (.slot y.depth k) = [n]) →
      (f holds).Ensures b' Q) :
    Ensures (do
      let holds ← isNonzero value
      store holds (.inst k t)
      f holds) b Q := by
  have htruth : ∀ d, Computes final y (isNonzero value) b (value.Holds final y d)
      (Ir.Value.IsReady value.type) (fun w n => w.Holds final y (.int n)) d.truth :=
    fun d => isNonzero_computes hb fun _ hs => hs.1
  refine Run.bind_iff.mpr (Run.mono (Run.forall_intro htruth) ?_)
  intro holds b₁ h₁
  obtain ⟨hholds, e₁, _⟩ := h₁ .none
  refine Run.bind_iff.mpr (Run.mono (keep_step final y holds e₁.active) ?_)
  rintro _ b₂ ⟨e₂, t₂⟩
  refine hf holds b₂ (e₁.trans e₂) ?_
  intro hgrows hhides K d hK
  rw [← bind_pure d.truth]
  refine ((h₁ d).2.2 (e₂.grows.trans hgrows) K hK).bind fun n => ?_
  have hstable : Ir.Stable b₁.nextInst fun s => K s ∧ holds.Holds final y (.int n) s :=
    (hK.mono e₁.grows.nextInst).and (hholds.isBefore.holds (.int n))
  exact (t₂ hgrows hhides _ n hstable fun s hs => hs.2.1).silent (.pure rfl fun _ _ _ hs => hs)

theorem LowerM.recall_step (type : Ir.Ty) (hb : b.Active) :
    (load (.inst k t) type).Ensures b fun v b' => v.IsReady type b' ∧ b.Extends b' ∧
      (b'.Grows final → final.Hides k → ∀ (K : Ir.State → Prop) (n : Int), Ir.Stable b.nextInst K →
        Ir.Translates final y b.place (fun s => K s ∧ s.memory (.slot y.depth k) = [n])
          (pure (.int n)) (fun _ => b'.place) fun r s => K s ∧ v.Holds final y r s) := by
  refine emit_ensures fun id hid => ?_
  refine ⟨⟨?_, rfl⟩, hb.withInst hid (by simp) _, fun hgrows hhides K n hK =>
    .recall hb.tidy hid hgrows hhides hK⟩
  intro i t' hi
  cases hi
  exact Nat.lt_succ_self _

theorem decide_ne_toInt_eq_zero (m : Int) : (decide (m ≠ 0)).toInt = 0 ↔ m = 0 := by
  by_cases hm : m = 0 <;> simp [hm]

/-- What `&&` computes from its left operand on, in the steps of its code. -/
theorem Expr.conjunction_eq (left : Datum) (rhs : Action Datum) :
    (do let m ← left.toInt
        if m = 0 then return Datum.int 0
        else
          let right ← rhs
          let n ← right.toInt
          return Datum.int (decide (n ≠ 0)).toInt) = (do
      let n ← left.truth
      let k ← (Datum.int n).toInt
      if k = 0 then pure (Datum.int k)
      else
        let right ← rhs
        let n ← right.truth
        pure (Datum.int n)) := by
  have hnumber : ∀ n, (Datum.int n).toInt = pure n := fun _ => rfl
  simp only [Datum.truth, bind_assoc, pure_bind, hnumber, decide_ne_toInt_eq_zero]
  congr
  funext m
  by_cases hm : m = 0 <;> simp [hm]

/-- The slot of `&&` has the type of the operands. -/
theorem Expr.emitAnd_computes {lhs rhs : LowerM Ir.Value} {type : Ty} {L R : Action Datum}
    (hs : type.isScalar)
    (hlhs : Computes final y lhs b (fun _ => True) (Ir.Value.IsOperandOf type)
      (fun v r => v.Holds final y r) L)
    (hrhs : ∀ b₁, b.Extends b₁ → Computes final y rhs b₁ (fun _ => True)
      (Ir.Value.IsOperandOf type) (fun v r => v.Holds final y r) R) :
    Computes final y (Expr.emitAnd lhs rhs) b (fun _ => True) (Ir.Value.IsOperandOf type)
      (fun v r => v.Holds final y r) (do
        let left ← L
        let m ← left.toInt
        if m = 0 then return .int 0
        else
          let right ← R
          let n ← right.toInt
          return .int (decide (n ≠ 0)).toInt) := by
  refine hlhs.bind fun left b₁ hleft h₁ l => ?_
  have htype := hleft.type_eq hs
  have hinteger : left.type.isInteger := htype ▸ Ty.isInteger_machine hs
  rw [Expr.conjunction_eq]
  refine Run.bind_iff.mpr (Run.mono (allocate_step final hinteger h₁.active) ?_)
  rintro _ b₂ ⟨h₂, hplace₂, k, rfl, hhides⟩
  refine keepTruth_ensures final y left h₂.active fun holds b₃ h₃ t₃ => ?_
  refine Run.bind_iff.mpr (Run.mono (newBlock_step "and.rhs" h₃.active) ?_)
  rintro rhsBlock b₄ ⟨hrhsBlock, h₄, hplace₄⟩
  refine Run.bind_iff.mpr (Run.mono (newBlock_step "and.end" h₄.active) ?_)
  rintro endBlock b₅ ⟨hendBlock, h₅, hplace₅⟩
  refine Run.bind_iff.mpr (Run.mono (condBr_step final y holds rhsBlock endBlock h₅.active.tidy) ?_)
  rintro _ b₆ ⟨h₆, t₆⟩
  refine Run.bind_iff.mpr (Run.mono (selectBlock_step rhsBlock h₆.tidy h₆.closed) ?_)
  rintro _ b₇ ⟨h₇, hplace₇⟩
  have e₇ : b₁.Extends b₇ := (h₂.trans (h₃.trans (h₄.trans h₅))).trans (h₆.extends h₇)
  refine Run.bind_iff.mpr (Run.mono (hrhs b₇ (h₁.trans e₇)) ?_)
  rintro right b₈ ⟨_, h₈, t₈⟩
  refine keepTruth_ensures final y right h₈.active fun _ b₉ h₉ t₉ => ?_
  refine Run.bind_iff.mpr (Run.mono (br_step final y endBlock h₉.active.tidy) ?_)
  rintro _ b₁₀ ⟨h₁₀, t₁₀⟩
  refine Run.bind_iff.mpr (Run.mono (selectBlock_step endBlock h₁₀.tidy h₁₀.closed) ?_)
  rintro _ b₁₁ ⟨h₁₁, hplace₁₁⟩
  refine Run.mono (recall_step final y left.type h₁₁.active) ?_
  rintro v b₁₂ ⟨hv, h₁₂, t₁₂⟩
  have e₁₁ : b₇.Extends b₁₁ := (h₈.trans h₉).trans (h₁₀.extends h₁₁)
  refine ⟨⟨hv.isBefore, fun _ => hv.type_eq.trans htype⟩, e₇.trans (e₁₁.trans h₁₂), ?_⟩
  intro hgrows R' hR'
  have g₁₀ : b₁₀.Grows final := h₁₁.grows.trans (h₁₂.grows.trans hgrows)
  have g₉ : b₉.Grows final := h₁₀.grows.trans g₁₀
  have g₈ : b₈.Grows final := h₉.grows.trans g₉
  have g₆ : b₆.Grows final := h₇.grows.trans (h₈.grows.trans g₈)
  have g₃ : b₃.Grows final := h₄.grows.trans (h₅.grows.trans (h₆.grows.trans g₆))
  have hhidden := hhides (h₃.grows.trans g₃)
  have hR₇ := hR'.mono e₇.grows.nextInst
  have hR₁₁ := hR₇.mono e₁₁.grows.nextInst
  rw [← hplace₂]
  refine (t₃ g₃ hhidden R' l (hR'.mono h₂.grows.nextInst)).bind fun n => ?_
  rw [← hplace₄, ← hplace₅]
  refine (t₆ hrhsBlock hendBlock g₆ _ (.int n) fun s hs => hs.1.2.1).bind fun m => ?_
  by_cases hm : m = 0
  · rw [if_pos hm, if_pos hm, ← hplace₁₁]
    refine (t₁₂ hgrows hhidden R' m hR₁₁).mono ?_ fun _ _ h => h
    rintro s ⟨⟨⟨hs, _⟩, hslot⟩, hnm⟩
    cases hnm
    exact ⟨hs, hslot⟩
  · rw [if_neg hm, if_neg hm, ← hplace₇]
    refine ((t₈ g₈ R' hR₇).mono (fun s hs => ⟨hs.1.1.1, trivial⟩) fun _ _ h => h).bind fun r => ?_
    refine (t₉ g₉ hhidden R' r (hR₇.mono h₈.grows.nextInst)).bind fun n' => ?_
    refine .step (t₁₀ hendBlock g₁₀) ?_
    rw [← hplace₁₁]
    exact (t₁₂ hgrows hhidden R' n' hR₁₁).mono (fun s hs => ⟨hs.1.1, hs.2⟩) fun _ _ h => h

end

end MicroC
