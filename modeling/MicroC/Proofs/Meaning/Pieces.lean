import MicroC.Proofs.Ir.Continuation
import MicroC.Proofs.Meaning.Simulation
import MicroC.Proofs.Meaning.Steps

/-!
Pieces of code. What is emitted between two states of a builder can be gone through wherever the
construction ends; a piece is described by a condition on the state before it and one on the
state after it, and it changes nothing but the results of its own instructions and some slots.
-/

namespace MicroC.Ir

/-! States of a run. -/

/-- Two states differ only in the results numbered from `lo` to `hi` and in the contents of slots
numbered from `m` to `hi`. -/
structure State.Within (x : Activation) (m lo hi : Nat) (s s' : State) : Prop where
  results : ∀ i, i < lo ∨ hi ≤ i → s'.results i = s.results i
  memory : ∀ object, (∀ k, m ≤ k → k < hi → object ≠ .slot x.depth k) →
    s'.memory object = s.memory object
  lengths : ∀ object, (s'.memory object).length = (s.memory object).length

namespace State.Within

variable {x : Activation} {m lo mid hi : Nat} {s s' s'' : State}

theorem refl (x : Activation) (m lo hi : Nat) (s : State) : s.Within x m lo hi s :=
  ⟨fun _ _ => rfl, fun _ _ => rfl, fun _ => rfl⟩

theorem trans (h : s.Within x m lo mid s') (h' : s'.Within x m mid hi s'') (hle : lo ≤ mid)
    (hle' : mid ≤ hi) : s.Within x m lo hi s'' := by
  constructor
  · intro i hi
    rw [h'.results i (by omega), h.results i (by omega)]
  · intro object hobject
    rw [h'.memory object hobject, h.memory object fun k hk hlt => hobject k hk (by omega)]
  · intro object
    rw [h'.lengths, h.lengths]

theorem mono {m' : Nat} (h : s.Within x m lo hi s') (hle : m' ≤ m) : s.Within x m' lo hi s' :=
  ⟨h.results, fun object hobject => h.memory object fun k hk hlt => hobject k (by omega) hlt,
    h.lengths⟩

end State.Within

/-- The stack slots numbered from `lo` on have been made, each with its size. -/
def State.Allocates (s : State) (x : Activation) (lo : Nat) (slots : List Instruction) : Prop :=
  ∀ slot ∈ slots, lo ≤ slot.id → ∀ type, slot.operation = .alloca type →
    s.results slot.id = .address (.slot x.depth slot.id) 0 ∧
      (s.memory (.slot x.depth slot.id)).length = type.cells

namespace State.Allocates

variable {x : Activation} {lo lo' : Nat} {slots slots' : List Instruction} {s s' : State}

theorem mono (h : s.Allocates x lo slots) (hle : lo ≤ lo') (hsub : slots' ⊆ slots) :
    s.Allocates x lo' slots' :=
  fun slot hslot hid => h slot (hsub hslot) (Nat.le_trans hle hid)

theorem within {m hi : Nat} (h : s.Allocates x hi slots) (hwithin : s.Within x m lo hi s') :
    s'.Allocates x hi slots := by
  intro slot hslot hid type htype
  obtain ⟨hresult, hlength⟩ := h slot hslot hid type htype
  exact ⟨(hwithin.results _ (.inr hid)).trans hresult, (hwithin.lengths _).trans hlength⟩

end State.Allocates

/-- At the entry of a function, the instructions at its head make all slots. -/
theorem State.withSlots_allocates {x : Activation} {s : State} {slots : List Instruction}
    (h : ∀ slot ∈ slots, ∀ type, slot.operation = .alloca type →
      (s.memory (.slot x.depth slot.id)).length = type.cells) :
    (s.withSlots x slots).Allocates x 0 slots := by
  intro slot hslot _ type htype
  have hany : slots.any (·.id = slot.id) := List.any_eq_true.mpr ⟨slot, hslot, by simp⟩
  exact ⟨by simp only [withSlots, hany, if_true], h slot hslot type htype⟩

namespace Builder

variable {b b₁ b' final : Builder} {i k j l m : Nat} {P Q R : Activation → State → Prop}

/-! Positions in the code that a state has become part of. -/

/-- The place after `k` instructions of a block; in the entry the slots stand before them. -/
def position (final : Builder) (i k : Nat) : Position :=
  ⟨i, (final.front i).length + k⟩

theorem position_zero (hi : i ≠ 0) : final.position i 0 = ⟨i, 0⟩ := by
  simp [position, front, hi]

/-- An instruction that has been emitted can be executed. -/
theorem step_withInst {operation : Operation} {type : Ty} {name : Option String} {x : Activation}
    {s : State} {result : Datum} {memory : Memory} (hat : b.At i k)
    (hfinal : (b.withInst i operation type name).Kept final)
    (hrun : (Instruction.mk b.nextInst operation type name).run x s.results s.memory result memory) :
    final.toFunction.Step x (final.position i k) s (final.position i (k + 1))
      (s.after b.nextInst result memory) := by
  obtain ⟨hid, block, hblock, rfl⟩ := hat
  have hnew : (b.withInst i operation type name).blocks[i]? = some { block with
      insts := block.insts ++ [⟨b.nextInst, operation, type, name⟩] } := by
    rw [withInst_getElem?, hblock]
    simp
  obtain ⟨last, hlast, ⟨more, hmore⟩, _⟩ := hfinal.blocks i _ hnew
  have hwhole := final.toFunction_getElem?_eq i
  rw [hlast, Option.map_some] at hwhole
  refine .inst hwhole ?_ hrun
  rw [← hmore, List.getElem?_append_right (Nat.le_add_right _ _)]
  simp

/-- The end of a block that has ended. -/
theorem exists_block_withTerminator {terminator : Terminator} (hat : b.At i k)
    (hfinal : (b.withTerminator i terminator).Kept final) :
    ∃ whole, final.toFunction.blocks[i]? = some whole ∧ whole.terminator = some terminator ∧
      final.position i k = ⟨i, whole.insts.length⟩ := by
  obtain ⟨hid, block, hblock, rfl⟩ := hat
  have hnew : (b.withTerminator i terminator).blocks[i]? =
      some { block with terminator := some terminator } := by
    rw [withTerminator_getElem?, hblock]
    simp
  obtain ⟨last, hlast, _, hfinished⟩ := hfinal.blocks i _ hnew
  obtain ⟨hterm, hinsts⟩ := hfinished rfl
  have hwhole := final.toFunction_getElem?_eq i
  rw [hlast, Option.map_some] at hwhole
  refine ⟨_, hwhole, hterm, ?_⟩
  rw [position, hinsts (by simp), List.length_append]

/-! Pieces of code. -/

/-- The code that is emitted between two states with a selected block can be executed from where
`P` holds, and then `Q` holds. Slots numbered from `m` on may be written. -/
structure Code (m : Nat) (b b' : Builder) (P Q : Activation → State → Prop) : Prop where
  precedes : b.Precedes b'
  runs : ∀ {final : Builder} {i k j l : Nat} {x : Activation} {s : State}, b'.Kept final →
    b.At i k → b'.At j l → s.Allocates x b.nextInst b'.slots → P x s →
    ∃ s', final.toFunction.Runs x (final.position i k) s (final.position j l) s' ∧
      s.Within x m b.nextInst b'.nextInst s' ∧ Q x s'

namespace Code

theorem trans (h : Code m b b₁ P Q) (hselected : b₁.Selected) (h' : Code m b₁ b' Q R) :
    Code m b b' P R := by
  refine ⟨h.precedes.trans h'.precedes, ?_⟩
  intro final i k j l x s hfinal hat hat' halloc hpre
  obtain ⟨i₁, k₁, hat₁⟩ := hselected
  obtain ⟨s₁, hruns, hwithin, hmid⟩ := h.runs (h'.precedes.kept final hfinal) hat hat₁
    (halloc.mono (Nat.le_refl _) h'.precedes.slots) hpre
  obtain ⟨s₂, hruns', hwithin', hpost⟩ := h'.runs hfinal hat₁ hat'
    ((halloc.mono h.precedes.nextInst (List.Subset.refl _)).within hwithin) hmid
  exact ⟨s₂, hruns.trans hruns',
    hwithin.trans hwithin' h.precedes.nextInst h'.precedes.nextInst, hpost⟩

theorem mono {m' : Nat} {P' Q' : Activation → State → Prop} (h : Code m b b' P Q) (hle : m' ≤ m)
    (hP : ∀ x s, P' x s → P x s) (hQ : ∀ x s, Q x s → Q' x s) : Code m' b b' P' Q' := by
  refine ⟨h.precedes, ?_⟩
  intro final i k j l x s hfinal hat hat' halloc hpre
  obtain ⟨s', hruns, hwithin, hpost⟩ := h.runs hfinal hat hat' halloc (hP x s hpre)
  exact ⟨s', hruns, hwithin.mono hle, hQ x s' hpost⟩

/-- What the piece does not touch stays true. -/
theorem frame {F : Activation → State → Prop} (h : Code m b b' P Q)
    (hF : ∀ x s s', s.Within x m b.nextInst b'.nextInst s' → F x s → F x s') :
    Code m b b' (fun x s => P x s ∧ F x s) (fun x s => Q x s ∧ F x s) := by
  refine ⟨h.precedes, ?_⟩
  rintro final i k j l x s hfinal hat hat' halloc ⟨hpre, hkept⟩
  obtain ⟨s', hruns, hwithin, hpost⟩ := h.runs hfinal hat hat' halloc hpre
  exact ⟨s', hruns, hwithin, hpost, hF x s s' hwithin hkept⟩

/-- A step of the construction that emits nothing to the selected block. -/
theorem stay (hprecedes : b.Precedes b') (hat : ∀ i k, b.At i k → b'.At i k)
    (hPQ : ∀ x s, s.Allocates x b.nextInst b'.slots → P x s → Q x s) : Code m b b' P Q := by
  refine ⟨hprecedes, ?_⟩
  intro final i k j l x s _ hat₁ hat₂ halloc hpre
  obtain ⟨rfl, rfl⟩ := (hat i k hat₁).unique hat₂
  exact ⟨s, .refl _ s, .refl x m _ _ s, hPQ x s halloc hpre⟩

/-- One instruction. -/
theorem emit {operation : Operation} {type : Ty} {name : Option String}
    (hid : b.current = some i)
    (hrun : ∀ x s, P x s → ∃ result memory,
      (Instruction.mk b.nextInst operation type name).run x s.results s.memory result memory ∧
      s.Within x m b.nextInst (b.nextInst + 1) (s.after b.nextInst result memory) ∧
      Q x (s.after b.nextInst result memory)) :
    Code m b (b.withInst i operation type name) P Q := by
  refine ⟨.withInst hid, ?_⟩
  intro final i' k j l x s hfinal hat hat' _ hpre
  obtain rfl : i' = i := Option.some.inj (hat.1.symm.trans hid)
  obtain ⟨rfl, rfl⟩ := hat.withInst.unique hat'
  obtain ⟨result, memory, hinst, hwithin, hpost⟩ := hrun x s hpre
  exact ⟨_, (step_withInst hat hfinal hinst).runs, hwithin, hpost⟩

/-- The jump at the end of a block to the beginning of another one. -/
theorem jump {terminator : Terminator} {target : BlockId} (hprecedes : b.Precedes b')
    (hended : (b.withTerminator i terminator).Precedes b') (hid : b.current = some i)
    (hat : b'.At target 0) (htarget : target ≠ 0)
    (hgoes : ∀ x s, P x s → terminator = .br target ∨ ∃ cond onTrue onFalse c,
      terminator = .condBr cond onTrue onFalse ∧ cond.eval x s.results = .int c ∧
        target = if c = 0 then onFalse else onTrue) : Code m b b' P P := by
  refine ⟨hprecedes, ?_⟩
  intro final i' k j l x s hfinal hat₁ hat₂ _ hpre
  obtain rfl : i' = i := Option.some.inj (hat₁.1.symm.trans hid)
  obtain ⟨rfl, rfl⟩ := hat.unique hat₂
  obtain ⟨whole, hwhole, hterm, hposition⟩ :=
    exists_block_withTerminator hat₁ (hended.kept final hfinal)
  refine ⟨s, ?_, .refl x m _ _ s, hpre⟩
  rw [hposition, position_zero htarget]
  rcases hgoes x s hpre with rfl | ⟨cond, onTrue, onFalse, c, rfl, hcond, rfl⟩
  · exact (Function.Step.br hwhole hterm).runs
  · exact (Function.Step.condBr hwhole hterm hcond).runs

end Code

end Builder

end MicroC.Ir
