import MicroC.Proofs.Ir.Continuation
import MicroC.Proofs.Lowering.Construction

/-!
Where the code of an expression goes. Whatever is known about names, the code goes on from the
selected block and leaves a block selected; blocks made before and not selected are left alone.
-/

namespace MicroC

open LowerM

/-! The states that the code of `&&` goes through. -/

namespace Ir.Builder

variable {b b' : Builder} {c d last : BlockId} {left right slot : Value}

/-- The state after the truth of a value is stored. -/
def withTest (b : Builder) (c : BlockId) (value slot : Value) : Builder :=
  (b.withInst c (.cmp .ne value (.int value.type 0)) value.type none).withInst c
    (.store (.inst b.nextInst value.type) slot) .void none

/-- The state after the left operand is tested, with two new blocks. -/
def withLeft (b : Builder) (c : BlockId) (left : Value) : Builder :=
  (((b.withSlot left.type none).withTest c left (.inst b.nextInst (.ptr left.type))).withBlock
    "and.rhs").withBlock "and.end"

/-- The state after the branch on the left operand. -/
def withFork (b : Builder) (c : BlockId) (left : Value) : Builder :=
  (b.withLeft c left).withTerminator c (.condBr (.inst (b.nextInst + 1) left.type) b.blocks.length
    (b.blocks.length + 1))

/-- The state at the beginning of the right operand. -/
def atRight (b : Builder) (c : BlockId) (left : Value) : Builder :=
  (b.withFork c left).withCurrent (some b.blocks.length)

/-- The state in the block where both ways meet. -/
def atEnd (b : Builder) (d : BlockId) (right slot : Value) (last : BlockId) : Builder :=
  ((b.withTest d right slot).withTerminator d (.br last)).withCurrent (some last)

theorem Continues.withTest (h : b.Continues b') (hid : b'.current = some c) :
    b.Continues (b'.withTest c left slot) :=
  (h.withInst hid).withInst hid

theorem Selected.withTest (h : b.Selected) (hid : b.current = some c) :
    (b.withTest c left slot).Selected := by
  obtain ⟨k, hat⟩ := h.exists_at hid
  exact ⟨_, _, hat.withInst.withInst⟩

theorem continues_withLeft (hid : b.current = some c) : b.Continues (b.withLeft c left) :=
  (((Continues.refl b).withSlot.withTest hid).withBlock _).withBlock _

theorem withLeft_selected (h : b.Selected) (hid : b.current = some c) :
    (b.withLeft c left).Selected := by
  obtain ⟨k, hat⟩ := h.exists_at hid
  exact ⟨c, _, ((At.withInst (At.withInst (hat.withSlot))).withBlock _).withBlock _⟩

@[simp] theorem withTest_length : (b.withTest c left slot).blocks.length = b.blocks.length := by
  simp [Builder.withTest]

theorem withLeft_fresh (b : Builder) (c : BlockId) (left : Value) :
    (b.withLeft c left).Fresh b.blocks.length ∧
      (b.withLeft c left).Fresh (b.blocks.length + 1) := by
  let tested := (b.withSlot left.type none).withTest c left (.inst b.nextInst (.ptr left.type))
  have hlength : tested.blocks.length = b.blocks.length := by simp [tested]
  have hrhs := tested.withBlock_fresh "and.rhs"
  have hlast := (tested.withBlock "and.rhs").withBlock_fresh "and.end"
  rw [withBlock_length, hlength] at hlast
  rw [hlength] at hrhs
  exact ⟨hrhs.withBlock "and.end", hlast⟩

/-- The two blocks are empty when the left operand has been tested. -/
theorem Selected.withFork_fresh (h : b.Selected) (hid : b.current = some c) (left : Value) :
    (b.withFork c left).Fresh b.blocks.length ∧
      (b.withFork c left).Fresh (b.blocks.length + 1) := by
  obtain ⟨k, hat⟩ := h.exists_at hid
  have hlt := hat.lt
  obtain ⟨hrhs, hlast⟩ := b.withLeft_fresh c left
  exact ⟨hrhs.withTerminator (by omega) _, hlast.withTerminator (by omega) _⟩

/-- The code of the right operand goes to a block of its own. -/
theorem Selected.atRight (h : b.Selected) (hid : b.current = some c)
    (hopen : (b.withLeft c left).Unfinished c) :
    b.Continues (b.atRight c left) ∧ (b.atRight c left).At b.blocks.length 0 ∧
      (b.atRight c left).Fresh (b.blocks.length + 1) := by
  obtain ⟨hrhs, hlast⟩ := h.withFork_fresh hid left
  refine ⟨?_, hrhs.at_zero, hlast⟩
  exact ((continues_withLeft hid).withTerminator hid hopen).withCurrent hrhs.unfinished
    (Nat.le_refl _)

/-- The block where both ways meet is still empty. -/
theorem Fresh.atEnd (hfresh : b.Fresh last) (hne : b.current ≠ some last) (h : b.Continues b')
    (hid : b'.current = some d) (right slot : Value) :
    ((b'.withTest d right slot).withTerminator d (.br last)).Fresh last := by
  obtain ⟨hfresh', hne'⟩ := hfresh.continues hne (h.withTest hid)
  refine hfresh'.withTerminator ?_ _
  intro heq
  exact hne' (heq ▸ hid)

theorem withTest_unfinished : (b.withTest c left slot).Unfinished d ↔ b.Unfinished d := by
  simp [Builder.withTest]

theorem Continues.atEnd (h : b.Continues b') (hid : b'.current = some d) (hopen : b'.Unfinished d)
    (hend : ((b'.withTest d right slot).withTerminator d (.br last)).Fresh last)
    (hnew : b.blocks.length ≤ last) : b.Continues (b'.atEnd d right slot last) :=
  ((h.withTest hid).withTerminator hid (withTest_unfinished.mpr hopen)).withCurrent hend.unfinished
    hnew

end Ir.Builder

/-- What the code of `&&` consists of. -/
theorem Expr.emitAnd_ensures {lhs rhs : LowerM Ir.Value} {b : Ir.Builder}
    {Q : Ir.Value → Ir.Builder → Prop}
    (h : lhs.Ensures b fun left b₁ => ∀ c, b₁.current = some c →
      (b₁.withLeft c left).Unfinished c → rhs.Ensures (b₁.atRight c left) fun right b₂ => ∀ d,
        b₂.current = some d → b₂.Unfinished d → Q (.inst (b₂.nextInst + 2) left.type)
          ((b₂.atEnd d right (.inst b₁.nextInst (.ptr left.type)) (b₁.blocks.length + 1)).withInst
            (b₁.blocks.length + 1) (.load (.inst b₁.nextInst (.ptr left.type))) left.type none)) :
    (Expr.emitAnd lhs rhs).Ensures b Q := by
  refine h.bind fun left b₁ h₁ => ?_
  refine Run.bind_iff.mpr (allocate_none_ensures ?_)
  refine Run.bind_iff.mpr (emit_ensures fun c hc => ?_)
  refine Run.bind_iff.mpr (Run.discard_iff.mpr (emit_ensures fun c' hc' => ?_))
  obtain rfl : c = c' := Option.some.inj (hc.symm.trans hc')
  refine Run.bind_iff.mpr (newBlock_ensures ?_)
  refine Run.bind_iff.mpr (newBlock_ensures ?_)
  simp only [Ir.Builder.withBlock_length, Ir.Builder.withInst_length, Ir.Builder.withSlot_blocks]
  refine Run.bind_iff.mpr (terminate_ensures fun c' hc' hopen => ?_)
  obtain rfl : c = c' := Option.some.inj (hc.symm.trans hc')
  refine Run.bind_iff.mpr (selectBlock_ensures fun _ => ?_)
  refine (h₁ c hc hopen).bind fun right b₂ h₂ => ?_
  refine Run.bind_iff.mpr (emit_ensures fun d hd => ?_)
  refine Run.bind_iff.mpr (Run.discard_iff.mpr (emit_ensures fun d' hd' => ?_))
  obtain rfl : d = d' := Option.some.inj (hd.symm.trans hd')
  refine Run.bind_iff.mpr (terminate_ensures fun d' hd' hopen' => ?_)
  obtain rfl : d = d' := Option.some.inj (hd.symm.trans hd')
  refine Run.bind_iff.mpr (selectBlock_ensures fun _ => ?_)
  refine emit_ensures fun last hlast => ?_
  obtain rfl := Option.some.inj hlast
  exact h₂ d hd (by simpa using hopen')

/-! Expressions. -/

/-- If the run succeeds from a selected block, it goes on from there and leaves a block
selected. -/
def LowerM.Proceeds {α : Type} (m : LowerM α) : Prop :=
  ∀ b, b.Selected → m.Ensures b fun _ b' => b.Continues b' ∧ b'.Selected

/-- A step goes on from an earlier state, and the cursor stays at a block of the function. -/
theorem Ir.Sketch.Step.proceeds {R : Ir.Sketch.Rules} {b : Ir.Builder} {s s' : Ir.Sketch}
    (hstep : Ir.Sketch.Step R s s') (hfirst : b.blocks.length ≤ R.first)
    (h : b.Continues s.builder ∧ ∀ i, s.builder.current = some i → i < s.builder.blocks.length) :
    b.Continues s'.builder ∧
      ∀ i, s'.builder.current = some i → i < s'.builder.blocks.length := by
  obtain ⟨h, hcursor⟩ := h
  cases hstep with
  | inst hi _ _ _ => exact ⟨h.withInst hi, by simpa using hcursor⟩
  | slot => exact ⟨h.withSlot, hcursor⟩
  | declare _ => exact ⟨h.withLocal _ _, hcursor⟩
  | pass _ _ => exact ⟨h.bind _ _, hcursor⟩
  | select hopen hnew =>
    refine ⟨h.withCurrent hopen (Nat.le_trans hfirst hnew), ?_⟩
    rintro _ ⟨⟩
    exact hopen.lt
  | fork hi hopen _ _ _ _ _ _ =>
    exact ⟨((h.withBlock _).withBlock _).withTerminator hi hopen, nofun⟩
  | enter hi hopen _ _ => exact ⟨(h.withBlock _).withTerminator hi hopen, nofun⟩
  | jump hi hopen _ _ _ => exact ⟨h.withTerminator hi hopen, nofun⟩
  | ret hi hopen _ _ => exact ⟨h.withTerminator hi hopen, nofun⟩

theorem Expr.lower_proceeds {a : Analysis} (e : Expr) : (e.lower a).Proceeds := by
  rintro b ⟨i, k, hat⟩
  have hopen : b.current.isSome := Option.isSome_of_eq_some hat.1
  have hs : (a.free e.events b.blocks.length).Ready [] (.blank b) :=
    Analysis.setting_ready hopen (Nat.le_refl _)
  have hstart : b.Continues b ∧ ∀ j, b.current = some j → j < b.blocks.length := by
    refine ⟨.refl b, fun j hj => ?_⟩
    exact Option.some.inj (hat.1.symm.trans hj) ▸ hat.lt
  refine Run.mono (e.lower_follows _ ⟨False.elim, False.elim, List.Subset.refl _⟩ hs).draws ?_
  rintro v _ ⟨s', rfl, hgives, _⟩
  obtain ⟨hcontinues, hcursor⟩ := hgives.steps.keeps (I := fun s => b.Continues s.builder ∧
      ∀ j, s.builder.current = some j → j < s.builder.blocks.length)
    (fun _ _ hstep h => hstep.proceeds (Nat.le_refl _) h) hstart
  obtain ⟨j, hj⟩ := Option.isSome_iff_exists.mp hgives.isOpen
  exact ⟨hcontinues, j, _, hj, _, List.getElem?_eq_getElem (hcursor j hj), rfl⟩

end MicroC
