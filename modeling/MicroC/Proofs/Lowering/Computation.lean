import MicroC.Proofs.Lowering.Operands
import MicroC.Proofs.Meaning.Evaluation
import MicroC.Proofs.Meaning.Simulation

/-!
Code for computations. A step of the lowering computes what a computation does if a run through
the code that it emits has the same effect, and if the operands that it gives stand for the
results. Steps and computations are put together alike.
-/

namespace MicroC

open LowerM

namespace Ir.Builder

variable {b b' b'' : Builder}

/-- Code can be emitted. -/
structure Active (b : Builder) : Prop where
  tidy : b.Tidy
  isOpen : b.current.isSome

/-- The state after code that can be gone through to its end. -/
structure Extends (b b' : Builder) : Prop where
  active : b'.Active
  grows : b.Grows b'
  bindings : b'.bindings = b.bindings

theorem Active.refl (h : b.Active) : b.Extends b := ⟨h, .refl b, rfl⟩

theorem Extends.trans (h : b.Extends b') (h' : b'.Extends b'') : b.Extends b'' :=
  ⟨h'.active, h.grows.trans h'.grows, h'.bindings.trans h.bindings⟩

/-- The state after code that a run leaves elsewhere. -/
structure Stops (b b' : Builder) : Prop where
  tidy : b'.Tidy
  closed : b'.current = none
  grows : b.Grows b'
  bindings : b'.bindings = b.bindings

theorem Extends.stops (h : b.Extends b') (h' : b'.Stops b'') : b.Stops b'' :=
  ⟨h'.tidy, h'.closed, h.grows.trans h'.grows, h'.bindings.trans h.bindings⟩

theorem Stops.extends (h : b.Stops b') (h' : b'.Extends b'') : b.Extends b'' :=
  ⟨h'.active, h.grows.trans h'.grows, h'.bindings.trans h.bindings⟩

theorem Active.length_ne (h : b.Active) : b.blocks.length ≠ 0 := by
  obtain ⟨i, hi⟩ := Option.isSome_iff_exists.mp h.isOpen
  exact Nat.ne_of_gt (Nat.zero_lt_of_lt (h.tidy.selected i hi).lt)

theorem Active.withInst (h : b.Active) {id : BlockId} (hid : b.current = some id)
    {operation : Operation} (hop : ∀ slot, operation ≠ .alloca slot) (type : Ty) :
    b.Extends (b.withInst id operation type none) :=
  ⟨⟨h.tidy.withInst hid hop, h.isOpen⟩, (h.tidy.selected id hid).grows_withInst, rfl⟩

end Ir.Builder

section

variable (final : Ir.Builder) (y : Ir.Activation)

/-- An operand stands for a datum that the program can have. -/
def Ir.Value.Holds (v : Ir.Value) (d : Datum) (s : Ir.State) : Prop :=
  v.eval y s.results = d ∧ Ir.ShowsDatum final y d

/-- The code that `m` emits has the effect of `E` where `Pre` holds; afterwards what `m` gives
represents the result. Conditions on what was there before are kept. -/
def LowerM.Computes {α β : Type} (m : LowerM α) (b : Ir.Builder) (Pre : Ir.State → Prop)
    (Fits : α → Ir.Builder → Prop) (Rep : α → β → Ir.State → Prop) (E : Action β) : Prop :=
  m.Ensures b fun v b' => Fits v b' ∧ b.Extends b' ∧
    (b'.Grows final → ∀ R, Ir.Stable b.nextInst R →
      Ir.Translates final y b.place (fun s => R s ∧ Pre s) E (fun _ => b'.place)
        fun r s => R s ∧ Rep v r s)

end

section

variable {final : Ir.Builder} {y : Ir.Activation} {b : Ir.Builder} {Pre : Ir.State → Prop}
  {α β γ δ : Type} {Fits : α → Ir.Builder → Prop} {Rep : α → β → Ir.State → Prop} {E : Action β}

namespace LowerM.Computes

theorem pure {v : α} {r : β} (hb : b.Active) (hfits : Fits v b)
    (hrep : ∀ M s, Ir.Simulates final y M s → Pre s → Rep v r s) :
    Computes final y (Pure.pure v) b Pre Fits Rep (Pure.pure r) := by
  refine ⟨hfits, hb.refl, ?_⟩
  intro _ R _
  exact .pure rfl fun M s hs h => ⟨h.1, hrep M s hs h.2⟩

theorem bind [Nonempty β] {m : LowerM α} {f : α → LowerM γ} {G : β → Action δ}
    {Fits' : γ → Ir.Builder → Prop} {Rep' : γ → δ → Ir.State → Prop}
    (hm : Computes final y m b Pre Fits Rep E)
    (hf : ∀ v b₁, Fits v b₁ → b.Extends b₁ →
      ∀ r, Computes final y (f v) b₁ (Rep v r) Fits' Rep' (G r)) :
    Computes final y (m >>= f) b Pre Fits' Rep' (E >>= G) := by
  refine Ensures.bind hm ?_
  rintro v b₁ ⟨hv, hext, htranslates⟩
  refine Run.mono (Run.forall_intro (hf v b₁ hv hext)) ?_
  intro w b₂ hw
  obtain ⟨hfits, hext', _⟩ := hw Classical.ofNonempty
  refine ⟨hfits, hext.trans hext', ?_⟩
  intro hgrows R hR
  refine (htranslates (hext'.grows.trans hgrows) R hR).bind ?_
  intro r
  exact (hw r).2.2 hgrows R (hR.mono hext.grows.nextInst)

/-- What was known before is still known. -/
theorem frame {m : LowerM α} {K : Ir.State → Prop} (hK : Ir.Stable b.nextInst K)
    (hm : Computes final y m b Pre Fits Rep E) :
    Computes final y m b (fun s => K s ∧ Pre s) Fits (fun v r s => K s ∧ Rep v r s) E := by
  refine Run.mono hm ?_
  rintro v b₁ ⟨hv, hext, htranslates⟩
  refine ⟨hv, hext, ?_⟩
  intro hgrows R hR
  refine (htranslates hgrows _ (hR.and hK)).mono ?_ ?_
  · rintro s ⟨hRs, hKs, hpre⟩
    exact ⟨⟨hRs, hKs⟩, hpre⟩
  · rintro r s ⟨⟨hRs, hKs⟩, hrep⟩
    exact ⟨hRs, hKs, hrep⟩

theorem mono {m : LowerM α} {Pre' : Ir.State → Prop} {Fits' : α → Ir.Builder → Prop}
    {Rep' : α → β → Ir.State → Prop} (hm : Computes final y m b Pre Fits Rep E)
    (hpre : ∀ s, Pre' s → Pre s) (hfits : ∀ v b', Fits v b' → Fits' v b')
    (hrep : ∀ v r s, Rep v r s → Rep' v r s) : Computes final y m b Pre' Fits' Rep' E := by
  refine Run.mono hm ?_
  rintro v b₁ ⟨hv, hext, htranslates⟩
  refine ⟨hfits v b₁ hv, hext, ?_⟩
  intro hgrows R hR
  exact (htranslates hgrows R hR).mono (fun s hs => ⟨hs.1, hpre s hs.2⟩)
    fun r s hs => ⟨hs.1, hrep v r s hs.2⟩

/-- After code that needs nothing, what was known before is still known. -/
theorem knowing {m : LowerM α} {K : Ir.State → Prop} (hK : Ir.Stable b.nextInst K)
    (hm : Computes final y m b (fun _ => True) Fits Rep E) :
    Computes final y m b K Fits (fun v r s => K s ∧ Rep v r s) E :=
  (hm.frame hK).mono (fun _ hs => ⟨hs, trivial⟩) (fun _ _ hv => hv) fun _ _ _ hs => hs

/-- The result in another form. -/
theorem map {m : LowerM α} {f : β → γ} {Rep' : α → γ → Ir.State → Prop}
    (hm : Computes final y m b Pre Fits (fun v r => Rep' v (f r)) E) :
    Computes final y m b Pre Fits Rep' (do return f (← E)) := by
  refine Run.mono hm ?_
  rintro v b₁ ⟨hv, hext, htranslates⟩
  refine ⟨hv, hext, ?_⟩
  intro hgrows R hR
  exact (htranslates hgrows R hR).bind fun r => .pure rfl fun _ _ _ hs => hs

/-- A step that only reads the tables. -/
theorem lift {x : Except LowerError γ} {f : γ → LowerM α}
    (hf : ∀ v, x = .ok v → Computes final y (f v) b Pre Fits Rep E) :
    Computes final y (liftM x >>= f) b Pre Fits Rep E :=
  Ensures.liftBind hf

end LowerM.Computes

/-- An operand of a machine type that is available from now on. -/
structure Ir.Value.IsReady (type : Ir.Ty) (v : Ir.Value) (b : Ir.Builder) : Prop where
  isBefore : v.IsBefore b.nextInst
  type_eq : v.type = type

theorem Ir.Value.IsBefore.holds {k : Nat} {v : Ir.Value} (h : v.IsBefore k) (d : Datum) :
    Ir.Stable k (v.Holds final y d) :=
  (h.stable d).and fun _ _ _ hshown => hshown

/-- An instruction. -/
theorem LowerM.emit_computes {operation : Ir.Operation} {type : Ir.Ty} {f : β → Datum}
    (hb : b.Active) (hop : ∀ slot, operation ≠ .alloca slot)
    (hrun : ∀ M s, Ir.Simulates final y M s → Pre s → Ir.MatchesAt final y M s.memory f E
      ((Ir.Instruction.mk b.nextInst operation type none).run y s.results))
    (hshown : ∀ M M' s r, Pre s → E M r M' → Ir.ShowsDatum final y (f r)) :
    Computes final y (emit operation type) b Pre (Ir.Value.IsReady type)
      (fun v r => v.Holds final y (f r)) E := by
  refine emit_ensures fun id hid => ?_
  have hbefore : (Ir.Value.inst b.nextInst type).IsBefore (b.nextInst + 1) := by
    intro i t hi
    cases hi
    exact Nat.lt_succ_self _
  refine ⟨⟨hbefore, rfl⟩, hb.withInst hid hop type, ?_⟩
  intro hgrows R hR
  refine .emit hb.tidy hid hgrows (fun M s hs hpre => hrun M s hs hpre.2) ?_
  intro M M' s r N _ hpre hE _
  exact ⟨hR.after hpre.1, by simp [Ir.Value.eval], hshown M M' s r hpre.2 hE⟩

theorem LowerM.load_computes {pointer : Ir.Value} {type : Ir.Ty} {place : Datum} (hb : b.Active)
    (hpointer : ∀ M s, Ir.Simulates final y M s → Pre s → pointer.Holds final y place s) :
    Computes final y (load pointer type) b Pre (Ir.Value.IsReady type)
      (fun v r => v.Holds final y r) (Action.load place) := by
  refine emit_computes (f := id) hb nofun ?_ ?_
  · intro M s hs hpre
    obtain ⟨heval, hshown⟩ := hpointer M s hs hpre
    rw [Ir.Instruction.run_load, heval]
    exact .load hshown hs.mirrors
  · intro M M' s r hpre hload
    cases place with
    | address o k =>
      obtain ⟨_, n, _, rfl⟩ := hload
      trivial
    | int _ | function _ | none => exact hload.elim

theorem LowerM.store_computes {value pointer : Ir.Value} {place d : Datum} (hb : b.Active)
    (hpointer : ∀ M s, Ir.Simulates final y M s → Pre s → pointer.Holds final y place s)
    (hvalue : ∀ s, Pre s → value.eval y s.results = d) :
    Computes final y (store value pointer) b Pre (fun _ _ => True) (fun _ _ _ => True)
      (Action.store place d) := by
  have hemit : Computes final y (emit (.store value pointer) .void) b Pre (Ir.Value.IsReady .void)
      (fun v _ => v.Holds final y .none) (Action.store place d) := by
    refine emit_computes (f := fun _ => .none) hb nofun ?_ fun _ _ _ _ _ _ => trivial
    intro M s hs hpre
    obtain ⟨heval, hshown⟩ := hpointer M s hs hpre
    rw [Ir.Instruction.run_store, heval, hvalue s hpre]
    exact .store hshown hs.mirrors
  refine Run.discard_iff.mpr (Run.mono hemit ?_)
  rintro v b₁ ⟨_, hext, htranslates⟩
  refine ⟨trivial, hext, ?_⟩
  intro hgrows R hR
  exact (htranslates hgrows R hR).mono (fun s hs => hs) fun _ _ hs => ⟨hs.1, trivial⟩

/-! Blocks and the ways between them. -/

theorem LowerM.newBlock_step (label : String) (hb : b.Active) :
    (newBlock label).Ensures b fun j b' => j ≠ 0 ∧ b.Extends b' ∧ b'.place = b.place :=
  Run.modifyGet_iff.mpr ⟨hb.length_ne, ⟨⟨hb.tidy.withBlock label, hb.isOpen⟩,
    b.grows_withBlock label, rfl⟩, hb.tidy.place_withBlock label⟩

/-- A block that is selected begins there. -/
theorem LowerM.selectBlock_step (j : Ir.BlockId) (hb : b.Tidy) (hclosed : b.current = none) :
    (selectBlock j).Ensures b fun _ b' => b.Extends b' ∧ b'.place = .before j 0 :=
  selectBlock_ensures fun hj => ⟨⟨⟨hb.withCurrent hclosed hj, rfl⟩, b.grows_withCurrent _, rfl⟩,
    hb.place_withCurrent hclosed hj⟩

theorem LowerM.terminate_step (terminator : Ir.Terminator) (hb : b.Tidy) :
    (terminate terminator).Ensures b fun _ b' => b.Stops b' ∧ ∃ id, b.current = some id ∧
      b.Unfinished id ∧ b' = b.withTerminator id terminator :=
  terminate_ensures fun id hid hopen => ⟨⟨hb.withTerminator hid, rfl, hopen.grows_withTerminator, rfl⟩,
    id, hid, hopen, rfl⟩

variable (final y)

/-- A jump. -/
theorem LowerM.br_step (target : Ir.BlockId) (hb : b.Tidy) :
    (terminate (.br target)).Ensures b fun _ b' => b.Stops b' ∧
      (target ≠ 0 → b'.Grows final → b.place.LeadsTo final y (.before target 0)) := by
  refine Run.mono (terminate_step (.br target) hb) ?_
  rintro _ b' ⟨hstops, id, hid, hopen, rfl⟩
  exact ⟨hstops, fun htarget hgrows => Ir.Builder.leadsTo_br hid hopen hgrows htarget⟩

/-- A jump that depends on a number. -/
theorem LowerM.condBr_step (cond : Ir.Value) (onTrue onFalse : Ir.BlockId) (hb : b.Tidy) :
    (terminate (.condBr cond onTrue onFalse)).Ensures b fun _ b' => b.Stops b' ∧
      (onTrue ≠ 0 → onFalse ≠ 0 → b'.Grows final → ∀ (Pre : Ir.State → Prop) (d : Datum),
        (∀ s, Pre s → cond.eval y s.results = d) →
        Ir.Translates final y b.place Pre d.toInt
          (fun n => .before (if n = 0 then onFalse else onTrue) 0) fun n s => Pre s ∧ d = .int n) := by
  refine Run.mono (terminate_step _ hb) ?_
  rintro _ b' ⟨hstops, id, hid, hopen, rfl⟩
  exact ⟨hstops, fun htrue hfalse hgrows Pre d hcond =>
    .condBr hid hopen hgrows htrue hfalse hcond⟩

end

end MicroC
