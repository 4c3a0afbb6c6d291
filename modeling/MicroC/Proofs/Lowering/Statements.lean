import MicroC.Proofs.Lowering.Control

/-!
The code of statements. By induction over a statement, the code that is emitted for it does what
the statement does, from the place where the cursor was to the place where it is then.
-/

namespace MicroC

open LowerM

section

variable {p : Program} {x : Activation} {final b : Ir.Builder} {y : Ir.Activation} {f : Decl}
  {visible : List Decl}

/-- The code of the first value of a variable, after its slot has been made. -/
theorem Decl.initialize_computes (hx : x.Realized p final y) {d : Decl} {m : LowerM Ir.Value}
    {V : Action Datum} {slot : Ir.Value} {Fits : Ir.Value → Ir.Builder → Prop} (hb : b.Active)
    (hm : ∀ b₁, b.Extends b₁ → Computes final y m b₁ (fun _ => True) Fits
      (fun v r s => v.eval y s.results = r) V)
    (hslot : b.binding? d.id = some slot) :
    Computes final y (do
        let value ← m
        store value slot) b (fun _ => True) (fun _ _ => True) (fun _ _ _ => True) (do
        let value ← V
        Action.store (x.address d) value) := by
  have hbefore : slot.IsBefore b.nextInst := by
    rintro id type rfl
    exact hb.tidy.housed.bound d.id id type hslot
  have haddress : Computes final y (pure slot) b (fun _ => True)
      (fun v b' => v.IsBefore b'.nextInst) (fun v r => v.Holds final y r) (pure (x.address d)) := by
    refine ⟨hbefore, hb.refl, ?_⟩
    intro hgrows R hR
    exact .pure rfl fun M s hs hpre =>
      ⟨hpre.1, (hx.bound d slot (hgrows.bindings d.id slot hslot) M s hs).1⟩
  rw [← pure_bind slot fun slot => m >>= fun value => store value slot,
    ← pure_bind (x.address d) fun place => V >>= fun value => Action.store place value]
  refine haddress.bind fun v b₁ hv h₁ place => ?_
  refine ((hm b₁ h₁).knowing (hv.holds place)).bind fun value b₂ _ h₂ d' => ?_
  exact store_computes h₂.active (fun _ _ _ hs => hs.1) fun _ hs => hs.2

/-- The declaration of a local variable makes its slot and stores the initial value. -/
theorem Decl.lowerLocal_executes (hx : x.Realized p final y) (ha : x.analysis.Checked p) {d : Decl}
    (hd : d.IsVariable x.analysis)
    (hscoped : ∀ init ∈ d.init?, init.Scoped x.analysis.resolution (d :: visible)) (hb : b.Active)
    (hbinds : b.Binds visible) (hawaits : b.Awaits x.analysis f d.events) :
    (d.lowerLocal x.analysis).Ensures b fun _ b' => b'.Binds (d :: visible) ∧
      Ir.Executed final y x.analysis f d.events b (do d.exec x; return .next) b' := by
  have hslot : ∀ type, d.isVar → x.analysis.types.decl? d = some type → type.isComplete → ∀ name,
      b.Advances x.analysis f d.events (b.withLocal d.id name type.machine) ∧
        (b.withLocal d.id name type.machine).Active ∧
        (b.withLocal d.id name type.machine).Binds (d :: visible) :=
    fun type hvar htype hcomplete name => hb.withLocal name hvar (hawaits.inside d.enter_mem_events)
      hbinds htype hcomplete (hawaits.not_passed d.id d.key_mem_entered)
      (hawaits.unbound d.id d.key_mem_entered)
  cases hd with
  | plain htype hcomplete =>
    refine Ensures.liftBind fun type' htype' => ?_
    obtain rfl := Except.ok.inj ((Analysis.Consistent.typeOf_eq htype).symm.trans htype')
    refine Ensures.bind (allocate_some_ensures (Q := fun _ b' => b' = _) rfl) ?_
    rintro _ _ rfl
    obtain ⟨hadvances, hactive, hbinds₁⟩ := hslot _ rfl htype hcomplete _
    refine ⟨hbinds₁, hadvances, ?_⟩
    intro _ R hR
    simp only [Decl.exec, pure_bind]
    exact .pure rfl fun _ _ _ hs _ => hs
  | @initialized id name span written init type htype hs hinit =>
    refine Ensures.liftBind fun type' htype' => ?_
    obtain rfl := Except.ok.inj ((Analysis.Consistent.typeOf_eq htype).symm.trans htype')
    refine Run.bind_iff.mpr (allocate_some_ensures ?_)
    obtain ⟨hadvances, hactive, hbinds₁⟩ := hslot _ rfl htype (Ty.isComplete_of_isScalar hs) name
    have hbinding : (b.withLocal id name type.machine).binding? id =
        some (.inst b.nextInst (.ptr type.machine)) := by
      rw [Ir.Builder.withLocal_binding?, if_pos rfl]
    refine Run.mono (Decl.initialize_computes (d := .var id name span written (some init)) hx hactive
      (fun b₁ h₁ => (Expr.lower_computes hx ha hinit (hscoped init rfl) h₁.active
        (h₁.binds hbinds₁)).mono (fun _ h => h) (fun _ _ h => h) fun _ _ _ h => h.1) hbinding) ?_
    rintro _ b' ⟨_, hext, htranslates⟩
    refine ⟨hext.binds hbinds₁, hadvances.trans hext.advances, ?_⟩
    intro hgrows R hR
    refine ((htranslates hgrows R (hR.mono (Nat.le_succ _))).mono (fun s hs => ⟨hs.2, trivial⟩)
      fun _ _ h => h).bind fun _ => ?_
    exact .pure rfl fun _ _ _ hs _ => ⟨hext.active.isOpen, hs.1⟩

mutual

theorem Stmt.lower_executes (hx : x.Realized p final y) (ha : x.analysis.Checked p) {result : Ty} :
    {s : Stmt} → s.WellTyped x.analysis result → ∀ {b : Ir.Builder} {visible : List Decl},
    s.Scoped x.analysis.resolution visible → b.Active → b.Binds visible →
    b.Awaits x.analysis f s.events →
    Executes final y x.analysis f s.events (s.lower x.analysis) b (s.exec x)
  | .block .., .block hitems, b, _, hscoped, hb, hbinds, hawaits => by
    rw [Stmt.lower, Stmt.exec]
    exact (Item.lowerAll_executes hx ha hitems hscoped hb.tidy hbinds hawaits.around).mono
      (by simp [Stmt.events])
  | .empty .., _, b, _, _, hb, _, _ => by
    rw [Stmt.lower, Stmt.exec]
    exact .nothing hb.tidy
  | .expr .., .expr hvalue, b, _, hscoped, hb, hbinds, _ => by
    rw [Stmt.lower, Stmt.exec]
    exact .of_computes (Expr.lower_computes hx ha hvalue hscoped hb hbinds)
  | .branch _ _ _ onTrue none, .branch hcond _ honTrue, b, _, ⟨hscoped, hscoped'⟩, hb, hbinds,
      hawaits => by
    have htrue : ∀ b₁, b.Extends b₁ →
        Executes final y x.analysis f onTrue.events (onTrue.lower x.analysis) b₁ (onTrue.exec x) :=
      fun b₁ h₁ => Stmt.lower_executes hx ha honTrue hscoped' h₁.active (h₁.binds hbinds)
        (hawaits.around.after h₁.advances)
    rw [Stmt.lower, Stmt.exec]
    exact (branch_executes (Expr.lower_computes hx ha hcond hscoped hb hbinds) htrue).mono
      (by simp [Stmt.events])
  | .branch _ _ _ onTrue (some onFalse), .branchElse hcond _ honTrue honFalse, b, _,
      ⟨hscoped, hscoped₁, hscoped₂⟩, hb, hbinds, hawaits => by
    have htrue : ∀ b₁, b.Extends b₁ →
        Executes final y x.analysis f onTrue.events (onTrue.lower x.analysis) b₁ (onTrue.exec x) :=
      fun b₁ h₁ => Stmt.lower_executes hx ha honTrue hscoped₁ h₁.active (h₁.binds hbinds)
        (hawaits.around.left.after h₁.advances)
    have hfalse : ∀ b₁, b.Advances x.analysis f onTrue.events b₁ → b₁.Active →
        Executes final y x.analysis f onFalse.events (onFalse.lower x.analysis) b₁
          (onFalse.exec x) :=
      fun b₁ h₁ hb₁ => Stmt.lower_executes hx ha honFalse hscoped₂ hb₁ (h₁.grows.binds hbinds)
        (hawaits.around.after (h₁.mono (by simp)))
    rw [Stmt.lower, Stmt.exec]
    exact (branchElse_executes (Expr.lower_computes hx ha hcond hscoped hb hbinds) htrue hfalse).mono
      (by simp [Stmt.events])
  | .ret _ _ none, _, b, _, _, hb, _, _ => by
    rw [Stmt.lower, Stmt.exec]
    exact ret_executes hb
  | .ret _ _ (some _), .retValue hvalue _ _, b, _, hscoped, hb, hbinds, _ => by
    rw [Stmt.lower, Stmt.exec]
    exact retValue_executes (Expr.lower_computes hx ha hvalue hscoped hb hbinds)
  | .loop _ _ cond body, .loop hcond _ hbody, b, _, ⟨hscoped, hscoped'⟩, hb, hbinds, hawaits => by
    have htest : ∀ b₁, b.Extends b₁ → Computes final y (cond.lower x.analysis) b₁ (fun _ => True)
        (Ir.Value.IsOperandOf _) (fun v r => v.Holds final y r) (cond.eval x) :=
      fun b₁ h₁ => Expr.lower_computes hx ha hcond hscoped h₁.active (h₁.binds hbinds)
    have hround : ∀ b₁, b.Extends b₁ →
        Executes final y x.analysis f body.events (body.lower x.analysis) b₁ (body.exec x) :=
      fun b₁ h₁ => Stmt.lower_executes hx ha hbody hscoped' h₁.active (h₁.binds hbinds)
        (hawaits.around.after h₁.advances)
    rw [Stmt.lower, Stmt.exec]
    exact (loop_executes hb htest hround).mono (by simp [Stmt.events])

theorem Item.lowerAll_executes (hx : x.Realized p final y) (ha : x.analysis.Checked p)
    {result : Ty} : {items : List Item} → Item.AllTyped x.analysis result items →
    ∀ {b : Ir.Builder} {visible : List Decl}, Item.AllScoped x.analysis.resolution visible items →
    b.Tidy → b.Binds visible → b.Awaits x.analysis f (Item.eventsAll items) →
    Executes final y x.analysis f (Item.eventsAll items) (Item.lowerAll x.analysis items) b
      (Item.execAll x items)
  | [], _, b, _, _, hb, _, _ => by
    rw [Item.lowerAll, Item.execAll]
    exact .nothing hb
  | .decl d :: rest, .cons (.decl hd) hrest, b, visible, ⟨hscoped, hscoped'⟩, hb, hbinds, hawaits => by
    have hexec : (do d.exec x; Item.execAll x rest) = (do
        match ← (do d.exec x; return Exit.next) with
        | .next => Item.execAll x rest
        | .ret value => return .ret value) := by
      simp only [bind_assoc, pure_bind]
    rw [Item.lowerAll, Item.execAll, Item.eventsAll, hexec]
    refine .ifOpen hb fun hactive => .seq
      (Decl.lowerLocal_executes hx ha hd hscoped hactive hbinds hawaits.left) ?_
    intro b₁ hbinds₁ h₁
    exact Item.lowerAll_executes hx ha hrest hscoped' h₁.tidy hbinds₁ (hawaits.after h₁)
  | .stmt s :: rest, .cons (.stmt hs) hrest, b, visible, ⟨hscoped, hscoped'⟩, hb, hbinds, hawaits => by
    rw [Item.lowerAll, Item.execAll, Item.eventsAll]
    refine .ifOpen hb fun hactive => .seq (K := fun _ => True) (Run.mono (Stmt.lower_executes hx ha hs
      hscoped hactive hbinds hawaits.left) fun _ b₁ h₁ => ⟨trivial, h₁⟩) ?_
    intro b₁ _ h₁
    exact Item.lowerAll_executes hx ha hrest hscoped' h₁.tidy (h₁.grows.binds hbinds)
      (hawaits.after h₁)

end

end

end MicroC
