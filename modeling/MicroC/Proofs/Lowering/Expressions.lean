import MicroC.Proofs.Lowering.Conjunction

/-!
The code of expressions. By induction over an expression, the code that is emitted for it
computes its value, and the code that is emitted for a place computes its address.
-/

namespace MicroC

open LowerM

section

variable {p : Program} {x : Activation} {final b : Ir.Builder} {y : Ir.Activation}
  {visible : List Decl}

/-- Operands stand for data one by one. -/
def Ir.Value.AllHold (final : Ir.Builder) (y : Ir.Activation) (vs : List Ir.Value)
    (ds : List Datum) (s : Ir.State) : Prop :=
  vs.map (·.eval y s.results) = ds ∧ ∀ d ∈ ds, Ir.ShowsDatum final y d

theorem Ir.Value.AllHold.cons {v : Ir.Value} {d : Datum} {vs : List Ir.Value} {ds : List Datum}
    {s : Ir.State} (hv : v.Holds final y d s) (hvs : Ir.Value.AllHold final y vs ds s) :
    Ir.Value.AllHold final y (v :: vs) (d :: ds) s := by
  obtain ⟨rfl, hd⟩ := hv
  obtain ⟨rfl, hds⟩ := hvs
  exact ⟨rfl, List.forall_mem_cons.mpr ⟨hd, hds⟩⟩

/-- The call of a function with given arguments. -/
theorem LowerM.call_computes (hx : x.Realized p final y) {name : String} {type result : Ir.Ty}
    {vs : List Ir.Value} {ds : List Datum} (hb : b.Active) :
    Computes final y (emit (.call (.function name type) vs) result) b
      (Ir.Value.AllHold final y vs ds) (Ir.Value.IsReady result) (fun v r => v.Holds final y r)
      (Action.call x.calls (x.depth + 1) name ds) := by
  refine emit_computes (f := id) hb nofun ?_ ?_
  · rintro M s hs ⟨rfl, hshown⟩
    rw [Ir.Instruction.run_call, hx.calls, hx.depth]
    exact .call hshown hs.mirrors
  · rintro M M' s r hpre ⟨result, after, _, rfl, _⟩
    cases result <;> trivial

/-- The code of an operator with one operand. -/
theorem UnaryOp.emit_computes {op : UnaryOp} {type : Ty} {machine : Ir.Ty} {v : Ir.Value} {d : Datum}
    (hs : type.isScalar) (hmachine : op = .neg → machine = type.machine) (hb : b.Active) :
    Computes final y (emit (.unary op.instruction v) machine) b (v.Holds final y d)
      (Ir.Value.IsReady machine) (fun v r => v.Holds final y r) (do
        let n ← d.toInt
        return .int (op.eval type.scalar n)) := by
  have heval : (do let n ← d.toInt
                   return Datum.int (op.eval type.scalar n)) = (do
      return Datum.int (← (do return op.eval type.scalar (← d.toInt)))) := by
    simp only [bind_assoc, pure_bind]
  rw [heval]
  refine (emit_number_computes hb (by simp) ((Ir.isInert_toInt d).bind fun _ => Ir.isInert_pure _) ?_).map
  intro s hpre
  simp only [Ir.Instruction.run_unary, hpre.1, UnaryOp.eval_instruction hs op hmachine, bind_assoc,
    pure_bind]

theorem Ir.Builder.Extends.binds {b' : Ir.Builder} (h : b.Extends b') (hbinds : b.Binds visible) :
    b'.Binds visible :=
  hbinds.congr h.bindings

/-- Both sides of an operator come before it. -/
theorem Expr.emitOperator_computes {op : BinaryOp} {span : Span} {type : Ty} {width : Scalar}
    {lhs rhs : LowerM Ir.Value} {L R : Action Datum} (hs : type.isScalar)
    (hwidth : type.scalar = width)
    (hlhs : Computes final y lhs b (fun _ => True) (Ir.Value.IsOperandOf type)
      (fun v r => v.Holds final y r) L)
    (hrhs : ∀ b₁, b.Extends b₁ → Computes final y rhs b₁ (fun _ => True)
      (Ir.Value.IsOperandOf type) (fun v r => v.Holds final y r) R) :
    Computes final y (do
        let left ← lhs
        let right ← rhs
        op.emit span left right) b (fun _ => True) (Ir.Value.IsOperandOf type)
      (fun v r => v.Holds final y r) (do
        let left ← L
        let right ← R
        let m ← left.toInt
        let n ← right.toInt
        return .int (← op.eval width m n)) := by
  subst hwidth
  refine hlhs.bind fun left b₁ hleft h₁ l => ?_
  refine ((hrhs b₁ h₁).knowing (hleft.isBefore.holds l)).bind fun right b₂ hright h₂ r => ?_
  have heval : (do let m ← l.toInt
                   let n ← r.toInt
                   return Datum.int (← op.eval type.scalar m n)) = (do
      return Datum.int (← (do
        let m ← l.toInt
        let n ← r.toInt
        op.eval type.scalar m n))) := by
    simp only [bind_assoc]
  rw [heval]
  refine LowerM.Computes.map ?_
  exact (BinaryOp.emit_computes hs (hleft.type_eq hs) h₂.active (fun s hs => hs.1.1)
    fun s hs => hs.2.1).mono (fun _ h => h) (fun _ _ hv => hv.isOperandOf) fun _ _ _ h => h

/-- The value of an assignment is the one that is stored. -/
theorem Expr.emitAssign_computes {type : Ty} {value place : LowerM Ir.Value} {V P : Action Datum}
    (hvalue : Computes final y value b (fun _ => True) (Ir.Value.IsOperandOf type)
      (fun v r => v.Holds final y r) V)
    (hplace : ∀ b₁, b.Extends b₁ → Computes final y place b₁ (fun _ => True)
      (fun v b' => v.IsBefore b'.nextInst) (fun v r => v.Holds final y r) P) :
    Computes final y (do
        let value ← value
        let pointer ← place
        store value pointer
        return value) b (fun _ => True) (Ir.Value.IsOperandOf type)
      (fun v r => v.Holds final y r) (do
        let value ← V
        let place ← P
        Action.store place value
        return value) := by
  refine hvalue.bind fun v b₁ hv h₁ d => ?_
  refine ((hplace b₁ h₁).knowing (hv.isBefore.holds d)).bind fun pointer b₂ hpointer h₂ place => ?_
  have hbefore : v.IsBefore b₂.nextInst := hv.isBefore.mono h₂.grows.nextInst
  have hstore : Computes final y (store v pointer) b₂
      (fun s => v.Holds final y d s ∧ pointer.Holds final y place s) (fun _ _ => True)
      (fun _ _ _ => True) (Action.store place d) :=
    store_computes h₂.active (fun M s _ hs => hs.2) fun s hs => hs.1.1
  refine ((hstore.frame (hbefore.holds d)).mono (fun s hs => ⟨hs.1, hs⟩) (fun _ _ h => h)
    fun _ _ _ h => h).bind fun _ b₃ _ h₃ _ => ?_
  exact .pure h₃.active ⟨hbefore.mono h₃.grows.nextInst, hv.type_eq⟩ fun _ _ _ hs => hs.1

mutual

theorem Expr.lower_computes (hx : x.Realized p final y) (ha : x.analysis.Checked p) :
    {e : Expr} → {type : Ty} → e.HasType x.analysis type →
    ∀ {b : Ir.Builder}, e.Scoped x.analysis.resolution visible → b.Active → b.Binds visible →
    Computes final y (e.lower x.analysis) b (fun _ => True) (Ir.Value.IsOperandOf type)
      (fun v r => v.Holds final y r) (e.eval x)
  | .literal .., _, .int _, _, _, hb, _ =>
    .pure hb ⟨.of_ne (by simp [Ir.Value.int]), fun _ => rfl⟩ fun _ _ _ _ => ⟨rfl, trivial⟩
  | .literal .., _, .char, _, _, hb, _ =>
    .pure hb ⟨.of_ne (by simp [Ir.Value.int]), fun _ => rfl⟩ fun _ _ _ _ => ⟨rfl, trivial⟩
  | .paren .., _, .paren hinner, b, hscoped, hb, hbinds => by
    rw [Expr.lower, Expr.eval]
    exact Expr.lower_computes hx ha hinner hscoped hb hbinds
  | .name .., _, .name hident, _, hsees, hb, hbinds => by
    rw [Expr.lower, Expr.eval]
    exact Ident.read_computes hx ha hident hsees hb hbinds
  | .index _ _ _ position _, type, .index harray hposition _, b, ⟨hsees, hscoped⟩, hb, hbinds => by
    rw [Expr.lower, Expr.eval]
    refine (Ident.elementAddress_computes hx ha harray hsees hb hbinds fun b₁ h₁ =>
      Expr.lower_computes hx ha hposition hscoped h₁.active (h₁.binds hbinds)).bind ?_
    rintro ⟨pointer, elem⟩ b₁ ⟨_, rfl⟩ h₁ place
    exact (load_computes h₁.active fun _ _ _ hs => hs).mono (fun _ h => h)
      (fun _ _ hv => hv.isOperandOf) fun _ _ _ h => h
  | .call _ callee _ args _, type, .call (d := d) hcallee hargs, b, ⟨hsees, hscoped⟩, hb, hbinds => by
    rw [Expr.lower, Expr.eval, Activation.declOf, hcallee.declOf, Action.ofOption, pure_bind]
    refine .lift fun d' hd' => ?_
    obtain rfl : d = d' := Except.ok.inj ((Analysis.Consistent.declOf_eq hcallee).symm.trans hd')
    refine .lift fun out hout => ?_
    cases d with
    | func id name span signature body =>
      rw [Analysis.Consistent.functionValue_eq hcallee.typeOf] at hout
      cases hout
      refine (Expr.lowerAll_computes hx ha hargs hscoped hb hbinds).bind fun vs b₁ _ h₁ ds => ?_
      exact (call_computes hx h₁.active).mono (fun _ h => h) (fun _ _ hv => hv.isOperandOf)
        fun _ _ _ h => h
    | var _ _ _ _ _ | basic _ _ _ _ | typedef _ _ _ _ =>
      simp [Decl.functionValue, Analysis.Consistent.typeOf_eq hcallee.typeOf, bind, Except.bind]
        at hout
  | .unary _ .neg _ operand, type, .neg hoperand hs, b, hscoped, hb, hbinds => by
    rw [Expr.lower, Expr.eval, ← Expr.scalar_of_hasType hoperand hs]
    refine (Expr.lower_computes hx ha hoperand hscoped hb hbinds).bind fun v b₁ hv h₁ d => ?_
    exact (UnaryOp.emit_computes hs (fun _ => hv.type_eq hs) h₁.active).mono (fun _ h => h)
      (fun _ _ hw => ⟨hw.isBefore, fun _ => hw.type_eq.trans (hv.type_eq hs)⟩) fun _ _ _ h => h
  | .unary _ .not _ operand, _, .not hoperand hs, b, hscoped, hb, hbinds => by
    rw [Expr.lower, Expr.eval, ← Expr.scalar_of_hasType hoperand hs]
    refine (Expr.lower_computes hx ha hoperand hscoped hb hbinds).bind fun v b₁ hv h₁ d => ?_
    exact (UnaryOp.emit_computes hs (by simp) h₁.active).mono (fun _ h => h)
      (fun _ _ hw => ⟨hw.isBefore, fun _ => hw.type_eq⟩) fun _ _ _ h => h
  | .binary _ op _ lhs rhs, type, .binary hlhs hrhs hs _, b, ⟨hscoped, hscoped'⟩, hb, hbinds => by
    have hright : ∀ b₁, b.Extends b₁ → Computes final y (rhs.lower x.analysis) b₁ (fun _ => True)
        (Ir.Value.IsOperandOf type) (fun v r => v.Holds final y r) (rhs.eval x) :=
      fun b₁ h₁ => Expr.lower_computes hx ha hrhs hscoped' h₁.active (h₁.binds hbinds)
    have hleft := Expr.lower_computes hx ha hlhs hscoped hb hbinds
    cases op with
    | assign =>
      exact Expr.emitAssign_computes (hright b hb.refl) fun b₁ h₁ =>
        Expr.lowerPlace_computes hx ha hlhs hscoped h₁.active (h₁.binds hbinds)
    | and => exact Expr.emitAnd_computes final y hs hleft hright
    | add | sub | mul | div | lt | gt | le | ge | eq | ne =>
      exact Expr.emitOperator_computes hs (Expr.scalar_of_hasType hlhs hs) hleft hright

theorem Expr.lowerPlace_computes (hx : x.Realized p final y) (ha : x.analysis.Checked p) :
    {e : Expr} → {type : Ty} → e.HasType x.analysis type →
    ∀ {b : Ir.Builder}, e.Scoped x.analysis.resolution visible → b.Active → b.Binds visible →
    Computes final y (e.lowerPlace x.analysis) b (fun _ => True)
      (fun v b' => v.IsBefore b'.nextInst) (fun v r => v.Holds final y r) (e.place x)
  | .name .., _, .name (d := d) hident, b, hsees, hb, hbinds => by
    rw [Expr.lowerPlace, Expr.place, Activation.declOf, hident.declOf, Action.ofOption, pure_bind]
    refine .lift fun d' hd' => ?_
    obtain rfl : d = d' := Except.ok.inj ((Analysis.Consistent.declOf_eq hident).symm.trans hd')
    exact (Ident.address_computes hx ha hident hsees hb hbinds).mono (fun _ h => h)
      (fun _ _ h => h) fun _ _ _ h => h.1
  | .index .., _, .index harray hposition _, b, ⟨hsees, hscoped⟩, hb, hbinds => by
    rw [Expr.lowerPlace, Expr.place, ← bind_pure (Ident.element _ _ _)]
    refine (Ident.elementAddress_computes hx ha harray hsees hb hbinds fun b₁ h₁ =>
      Expr.lower_computes hx ha hposition hscoped h₁.active (h₁.binds hbinds)).bind ?_
    rintro out b₁ ⟨hout, _⟩ h₁ place
    exact .pure h₁.active hout.isBefore fun _ _ _ h => h
  | .paren .., _, .paren hinner, b, hscoped, hb, hbinds => by
    rw [Expr.lowerPlace, Expr.place]
    exact Expr.lowerPlace_computes hx ha hinner hscoped hb hbinds
  | .literal .., _, _, _, _, _, _ => trivial
  | .binary .., _, _, _, _, _, _ => trivial
  | .call .., _, _, _, _, _, _ => trivial
  | .unary .., _, _, _, _, _, _ => trivial

theorem Expr.lowerAll_computes (hx : x.Realized p final y) (ha : x.analysis.Checked p) :
    {es : List Expr} → {types : List Ty} → Expr.ArgsFit x.analysis types es →
    ∀ {b : Ir.Builder}, Expr.AllScoped x.analysis.resolution visible es → b.Active →
    b.Binds visible → Computes final y (Expr.lowerAll x.analysis es) b (fun _ => True)
      (fun _ _ => True) (Ir.Value.AllHold final y) (Expr.evalAll x es)
  | [], _, .nil, _, _, hb, _ => .pure hb trivial fun _ _ _ _ => ⟨rfl, by simp⟩
  | e :: rest, _, .cons harg _ hrest, b, ⟨hscoped, hscoped'⟩, hb, hbinds => by
    rw [Expr.lowerAll, Expr.evalAll]
    refine (Expr.lower_computes hx ha harg hscoped hb hbinds).bind fun v b₁ hv h₁ d => ?_
    refine ((Expr.lowerAll_computes hx ha hrest hscoped' h₁.active (h₁.binds hbinds)).knowing
      (hv.isBefore.holds d)).bind fun vs b₂ _ h₂ ds => ?_
    exact .pure h₂.active trivial fun _ _ _ hs => .cons hs.1 hs.2

end

end

end MicroC
