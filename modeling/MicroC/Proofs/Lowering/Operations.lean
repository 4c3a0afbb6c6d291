import MicroC.Proofs.Lowering.Computation

/-!
The code of operators and names. Operators compute in the machine type of their left operand, and
names stand for the storage of their declarations.
-/

namespace MicroC

open LowerM

/-! Scalar operators and their instructions. -/

/-- The static scalar type is that of the typing rules. -/
theorem Ident.HasType.scalar {a : Analysis} {ident : Ident} {d : Decl} {type : Ty}
    (h : ident.HasType a d type) : a.scalar ident =
      match type with
      | .array elem _ => elem.scalar
      | .func result _ => result.scalar
      | type => type.scalar := by
  simp only [Analysis.scalar, h.declOf, Option.bind_some, h.typeOf]
  cases type <;> rfl

theorem Ty.scalar_basicKind {type : Ty} (h : type.isScalar) : type = .basic type.scalar.basicKind := by
  cases type with
  | basic kind =>
    cases kind with
    | char | int => rfl
    | void => simp [isScalar] at h
  | array _ _ | func _ _ => simp [isScalar] at h

theorem Expr.scalar_of_hasType {a : Analysis} : {e : Expr} → {type : Ty} → e.HasType a type →
    type.isScalar → type.scalar = e.scalar a
  | .literal .., _, .int _, _ => rfl
  | .literal .., _, .char, _ => rfl
  | .paren .., _, .paren hinner, hs => by rw [Expr.scalar, Expr.scalar_of_hasType hinner hs]
  | .name .., type, .name hident, hs => by
    rw [Expr.scalar, hident.scalar]
    cases type with
    | basic kind => rfl
    | array _ _ | func _ _ => simp [Ty.isScalar] at hs
  | .index .., _, .index harray _ _, _ => by rw [Expr.scalar, harray.scalar]
  | .call .., _, .call hcallee _, _ => by rw [Expr.scalar, hcallee.scalar]
  | .unary .., _, .neg hoperand _, hs => by rw [Expr.scalar, Expr.scalar_of_hasType hoperand hs]
  | .unary .., _, .not _ _, _ => rfl
  | .binary .., _, .binary hlhs _ _ _, hs => by rw [Expr.scalar, Expr.scalar_of_hasType hlhs hs]

/-- Machine types wrap as the scalar types do. -/
theorem Ty.wrap_machine {type : Ty} (h : type.isScalar) (n : Int) :
    type.machine.wrap n = type.scalar.wrap n := by
  rw [scalar_basicKind h]
  cases type.scalar <;> rfl

theorem UnaryOp.eval_instruction {type : Ty} (h : type.isScalar) {machine : Ir.Ty} (op : UnaryOp)
    (hmachine : op = .neg → machine = type.machine) (n : Int) :
    op.instruction.eval machine n = op.eval type.scalar n := by
  cases op with
  | neg =>
    rw [hmachine rfl]
    exact Ty.wrap_machine h (-n)
  | not => rfl

theorem BinaryOp.eval_arithmetic {type : Ty} (h : type.isScalar) {op : BinaryOp}
    {instruction : Ir.BinaryOp} (hop : op.arithmetic? = some instruction) (m n : Int) :
    instruction.eval type.machine m n = op.eval type.scalar m n := by
  cases op <;> cases hop <;> simp only [Ir.BinaryOp.eval, BinaryOp.eval, Ty.wrap_machine h]

theorem BinaryOp.eval_predicate {width : Scalar} {op : BinaryOp} {predicate : Ir.Predicate}
    (hop : op.predicate? = some predicate) (m n : Int) :
    op.eval width m n = pure (predicate.eval m n).toInt := by
  cases op <;> cases hop <;> rfl

theorem BinaryOp.isInert_eval (op : BinaryOp) (width : Scalar) (m n : Int) :
    Ir.IsInert (op.eval width m n) := by
  cases op with
  | div =>
    rw [BinaryOp.eval]
    split
    · exact Ir.isInert_fail
    · exact Ir.isInert_pure _
  | and | assign => exact Ir.isInert_fail
  | add | sub | mul | lt | gt | le | ge | eq | ne => exact Ir.isInert_pure _

section

variable {final b : Ir.Builder} {y : Ir.Activation} {Pre : Ir.State → Prop}

/-- An instruction that does not touch the storage and yields a number. -/
theorem LowerM.emit_number_computes {operation : Ir.Operation} {type : Ir.Ty} {E : Action Int}
    (hb : b.Active) (hop : ∀ slot, operation ≠ .alloca slot) (hE : Ir.IsInert E)
    (hrun : ∀ s, Pre s → (Ir.Instruction.mk b.nextInst operation type none).run y s.results =
      (do return .int (← E))) :
    Computes final y (emit operation type) b Pre (Ir.Value.IsReady type)
      (fun v n => v.Holds final y (.int n)) E := by
  refine LowerM.emit_computes (f := Datum.int) hb hop ?_ fun _ _ _ _ _ _ => trivial
  intro M s hsim hpre
  rw [hrun s hpre]
  exact .map hE hsim.mirrors

/-- The truth of a datum that is a number. -/
def Datum.truth (d : Datum) : Action Int := do return (decide ((← d.toInt) ≠ 0)).toInt

/-- Compares a number with zero. -/
theorem LowerM.isNonzero_computes {value : Ir.Value} {d : Datum} (hb : b.Active)
    (hvalue : ∀ s, Pre s → value.eval y s.results = d) :
    Computes final y (isNonzero value) b Pre (Ir.Value.IsReady value.type)
      (fun v n => v.Holds final y (.int n)) d.truth := by
  refine emit_number_computes hb nofun ((Ir.isInert_toInt d).bind fun _ => Ir.isInert_pure _) ?_
  intro s hpre
  have hzero : (Ir.Value.int value.type 0).eval y s.results = .int 0 := rfl
  have hnumber : (Datum.int 0).toInt = pure 0 := rfl
  simp only [Ir.Instruction.run_cmp, hvalue s hpre, hzero, hnumber, Datum.truth, pure_bind,
    bind_assoc, Ir.Predicate.eval]

/-- The instruction of an operator computes what the operator does. -/
theorem BinaryOp.emit_computes {op : BinaryOp} {span : Span} {type : Ty} {lhs rhs : Ir.Value}
    {left right : Datum} (hs : type.isScalar) (hlhs : lhs.type = type.machine) (hb : b.Active)
    (hleft : ∀ s, Pre s → lhs.eval y s.results = left)
    (hright : ∀ s, Pre s → rhs.eval y s.results = right) :
    Computes final y (op.emit span lhs rhs) b Pre (Ir.Value.IsReady type.machine)
      (fun v n => v.Holds final y (.int n)) (do
        let m ← left.toInt
        let n ← right.toInt
        op.eval type.scalar m n) := by
  have hinert : Ir.IsInert (do
      let m ← left.toInt
      let n ← right.toInt
      op.eval type.scalar m n) :=
    (Ir.isInert_toInt left).bind fun m => (Ir.isInert_toInt right).bind fun n =>
      op.isInert_eval type.scalar m n
  rw [← hlhs]
  unfold BinaryOp.emit
  split
  next predicate hop =>
    refine emit_number_computes hb nofun hinert fun s hpre => ?_
    simp only [Ir.Instruction.run_cmp, hleft s hpre, hright s hpre, bind_assoc,
      BinaryOp.eval_predicate hop, pure_bind]
  next instruction _ hop =>
    refine emit_number_computes hb nofun hinert fun s hpre => ?_
    simp only [Ir.Instruction.run_binary, hleft s hpre, hright s hpre, bind_assoc, hlhs,
      BinaryOp.eval_arithmetic hs hop]
  next => trivial

end

/-! Names. -/

/-- The code of a function can stand for its body: what is bound to a variable is the address of
the variable, and so is a global variable. -/
structure Activation.Realized (p : Program) (x : Activation) (final : Ir.Builder)
    (y : Ir.Activation) : Prop where
  depth : y.depth = x.depth
  calls : y.calls = x.calls
  bound : ∀ d v, final.binding? d.id = some v → ∀ M s, Ir.Simulates final y M s →
    v.Holds final y (x.address d) s ∧ ∃ object cell, x.address d = .address object cell
  isVar : ∀ d, p.Declares d → (final.binding? d.id).isSome → d.isVar
  global : ∀ d ∈ p.file, x.address d = .address (.global d.name) 0

section

variable {p : Program} {x : Activation} {final b : Ir.Builder} {y : Ir.Activation}
  {Pre : Ir.State → Prop} {visible : List Decl} {ident : Ident} {d : Decl} {type : MicroC.Ty}

/-- An operand is the address of a variable. -/
def Ir.Value.Locates (final : Ir.Builder) (y : Ir.Activation) (d : Decl) (v : Ir.Value)
    (place : Datum) (s : Ir.State) : Prop :=
  v.Holds final y place s ∧ d.isVar ∧ ∃ object cell, place = .address object cell

/-- A name that is seen gives the address of its variable, which emits nothing. -/
theorem Ident.address_computes {span : Span} (hx : x.Realized p final y)
    (ha : x.analysis.Checked p) (h : ident.HasType x.analysis d type)
    (hsees : ident.Sees x.analysis.resolution visible) (hb : b.Active) (hbinds : b.Binds visible) :
    Computes final y (d.address x.analysis span) b Pre (fun v b' => v.IsBefore b'.nextInst)
      (Ir.Value.Locates final y d) (pure (x.address d)) := by
  unfold Decl.address
  refine Run.bind_iff.mpr ?_
  rw [Run.get_iff]
  split
  next v hv =>
    have hbefore : v.IsBefore b.nextInst := by
      rintro id t rfl
      exact hb.tidy.housed.bound d.id id t hv
    refine ⟨hbefore, hb.refl, ?_⟩
    intro hgrows R hR
    have hfinal := hgrows.bindings d.id v hv
    have hvar := hx.isVar d (ha.covers.declares _ _ h.declOf) (by simp [hfinal])
    refine .pure rfl fun M s hs hpre => ?_
    obtain ⟨hholds, haddress⟩ := hx.bound d v hfinal M s hs
    exact ⟨hpre.1, hholds, hvar, haddress⟩
  next hnone =>
    split
    next id name nameSpan written init =>
      have hfile : Decl.var id name nameSpan written init ∈ p.file := by
        obtain ⟨d', hd', hcases⟩ := hsees
        obtain rfl := Option.some.inj (hd'.symm.trans h.declOf)
        rcases hcases with hvisible | hfile | hbuiltin
        · have hbound := hbinds _ hvisible
          rw [hnone] at hbound
          cases hbound
        · exact (ha.covers.binding_mem _ _ hfile).1
        · simp [Decl.builtins] at hbuiltin
      refine LowerM.Ensures.liftBind fun t _ => ?_
      refine ⟨.of_ne (by simp), hb.refl, ?_⟩
      intro hgrows R hR
      refine .pure rfl fun M s hs hpre => ⟨hpre.1, ?_⟩
      rw [hx.global _ hfile]
      exact ⟨⟨rfl, by simp [Ir.ShowsDatum, Ir.Shows]⟩, rfl, _, _, rfl⟩
    next => trivial

/-- The variable that a name with an address stands for has the type of an object. -/
theorem Analysis.Checked.isParam (ha : x.analysis.Checked p) (h : ident.HasType x.analysis d type)
    (hvar : d.isVar) : type.isParam := by
  have hne : d ∉ Decl.builtins := by
    intro hmem
    simp only [Decl.builtins, List.mem_cons, List.not_mem_nil, or_false] at hmem
    rcases hmem with rfl | rfl | rfl <;> simp [Decl.isVar] at hvar
  have hentered := (ha.covers.declares ident d h.declOf).entered hne
  obtain ⟨type', hknown, hparam⟩ := ha.objects d hentered hvar
  obtain rfl : type' = type := Option.some.inj (hknown.symm.trans h.typeOf)
  exact hparam

theorem Ir.Ty.stride_machine {elem : MicroC.Ty} (h : elem.isScalar) :
    (Ir.Ty.ptr elem.machine).stride = 1 := by
  rw [Ty.scalar_basicKind h]
  cases elem.scalar <;> rfl

/-- The address of an element of the array at an address. -/
theorem LowerM.elementAddr_computes {elem : Ty} {len : Option Nat} {base index : Ir.Value}
    {place position : Datum} (ha : x.analysis.Checked p)
    (h : ident.HasType x.analysis d (.array elem len)) (hb : b.Active)
    (hbase : ∀ s, Pre s → base.Locates final y d place s)
    (hindex : ∀ s, Pre s → index.eval y s.results = position) :
    Computes final y (emit (.elementAddr base index) (.ptr elem.machine)) b Pre
      (Ir.Value.IsReady (.ptr elem.machine)) (fun v r => v.Holds final y r)
      (place.element 1 position) := by
  refine LowerM.emit_computes (f := id) hb nofun ?_ ?_
  · intro M s hsim hpre
    obtain ⟨⟨heval, hshown⟩, hvar, _⟩ := hbase s hpre
    rw [Ir.Instruction.run_elementAddr, heval, hindex s hpre, Ir.Ty.stride_machine (ha.isParam h hvar)]
    exact .inert (Ir.isInert_element 1 place position) hsim.mirrors
  · intro M M' s r hpre hr
    obtain ⟨⟨_, hshown⟩, _, o, k, rfl⟩ := hbase s hpre
    cases position with
    | int n =>
      obtain ⟨rfl, _⟩ := hr
      exact hshown
    | address _ _ | function _ | none => exact hr.elim

theorem Ident.eval_of_hasType (h : ident.HasType x.analysis d type) : ident.eval x =
    match type with
    | .basic _ => Action.load (x.address d)
    | .array .. => pure (x.address d)
    | .func .. => pure (.function d.name) := by
  simp only [Ident.eval, Activation.declOf, h.declOf, Activation.typeOf, h.typeOf, Action.ofOption,
    pure_bind]
  cases type <;> rfl

/-- The operand of an expression of a type, which matters for scalars only. -/
structure Ir.Value.IsOperandOf (type : MicroC.Ty) (v : Ir.Value) (b : Ir.Builder) : Prop where
  isBefore : v.IsBefore b.nextInst
  type_eq : type.isScalar → v.type = type.machine

theorem Ir.Value.IsReady.isOperandOf {v : Ir.Value} (h : v.IsReady type.machine b) :
    v.IsOperandOf type b :=
  ⟨h.isBefore, fun _ => h.type_eq⟩

theorem Ident.read_computes (hx : x.Realized p final y) (ha : x.analysis.Checked p)
    (h : ident.HasType x.analysis d type) (hsees : ident.Sees x.analysis.resolution visible)
    (hb : b.Active) (hbinds : b.Binds visible) :
    Computes final y (ident.read x.analysis) b (fun _ => True) (Ir.Value.IsOperandOf type)
      (fun v r => v.Holds final y r) (ident.eval x) := by
  refine .lift fun d' hd' => ?_
  obtain rfl : d = d' := Except.ok.inj ((Analysis.Consistent.declOf_eq h).symm.trans hd')
  refine .lift fun type' htype' => ?_
  obtain rfl : type = type' :=
    Except.ok.inj ((Analysis.Consistent.typeOf_eq h.typeOf).symm.trans htype')
  have haddress : Computes final y (d.address x.analysis ident.span) b (fun _ => True)
      (fun v b' => v.IsBefore b'.nextInst) (Ir.Value.Locates final y d) (pure (x.address d)) :=
    Ident.address_computes hx ha h hsees hb hbinds
  rw [Ident.eval_of_hasType h]
  cases type with
  | basic kind =>
    rw [← pure_bind (x.address d) Action.load]
    refine haddress.bind fun v b₁ _ hext place => ?_
    exact (load_computes hext.active fun M s _ hpre => hpre.1).mono (fun _ h => h)
      (fun _ _ hv => hv.isOperandOf) fun _ _ _ h => h
  | array elem len =>
    have hnone : ∀ {v : Ir.Value} {b' : Ir.Builder}, v.IsBefore b'.nextInst →
        v.IsOperandOf (.array elem len) b' :=
      fun hv => ⟨hv, by simp [Ty.isScalar]⟩
    cases len with
    | none => exact haddress.mono (fun _ h => h) (fun _ _ hv => hnone hv) fun _ _ _ hv => hv.1
    | some len =>
      have hpure : (pure (x.address d) : Action Datum) = pure (x.address d) >>= pure := by simp
      rw [hpure]
      refine haddress.bind fun base b₁ _ hext place => ?_
      refine (emit_computes (f := fun r : Datum => r) hext.active (by simp) ?_ ?_).mono (fun _ h => h)
        (fun _ _ hv => hnone hv.isBefore) fun _ _ _ h => h
      · intro M s hsim hpre
        obtain ⟨⟨heval, _⟩, hvar, o, k, rfl⟩ := hpre
        have hfirst : (Datum.address o k).element 1 (.int 0) = pure (.address o k) := by
          simp [Datum.element]
        rw [Ir.Instruction.run_elementAddr, heval, Ir.Ty.stride_machine (ha.isParam h hvar)]
        exact hfirst ▸ .inert (Ir.isInert_pure _) hsim.mirrors
      · rintro M M' s r hpre ⟨rfl, _⟩
        exact hpre.1.2
  | func result params =>
    refine .lift fun out hout => ?_
    cases d with
    | func id name span signature body =>
      rw [Analysis.Consistent.functionValue_eq h.typeOf] at hout
      cases hout
      exact .pure hb ⟨.of_ne (by simp), by simp [Ty.isScalar]⟩ fun _ _ _ _ => ⟨rfl, trivial⟩
    | var _ _ _ _ _ | basic _ _ _ _ | typedef _ _ _ _ =>
      simp [Decl.functionValue, Analysis.Consistent.typeOf_eq h.typeOf, bind, Except.bind] at hout

theorem Ir.Value.IsBefore.locates {k : Nat} {v : Ir.Value} (h : v.IsBefore k) (place : Datum) :
    Ir.Stable k (v.Locates final y d place) :=
  (h.holds place).and fun _ _ _ hs => hs

/-- The address of an element, after the code of the index. -/
theorem Ident.elementAddress_computes {elem : Ty} {len : Option Nat} {index : LowerM Ir.Value}
    {position : Action Datum} {Fits : Ir.Value → Ir.Builder → Prop} (hx : x.Realized p final y)
    (ha : x.analysis.Checked p) (h : ident.HasType x.analysis d (.array elem len))
    (hsees : ident.Sees x.analysis.resolution visible) (hb : b.Active) (hbinds : b.Binds visible)
    (hindex : ∀ b₁, b.Extends b₁ → Computes final y index b₁ (fun _ => True) Fits
      (fun v r => v.Holds final y r) position) :
    Computes final y (ident.elementAddress x.analysis index) b (fun _ => True)
      (fun out b' => out.1.IsReady (.ptr elem.machine) b' ∧ out.2 = elem.machine)
      (fun out r => out.1.Holds final y r) (ident.element x position) := by
  refine .lift fun d' hd' => ?_
  obtain rfl : d = d' := Except.ok.inj ((Analysis.Consistent.declOf_eq h).symm.trans hd')
  refine .lift fun type' htype' => ?_
  obtain rfl : Ty.array elem len = type' :=
    Except.ok.inj ((Analysis.Consistent.typeOf_eq h.typeOf).symm.trans htype')
  have heval : ident.element x position = (do
      let place ← pure (x.address d)
      let index ← position
      place.element 1 index >>= pure) := by
    simp only [Ident.element, Activation.declOf, h.declOf, Action.ofOption, pure_bind, bind_pure]
  rw [heval]
  refine (Ident.address_computes hx ha h hsees hb hbinds).bind fun base b₁ hbase hext place => ?_
  refine ((hindex b₁ hext).knowing (hbase.locates place)).bind fun index b₂ _ hext₂ position => ?_
  have hbase' : ∀ s, base.Locates final y d place s ∧ index.Holds final y position s →
      base.Locates final y d place s := fun s hs => hs.1
  refine (elementAddr_computes ha h hext₂.active hbase' fun s hs => hs.2.1).bind ?_
  intro v b₃ hv hext₃ r
  exact .pure hext₃.active ⟨hv, rfl⟩ fun _ _ _ hs => hs

end

end MicroC
