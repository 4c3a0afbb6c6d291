import MicroC.Proofs.Lowering.Linkage

/-!
The code of a checked program is well typed. Variables are bound to storage for values of their
types from the parameters on, so that each step of the construction of a body is well typed; the
global variables are, with their initial values.
-/

namespace MicroC

open LowerM

/-- Variables are bound to storage for values of their types. -/
def Ir.Builder.BindsStorage (a : Analysis) (b : Ir.Builder) : Prop :=
  ∀ (d : Decl) (type : MicroC.Ty) (v : Ir.Value), a.types.decl? d = some type →
    b.binding? d.id = some v → v.Stores type ∧ type.isParam

/-- Functions have parameters that can be passed. -/
def Analysis.TakesParams (a : Analysis) : Prop :=
  ∀ (ident : Ident) (d : Decl) (result : Ty) (params : List Ty),
    ident.HasType a d (.func result params) → ∀ param ∈ params, param.isParam

section

variable {p : Program} {a : Analysis} {b b' : Ir.Builder} {d : Decl} {type : MicroC.Ty}
  {g : Guide} {events : List Event}

/-- One more variable is bound. -/
theorem Ir.Builder.BindsStorage.add {v : Ir.Value} (h : b.BindsStorage a)
    (htype : a.types.decl? d = some type) (hv : v.Stores type) (hparam : type.isParam)
    (hbinding : ∀ id, b'.binding? id = if d.id = id then some v else b.binding? id) :
    b'.BindsStorage a := by
  intro d' type' v' htype' hv'
  rw [hbinding] at hv'
  split at hv'
  next hid =>
    cases hv'
    have hsame : a.types.decl? d' = a.types.decl? d := by
      rw [TypeTable.decl?, TypeTable.decl?, hid]
    obtain rfl := Option.some.inj (htype.symm.trans (hsame.symm.trans htype'))
    exact ⟨hv, hparam⟩
  · exact h d' type' v' htype' hv'

/-- What the checks say of names is what the types of operands rest on. -/
theorem Analysis.Checked.firm (ha : a.Checked p) (htakes : a.TakesParams) {result : Ty}
    (hresult : result.isScalar ∨ result.isVoid) :
    a.Firm True (Ir.Builder.BindsStorage a) result := by
  refine ⟨trivial, fun hb htype hv => hb _ _ _ htype hv, ?_, ?_, hresult⟩
  · intro d type hat hvar htype
    rcases hat with hfile | hbuiltin
    · cases ha.typed d (ha.covers.binding_mem _ _ hfile).1 with
      | var h => exact h.isComplete htype
      | prototype _ | definition _ _ => cases hvar
      | typeName hisType _ => cases d <;> simp_all [Decl.isType, Decl.isVar]
    · simp only [Decl.builtins, List.mem_cons, List.not_mem_nil, or_false] at hbuiltin
      rcases hbuiltin with rfl | rfl | rfl <;> cases hvar
  · intro ident d result params h
    refine ⟨htakes ident d result params h, ?_⟩
    have hdeclares := ha.covers.declares ident d h.declOf
    cases ha.sound.decls d _ hdeclares h.typeOf with
    | func _ hresult => exact Bool.or_eq_true_iff.mp (hresult _ _ rfl)
    | var _ =>
      obtain ⟨type, htype, hparam⟩ := ha.objects _ (hdeclares.entered (by simp [Decl.builtins])) rfl
      cases htype.symm.trans h.typeOf
      simp [Ty.isParam, Ty.isScalar] at hparam
    | typedef _ =>
      have hvalue := h.isValue
      simp [Decl.isType] at hvalue

theorem Analysis.Consistent.takesParams (ha : a.Consistent p) : a.TakesParams := by
  intro ident d result params h
  obtain ⟨id, name, span, signature, body, rfl⟩ := ha.isFunc_of_func h
  obtain ⟨_, _, _, _, _, _, _, _, htype, _, hparams, _⟩ :=
    ha.sound.func_type ha.signatures (ha.covers.declares _ _ h.declOf) h.typeOf
  cases htype
  exact hparams

/-- Names are used where they are visible, and all code is well typed. -/
def Analysis.Checked.setting (ha : a.Checked p) (htakes : a.TakesParams)
    (hg : g.Mimics a True events (Ir.Builder.BindsStorage a)) {result : Ty}
    (hresult : result.isScalar ∨ result.isVoid) : Setting where
  a := a
  g := g
  lexical := True
  events := events
  inv := Ir.Builder.BindsStorage a
  result := result
  R := {
    operand := fun _ => True
    declares := fun d machine => ∃ type, a.types.decl? d = some type ∧ type.isComplete ∧
      machine = type.machine
    passes := fun d machine => ∃ elem len, a.types.decl? d = some (.array elem len) ∧
      elem.isScalar ∧ machine = .ptr elem.machine
    first := 0
    typed := True }
  mimics := hg
  permits := a.permits_any
  bound := fun _ _ => trivial
  declares := fun _ _ htype hcomplete => ⟨_, htype, hcomplete trivial, rfl⟩
  keep := by
    refine ⟨?_, ?_, ?_⟩
    · intro b b' hb hbindings d type v htype hv
      rw [Ir.Builder.binding?, hbindings] at hv
      exact hb d type v htype hv
    · rintro b d _ ⟨type, htype, hcomplete, rfl⟩ hb
      exact hb.add htype ⟨by simp, .inl ⟨hcomplete, rfl⟩⟩ (Ty.isParam_of_isComplete hcomplete)
        Ir.Builder.withLocal_binding?
    · rintro b d index _ ⟨elem, len, htype, hscalar, rfl⟩ hb
      exact hb.add htype ⟨by simp, .inr ⟨elem, len, rfl, rfl⟩⟩ hscalar
        (Ir.Builder.binding?_bind _ _)
  firm := fun _ => ha.firm htakes hresult

/-- The body of a function is lowered to well-typed code, whichever guide it goes by. -/
theorem Stmt.IsChecked.lowerBody {result : Ty} {params : List (Decl × Ty)} {body : Stmt}
    (h : body.IsChecked a result params) (ha : a.Checked p) (htakes : a.TakesParams)
    (hg : g.Mimics a True body.events (Ir.Builder.BindsStorage a)) (name : String) :
    body.lowerBody g params (Decl.startBuilder name result params) =
        body.lowerBody a params (Decl.startBuilder name result params) ∧
      (body.lowerBody a params).Ensures (Decl.startBuilder name result params) fun _ b =>
        b.WellTyped := by
  let F := ha.setting htakes hg h.result
  have htakes : ∀ param ∈ params, F.Takes param.1 param.2 := by
    rintro ⟨d, type⟩ hparam
    obtain ⟨htype, hparam⟩ := h.params _ hparam
    cases type with
    | array elem len => exact ⟨elem, len, htype, hparam, rfl⟩
    | basic kind => exact ⟨⟨_, htype, hparam, rfl⟩, fun _ => hparam⟩
    | func _ _ => simp [Ty.isParam, Ty.isScalar] at hparam
  have hempty : (Decl.startBuilder name result params).BindsStorage a := by
    intro d type v _ hv
    rw [Decl.startBuilder_binding?] at hv
    cases hv
  obtain ⟨hsame, hbuilt⟩ := Stmt.lowerBody_follows (F := F) name result
    ⟨fun _ => h.inScope, fun _ => h.typed, List.Subset.refl _⟩ htakes (fun _ => h.isVar)
    (Nat.zero_le _) hempty fun _ => rfl
  refine ⟨hsame, Run.mono hbuilt ?_⟩
  rintro _ _ ⟨s, rfl, hsteps, _⟩
  have hentry : (Decl.startBuilder name result params).WellTyped :=
    Ir.Builder.wellTyped_of_blocks_nil rfl rfl
  exact hsteps.wellTyped trivial ((hentry.withBlock "entry").congr rfl rfl rfl)

/-- The function of a declaration at file level. -/
theorem Decl.lowerFunction_typed (ha : a.Checked p) (htakes : a.TakesParams) (htree : p.TreeShaped)
    (hbodies : p.BlockBodies) (hparams : p.VariableParams) (hr : p.resolve = .ok a.resolution)
    {F : Ir.Function} (hd : d ∈ p.file) (hF : d.lowerFunction a = .ok F) : F.WellTyped := by
  obtain ⟨id, name, span, tid, written, lparen, decls, rparen, body, result, types, rfl, htype,
    hbody⟩ := Decl.lowerFunction_cases hF
  rcases hbody with ⟨_, rfl⟩ | ⟨s, final, rfl, hrun, rfl⟩
  · exact (Ir.Builder.wellTyped_of_blocks_nil rfl rfl).toFunction
  · have hs := p.body_checked ha htree hbodies hparams hr hd htype
    exact ((hs.lowerBody ha htakes .refl name).2.of_ok hrun).toFunction

/-! Global variables. -/

theorem Scalar.fit_kind {kind : Scalar} {value : Int} {span : Span} {v : ScalarValue}
    (h : kind.fit value span = .ok v) : v.kind = kind := by
  unfold Scalar.fit at h
  split at h
  next hv =>
    cases h
    exact (ScalarValue.ofInt?_eq_some_iff.mp hv).1
  · cases h

theorem BinaryOp.fold_kind {op : BinaryOp} {kind : Scalar} {x y : Int} {span : Span}
    {v : ScalarValue} (h : op.fold kind x y span = .ok v) : v.kind = kind := by
  cases op with
  | add | sub | mul => exact Scalar.fit_kind h
  | div =>
    rw [BinaryOp.fold] at h
    split at h
    · cases h
    · exact Scalar.fit_kind h
  | lt | gt | le | ge | eq | ne | and =>
    cases h
    rfl
  | assign => cases h

/-- A constant expression has a value of its type. -/
theorem Expr.fold_kind {v : ScalarValue} : {e : Expr} → {type : Ty} → e.HasType a type →
    e.fold = .ok v → type = .basic v.kind.basicKind
  | .literal .., _, .int _, h => by rw [Scalar.fit_kind h]; rfl
  | .literal .., _, .char, h => by cases h; rfl
  | .paren .., _, .paren hinner, h => Expr.fold_kind hinner h
  | .unary .., _, .neg hoperand _, h => by
    obtain ⟨w, hw, hfit⟩ := Except.bind_eq_ok.mp h
    rw [Scalar.fit_kind hfit]
    exact Expr.fold_kind hoperand hw
  | .unary .., _, .not _ _, h => by
    obtain ⟨w, _, hv⟩ := Except.bind_eq_ok.mp h
    cases hv
    rfl
  | .binary _ op _ lhs rhs, _, .binary hlhs _ _ _, h => by
    rw [Expr.fold] at h
    split at h
    · cases h
    · obtain ⟨left, hleft, h⟩ := Except.bind_eq_ok.mp h
      rw [Expr.fold_kind hlhs hleft]
      split at h
      · cases h
        rfl
      · obtain ⟨right, _, h⟩ := Except.bind_eq_ok.mp h
        split at h
        · cases h
        · rw [BinaryOp.fold_kind h]
  | .name .., _, _, h | .call .., _, _, h | .index .., _, _, h => by cases h

theorem Decl.lowerGlobal_typed (ha : a.Checked p) {d : Decl} {g : Ir.Global} (hd : d ∈ p.file)
    (h : d.lowerGlobal a = .ok g) : g.WellTyped := by
  obtain ⟨type, hknown⟩ := (ha.typed d hd).exists_type
  rw [Decl.lowerGlobal, Analysis.Consistent.typeOf_eq hknown] at h
  have hzero : ∀ name, (Ir.Global.mk name type.machine (.zero type.machine)).WellTyped :=
    fun _ => ⟨Ir.Constant.type_zero _, Ir.Constant.zero_inRange _⟩
  cases d with
  | func _ _ _ _ _ | basic _ _ _ _ | typedef _ _ _ _ =>
    cases h
    exact hzero _
  | var id name span written init =>
    cases init with
    | none =>
      cases h
      exact hzero _
    | some init =>
      cases ha.typed _ hd with
      | typeName htype _ => simp [Decl.isType] at htype
      | var hvar =>
        cases hvar with
        | initialized hknown' _ hinit =>
          obtain rfl := Option.some.inj (hknown.symm.trans hknown')
          cases hfold : init.fold with
          | error e =>
            simp only [hfold] at h
            cases h
          | ok v =>
            simp only [hfold] at h
            cases h
            obtain rfl := Expr.fold_kind hinit hfold
            refine ⟨rfl, ?_⟩
            have hfits := v.fits
            cases hkind : v.kind with
            | char | int =>
              rw [hkind] at hfits
              exact hfits

end

namespace Program

/-- The code of a program whose names are used where they are visible. -/
theorem lower_typed {p : Program} {a : Analysis} (ha : a.Checked p) (htakes : a.TakesParams)
    (htree : p.TreeShaped) (hbodies : p.BlockBodies) (hparams : p.VariableParams)
    (hr : p.resolve = .ok a.resolution) {moduleName : String} {m : Ir.Module}
    (h : p.lower a moduleName = .ok m) : m.WellTyped := by
  constructor
  · intro F hF
    obtain ⟨d, hd, _, hlower⟩ := (lower_hasFunctions h).source F hF
    exact Decl.lowerFunction_typed ha htakes htree hbodies hparams hr hd hlower
  · intro g hg
    obtain ⟨d, hd, _, _, hlower⟩ := (ha.hasGlobals h).source g hg
    exact Decl.lowerGlobal_typed ha (ha.bound_mem hd).2.2 hlower

/-- The module of a compiled program is well typed. -/
theorem compile_wellTyped (p : Program) (hp : p.Coherent) (htree : p.TreeShaped)
    (hbodies : p.BlockBodies) (hparams : p.VariableParams) (hsig : p.FunctionSignatures)
    (settings : Settings) (c : Compilation) (h : p.compile settings = .ok c) :
    c.module.WellTyped := by
  obtain ⟨hr, ht, hm⟩ := compile_ok h
  have ha := p.check_consistent hp hsig hr ht
  exact lower_typed ha.toChecked ha.takesParams htree hbodies hparams hr hm

/-- A program with a global array, a parameter of unknown length and a loop. -/
theorem compile_wellTyped_arraySum : ∃ c, Samples.arraySum.compile {} = .ok c ∧
    c.module.WellTyped := by
  obtain ⟨c, hc, _⟩ : ∃ c, Samples.arraySum.compile {} = .ok c ∧ true :=
    Except.exists_of_any (by decide +kernel)
  have htyped := compile_wellTyped Samples.arraySum (by decide +kernel) (by decide +kernel)
    (by decide +kernel) (by decide +kernel) (by decide +kernel) {} c hc
  exact ⟨c, hc, htyped⟩

end Program

end MicroC
