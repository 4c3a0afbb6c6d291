import MicroC.Proofs.Scope.Merging
import MicroC.Proofs.Scope.Reordering
import MicroC.Proofs.Typing.Completeness

/-!
Types in another order of the declarations. A name can then stand for another declaration of its
own, whose type may give other lengths to the arrays that a function takes. Nothing else in a type
depends on the order, and no rule looks at these lengths, so what is valid stays valid.
-/

namespace MicroC

/-! Types up to the lengths of parameters. -/

namespace Ty

variable {s t : Ty}

/-- The type of a parameter without the length of an array. -/
def passed : Ty → Ty
  | array elem _ => array elem none
  | t => t

/-- A type without the lengths of the arrays that a function takes. -/
def outline : Ty → Ty
  | func result params => func result (params.map passed)
  | t => t

/-- The type of a variable or of a function at file level. -/
def IsDeclared (t : Ty) : Prop :=
  t.isComplete ∨ ∃ result params, t = func result params ∧ (result.isScalar ∨ result.isVoid) ∧
    ∀ param ∈ params, param.isParam

theorem ne_func_of_isScalar (h : s.isScalar) (result : Ty) (params : List Ty) :
    s ≠ func result params := by
  rintro rfl
  simp [isScalar] at h

theorem ne_func_of_compatible (h : s.compatible t) (result : Ty) (params : List Ty) :
    t ≠ func result params := by
  rintro rfl
  cases s <;> simp [compatible] at h

/-- Only the type of a function has lengths that do not matter. -/
theorem eq_of_outline (h : s.outline = t.outline) (hs : ∀ result params, s ≠ func result params) :
    s = t := by
  cases s with
  | func result params => exact absurd rfl (hs result params)
  | basic _ | array _ _ => cases t <;> simp_all [outline]

theorem exists_of_outline_func {result : Ty} {params : List Ty}
    (h : (func result params).outline = t.outline) :
    ∃ params', t = func result params' ∧ params.map passed = params'.map passed := by
  cases t with
  | func result' params' =>
    obtain ⟨rfl, hparams⟩ := Ty.func.inj h
    exact ⟨params', rfl, hparams⟩
  | basic _ | array _ _ => cases h

/-- Whether an argument fits does not depend on the length of the parameter. -/
theorem compatible_of_passed {s' : Ty} (h : s.passed = s'.passed) (hs : s.compatible t) :
    s'.compatible t := by
  cases s <;> cases s' <;> cases t <;> simp_all [passed, compatible]

/-- Basic types are compatible if they are equal. -/
theorem compatible_iff_eq (hs : s.isScalar ∨ s.isVoid) : s.compatible t ↔ s = t := by
  cases s with
  | basic kind => cases t <;> simp [compatible]
  | array _ _ | func _ _ => simp [isScalar, isVoid] at hs

theorem compatible_iff_passed (hs : s.isParam) (ht : t.isParam) :
    s.compatible t ↔ s.passed = t.passed := by
  cases s with
  | basic kind => cases t <;> simp [compatible, passed]
  | array elem len =>
    cases t with
    | array elem' len' =>
      have helem : elem.compatible elem' ↔ elem = elem' := compatible_iff_eq (.inl hs)
      simp [compatible, passed, helem]
    | basic _ | func _ _ => simp [compatible, passed]
  | func _ _ => simp [isParam, isScalar] at hs

/-- Parameters agree one by one. -/
theorem params_compatible_iff {params params' : List Ty} (h : ∀ t ∈ params, t.isParam)
    (h' : ∀ t ∈ params', t.isParam) :
    (params.length == params'.length &&
      (params.zip params').all fun pair => pair.1.compatible pair.2) ↔
      params.map passed = params'.map passed := by
  induction params generalizing params' with
  | nil => cases params' <;> simp
  | cons param rest ih =>
    cases params' with
    | nil => simp
    | cons param' rest' =>
      obtain ⟨hparam, hrest⟩ := List.forall_mem_cons.mp h
      obtain ⟨hparam', hrest'⟩ := List.forall_mem_cons.mp h'
      have hone := compatible_iff_passed hparam hparam'
      have hall := ih hrest hrest'
      simp only [Bool.and_eq_true, beq_iff_eq] at hall
      simp only [List.length_cons, List.zip_cons_cons, List.all_cons, Bool.and_eq_true, beq_iff_eq,
        Nat.add_right_cancel_iff, List.map_cons, List.cons.injEq, ← hall, ← hone]
      exact and_left_comm

theorem sameDecl_iff_eq (hs : s.isScalar ∨ s.isVoid) : s.sameDecl t ↔ s = t := by
  cases s with
  | basic kind => cases t <;> simp [sameDecl, compatible]
  | array _ _ | func _ _ => simp [isScalar, isVoid] at hs

/-- Declarations at file level agree if their types differ at most in such lengths. -/
theorem sameDecl_iff_outline (hs : s.IsDeclared) (ht : t.IsDeclared) :
    s.sameDecl t ↔ s.outline = t.outline := by
  cases s with
  | basic kind => cases t <;> simp [sameDecl, outline, compatible]
  | array elem len =>
    obtain ⟨hlen, helem⟩ : len.isSome ∧ elem.isScalar := by
      simpa [IsDeclared, isComplete] using hs
    cases t with
    | array elem' len' =>
      obtain ⟨hlen', _⟩ : len'.isSome ∧ elem'.isScalar := by
        simpa [IsDeclared, isComplete] using ht
      obtain ⟨n, rfl⟩ := Option.isSome_iff_exists.mp hlen
      obtain ⟨n', rfl⟩ := Option.isSome_iff_exists.mp hlen'
      have heq : elem.sameDecl elem' ↔ elem = elem' := sameDecl_iff_eq (.inl helem)
      simp [sameDecl, outline, heq]
    | basic _ | func _ _ => simp [sameDecl, outline, compatible]
  | func result params =>
    cases t with
    | func result' params' =>
      have hparts : ∀ {result : Ty} {params : List Ty}, (func result params).IsDeclared →
          (result.isScalar ∨ result.isVoid) ∧ ∀ param ∈ params, param.isParam := by
        rintro _ _ (hcomplete | ⟨_, _, ⟨⟩, hparts⟩)
        · simp [isComplete, isScalar] at hcomplete
        · exact hparts
      have heq : result.sameDecl result' ↔ result = result' := sameDecl_iff_eq (hparts hs).1
      have hall := params_compatible_iff (hparts hs).2 (hparts ht).2
      simp only [sameDecl, outline, Bool.and_assoc, Bool.and_eq_true, func.injEq, ← hall, heq]
    | basic _ | array _ _ => simp [sameDecl, outline, compatible]

end Ty

/-! Types of declarations. -/

section

variable {decls : List Decl} {r r' : Resolution}

theorem Decl.isDefinition_of_isType {d : Decl} (h : d.isType) : d.isDefinition := by
  cases d with
  | basic _ _ _ _ | typedef _ _ _ _ => rfl
  | func _ _ _ _ _ | var _ _ _ _ _ => simp [Decl.isType] at h

theorem Decl.isType_of_sameSort {d d' : Decl} (h : d.sameSort d') :
    d.isType = false ∧ d'.isType = false := by
  cases d <;> cases d' <;> simp_all [Decl.sameSort, Decl.isType]

mutual

/-- Names of types are definitions, so a written type stands for the same type. -/
theorem TypeExpr.Means.reorder (h : r.Alike decls r') {type : Ty} : {written : TypeExpr} →
    written.Means r type → written.Means r' type
  | _, .named hd htype hmeans => by
    obtain ⟨d', hd', htwins⟩ := h.idents _ _ hd
    obtain rfl := htwins.eq_of_isDefinition (Decl.isDefinition_of_isType htype)
    exact .named hd' htype (hmeans.reorder h)
  | _, .array helem hscalar => .array (helem.reorder h) hscalar
  | _, .func hresult hparams => .func (hresult.reorder h) (hparams.reorder h)

theorem Decl.Means.reorder (h : r.Alike decls r') {type : Ty} : {d : Decl} →
    d.Means r type → d.Means r' type
  | _, .func hsignature hresult => .func (hsignature.reorder h) hresult
  | _, .var hwritten => .var (hwritten.reorder h)
  | _, .basic => .basic
  | _, .typedef htarget => .typedef (htarget.reorder h)

theorem Decl.ParamsMean.reorder (h : r.Alike decls r') {types : List Ty} : {ds : List Decl} →
    Decl.ParamsMean r ds types → Decl.ParamsMean r' ds types
  | _, .nil => .nil
  | _, .cons hd hparam hrest => .cons (hd.reorder h) hparam (hrest.reorder h)

end

/-- All declarations of a name have the same type up to lengths of parameters. -/
def Resolution.Uniform (decls : List Decl) (r : Resolution) : Prop :=
  ∀ d ∈ decls, ∀ d' ∈ decls, d.name = d'.name → d.sameSort d' →
    ∃ type type', d.Means r type ∧ d'.Means r type' ∧ type.outline = type'.outline ∧
      type.sameDecl type'

/-! Expressions. -/

theorem Ident.OfType.reorder (h : r.Alike decls r') (hu : r.Uniform decls) {ident : Ident}
    {type : Ty} (hof : ident.OfType r type) :
    ∃ type', ident.OfType r' type' ∧ type.outline = type'.outline := by
  obtain ⟨d, hd, hvalue, hmeans⟩ := hof
  obtain ⟨d', hd', htwins⟩ := h.idents ident d hd
  cases htwins with
  | self => exact ⟨type, ⟨d, hd', hvalue, hmeans.reorder h⟩, rfl⟩
  | other hmem hmem' hname hsort _ _ =>
    obtain ⟨found, type', hfound, hmeans', houtline, _⟩ := hu d hmem d' hmem' hname hsort
    obtain rfl : found = type := hfound.unique hmeans
    exact ⟨type', ⟨d', hd', (Decl.isType_of_sameSort hsort).2, hmeans'.reorder h⟩, houtline⟩

mutual

theorem Expr.OfType.reorder (h : r.Alike decls r') (hu : r.Uniform decls) :
    (e : Expr) → {type : Ty} → e.OfType r type →
    ∃ type', e.OfType r' type' ∧ type.outline = type'.outline
  | .literal _ (.int _) _, _, hof => ⟨_, hof, rfl⟩
  | .literal _ (.char _) _, _, hof => ⟨_, hof, rfl⟩
  | .name _ _, _, hof => Ident.OfType.reorder h hu hof
  | .paren _ _ inner _, _, hof => Expr.OfType.reorder h hu inner hof
  | .unary _ .neg _ operand, _, ⟨hoperand, hscalar⟩ => by
    obtain ⟨type', hoperand', houtline⟩ := Expr.OfType.reorder h hu operand hoperand
    obtain rfl := Ty.eq_of_outline houtline (Ty.ne_func_of_isScalar hscalar)
    exact ⟨_, ⟨hoperand', hscalar⟩, rfl⟩
  | .unary _ .not _ operand, _, ⟨htype, found, hoperand, hscalar⟩ => by
    obtain ⟨found', hoperand', houtline⟩ := Expr.OfType.reorder h hu operand hoperand
    obtain rfl := Ty.eq_of_outline houtline (Ty.ne_func_of_isScalar hscalar)
    exact ⟨_, ⟨htype, _, hoperand', hscalar⟩, rfl⟩
  | .binary _ _ _ lhs rhs, _, ⟨hlhs, hrhs, hscalar, hassign⟩ => by
    obtain ⟨left, hlhs', hleft⟩ := Expr.OfType.reorder h hu lhs hlhs
    obtain ⟨right, hrhs', hright⟩ := Expr.OfType.reorder h hu rhs hrhs
    obtain rfl := Ty.eq_of_outline hleft (Ty.ne_func_of_isScalar hscalar)
    obtain rfl := Ty.eq_of_outline hright (Ty.ne_func_of_isScalar hscalar)
    exact ⟨_, ⟨hlhs', hrhs', hscalar, hassign⟩, rfl⟩
  | .call _ _ _ args _, _, ⟨params, hcallee, hargs⟩ => by
    obtain ⟨type', hcallee', houtline⟩ := Ident.OfType.reorder h hu hcallee
    obtain ⟨params', rfl, hparams⟩ := Ty.exists_of_outline_func houtline
    exact ⟨_, ⟨params', hcallee', Expr.ArgsOfType.reorder h hu args hparams hargs⟩, rfl⟩
  | .index _ _ _ position _, _, ⟨len, place, harray, hposition, hscalar⟩ => by
    obtain ⟨type', harray', houtline⟩ := Ident.OfType.reorder h hu harray
    obtain rfl := Ty.eq_of_outline houtline (by simp)
    obtain ⟨place', hposition', hplace⟩ := Expr.OfType.reorder h hu position hposition
    obtain rfl := Ty.eq_of_outline hplace (Ty.ne_func_of_isScalar hscalar)
    exact ⟨_, ⟨len, _, harray', hposition', hscalar⟩, rfl⟩

theorem Expr.ArgsOfType.reorder (h : r.Alike decls r') (hu : r.Uniform decls) :
    (args : List Expr) → {params params' : List Ty} → params.map Ty.passed = params'.map Ty.passed →
    Expr.ArgsOfType r params args → Expr.ArgsOfType r' params' args
  | [], [], [], _, _ => trivial
  | arg :: args, param :: params, param' :: params', hpassed, ⟨⟨type, harg, hfits⟩, hargs⟩ => by
    obtain ⟨hparam, hparams⟩ := List.cons.inj hpassed
    obtain ⟨type', harg', houtline⟩ := Expr.OfType.reorder h hu arg harg
    obtain rfl := Ty.eq_of_outline houtline (Ty.ne_func_of_compatible hfits)
    exact ⟨⟨_, harg', Ty.compatible_of_passed hparam hfits⟩,
      Expr.ArgsOfType.reorder h hu args hparams hargs⟩

end

/-- An expression that is no function keeps its type. -/
theorem Expr.OfType.reorder_of_ne_func (h : r.Alike decls r') (hu : r.Uniform decls) {e : Expr}
    {type : Ty} (hof : e.OfType r type) (hne : ∀ result params, type ≠ .func result params) :
    e.OfType r' type := by
  obtain ⟨type', hof', houtline⟩ := Expr.OfType.reorder h hu e hof
  rw [Ty.eq_of_outline houtline hne]
  exact hof'

/-! Statements. -/

theorem Expr.IsCondition.reorder (h : r.Alike decls r') (hu : r.Uniform decls) {cond : Expr}
    (hcond : cond.IsCondition r) : cond.IsCondition r' := by
  obtain ⟨type, hof, hscalar⟩ := hcond
  exact ⟨type, hof.reorder_of_ne_func h hu (Ty.ne_func_of_isScalar hscalar), hscalar⟩

theorem Ty.IsVariable.reorder (h : r.Alike decls r') (hu : r.Uniform decls) {type : Ty}
    {init : Option Expr} (hvar : type.IsVariable r init) : type.IsVariable r' init := by
  cases init with
  | none => exact hvar
  | some init =>
    obtain ⟨hscalar, hof⟩ := hvar
    exact ⟨hscalar, hof.reorder_of_ne_func h hu (Ty.ne_func_of_isScalar hscalar)⟩

theorem Ty.IsReturned.reorder (h : r.Alike decls r') (hu : r.Uniform decls) {result : Ty}
    {value : Option Expr} (hreturned : result.IsReturned r value) : result.IsReturned r' value := by
  cases value with
  | none => exact hreturned
  | some value =>
    obtain ⟨hvoid, type, hof, hfits⟩ := hreturned
    exact ⟨hvoid, type, hof.reorder_of_ne_func h hu (Ty.ne_func_of_compatible hfits), hfits⟩

theorem Decl.IsLocal.reorder (h : r.Alike decls r') (hu : r.Uniform decls) {d : Decl}
    (hlocal : d.IsLocal r) : d.IsLocal r' := by
  cases d with
  | var id name span written init =>
    obtain ⟨type, hmeans, hvar⟩ := hlocal
    exact ⟨type, hmeans.reorder h, hvar.reorder h hu⟩
  | func _ _ _ _ _ | basic _ _ _ _ | typedef _ _ _ _ => exact hlocal.elim

mutual

theorem Stmt.Valid.reorder (h : r.Alike decls r') (hu : r.Uniform decls) {result : Ty} :
    (s : Stmt) → s.Valid r result → s.Valid r' result
  | .block _ _ items _, hvalid => Item.AllValid.reorder h hu items hvalid
  | .empty .., _ => trivial
  | .expr _ value, ⟨type, hof⟩ => by
    obtain ⟨type', hof', _⟩ := Expr.OfType.reorder h hu value hof
    exact ⟨type', hof'⟩
  | .branch _ _ _ onTrue none, ⟨hcond, honTrue⟩ =>
    ⟨hcond.reorder h hu, Stmt.Valid.reorder h hu onTrue honTrue⟩
  | .branch _ _ _ onTrue (some onFalse), ⟨hcond, honTrue, honFalse⟩ =>
    ⟨hcond.reorder h hu, Stmt.Valid.reorder h hu onTrue honTrue,
      Stmt.Valid.reorder h hu onFalse honFalse⟩
  | .ret _ _ _, hvalid => Ty.IsReturned.reorder h hu hvalid
  | .loop _ _ _ body, ⟨hcond, hbody⟩ => ⟨hcond.reorder h hu, Stmt.Valid.reorder h hu body hbody⟩

theorem Item.Valid.reorder (h : r.Alike decls r') (hu : r.Uniform decls) {result : Ty} :
    (item : Item) → item.Valid r result → item.Valid r' result
  | .decl _, hvalid => Decl.IsLocal.reorder h hu hvalid
  | .stmt s, hvalid => Stmt.Valid.reorder h hu s hvalid

theorem Item.AllValid.reorder (h : r.Alike decls r') (hu : r.Uniform decls) {result : Ty} :
    (items : List Item) → Item.AllValid r result items → Item.AllValid r' result items
  | [], _ => trivial
  | item :: rest, ⟨hitem, hrest⟩ =>
    ⟨Item.Valid.reorder h hu item hitem, Item.AllValid.reorder h hu rest hrest⟩

end

theorem Decl.Fits.reorder (h : r.Alike decls r') (hu : r.Uniform decls) {d : Decl} {type : Ty}
    (hfits : d.Fits r type) : d.Fits r' type := by
  cases d with
  | func id name span signature body =>
    cases body with
    | none => trivial
    | some body =>
      obtain ⟨result, params, htype, hvalid, hreturns⟩ := hfits
      exact ⟨result, params, htype, Stmt.Valid.reorder h hu body hvalid, hreturns⟩
  | var id name span written init => exact Ty.IsVariable.reorder h hu hfits
  | basic _ _ _ _ | typedef _ _ _ _ => trivial

end

/-! Whole programs. -/

section

variable {p : Program} {file : List Decl} {r r' : Resolution} {t : TypeTable}

/-- What is declared at file level, if it is not a type, has a size or is a function. -/
theorem Decl.Valid.isDeclared (hsig : p.FunctionSignatures) {d : Decl} (hd : d ∈ p.file)
    (hvalue : d.isType = false) (hvalid : d.Valid r) {type : Ty} (hmeans : d.Means r type) :
    type.IsDeclared := by
  obtain ⟨found, hfound, _, hfits⟩ := hvalid
  obtain rfl : found = type := hfound.unique hmeans
  cases d with
  | func id name span signature body =>
    have hfunc : signature.isFunc = true := hsig _ (p.enter_mem_of_mem_file hd)
    cases hmeans with
    | func hsignature hresult =>
      cases hsignature with
      | named | array => simp [TypeExpr.isFunc] at hfunc
      | func _ hparams =>
        exact .inr ⟨_, _, rfl, Bool.or_eq_true_iff.mp (hresult _ _ rfl), hparams.isParam⟩
  | var id name span written init =>
    cases init with
    | none => exact .inl hfits
    | some init => exact .inl (Ty.isComplete_of_isScalar hfits.1)
  | basic _ _ _ _ | typedef _ _ _ _ => cases hvalue

/-- Each declaration is compared with the binding of its name only, and an array without a length
agrees with arrays of different lengths. But variables have a length, and what functions take is
compared without it. -/
theorem Program.uniform (hp : p.Coherent) (hsig : p.FunctionSignatures) (hr : p.resolve = .ok r)
    (hvalid : ∀ d ∈ p.file, d.Valid r) : r.Uniform p.file := by
  obtain ⟨hcoexist, hfile⟩ := resolve_coexist hp.numbered hr
  have hdeclared : ∀ d ∈ p.file, d.isType = false → ∀ type, d.Means r type → type.IsDeclared :=
    fun d hd hvalue _ => (hvalid d hd).isDeclared hsig hd hvalue
  have hbound : ∀ d ∈ p.file, d.isType = false → ∀ d₀, Decl.bindingOf p.file d.name = some d₀ →
      ∃ bound type, d₀.Means r bound ∧ d.Means r type ∧ bound.outline = type.outline := by
    intro d hd hvalue d₀ hd₀
    obtain ⟨hmem₀, hname₀⟩ := Decl.mem_of_bindingOf hd₀
    obtain ⟨type, hmeans, hagrees, _⟩ := hvalid d hd
    by_cases hself : d₀ = d
    · subst hself
      exact ⟨type, type, hmeans, hmeans, rfl⟩
    · obtain ⟨bound, hmeans₀, hsame⟩ := hagrees d₀ ((hfile d.name).trans hd₀) hself
      obtain ⟨_, hsort, _⟩ := (hcoexist d₀ hmem₀ d hd hname₀).resolve_left hself
      have hbound := hdeclared d₀ hmem₀ (Decl.isType_of_sameSort hsort).1 bound hmeans₀
      have htype := hdeclared d hd hvalue type hmeans
      exact ⟨bound, type, hmeans₀, hmeans, (Ty.sameDecl_iff_outline hbound htype).mp hsame⟩
  intro d hd d' hd' hname hsort
  obtain ⟨hvalue, hvalue'⟩ := Decl.isType_of_sameSort hsort
  obtain ⟨d₀, hd₀⟩ := Decl.exists_bindingOf hd
  obtain ⟨bound, type, hmeans₀, hmeans, houtline⟩ := hbound d hd hvalue d₀ hd₀
  obtain ⟨bound', type', hmeans₀', hmeans', houtline'⟩ := hbound d' hd' hvalue' d₀ (hname ▸ hd₀)
  obtain rfl : bound = bound' := hmeans₀.unique hmeans₀'
  have hsame : type.outline = type'.outline := houtline.symm.trans houtline'
  refine ⟨type, type', hmeans, hmeans', hsame, ?_⟩
  exact (Ty.sameDecl_iff_outline (hdeclared d hd hvalue type hmeans)
    (hdeclared d' hd' hvalue' type' hmeans')).mpr hsame

/-- What is valid in one order is valid in every order. -/
theorem Program.Regular.check_reorder (h : p.Regular) (hperm : p.file.Perm file)
    (hr : p.resolve = .ok r) (ht : p.check r = .ok t)
    (hr' : Program.resolve { p with file := file } = .ok r') (halike : r.Alike p.file r') :
    ∃ t', Program.check { p with file := file } r' = .ok t' := by
  have hother := h.reorder hperm
  have hcovers' := Program.resolve_covers hr'
  have hvalid : ∀ d ∈ p.file, d.Valid r :=
    fun d hd => (p.check_records h.coherent (p.resolve_covers hr) ht d hd).1
  have huniform := Program.uniform h.coherent h.signatures hr hvalid
  refine Program.exists_check hother.coherent hcovers' ?_
  intro d hd
  have hmem : d ∈ p.file := hperm.mem_iff.mpr hd
  obtain ⟨type, hmeans, _, hfits⟩ := hvalid d hmem
  refine ⟨type, hmeans.reorder halike, ?_, hfits.reorder halike huniform⟩
  intro d₀ hd₀ hne
  obtain ⟨hmem₀, hname₀⟩ := hcovers'.binding_mem d.name d₀ hd₀
  obtain ⟨hsort, _⟩ := (Program.fileBinding_repeats hother.tree hother.bodies hother.params hr' hd
    hd₀).resolve_left hne
  obtain ⟨bound, found, hbound, hfound, _, hsame⟩ :=
    huniform d₀ (hperm.mem_iff.mpr hmem₀) d hmem hname₀ hsort
  obtain rfl : found = type := hfound.unique hmeans
  exact ⟨bound, hbound.reorder halike, hsame⟩

end

end MicroC
