import MicroC.Proofs.Lowering.Handover

/-!
Checked programs whose functions cannot be lowered. The checker looks at the type that the
signature of a function denotes, the lowering also at the way it is written. Where a signature is
not written out, for instance because it is an alias of a function type, the two differ: a
declaration that the checker accepts is then turned down. The first function that is not written
out, or uses a name whose declaration does not fit its type, decides.
-/

namespace MicroC

open LowerM

/-- A declaration that does not fit its type: it has the type of a function and does not declare
one, or it declares a function of another type that is not a parameter either. -/
def Decl.Misfits (params : List Decl) (d : Decl) : Ty → Prop
  | .func .. => d.isFunc = false
  | .basic _ | .array .. => d.isFunc ∧ d ∉ params

/-- A name that is used as what it is not. -/
def Ident.Misused (a : Analysis) (params : List Decl) (ident : Ident) : Prop :=
  ∃ d type, ident.HasType a d type ∧ d.Misfits params type

/-- A function with a written-out signature whose body uses names as what they are. -/
def Decl.Lowerable (a : Analysis) : Decl → Prop
  | .func _ _ _ (.func _ _ _ params _) body =>
    ∀ s ∈ body, ¬ ∃ ident ∈ s.usedNames, ident.Misused a params
  | _ => False

/-- A function of the module that cannot be lowered. -/
def Decl.Refused (a : Analysis) (d : Decl) : Prop := d.isEmitted a ∧ ¬ d.Lowerable a

/-- A global variable whose initial value cannot be computed. -/
def Decl.Uncomputed (a : Analysis) (d : Decl) : Prop := d.isVar ∧ ¬ (d.bound a).InitializerFolds

/-- Besides variables just the parameters are bound. -/
def Ir.Builder.BindsParams (p : Program) (params : List Decl) (b : Ir.Builder) : Prop :=
  ∀ d, p.Declares d → d.isVar = false → ((b.binding? d.id).isSome ↔ d ∈ params)

section

variable {p : Program} {a : Analysis} {params : List Decl}

theorem Ident.HasType.misused_iff {ident : Ident} {d : Decl} {type : Ty}
    (h : ident.HasType a d type) : ident.Misused a params ↔ d.Misfits params type := by
  constructor
  · rintro ⟨d', type', h', hmisused⟩
    obtain rfl := Option.some.inj (h'.declOf.symm.trans h.declOf)
    obtain rfl := Option.some.inj (h'.typeOf.symm.trans h.typeOf)
    exact hmisused
  · intro hmisused
    exact ⟨d, type, h, hmisused⟩

theorem Analysis.judges_misused (hcovers : a.resolution.Covers p) :
    a.Judges (Ir.Builder.BindsParams p params) (Ident.Misused a params) where
  ofBindings := by
    intro b b' hbindings hb d hd hvar
    rw [Ir.Builder.binding?, hbindings]
    exact hb d hd hvar
  called := fun h => h.misused_iff
  read := by
    intro b ident d type hb h hne
    have hother : ident.Misused a params ↔ d.isFunc ∧ d ∉ params := by
      rw [h.misused_iff]
      cases type with
      | func result params => exact absurd rfl (hne result params)
      | basic _ | array _ _ => rfl
    have hbound := hb d (hcovers.declares ident d h.declOf)
    have hvalue := h.isValue
    rw [hother]
    cases d with
    | func id name span signature body =>
      rw [← hbound rfl, Option.not_isSome_iff_eq_none]
      simp [Decl.isFunc, Decl.isVar]
    | var _ _ _ _ _ => simp [Decl.isFunc, Decl.isVar]
    | basic _ _ _ _ | typedef _ _ _ _ => cases hvalue

/-- The variables inside a body are no parameters. -/
theorem Decl.respects_bindsParams (hp : p.Coherent) {d : Decl} (hd : p.Declares d) (hvar : d.isVar) :
    d.Respects (Ir.Builder.BindsParams p params) := by
  intro b name type hb d' hd' hvar'
  have hne : d.id ≠ d'.id := by
    intro hid
    rw [hp.decl_eq hd hd' hid, hvar'] at hvar
    cases hvar
  rw [← hb d' hd' hvar', Ir.Builder.withLocal, Ir.Builder.isSome_binding?_bind, or_iff_left hne]
  rfl

/-- After the parameters are bound. -/
theorem Ir.Builder.bindsParams_of_bound (hp : p.Coherent) {b : Ir.Builder}
    (hparams : ∀ param ∈ params, p.Declares param)
    (hb : ∀ id, (b.binding? id).isSome ↔ ∃ param ∈ params, param.id = id) : b.BindsParams p params := by
  intro d hd _
  rw [hb]
  constructor
  · rintro ⟨param, hparam, hid⟩
    rwa [← hp.decl_eq (hparams param hparam) hd hid]
  · intro hmem
    exact ⟨d, hmem, rfl⟩

theorem Decl.lowerFunction_of_not_isFunc {id : DeclId} {name : String} {span : Span}
    {signature : TypeExpr} {body : Option Stmt} {type : Ty}
    (hknown : a.types.decl? (.func id name span signature body) = some type)
    (hsignature : signature.isFunc = false) :
    (Decl.func id name span signature body).lowerFunction a =
      .error (.unexpected (.func id name span signature body) "function" span) := by
  simp only [Decl.lowerFunction, Decl.lowerFunctionBy, Analysis.Consistent.typeOf_eq hknown]
  cases signature with
  | func _ _ _ _ _ => cases hsignature
  | named _ _ | array _ _ _ _ _ => cases type <;> rfl

theorem Decl.lowerFunction_definition_error {id : DeclId} {name : String} {span : Span}
    {tid : TypeId} {written : TypeExpr} {lparen rparen : Span} {body : Stmt} {result : Ty}
    {types : List Ty} {e : LowerError}
    (hknown : a.types.decl? (.func id name span (.func tid written lparen params rparen) (some body)) =
      some (.func result types))
    (hbody : body.lowerBody a (params.zip types) (Decl.startBuilder name result (params.zip types)) =
      .error e) :
    (Decl.func id name span (.func tid written lparen params rparen) (some body)).lowerFunction a =
      .error e := by
  rw [Decl.lowerFunction, Decl.lowerFunctionBy_definition (Analysis.Consistent.typeOf_eq hknown), hbody]
  rfl

end

/-- What the checker finds out about every program that it accepts. -/
structure Analysis.Accepted (p : Program) (a : Analysis) : Prop where
  coherent : p.Coherent
  covers : a.resolution.Covers p
  sound : a.types.Sound p a.resolution
  typed : ∀ d ∈ p.file, d.WellTyped a

section

variable {p : Program} {a : Analysis}

/-- A body can be completed just when no name in it is misused. -/
theorem Analysis.Accepted.lowerBody_settles (ha : a.Accepted p) {id : DeclId} {name : String}
    {span : Span} {tid : TypeId} {written : TypeExpr} {lparen rparen : Span} {params : List Decl}
    {body : Stmt} {result : Ty} {types : List Ty}
    (hd : Decl.func id name span (.func tid written lparen params rparen) (some body) ∈ p.file)
    (hbody : body.IsBody a (.func result types) result types)
    (hfst : (params.zip types).map Prod.fst = params) :
    (body.lowerBody a (params.zip types)).Settles (∃ ident ∈ body.usedNames, ident.Misused a params)
      (Decl.startBuilder name result (params.zip types)) fun _ _ => True := by
  have hinside : ∀ d, .enter (.decl d) ∈
      (Decl.func id name span (.func tid written lparen params rparen) (some body)).events →
      p.Declares d := fun d hd' => .inr (p.mem_events hd hd')
  refine Stmt.lowerBody_settles (Analysis.judges_misused ha.covers) hbody ?_ ?_
  · intro b hb
    refine Ir.Builder.bindsParams_of_bound ha.coherent ?_ ?_
    · intro param hparam
      refine hinside param ?_
      simp [Decl.events, TypeExpr.events, Decl.mem_eventsAll hparam param.enter_mem_events]
    · intro id
      calc (b.binding? id).isSome ↔ ∃ param ∈ params.zip types, param.1.id = id := hb id
        _ ↔ ∃ param ∈ (params.zip types).map Prod.fst, param.id = id := by simp
        _ ↔ ∃ param ∈ params, param.id = id := by rw [hfst]
  · intro d hd' hvar
    exact Decl.respects_bindsParams ha.coherent (hinside d (by simp [Decl.events, hd'])) hvar

/-- A function can be lowered just when it is written out and uses names as what they are. -/
theorem Analysis.Accepted.lowerFunction_cases (ha : a.Accepted p) {d : Decl} (hd : d ∈ p.file)
    (hfunc : d.isFunc) :
    (d.Lowerable a ∧ ∃ f, d.lowerFunction a = .ok f) ∨
      (¬ d.Lowerable a ∧ ∃ d' expected span,
        d.lowerFunction a = .error (.unexpected d' expected span)) := by
  obtain ⟨type, hknown⟩ := (ha.typed d hd).exists_type
  cases d with
  | var _ _ _ _ _ | basic _ _ _ _ | typedef _ _ _ _ => cases hfunc
  | func id name span signature body =>
    cases signature with
    | named _ _ | array _ _ _ _ _ =>
      exact .inr ⟨not_false, _, _, _, Decl.lowerFunction_of_not_isFunc hknown rfl⟩
    | func tid written lparen params rparen =>
      cases body with
      | none =>
        cases ha.sound.decls _ _ (p.declares_of_mem_file hd) hknown with
        | func hdenotes _ =>
          cases hdenotes with
          | func _ _ _ =>
            exact .inl ⟨by simp [Decl.Lowerable], _, Decl.lowerFunction_prototype hknown⟩
      | some body =>
        obtain ⟨result, types, hknown, hbody, _, hfst, _⟩ := ha.sound.definition ha.typed hd
        have hsettles := ha.lowerBody_settles hd hbody hfst
        have hlowerable : (Decl.func id name span (.func tid written lparen params rparen)
            (some body)).Lowerable a ↔ ¬ ∃ ident ∈ body.usedNames, ident.Misused a params := by
          simp [Decl.Lowerable]
        rw [hlowerable]
        cases hrun : body.lowerBody a (params.zip types)
            (Decl.startBuilder name result (params.zip types)) with
        | ok out =>
          obtain ⟨⟨⟩, final⟩ := out
          exact .inl ⟨(Run.of_ok hsettles hrun).1, _, Decl.lowerFunction_definition hknown hrun⟩
        | error e =>
          obtain ⟨hmisused, d', expected, span, rfl⟩ := Run.of_error hsettles hrun
          exact .inr ⟨fun hright => hright hmisused, d', expected, span,
            Decl.lowerFunction_definition_error hknown hrun⟩

/-- The initial values of the variables that are in the module could be computed. -/
def Ir.Module.Computed (a : Analysis) (m : Ir.Module) : Prop :=
  ∀ name binding, (m.global? name).isSome → a.resolution.fileBinding? name = some binding →
    binding.InitializerFolds

theorem Decl.bound_eq {d binding : Decl} (h : a.resolution.fileBinding? d.name = some binding) :
    d.bound a = binding := by
  rw [Decl.bound, h, Option.getD_some]

theorem Decl.isFunc_of_isEmitted {d : Decl} (h : d.isEmitted a) : d.isFunc :=
  (Bool.and_eq_true_iff.mp h).1

/-- Only functions are refused. -/
theorem Decl.not_refused_of_isVar {d : Decl} (h : d.isVar) : ¬ d.Refused a := by
  rintro ⟨hemitted, _⟩
  cases d with
  | var _ _ _ _ _ => cases hemitted
  | func _ _ _ _ _ | basic _ _ _ _ | typedef _ _ _ _ => cases h

theorem Ir.Module.Computed.addGlobal {m : Ir.Module} {g : Ir.Global} {binding : Decl}
    (hm : m.Computed a) (hbinding : a.resolution.fileBinding? g.name = some binding)
    (hfolds : binding.InitializerFolds) : (m.addGlobal g).Computed a := by
  intro name binding' hsome hbinding'
  rcases (m.isSome_global?_addGlobal g name).mp hsome with hold | rfl
  · exact hm name binding' hold hbinding'
  · obtain rfl := Option.some.inj (hbinding.symm.trans hbinding')
    exact hfolds

/-- What one declaration does: it fails if it is refused or if its initial value cannot be
computed. -/
theorem Analysis.Accepted.lowerInto_cases (ha : a.Accepted p) {d : Decl} (hd : d ∈ p.file)
    {m : Ir.Module} (hm : m.Computed a) :
    (¬ d.Refused a ∧ ¬ d.Uncomputed a ∧ ∃ m', d.lowerInto a m = .ok m' ∧ m'.Computed a) ∨
      (¬ d.Refused a ∧ d.Uncomputed a ∧ ∃ e, d.lowerInto a m = .error (.const e)) ∨
      (d.Refused a ∧ ∃ d' expected span, d.lowerInto a m = .error (.unexpected d' expected span)) := by
  obtain ⟨binding, hbinding⟩ := ha.covers.binding_some d hd
  rcases Decl.lowerInto_cases ha.covers ha.typed hd m with
    ⟨m', hone, hglobals, hvar, hemitted⟩ | ⟨binding', g, hone, hname, hvar, hbinding', hfolds⟩ |
    ⟨binding', e, hone, hvar, hbinding', hfails⟩ | ⟨e, hone, hemitted, hfails⟩
  · refine .inl ⟨?_, ?_, m', hone, ?_⟩
    · rintro ⟨hself, hnot⟩
      obtain ⟨f, hf⟩ := hemitted hself
      rcases ha.lowerFunction_cases hd (Decl.isFunc_of_isEmitted hself) with
        ⟨hlowerable, _⟩ | ⟨_, _, _, _, herror⟩
      · exact hnot hlowerable
      · rw [hf] at herror
        cases herror
    · rintro ⟨hisVar, hnot⟩
      rw [Decl.bound_eq hbinding] at hnot
      exact hnot (hm d.name binding (hvar hisVar) hbinding)
    · intro name binding' hsome
      rw [Ir.Module.global?, hglobals] at hsome
      exact hm name binding' hsome
  · refine .inl ⟨Decl.not_refused_of_isVar hvar, ?_, _, hone, ?_⟩
    · rintro ⟨_, hnot⟩
      rw [Decl.bound_eq hbinding'] at hnot
      exact hnot hfolds
    · rw [← hname] at hbinding'
      exact hm.addGlobal hbinding' hfolds
  · refine .inr (.inl ⟨Decl.not_refused_of_isVar hvar, ⟨hvar, ?_⟩, e, hone⟩)
    rw [Decl.bound_eq hbinding']
    exact hfails
  · right; right
    rcases ha.lowerFunction_cases hd (Decl.isFunc_of_isEmitted hemitted) with
      ⟨_, f, hf⟩ | ⟨hnot, d', expected, span, herror⟩
    · rw [hf] at hfails
      cases hfails
    · rw [herror] at hfails
      cases hfails
      exact ⟨⟨hemitted, hnot⟩, d', expected, span, hone⟩

/-- Going through some declarations ends at the first one that is refused, unless an initial value
before it cannot be computed. -/
theorem Analysis.Accepted.foldlM_unexpected_iff (ha : a.Accepted p) {ds : List Decl}
    (hds : ∀ d ∈ ds, d ∈ p.file) {m : Ir.Module} (hm : m.Computed a) :
    (∃ name expected span,
      ds.foldlM (Decl.lowerInto a) m = .error (.unexpectedDecl name expected span)) ↔
    ∃ before f after, ds = before ++ f :: after ∧ f.Refused a ∧
      ∀ d ∈ before, ¬ d.Refused a ∧ ¬ d.Uncomputed a := by
  induction ds generalizing m with
  | nil =>
    constructor
    · rintro ⟨_, _, _, h⟩
      cases h
    · rintro ⟨before, f, after, h, _⟩
      simp at h
  | cons d rest ih =>
    have hrest : ∀ d ∈ rest, d ∈ p.file := fun d hd => hds d (List.mem_cons_of_mem _ hd)
    rw [List.foldlM_cons]
    rcases ha.lowerInto_cases (hds d List.mem_cons_self) hm with
      ⟨hnot, hcomputed, m', hone, hm'⟩ | ⟨hnot, hfails, e, hone⟩ | ⟨href, d', expected, span, hone⟩
    · rw [hone]
      refine (ih hrest hm').trans ?_
      constructor
      · rintro ⟨before, f, after, rfl, hf, hbefore⟩
        refine ⟨d :: before, f, after, rfl, hf, ?_⟩
        simpa [hnot, hcomputed] using hbefore
      · rintro ⟨before, f, after, heq, hf, hbefore⟩
        cases before with
        | nil =>
          obtain ⟨rfl, _⟩ := List.cons.inj heq
          exact absurd hf hnot
        | cons d' before =>
          obtain ⟨_, rfl⟩ := List.cons.inj heq
          exact ⟨before, f, after, rfl, hf, fun d hd => hbefore d (List.mem_cons_of_mem _ hd)⟩
    · rw [hone]
      constructor
      · rintro ⟨_, _, _, h⟩
        cases h
      · rintro ⟨before, f, after, heq, hf, hbefore⟩
        cases before with
        | nil =>
          obtain ⟨rfl, _⟩ := List.cons.inj heq
          exact absurd hf hnot
        | cons d' before =>
          obtain ⟨rfl, _⟩ := List.cons.inj heq
          exact absurd hfails (hbefore d List.mem_cons_self).2
    · rw [hone]
      exact ⟨fun _ => ⟨[], d, rest, rfl, href, by simp⟩, fun _ => ⟨_, _, _, rfl⟩⟩

end

namespace Program

variable {p : Program} {r : Resolution} {t : TypeTable}

theorem check_accepted (hp : p.Coherent) (hr : p.resolve = .ok r) (ht : p.check r = .ok t) :
    Analysis.Accepted p ⟨r, t⟩ := by
  have hcovers := p.resolve_covers hr
  obtain ⟨hsound, htyped⟩ := p.check_sound hp hcovers ht
  exact ⟨hp, hcovers, hsound, htyped⟩

/-- Where all signatures are written out, no function is refused. -/
theorem not_refused (hp : p.Coherent) (hsig : p.FunctionSignatures) (hr : p.resolve = .ok r)
    (ht : p.check r = .ok t) {f : Decl} (hf : f ∈ p.file) : ¬ f.Refused ⟨r, t⟩ := by
  rintro ⟨hemitted, hnot⟩
  have hfunc := Decl.isFunc_of_isEmitted hemitted
  rcases (check_accepted hp hr ht).lowerFunction_cases hf hfunc with
    ⟨hlowerable, _⟩ | ⟨_, _, _, _, herror⟩
  · exact hnot hlowerable
  · cases f with
    | var _ _ _ _ _ | basic _ _ _ _ | typedef _ _ _ _ => cases hfunc
    | func id name span signature body =>
      obtain ⟨F, hF⟩ := Decl.lowerFunction_ok (p.check_consistent hp hsig hr ht) hf
      rw [hF] at herror
      cases herror

/-- Which checked programs are not lowered because a declaration is not what it is used as: those
in which a function of the module has a signature that is not written out, or misuses a name, and
comes before all variables whose initial values cannot be computed. With a body every function has
the type of a function, and if all signatures are written out, no function is refused. -/
theorem lower_unexpected_iff (p : Program) (hp : p.Coherent) (r : Resolution) (t : TypeTable)
    (hr : p.resolve = .ok r) (ht : p.check r = .ok t) (moduleName : String) :
    ((∃ name expected span,
        p.lower ⟨r, t⟩ moduleName = .error (.unexpectedDecl name expected span)) ↔
      ∃ before f after, p.file = before ++ f :: after ∧ f.Refused ⟨r, t⟩ ∧
        ∀ d ∈ before, ¬ d.Refused ⟨r, t⟩ ∧ ¬ d.Uncomputed ⟨r, t⟩) ∧
    (∀ f ∈ p.file, f.isFunc → f.isDefinition →
      ∃ result types, t.decl? f = some (.func result types)) ∧
    (p.FunctionSignatures → ∀ f ∈ p.file, ¬ f.Refused ⟨r, t⟩) := by
  have ha := check_accepted hp hr ht
  refine ⟨?_, ?_, fun hsig f hf => not_refused hp hsig hr ht hf⟩
  · refine ha.foldlM_unexpected_iff (fun _ hd => hd) ?_
    intro name binding hsome
    simp [Ir.Module.global?] at hsome
  · intro f hf hfunc hdefinition
    cases ha.typed f hf with
    | definition hknown hbody =>
      obtain rfl := hbody.type_eq
      exact ⟨_, _, hknown⟩
    | prototype _ => cases hdefinition
    | var _ => cases hfunc
    | typeName htype _ =>
      cases f with
      | func _ _ _ _ _ => cases htype
      | var _ _ _ _ _ | basic _ _ _ _ | typedef _ _ _ _ => cases hfunc

/-- `int f(int g) return 0; int k(void) { return g; }` where the parameter `g` is declared as a
function. The body of `f` is not a block, so that `g` can still be seen in `k`. -/
def strayParam : Program := Build.finish do
  let intType ← Build.namedType "int"
  let g ← Build.addFunc "g" (← Build.textToken "g") intType none
  let body ← Build.ret (some (← Build.int 0))
  let intType ← Build.namedType "int"
  Build.push (← Build.func "f" intType [g] (some body))
  let result ← Build.ret (some (← Build.name "g"))
  let body ← Build.block [.stmt result]
  let intType ← Build.namedType "int"
  Build.push (← Build.func "k" intType [] (some body))

/-- The signatures of both functions are written out, and the second one misuses a name. -/
theorem lower_unexpected_iff_strayParam : (∀ d ∈ strayParam.file, (Node.decl d).signatureIsFunc) ∧
    ∃ r t, strayParam.resolve = .ok r ∧ strayParam.check r = .ok t ∧
      ∃ before f after, strayParam.file = before ++ f :: after ∧ f.Refused ⟨r, t⟩ ∧
        ∀ d ∈ before, ¬ d.Refused ⟨r, t⟩ ∧ ¬ d.Uncomputed ⟨r, t⟩ := by
  refine ⟨by decide +kernel, ?_⟩
  obtain ⟨r, hr, h⟩ : ∃ r, strayParam.resolve = .ok r ∧ (strayParam.check r).toOption.any fun t =>
      Except.error? (strayParam.lower ⟨r, t⟩ "main") =
        some (.unexpectedDecl "g" "variable" ⟨25, 26⟩) :=
    Except.exists_of_any (by decide +kernel)
  obtain ⟨t, ht, h⟩ := Except.exists_of_any h
  have hiff := lower_unexpected_iff strayParam (by decide +kernel) r t hr ht "main"
  exact ⟨r, t, hr, ht, hiff.1.mp ⟨_, _, _, Except.error?_eq_some_iff.mp (of_decide_eq_true h)⟩⟩

/-- `typedef int F(void); F f { return 0; }`: a function whose type is written as an alias. -/
def aliasedSignature : Program := Build.finish do
  let intType ← Build.namedType "int"
  Build.push (← Build.typedef (← Build.funcType intType []) "F")
  let aliasType ← Build.namedType "F"
  let result ← Build.ret (some (← Build.int 0))
  let body ← Build.block [.stmt result]
  Build.push (← Build.addFunc "f" (← Build.textToken "f") aliasType (some body))

/-- The checker accepts the function, and the lowering does not. -/
theorem aliasedSignature_unexpected : aliasedSignature.Coherent ∧ aliasedSignature.TreeShaped ∧
    aliasedSignature.BlockBodies ∧ aliasedSignature.VariableParams ∧
    ∃ r t, aliasedSignature.resolve = .ok r ∧ aliasedSignature.check r = .ok t ∧
      aliasedSignature.lower ⟨r, t⟩ "main" = .error (.unexpectedDecl "f" "function" ⟨25, 26⟩) := by
  refine ⟨by decide +kernel, by decide +kernel, by decide +kernel, by decide +kernel, ?_⟩
  obtain ⟨r, hr, h⟩ : ∃ r, aliasedSignature.resolve = .ok r ∧
      (aliasedSignature.check r).toOption.any fun t =>
        Except.error? (aliasedSignature.lower ⟨r, t⟩ "main") =
          some (.unexpectedDecl "f" "function" ⟨25, 26⟩) :=
    Except.exists_of_any (by decide +kernel)
  obtain ⟨t, ht, h⟩ := Except.exists_of_any h
  exact ⟨r, t, hr, ht, Except.error?_eq_some_iff.mp (of_decide_eq_true h)⟩

end Program

end MicroC
