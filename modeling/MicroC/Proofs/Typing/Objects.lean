import MicroC.Proofs.Typing.Table

/-!
What the lowering can rely on. A checked program has a type for every variable wherever it
is declared, and that type is one that a parameter could have; a function that is used as a
value has a function type. The tables of such a program are consistent with it.
-/

namespace MicroC

mutual

theorem Expr.decl_not_mem_events : (e : Expr) → (d : Decl) → .enter (.decl d) ∉ e.events
  | .literal .., d => by simp [Expr.events]
  | .binary _ _ _ lhs rhs, d => by
    simp [Expr.events, lhs.decl_not_mem_events d, rhs.decl_not_mem_events d]
  | .call _ callee _ args _, d => by
    simp [Expr.events, Expr.decl_not_mem_eventsAll args d]
  | .name _ ident, d => by simp [Expr.events]
  | .index _ array _ position _, d => by simp [Expr.events, position.decl_not_mem_events d]
  | .paren _ _ inner _, d => by simp [Expr.events, inner.decl_not_mem_events d]
  | .unary _ _ _ operand, d => by simp [Expr.events, operand.decl_not_mem_events d]

theorem Expr.decl_not_mem_eventsAll : (es : List Expr) → (d : Decl) →
    .enter (.decl d) ∉ Expr.eventsAll es
  | [], d => by simp [Expr.eventsAll]
  | e :: rest, d => by
    simp [Expr.eventsAll, e.decl_not_mem_events d, Expr.decl_not_mem_eventsAll rest d]

end

/-- A parameter that is a function is known to be one by its signature, or there are none. -/
def Program.ClearParams (p : Program) : Prop := p.FunctionSignatures ∨ p.VariableParams

theorem Program.ClearParams.of_mem {p : Program} (h : p.ClearParams) {id : TypeId}
    {result : TypeExpr} {lparen rparen : Span} {params : List Decl}
    (hin : .enter (.type (.func id result lparen params rparen)) ∈ p.events) {d : Decl}
    (hd : d ∈ params) : d.isVar ∨ p.FunctionSignatures := by
  rcases h with hsig | hvars
  · exact .inr hsig
  · have hall : params.all Decl.isVar = true := hvars _ hin
    exact .inl (List.all_eq_true.mp hall d hd)

/-- A variable has the type of an object. -/
def Decl.IsObject (a : Analysis) (d : Decl) : Prop :=
  d.isVar → ∃ type, a.types.decl? d = some type ∧ type.isParam

namespace TypeTable.Sound

variable {p : Program} {r : Resolution} {t : TypeTable}

/-- The type of a function whose signature is written out. -/
theorem func_type (ht : t.Sound p r) (hsig : p.FunctionSignatures) {id : DeclId} {name : String}
    {span : Span} {signature : TypeExpr} {body : Option Stmt} {type : Ty}
    (hd : p.Declares (.func id name span signature body))
    (hknown : t.decl? (.func id name span signature body) = some type) :
    ∃ tid written lparen params rparen result types,
      signature = .func tid written lparen params rparen ∧ type = .func result types ∧
      params.map t.decl? = types.map some ∧ (∀ τ ∈ types, τ.isParam) ∧
      (result.isScalar || result.isVoid) := by
  have hin := hd.entered (by simp [Decl.builtins])
  cases ht.decls _ _ hd hknown with
  | func hdenotes hresult =>
    have hfunc : signature.isFunc = true := hsig _ hin
    cases hdenotes with
    | named | array => simp [TypeExpr.isFunc] at hfunc
    | func _ htypes hparams =>
      exact ⟨_, _, _, _, _, _, _, rfl, rfl, htypes, hparams, hresult _ _ rfl⟩

end TypeTable.Sound

section

variable {p : Program} {r : Resolution} {t : TypeTable}

mutual

/-- The declarations inside a written type. -/
theorem TypeExpr.objects (ht : t.Sound p r) (hclear : p.ClearParams) :
    (written : TypeExpr) → .enter (.type written) ∈ p.events → ∀ type,
    written.Denotes ⟨r, t⟩ type → ∀ d, .enter (.decl d) ∈ written.events → d.IsObject ⟨r, t⟩
  | .named _ _, _, _, _, d, hd => by simp [TypeExpr.events] at hd
  | .array _ elem _ _ _, hin, _, hdenotes, d, hd => by
    have helem : .enter (.type elem) ∈ p.events :=
      p.events_subset hin (by simp [Node.events, TypeExpr.events, elem.enter_mem_events])
    cases hdenotes with
    | array hdenotes _ =>
      exact elem.objects ht hclear helem _ hdenotes d (by simpa [TypeExpr.events] using hd)
  | .func _ result _ params _, hin, _, hdenotes, d, hd => by
    have hresult : .enter (.type result) ∈ p.events :=
      p.events_subset hin (by simp [Node.events, TypeExpr.events, result.enter_mem_events])
    have hparams : ∀ d ∈ params, .enter (.decl d) ∈ p.events := by
      intro d hd
      refine p.events_subset hin ?_
      simp [Node.events, TypeExpr.events, Decl.mem_eventsAll hd d.enter_mem_events]
    cases hdenotes with
    | func hdenotes htypes hisParam =>
      have hcases : .enter (.decl d) ∈ result.events ∨ .enter (.decl d) ∈ Decl.eventsAll params := by
        simpa [TypeExpr.events] using hd
      rcases hcases with hd | hd
      · exact result.objects ht hclear hresult _ hdenotes d hd
      · exact Decl.paramObjects ht hclear params (fun _ hmem => hclear.of_mem hin hmem) hparams _
          htypes hisParam d hd

/-- A parameter, and the declarations inside it. -/
theorem Decl.paramObject (ht : t.Sound p r) (hclear : p.ClearParams) :
    (param : Decl) → param.isVar ∨ p.FunctionSignatures → .enter (.decl param) ∈ p.events →
    ∀ type, t.decl? param = some type → type.isParam →
    ∀ d, .enter (.decl d) ∈ param.events → d.IsObject ⟨r, t⟩
  | .func _ _ _ _ _, hfunc, hin, _, hknown, hparam, d, hd => by
    have hsig := hfunc.resolve_left (by simp [Decl.isVar])
    obtain ⟨_, _, _, _, _, _, _, _, rfl, _⟩ := ht.func_type hsig (.inr hin) hknown
    simp [Ty.isParam, Ty.isScalar] at hparam
  | .var _ _ _ written none, _, hin, type, hknown, hparam, d, hd => by
    have hwritten : .enter (.type written) ∈ p.events :=
      p.events_subset hin (by simp [Node.events, Decl.events, written.enter_mem_events])
    rcases Node.enter_mem_around.mp hd with heq | hinside
    · cases heq
      exact fun _ => ⟨type, hknown, hparam⟩
    · cases ht.decls _ _ (.inr hin) hknown with
      | var hdenotes => exact written.objects ht hclear hwritten _ hdenotes d hinside
  | .var _ _ _ written (some init), _, hin, type, hknown, hparam, d, hd => by
    have hwritten : .enter (.type written) ∈ p.events :=
      p.events_subset hin (by simp [Node.events, Decl.events, written.enter_mem_events])
    rcases Node.enter_mem_around.mp hd with heq | hinside
    · cases heq
      exact fun _ => ⟨type, hknown, hparam⟩
    · rcases List.mem_append.mp hinside with hinside | hinside
      · cases ht.decls _ _ (.inr hin) hknown with
        | var hdenotes => exact written.objects ht hclear hwritten _ hdenotes d hinside
      · exact absurd hinside (init.decl_not_mem_events d)
  | .basic .., _, _, _, _, _, d, hd => by
    rcases Node.enter_mem_around.mp hd with heq | hinside
    · cases heq
      simp [Decl.IsObject, Decl.isVar]
    · simp at hinside
  | .typedef _ _ _ target, _, hin, type, hknown, _, d, hd => by
    have htarget : .enter (.type target) ∈ p.events :=
      p.events_subset hin (by simp [Node.events, Decl.events, target.enter_mem_events])
    rcases Node.enter_mem_around.mp hd with heq | hinside
    · cases heq
      simp [Decl.IsObject, Decl.isVar]
    · cases ht.decls _ _ (.inr hin) hknown with
      | typedef hdenotes => exact target.objects ht hclear htarget _ hdenotes d hinside

theorem Decl.paramObjects (ht : t.Sound p r) (hclear : p.ClearParams) :
    (params : List Decl) → (∀ d ∈ params, d.isVar ∨ p.FunctionSignatures) →
    (∀ d ∈ params, .enter (.decl d) ∈ p.events) → ∀ types : List Ty,
    params.map t.decl? = types.map some → (∀ type ∈ types, type.isParam) →
    ∀ d, .enter (.decl d) ∈ Decl.eventsAll params → d.IsObject ⟨r, t⟩
  | [], _, _, _, _, _, d, hd => by simp [Decl.eventsAll] at hd
  | param :: params, _, hin, [], htypes, _, _, _ => by simp at htypes
  | param :: params, hfunc, hin, type :: types, htypes, hisParam, d, hd => by
    simp only [List.map_cons, List.cons.injEq] at htypes
    rcases List.mem_append.mp hd with hd | hd
    · exact param.paramObject ht hclear (hfunc param List.mem_cons_self)
        (hin param List.mem_cons_self) type htypes.1 (hisParam type List.mem_cons_self) d hd
    · exact Decl.paramObjects ht hclear params (fun d hd => hfunc d (List.mem_cons_of_mem _ hd))
        (fun d hd => hin d (List.mem_cons_of_mem _ hd)) types htypes.2
        (fun τ hτ => hisParam τ (List.mem_cons_of_mem _ hτ)) d hd

end

/-- A variable in a function or at file level. -/
theorem Decl.IsVariable.objects (ht : t.Sound p r) (hclear : p.ClearParams) {v : Decl}
    (hin : .enter (.decl v) ∈ p.events) (hv : v.IsVariable ⟨r, t⟩) {d : Decl}
    (hd : .enter (.decl d) ∈ v.events) : d.IsObject ⟨r, t⟩ := by
  cases hv with
  | plain hknown hcomplete =>
    exact Decl.paramObject ht hclear _ (.inl rfl) hin _ hknown (Ty.isParam_of_isComplete hcomplete) d hd
  | initialized hknown hscalar _ =>
    exact Decl.paramObject ht hclear _ (.inl rfl) hin _ hknown (Ty.isParam_of_isScalar hscalar) d hd

mutual

theorem Stmt.objects (ht : t.Sound p r) (hclear : p.ClearParams) {result : Ty} :
    (s : Stmt) → s.events ⊆ p.events → s.WellTyped ⟨r, t⟩ result →
    ∀ d, .enter (.decl d) ∈ s.events → d.IsObject ⟨r, t⟩
  | .block _ _ items _, hin, .block hitems, d, hd => by
    refine Item.objects ht hclear items ?_ hitems d (by simpa [Stmt.events] using hd)
    exact fun event hevent => hin (by simp [Stmt.events, Node.around, hevent])
  | .empty .., _, _, d, hd => by simp [Stmt.events] at hd
  | .expr _ value, _, _, d, hd => by
    simp [Stmt.events, value.decl_not_mem_events d] at hd
  | .branch _ _ cond onTrue none, hin, .branch _ _ honTrue, d, hd => by
    have hsub : onTrue.events ⊆ p.events :=
      fun event hevent => hin (by simp [Stmt.events, Node.around, hevent])
    exact onTrue.objects ht hclear hsub honTrue d
      (by simpa [Stmt.events, cond.decl_not_mem_events d] using hd)
  | .branch _ _ cond onTrue (some onFalse), hin, .branchElse _ _ honTrue honFalse, d, hd => by
    have hsubTrue : onTrue.events ⊆ p.events :=
      fun event hevent => hin (by simp [Stmt.events, Node.around, hevent])
    have hsubFalse : onFalse.events ⊆ p.events :=
      fun event hevent => hin (by simp [Stmt.events, Node.around, hevent])
    have hcases : .enter (.decl d) ∈ onTrue.events ∨ .enter (.decl d) ∈ onFalse.events := by
      simpa [Stmt.events, cond.decl_not_mem_events d] using hd
    rcases hcases with hd | hd
    · exact onTrue.objects ht hclear hsubTrue honTrue d hd
    · exact onFalse.objects ht hclear hsubFalse honFalse d hd
  | .ret _ _ none, _, _, d, hd => by simp [Stmt.events] at hd
  | .ret _ _ (some value), _, _, d, hd => by
    simp [Stmt.events, value.decl_not_mem_events d] at hd
  | .loop _ _ cond body, hin, .loop _ _ hbody, d, hd => by
    have hsub : body.events ⊆ p.events :=
      fun event hevent => hin (by simp [Stmt.events, Node.around, hevent])
    exact body.objects ht hclear hsub hbody d
      (by simpa [Stmt.events, cond.decl_not_mem_events d] using hd)

theorem Item.objects (ht : t.Sound p r) (hclear : p.ClearParams) {result : Ty} :
    (items : List Item) → Item.eventsAll items ⊆ p.events → Item.AllTyped ⟨r, t⟩ result items →
    ∀ d, .enter (.decl d) ∈ Item.eventsAll items → d.IsObject ⟨r, t⟩
  | [], _, _, d, hd => by simp [Item.eventsAll] at hd
  | .decl v :: rest, hin, .cons (.decl hv) hrest, d, hd => by
    rcases List.mem_append.mp hd with hd | hd
    · exact hv.objects ht hclear (hin (List.mem_append_left _ v.enter_mem_events)) hd
    · exact Item.objects ht hclear rest (fun e he => hin (List.mem_append_right _ he)) hrest d hd
  | .stmt s :: rest, hin, .cons (.stmt hs) hrest, d, hd => by
    rcases List.mem_append.mp hd with hd | hd
    · exact s.objects ht hclear (fun e he => hin (List.mem_append_left _ he)) hs d hd
    · exact Item.objects ht hclear rest (fun e he => hin (List.mem_append_right _ he)) hrest d hd

end

/-- The declarations inside the signature of a function. -/
theorem Decl.signatureObjects (ht : t.Sound p r) (hclear : p.ClearParams) {id : DeclId}
    {name : String} {span : Span} {signature : TypeExpr} {body : Option Stmt} {type : Ty}
    (hin : .enter (.decl (.func id name span signature body)) ∈ p.events)
    (hknown : t.decl? (.func id name span signature body) = some type) {d : Decl}
    (hd : .enter (.decl d) ∈ signature.events) : d.IsObject ⟨r, t⟩ := by
  have hsignature : .enter (.type signature) ∈ p.events := by
    refine p.events_subset hin ?_
    cases body <;> simp [Node.events, Decl.events, signature.enter_mem_events]
  cases ht.decls _ _ (.inr hin) hknown with
  | func hdenotes _ => exact signature.objects ht hclear hsignature _ hdenotes d hd

theorem Decl.WellTyped.objects (ht : t.Sound p r) (hclear : p.ClearParams) {global : Decl}
    (hglobal : global ∈ p.file) (h : global.WellTyped ⟨r, t⟩) {d : Decl}
    (hd : .enter (.decl d) ∈ global.events) : d.IsObject ⟨r, t⟩ := by
  have hin := p.enter_mem_of_mem_file hglobal
  cases h with
  | prototype hknown =>
    rcases Node.enter_mem_around.mp hd with heq | hd
    · cases heq
      simp [Decl.IsObject, Decl.isVar]
    · exact Decl.signatureObjects ht hclear hin hknown hd
  | definition hknown hbody =>
    rcases Node.enter_mem_around.mp hd with heq | hd
    · cases heq
      simp [Decl.IsObject, Decl.isVar]
    · rcases List.mem_append.mp hd with hd | hd
      · exact Decl.signatureObjects ht hclear hin hknown hd
      · refine Stmt.objects ht hclear _ ?_ hbody.typed d hd
        exact fun event hevent =>
          p.events_subset hin (by simp [Node.events, Decl.events, Node.around, hevent])
  | var hvar => exact hvar.objects ht hclear hin hd
  | typeName htype hknown =>
    cases global with
    | func _ _ _ _ _ | var _ _ _ _ _ => simp [Decl.isType] at htype
    | basic _ _ _ _ =>
      rcases Node.enter_mem_around.mp hd with heq | hd
      · cases heq
        simp [Decl.IsObject, Decl.isVar]
      · simp at hd
    | typedef _ _ _ target =>
      rcases Node.enter_mem_around.mp hd with heq | hd
      · cases heq
        simp [Decl.IsObject, Decl.isVar]
      · have htarget : .enter (.type target) ∈ p.events :=
          p.events_subset hin (by simp [Node.events, Decl.events, target.enter_mem_events])
        cases ht.decls _ _ (.inr hin) hknown with
        | typedef hdenotes => exact target.objects ht hclear htarget _ hdenotes d hd

end

/-- The tables fit the program: what resolution and checking hand over. -/
structure Analysis.Checked (p : Program) (a : Analysis) : Prop where
  covers : a.resolution.Covers p
  sound : a.types.Sound p a.resolution
  typed : ∀ d ∈ p.file, d.WellTyped a
  objects : ∀ d, .enter (.decl d) ∈ p.events → d.IsObject a

/-- The lowering can also rely on written-out signatures. -/
structure Analysis.Consistent (p : Program) (a : Analysis) : Prop extends a.Checked p where
  signatures : p.FunctionSignatures

theorem Decl.exists_mem_of_eventsAll {event : Event} {ds : List Decl}
    (h : event ∈ Decl.eventsAll ds) : ∃ d ∈ ds, event ∈ d.events := by
  induction ds with
  | nil => simp [Decl.eventsAll] at h
  | cons d rest ih =>
    rcases List.mem_append.mp h with hd | hrest
    · exact ⟨d, List.mem_cons_self, hd⟩
    · obtain ⟨d', hd', hevent⟩ := ih hrest
      exact ⟨d', List.mem_cons_of_mem _ hd', hevent⟩

theorem Program.check_checked {p : Program} {r : Resolution} {t : TypeTable} (hp : p.Coherent)
    (hclear : p.ClearParams) (hr : p.resolve = .ok r) (ht : p.check r = .ok t) :
    Analysis.Checked p ⟨r, t⟩ := by
  have hcovers := p.resolve_covers hr
  obtain ⟨hsound, htyped⟩ := p.check_sound hp hcovers ht
  refine ⟨hcovers, hsound, htyped, ?_⟩
  intro d hd
  obtain ⟨global, hglobal, hin⟩ := Decl.exists_mem_of_eventsAll hd
  exact (htyped global hglobal).objects hsound hclear hglobal hin

theorem Program.check_consistent {p : Program} {r : Resolution} {t : TypeTable} (hp : p.Coherent)
    (hsig : p.FunctionSignatures) (hr : p.resolve = .ok r) (ht : p.check r = .ok t) :
    Analysis.Consistent p ⟨r, t⟩ :=
  ⟨p.check_checked hp (.inl hsig) hr ht, hsig⟩

/-- The parts of a function definition at file level with a written-out signature. -/
theorem TypeTable.Sound.definition {p : Program} {a : Analysis} (ha : a.types.Sound p a.resolution)
    (htyped : ∀ d ∈ p.file, d.WellTyped a) {id : DeclId} {name : String} {span : Span} {tid : TypeId}
    {written : TypeExpr} {lparen rparen : Span} {params : List Decl} {body : Stmt}
    (hd : Decl.func id name span (.func tid written lparen params rparen) (some body) ∈ p.file) :
    ∃ result types,
      a.types.decl? (.func id name span (.func tid written lparen params rparen) (some body)) =
        some (.func result types) ∧
      body.IsBody a (.func result types) result types ∧
      (∀ param ∈ params.zip types, a.types.decl? param.1 = some param.2 ∧ param.2.isParam) ∧
      (params.zip types).map Prod.fst = params ∧ (result.isScalar ∨ result.isVoid) := by
  cases htyped _ hd with
  | typeName htype _ => simp [Decl.isType] at htype
  | definition hknown hbody =>
    cases ha.decls _ _ (p.declares_of_mem_file hd) hknown with
    | func hdenotes hresult =>
      cases hdenotes with
      | func _ htypes hparams =>
        obtain ⟨rfl, rfl⟩ := Ty.func.inj hbody.type_eq
        have hlength := by simpa using congrArg List.length htypes
        refine ⟨_, _, hknown, hbody, ?_, List.map_fst_zip (Nat.le_of_eq hlength),
          Bool.or_eq_true_iff.mp (hresult _ _ rfl)⟩
        intro param hparam
        refine ⟨?_, hparams param.2 (List.of_mem_zip hparam).2⟩
        obtain ⟨i, hi⟩ := List.mem_iff_getElem?.mp hparam
        obtain ⟨hd, htype⟩ := List.getElem?_zip_eq_some.mp hi
        have hget := congrArg (·[i]?) htypes
        simpa [hd, htype] using hget

theorem Analysis.Checked.definition {p : Program} {a : Analysis} (ha : a.Checked p) {id : DeclId}
    {name : String} {span : Span} {tid : TypeId} {written : TypeExpr} {lparen rparen : Span}
    {params : List Decl} {body : Stmt}
    (hd : Decl.func id name span (.func tid written lparen params rparen) (some body) ∈ p.file) :
    ∃ result types,
      a.types.decl? (.func id name span (.func tid written lparen params rparen) (some body)) =
        some (.func result types) ∧
      body.IsBody a (.func result types) result types ∧
      (∀ param ∈ params.zip types, a.types.decl? param.1 = some param.2 ∧ param.2.isParam) ∧
      (params.zip types).map Prod.fst = params ∧ (result.isScalar ∨ result.isVoid) :=
  ha.sound.definition ha.typed hd

namespace Analysis.Consistent

variable {p : Program} {a : Analysis} {ident : Ident} {d : Decl} {type : Ty}

/-- The parts of a function definition at file level. -/
theorem definition (ha : a.Consistent p) {id : DeclId} {name : String} {span : Span}
    {signature : TypeExpr} {body : Stmt}
    (hd : Decl.func id name span signature (some body) ∈ p.file) :
    ∃ tid written lparen params rparen result types,
      signature = .func tid written lparen params rparen ∧
      a.types.decl? (.func id name span signature (some body)) = some (.func result types) ∧
      body.IsBody a (.func result types) result types ∧
      (∀ param ∈ params.zip types, a.types.decl? param.1 = some param.2 ∧ param.2.isParam) ∧
      (params.zip types).map Prod.fst = params ∧ (result.isScalar ∨ result.isVoid) := by
  have hsig : signature.isFunc = true := ha.signatures _ (p.enter_mem_of_mem_file hd)
  cases signature with
  | named _ _ | array _ _ _ _ _ => simp [TypeExpr.isFunc] at hsig
  | func tid written lparen params rparen =>
    obtain ⟨result, types, hrest⟩ := ha.toChecked.definition hd
    exact ⟨tid, written, lparen, params, rparen, result, types, rfl, hrest⟩

/-- A name with a type is a variable of such a type, or a function. -/
theorem ident_cases (ha : a.Consistent p) (h : ident.HasType a d type) :
    (d.isVar ∧ type.isParam) ∨
      ∃ id name span signature body result params, d = .func id name span signature body ∧
        type = .func result params := by
  have hdeclares := ha.covers.declares ident d h.declOf
  cases d with
  | func id name span signature body =>
    obtain ⟨_, _, _, _, _, result, types, _, rfl, _⟩ :=
      ha.sound.func_type ha.signatures hdeclares h.typeOf
    exact .inr ⟨id, name, span, signature, body, result, types, rfl, rfl⟩
  | var id name span written init =>
    obtain ⟨type', hknown, hparam⟩ := ha.objects _ (hdeclares.entered (by simp [Decl.builtins])) rfl
    obtain rfl : type' = type := Option.some.inj (hknown.symm.trans h.typeOf)
    exact .inl ⟨rfl, hparam⟩
  | basic _ _ _ _ | typedef _ _ _ _ =>
    have := h.isValue
    simp [Decl.isType] at this

/-- What is called is a function. -/
theorem isFunc_of_func {result : Ty} {params : List Ty} (ha : a.Consistent p)
    (h : ident.HasType a d (.func result params)) :
    ∃ id name span signature body, d = .func id name span signature body := by
  rcases ha.ident_cases h with ⟨_, hparam⟩ | ⟨id, name, span, signature, body, _, _, rfl, _⟩
  · simp [Ty.isParam, Ty.isScalar] at hparam
  · exact ⟨id, name, span, signature, body, rfl⟩

/-- What is not a function is stored somewhere. -/
theorem isVar_of_ne_func (ha : a.Consistent p) (h : ident.HasType a d type)
    (hne : ∀ result params, type ≠ .func result params) :
    ∃ id name span written init, d = .var id name span written init := by
  rcases ha.ident_cases h with ⟨hvar, _⟩ | ⟨_, _, _, _, _, result, params, _, heq⟩
  · cases d with
    | var id name span written init => exact ⟨id, name, span, written, init, rfl⟩
    | func _ _ _ _ _ | basic _ _ _ _ | typedef _ _ _ _ => simp [Decl.isVar] at hvar
  · exact absurd heq (hne result params)

end Analysis.Consistent

end MicroC
