import MicroC.Compilation
import MicroC.Proofs.Lowering.Success
import MicroC.Proofs.Syntax.Equality
import MicroC.Samples

/-!
The passes fit together. On a program whose functions have written-out signatures each pass
gives the next one all that it needs: the checker meets no unresolved name, and the lowering
can fail only over a global variable whose initial value cannot be computed.
-/

namespace MicroC

open LowerM

theorem Ty.machine_of_isVoid {t : Ty} (h : t.isVoid) : t.machine = .void := by
  cases t with
  | basic kind =>
    cases kind with
    | void => rfl
    | char | int => simp [Ty.isVoid] at h
  | array _ _ | func _ _ => simp [Ty.isVoid] at h

section

variable {p : Program} {a : Analysis} {b : Ir.Builder} {ret : Ir.Ty} {P : Ir.BlockId → Prop}

theorem Ir.Builder.isSome_binding?_bind (d : DeclId) (v : Ir.Value) (id : DeclId) :
    ((b.bind d v).binding? id).isSome ↔ (b.binding? id).isSome ∨ d = id := by
  rw [Ir.Builder.binding?_bind]
  split <;> simp [*]

/-- All parameters get bound. -/
theorem Decl.spillParams_open {params : List (Decl × Ty)} {index : Nat}
    (hlength : index + params.length ≤ b.params.length) (hb : b.Open ret P) :
    (Decl.spillParams index params).Yields b fun _ b' => b'.Open ret P ∧
      ∀ id, (b'.binding? id).isSome ↔ (b.binding? id).isSome ∨ ∃ param ∈ params, param.1.id = id := by
  induction params generalizing index b with
  | nil => exact ⟨hb, by simp⟩
  | cons param rest ih =>
    obtain ⟨d, type⟩ := param
    rw [List.length_cons] at hlength
    obtain ⟨value, hvalue⟩ : ∃ value, b.param? index = some value := by
      simp [Ir.Builder.param?, List.getElem?_eq_getElem (show index < b.params.length by omega)]
    obtain ⟨i, hi, _⟩ := hb.ready
    have hrest : ∀ {b' : Ir.Builder} {v : Ir.Value}, b'.params = b.params → b'.Open ret P →
        (∀ id, b'.binding? id = (b.bind d.id v).binding? id) →
        (Decl.spillParams (index + 1) rest).Yields b' fun _ b'' => b''.Open ret P ∧
          ∀ id, (b''.binding? id).isSome ↔
            (b.binding? id).isSome ∨ ∃ param ∈ (d, type) :: rest, param.1.id = id := by
      intro b' v hparams hopen hbindings
      refine Run.mono (ih (by rw [hparams]; omega) hopen) fun _ b'' ⟨hopen', hbound⟩ => ⟨hopen', ?_⟩
      intro id
      rw [hbound, hbindings, Ir.Builder.isSome_binding?_bind]
      simp [or_assoc]
    have hslot : (allocate (some (d.id, d.name)) type.machine >>= fun slot =>
        store value slot >>= fun _ => Decl.spillParams (index + 1) rest).Yields b
          fun _ b'' => b''.Open ret P ∧ ∀ id, (b''.binding? id).isSome ↔
            (b.binding? id).isSome ∨ ∃ param ∈ (d, type) :: rest, param.1.id = id := by
      refine Run.bind_iff.mpr (allocate_some_yields hb.ready.blocks_ne_nil ?_)
      have hcurrent : (b.withLocal d.id d.name type.machine).current = some i := hi
      refine Run.bind_iff.mpr (Run.discard_iff.mpr (emit_yields hcurrent ?_))
      exact hrest rfl (hb.of_same rfl (by simp) rfl) fun _ => rfl
    unfold Decl.spillParams
    refine Run.bind_iff.mpr (Run.get_iff.mpr ?_)
    rw [hvalue]
    cases type with
    | array elem len => exact hrest rfl (hb.of_same rfl (fun _ => Iff.rfl) rfl) fun _ => rfl
    | basic kind => exact hslot
    | func result params => exact hslot

/-- The state in which the body of a function is begun. -/
def Decl.startBuilder (name : String) (result : Ty) (params : List (Decl × Ty)) : Ir.Builder :=
  .new name result.machine (params.map fun param => ⟨param.1.name, param.2.machineParam⟩)

/-- The body of a function can be completed unless a name in it is used wrongly. -/
theorem Stmt.lowerBody_settles {I : Ir.Builder → Prop} {wrong : Ident → Prop} (ha : a.Judges I wrong)
    {name : String} {type result : Ty} {types : List Ty} {params : List (Decl × Ty)} {body : Stmt}
    (hbody : body.IsBody a type result types)
    (hparams : ∀ b : Ir.Builder,
      (∀ id, (b.binding? id).isSome ↔ ∃ param ∈ params, param.1.id = id) → I b)
    (hlocals : ∀ d, .enter (.decl d) ∈ body.events → d.isVar → d.Respects I) :
    (body.lowerBody a params).Settles (∃ ident ∈ body.usedNames, wrong ident)
      (Decl.startBuilder name result params) fun _ _ => True := by
  let start := Decl.startBuilder name result params
  have hstart : (discard (build (·.startBody)) : LowerM Unit).Yields start
      fun _ b' => b' = (start.withBlock "entry").withCurrent (some 0) :=
    Run.discard_iff.mpr (LowerM.Yields.build (Ir.Builder.startBody_eq rfl) rfl)
  refine hstart.bindSettles fun _ b₁ h₁ => ?_
  subst h₁
  refine (Decl.spillParams_open (by simp [start, Decl.startBuilder, Ir.Builder.new])
    (Ir.Builder.startBody_open rfl rfl)).bindSettles ?_
  rintro _ b₂ ⟨h₂, hbound⟩
  have hknown : I b₂ := hparams b₂ fun id => by
    rw [hbound]
    simp [start, Decl.startBuilder, Ir.Builder.new, Ir.Builder.binding?]
  refine (Stmt.lower_settles ha hbody.typed hlocals ⟨h₂, hknown⟩).bindYields ?_
  rintro _ b₃ ⟨h₃, _⟩
  cases hreturns : body.alwaysReturns with
  | true =>
    rw [hreturns] at h₃
    have hend := Ir.Builder.endBody_eq_of_closed h₃.current fun i hi => (h₃.unfinished i).mp hi.1
    exact .build hend trivial
  | false =>
    rw [hreturns] at h₃
    have hvoid : b₃.result = .void := by
      rw [h₃.result_eq]
      exact Ty.machine_of_isVoid (hbody.returns.resolve_right (by simp [hreturns]))
    obtain ⟨id, hid, hopen⟩ := h₃.ready
    have hend := Ir.Builder.endBody_eq_of_ready hid hopen hvoid fun i hi => (h₃.pending i).mp hi
    exact .build hend trivial

/-- Where signatures are written out, no name can be used wrongly. -/
theorem Analysis.Consistent.judges (ha : a.Consistent p) :
    a.Judges (fun _ => True) fun _ => False where
  ofBindings := fun _ _ _ _ => trivial
  called := by
    intro ident d result params h
    obtain ⟨_, _, _, _, _, rfl⟩ := ha.isFunc_of_func h
    simp [Decl.isFunc]
  read := by
    intro b ident d type _ h hne
    obtain ⟨_, _, _, _, _, rfl⟩ := ha.isVar_of_ne_func h hne
    simp [Decl.isVar]

/-- The body of a function can be completed. -/
theorem Stmt.lowerBody_yields (ha : a.Consistent p) {name : String} {type result : Ty}
    {types : List Ty} {params : List (Decl × Ty)} {body : Stmt}
    (hbody : body.IsBody a type result types) :
    (body.lowerBody a params).Yields (Decl.startBuilder name result params) fun _ _ => True :=
  (Stmt.lowerBody_settles ha.judges hbody (fun _ _ => trivial)
    fun _ _ _ _ _ _ _ => trivial).yields (by simp)

section

variable {id : DeclId} {name : String} {span : Span} {tid : TypeId} {written : TypeExpr}
  {lparen rparen : Span} {decls : List Decl} {result : Ty} {types : List Ty}

theorem Decl.lowerFunction_prototype
    (hknown : a.types.decl? (.func id name span (.func tid written lparen decls rparen) none) =
      some (.func result types)) :
    (Decl.func id name span (.func tid written lparen decls rparen) none).lowerFunction a =
      .ok (Decl.startBuilder name result (decls.zip types)).toFunction := by
  simp only [Decl.lowerFunction, Decl.lowerFunctionBy, Analysis.Consistent.typeOf_eq hknown]
  rfl

/-- A function with a body is what its body is lowered to. -/
theorem Decl.lowerFunctionBy_definition {g : Guide} {body : Stmt}
    (hknown : g.typeOf (.func id name span (.func tid written lparen decls rparen) (some body)) =
      .ok (.func result types)) :
    (Decl.func id name span (.func tid written lparen decls rparen) (some body)).lowerFunctionBy g =
      body.lowerBody g (decls.zip types) (Decl.startBuilder name result (decls.zip types)) >>=
        fun out => .ok out.2.toFunction := by
  rw [Decl.lowerFunctionBy, hknown]
  rfl

theorem Decl.lowerFunction_definition {body : Stmt} {final : Ir.Builder}
    (hknown : a.types.decl? (.func id name span (.func tid written lparen decls rparen) (some body)) =
      some (.func result types))
    (hbody : body.lowerBody a (decls.zip types) (Decl.startBuilder name result (decls.zip types)) =
      .ok ((), final)) :
    (Decl.func id name span (.func tid written lparen decls rparen) (some body)).lowerFunction a =
      .ok final.toFunction := by
  rw [Decl.lowerFunction, Decl.lowerFunctionBy_definition (Analysis.Consistent.typeOf_eq hknown), hbody]
  rfl

end

/-- A top-level function can be lowered. -/
theorem Decl.lowerFunction_ok (ha : a.Consistent p) {id : DeclId} {name : String} {span : Span}
    {signature : TypeExpr} {body : Option Stmt}
    (hd : Decl.func id name span signature body ∈ p.file) :
    ∃ f, (Decl.func id name span signature body).lowerFunction a = .ok f := by
  cases body with
  | none =>
    cases ha.typed _ hd with
    | typeName htype _ => simp [Decl.isType] at htype
    | prototype hknown =>
      obtain ⟨_, _, _, _, _, _, _, rfl, rfl, _⟩ :=
        ha.sound.func_type ha.signatures (p.declares_of_mem_file hd) hknown
      exact ⟨_, Decl.lowerFunction_prototype hknown⟩
  | some body =>
    obtain ⟨_, _, _, _, _, _, _, rfl, hknown, hbody, _⟩ := ha.definition hd
    obtain ⟨_, final, hrun, _⟩ := (Stmt.lowerBody_yields ha hbody).exists_ok
    exact ⟨_, Decl.lowerFunction_definition hknown hrun⟩

end

/-- The initial value of a global variable can be computed if it has one. -/
def Decl.InitializerFolds : Decl → Prop
  | .var _ _ _ _ (some init) => ∃ v, init.fold = .ok v
  | _ => True

/-- What the names at file level stand for can be computed. -/
def Resolution.InitializersFold (r : Resolution) : Prop :=
  ∀ name d, r.fileBinding? name = some d → d.InitializerFolds

section

variable {p : Program} {a : Analysis}

theorem Decl.WellTyped.exists_type {d : Decl} (h : d.WellTyped a) :
    ∃ type, a.types.decl? d = some type := by
  cases h with
  | prototype hknown | definition hknown _ | typeName _ hknown => exact ⟨_, hknown⟩
  | var hvar =>
    cases hvar with
    | plain hknown _ | initialized hknown _ _ => exact ⟨_, hknown⟩

/-- A global variable can be lowered if its initial value can be computed. -/
theorem Decl.lowerGlobal_cases {d : Decl} (hd : d.WellTyped a) :
    (d.InitializerFolds ∧ ∃ g, d.lowerGlobal a = .ok g ∧ g.name = d.name) ∨
      (¬ d.InitializerFolds ∧ ∃ e, d.lowerGlobal a = .error (.const e)) := by
  obtain ⟨type, hknown⟩ := hd.exists_type
  unfold Decl.lowerGlobal
  rw [Analysis.Consistent.typeOf_eq hknown]
  cases d with
  | var id name span written init =>
    cases init with
    | none => exact .inl ⟨trivial, _, rfl, rfl⟩
    | some init =>
      cases hfold : init.fold with
      | ok v => exact .inl ⟨⟨v, hfold⟩, _, by simp only [hfold]; rfl, rfl⟩
      | error e =>
        refine .inr ⟨?_, e, by simp only [hfold]; rfl⟩
        rintro ⟨v, hv⟩
        simp [hfold] at hv
  | func _ _ _ _ _ | basic _ _ _ _ | typedef _ _ _ _ => exact .inl ⟨trivial, _, rfl, rfl⟩

/-- What a name stands for at file level, as far as that is known. -/
def Decl.bound (a : Analysis) (d : Decl) : Decl := (a.resolution.fileBinding? d.name).getD d

/-- Whether a declaration is the function that its name is bound to. -/
def Decl.isEmitted (a : Analysis) (d : Decl) : Bool := d.isFunc && (d.bound a).id = d.id

/-- What one top-level declaration does: it adds a function, a global variable or nothing, and
fails if the function cannot be lowered or the initial value of the variable cannot be computed. -/
theorem Decl.lowerInto_cases (hcovers : a.resolution.Covers p) (htyped : ∀ d ∈ p.file, d.WellTyped a)
    {d : Decl} (hd : d ∈ p.file) (m : Ir.Module) :
    (∃ m', d.lowerInto a m = .ok m' ∧ m'.globals = m.globals ∧
        (d.isVar → (m.global? d.name).isSome) ∧
        (d.isEmitted a → ∃ f, d.lowerFunction a = .ok f)) ∨
      (∃ binding g, d.lowerInto a m = .ok (m.addGlobal g) ∧ g.name = d.name ∧ d.isVar ∧
        a.resolution.fileBinding? d.name = some binding ∧ binding.InitializerFolds) ∨
      (∃ binding e, d.lowerInto a m = .error (.const e) ∧ d.isVar ∧
        a.resolution.fileBinding? d.name = some binding ∧ ¬ binding.InitializerFolds) ∨
      (∃ e, d.lowerInto a m = .error e ∧ d.isEmitted a ∧
        d.lowerFunction a = .error e) := by
  obtain ⟨binding, hbinding⟩ := hcovers.binding_some d hd
  obtain ⟨hmem, hname⟩ := hcovers.binding_mem d.name binding hbinding
  cases d with
  | func id name span signature body =>
    have hemitted : (Decl.func id name span signature body).isEmitted a =
        decide (binding.id = (Decl.func id name span signature body).id) := by
      rw [Decl.isEmitted, Decl.bound, hbinding]
      rfl
    by_cases hid : binding.id = (Decl.func id name span signature body).id
    · cases hf : (Decl.func id name span signature body).lowerFunction a with
      | ok f =>
        refine .inl ⟨m.addFunction f, ?_, rfl, by simp [Decl.isVar], fun _ => ⟨f, rfl⟩⟩
        simp only [Decl.lowerInto, hbinding, Option.getD_some, hid, if_true, hf]
        rfl
      | error e =>
        refine .inr (.inr (.inr ⟨e, ?_, by simp [hemitted, hid], rfl⟩))
        simp only [Decl.lowerInto, hbinding, Option.getD_some, hid, if_true, hf]
        rfl
    · refine .inl ⟨m, ?_, rfl, by simp [Decl.isVar], by simp [hemitted, hid]⟩
      simp only [Decl.lowerInto, hbinding, Option.getD_some, hid, if_false]
      rfl
  | var id name span written init =>
    cases hglobal : (m.global? (Decl.var id name span written init).name).isSome with
    | true =>
      refine .inl ⟨m, ?_, rfl, fun _ => rfl, nofun⟩
      simp only [Decl.lowerInto, hglobal, if_true]
      rfl
    | false =>
      right
      rcases Decl.lowerGlobal_cases (htyped binding hmem) with ⟨hfolds, g, hg, hgname⟩ | ⟨hfails, e, he⟩
      · refine .inl ⟨binding, g, ?_, hgname.trans hname, rfl, hbinding, hfolds⟩
        simp only [Decl.lowerInto, hbinding, Option.getD_some, hglobal, hg]
        rfl
      · refine .inr (.inl ⟨binding, e, ?_, rfl, hbinding, hfails⟩)
        simp only [Decl.lowerInto, hbinding, Option.getD_some, hglobal, he]
        rfl
  | basic _ _ _ _ | typedef _ _ _ _ =>
    exact .inl ⟨m, rfl, rfl, by simp [Decl.isVar], nofun⟩

/-- With written-out signatures only initial values can fail. -/
theorem Analysis.Consistent.lowerInto_cases (ha : a.Consistent p) {d : Decl} (hd : d ∈ p.file)
    (m : Ir.Module) :
    (∃ m', d.lowerInto a m = .ok m' ∧ m'.globals = m.globals ∧
        (d.isVar → (m.global? d.name).isSome)) ∨
      (∃ binding g, d.lowerInto a m = .ok (m.addGlobal g) ∧ g.name = d.name ∧
        a.resolution.fileBinding? d.name = some binding ∧ binding.InitializerFolds) ∨
      (∃ binding e, d.lowerInto a m = .error (.const e) ∧
        a.resolution.fileBinding? d.name = some binding ∧ ¬ binding.InitializerFolds) := by
  rcases Decl.lowerInto_cases ha.covers ha.typed hd m with
    ⟨m', hm', hglobals, hvar, _⟩ | ⟨binding, g, hone, hname, _, hrest⟩ |
    ⟨binding, e, hone, _, hrest⟩ | ⟨e, _, hemitted, hfails⟩
  · exact .inl ⟨m', hm', hglobals, hvar⟩
  · exact .inr (.inl ⟨binding, g, hone, hname, hrest⟩)
  · exact .inr (.inr ⟨binding, e, hone, hrest⟩)
  · cases d with
    | func id name span signature body =>
      obtain ⟨f, hf⟩ := Decl.lowerFunction_ok ha hd
      rw [hf] at hfails
      cases hfails
    | var _ _ _ _ _ | basic _ _ _ _ | typedef _ _ _ _ => cases hemitted

/-- Lowering fails only over an initial value. -/
theorem Program.lower_error (ha : a.Consistent p) {moduleName : String} {e : LowerError}
    (h : p.lower a moduleName = .error e) :
    (∃ error, e = .const error) ∧ ¬ a.resolution.InitializersFold := by
  have along : ∀ (ds : List Decl), (∀ d ∈ ds, d ∈ p.file) → ∀ m : Ir.Module,
      ds.foldlM (Decl.lowerInto a) m = .error e →
      (∃ error, e = .const error) ∧ ¬ a.resolution.InitializersFold := by
    intro ds
    induction ds with
    | nil =>
      intro _ m hrun
      cases hrun
    | cons d rest ih =>
      intro hds m hrun
      have hrest : ∀ d ∈ rest, d ∈ p.file := fun d hd => hds d (List.mem_cons_of_mem _ hd)
      rw [List.foldlM_cons] at hrun
      rcases ha.lowerInto_cases (hds d List.mem_cons_self) m with
        ⟨m', hd, _⟩ | ⟨_, g, hd, _⟩ | ⟨binding, error, hd, hbinding, hfails⟩
      · rw [hd] at hrun
        exact ih hrest m' hrun
      · rw [hd] at hrun
        exact ih hrest _ hrun
      · rw [hd] at hrun
        cases hrun
        exact ⟨⟨error, rfl⟩, fun hfolds => hfails (hfolds d.name binding hbinding)⟩
  exact along p.file (fun _ hd => hd) _ h

theorem Ir.Module.isSome_global?_addGlobal (m : Ir.Module) (g : Ir.Global) (name : String) :
    ((m.addGlobal g).global? name).isSome ↔ (m.global? name).isSome ∨ g.name = name := by
  simp [Ir.Module.global?, Ir.Module.addGlobal, List.find?_append]

/-- If lowering succeeds, all initial values were computed. -/
theorem Program.initializersFold_of_lower (ha : a.Consistent p) {moduleName : String}
    {m : Ir.Module} (h : p.lower a moduleName = .ok m) : a.resolution.InitializersFold := by
  let Folded (name : String) : Prop :=
    ∀ d, a.resolution.fileBinding? name = some d → d.InitializerFolds
  let Inv (seen : List Decl) (m : Ir.Module) : Prop :=
    (∀ name, (m.global? name).isSome → Folded name) ∧ ∀ d ∈ seen, d.isVar → Folded d.name
  have hstart : Inv [] { name := moduleName } := ⟨by simp [Ir.Module.global?], by simp⟩
  have hend : Inv p.file m := by
    refine foldlM_seen Inv ?_ hstart h
    intro seen d m m' hd ⟨hglobals, hseen⟩ hstep
    rcases ha.lowerInto_cases hd m with
      ⟨m₁, hone, heq, hvar⟩ | ⟨binding, g, hone, hname, hbinding, hfolds⟩ | ⟨_, _, hone, _⟩
    · obtain rfl : m₁ = m' := Except.ok.inj (hone.symm.trans hstep)
      refine ⟨fun name hname => hglobals name (by simpa [Ir.Module.global?, heq] using hname), ?_⟩
      intro d' hd' hisVar
      rcases List.mem_append.mp hd' with hold | hnew
      · exact hseen d' hold hisVar
      · obtain rfl := List.mem_singleton.mp hnew
        exact hglobals _ (hvar hisVar)
    · obtain rfl : m.addGlobal g = m' := Except.ok.inj (hone.symm.trans hstep)
      have hfolded : Folded d.name := by
        intro d' hd'
        obtain rfl := Option.some.inj (hbinding.symm.trans hd')
        exact hfolds
      constructor
      · intro name hsome
        rcases (m.isSome_global?_addGlobal g name).mp hsome with hold | hnew
        · exact hglobals name hold
        · rw [← hnew, hname]
          exact hfolded
      · intro d' hd' hisVar
        rcases List.mem_append.mp hd' with hold | hnew
        · exact hseen d' hold hisVar
        · obtain rfl := List.mem_singleton.mp hnew
          exact hfolded
    · rw [hone] at hstep
      cases hstep
  intro name d hd
  obtain ⟨hmem, hname⟩ := ha.covers.binding_mem name d hd
  cases d with
  | var id name span written init => exact hend.2 _ hmem rfl _ (hname ▸ hd)
  | func _ _ _ _ _ | basic _ _ _ _ | typedef _ _ _ _ => exact trivial

theorem Program.lower_cases (ha : a.Consistent p) (moduleName : String) :
    (a.resolution.InitializersFold ∧ ∃ m, p.lower a moduleName = .ok m) ∨
      (¬ a.resolution.InitializersFold ∧ ∃ e, p.lower a moduleName = .error (.const e)) := by
  cases hlower : p.lower a moduleName with
  | ok m => exact .inl ⟨Program.initializersFold_of_lower ha hlower, m, rfl⟩
  | error e =>
    obtain ⟨⟨error, rfl⟩, hfails⟩ := Program.lower_error ha hlower
    exact .inr ⟨hfails, error, rfl⟩

end

namespace Program

/-- The error of a compilation is that of its first pass that fails. -/
theorem compile_error_cases {p : Program} {settings : Settings} {e : CompileError}
    (h : p.compile settings = .error e) :
    (∃ error, p.resolve = .error error ∧ e = .resolve error) ∨
      (∃ r error, p.resolve = .ok r ∧ p.check r = .error error ∧ e = .type error) ∨
      ∃ r t error, p.resolve = .ok r ∧ p.check r = .ok t ∧
        p.lower ⟨r, t⟩ settings.moduleName = .error error ∧ e = .lower error := by
  rcases Except.bind_eq_error.mp h with hresolve | ⟨r, hr, h⟩
  · obtain ⟨error, hr, rfl⟩ := Except.mapError_eq_error.mp hresolve
    exact .inl ⟨error, hr, rfl⟩
  have hr := Except.mapError_eq_ok.mp hr
  rcases Except.bind_eq_error.mp h with hcheck | ⟨t, ht, h⟩
  · obtain ⟨error, ht, rfl⟩ := Except.mapError_eq_error.mp hcheck
    exact .inr (.inl ⟨r, error, hr, ht, rfl⟩)
  have ht := Except.mapError_eq_ok.mp ht
  rcases Except.bind_eq_error.mp h with hlower | ⟨m, _, h⟩
  · obtain ⟨error, hm, rfl⟩ := Except.mapError_eq_error.mp hlower
    exact .inr (.inr ⟨r, t, error, hr, ht, hm, rfl⟩)
  · cases h

/-- The passes of a compilation that succeeds. -/
theorem compile_ok {p : Program} {settings : Settings} {c : Compilation}
    (h : p.compile settings = .ok c) :
    p.resolve = .ok c.resolution ∧ p.check c.resolution = .ok c.types ∧
      p.lower ⟨c.resolution, c.types⟩ settings.moduleName = .ok c.module := by
  obtain ⟨r, hr, h⟩ := Except.bind_eq_ok.mp h
  obtain ⟨t, ht, h⟩ := Except.bind_eq_ok.mp h
  obtain ⟨m, hm, h⟩ := Except.bind_eq_ok.mp h
  cases h
  exact ⟨Except.mapError_eq_ok.mp hr, Except.mapError_eq_ok.mp ht, Except.mapError_eq_ok.mp hm⟩

/-- The passes fit together: the checker never meets an unresolved name, what is checked can be
lowered just when the initial values of the global variables can be computed, and no
compilation ends in an internal error. -/
theorem passes_fit (p : Program) (hp : p.Coherent) (hsig : p.FunctionSignatures) :
    (∀ r, p.resolve = .ok r → (∀ span, p.check r ≠ .error (.unresolved span)) ∧
      ∀ t, p.check r = .ok t → ∀ moduleName,
        ((∃ m, p.lower ⟨r, t⟩ moduleName = .ok m) ↔ r.InitializersFold) ∧
        (¬ r.InitializersFold → ∃ e, p.lower ⟨r, t⟩ moduleName = .error (.const e))) ∧
    ∀ settings e, p.compile settings = .error e → e.isInternal = false := by
  refine ⟨?_, ?_⟩
  · intro r hr
    refine ⟨p.check_ne_unresolved hp (p.resolve_covers hr), ?_⟩
    intro t ht moduleName
    have ha := p.check_consistent hp hsig hr ht
    rcases p.lower_cases ha moduleName with ⟨hfolds, hok⟩ | ⟨hfails, e, he⟩
    · exact ⟨⟨fun _ => hfolds, fun _ => hok⟩, fun hfails => absurd hfolds hfails⟩
    · refine ⟨⟨?_, fun hfolds => absurd hfolds hfails⟩, fun _ => ⟨e, he⟩⟩
      rintro ⟨m, hm⟩
      rw [he] at hm
      cases hm
  · intro settings e he
    rcases compile_error_cases he with
      ⟨error, _, rfl⟩ | ⟨r, error, hr, ht, rfl⟩ | ⟨r, t, error, hr, ht, hlower, rfl⟩
    · rfl
    · cases error with
      | unresolved span => exact absurd ht (p.check_ne_unresolved hp (p.resolve_covers hr) span)
      | mismatch | notAssignable | notCallable | notIndexable | argumentCount | literalOutOfRange
      | missingReturn | notAType | notAValue | invalidObjectType | unsupported => rfl
    · obtain ⟨⟨error, rfl⟩, _⟩ := p.lower_error (p.check_consistent hp hsig hr ht) hlower
      rfl

/-- A program with a global array and two functions, one with a loop. -/
theorem passes_fit_arraySum :
    Samples.arraySum.Coherent ∧ Samples.arraySum.FunctionSignatures ∧
    (∀ r, Samples.arraySum.resolve = .ok r →
      (∀ span, Samples.arraySum.check r ≠ .error (.unresolved span)) ∧
      ∀ t, Samples.arraySum.check r = .ok t → ∀ moduleName,
        ((∃ m, Samples.arraySum.lower ⟨r, t⟩ moduleName = .ok m) ↔ r.InitializersFold) ∧
        (¬ r.InitializersFold →
          ∃ e, Samples.arraySum.lower ⟨r, t⟩ moduleName = .error (.const e))) ∧
    ∀ settings e, Samples.arraySum.compile settings = .error e → e.isInternal = false := by
  have hp : Samples.arraySum.Coherent := by decide +kernel
  have hsig : Samples.arraySum.FunctionSignatures := by decide +kernel
  exact ⟨hp, hsig, passes_fit Samples.arraySum hp hsig⟩

end Program

end MicroC
