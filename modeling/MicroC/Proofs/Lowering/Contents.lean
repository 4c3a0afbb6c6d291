import MicroC.Proofs.Lowering.Blocks
import MicroC.Proofs.Scope.Redeclaration

/-!
What the module of a program contains. A function name has one function, that of the declaration
which the name is bound to; a variable name has one global variable. The names of all of them
differ.
-/

namespace MicroC

open LowerM

section

variable {a : Analysis} {m m' : Ir.Module}

/-! Single declarations. -/

/-- The parts of a function that can be lowered: its signature is written out, and its body, if
there is one, can be lowered. -/
theorem Decl.lowerFunction_cases {d : Decl} {F : Ir.Function} (h : d.lowerFunction a = .ok F) :
    ∃ id name span tid written lparen decls rparen body result types,
      d = .func id name span (.func tid written lparen decls rparen) body ∧
      a.types.decl? d = some (.func result types) ∧
      ((body = none ∧ F = (Decl.startBuilder name result (decls.zip types)).toFunction) ∨
        ∃ s final, body = some s ∧ s.lowerBody a (decls.zip types)
          (Decl.startBuilder name result (decls.zip types)) = .ok ((), final) ∧
          F = final.toFunction) := by
  cases d with
  | var _ _ _ _ _ | basic _ _ _ _ | typedef _ _ _ _ => cases h
  | func id name span signature body =>
    obtain ⟨type, htype, h⟩ := Except.bind_eq_ok.mp h
    cases type with
    | basic _ | array _ _ => cases h
    | func result types =>
      cases signature with
      | named _ _ | array _ _ _ _ _ => cases h
      | func tid written lparen decls rparen =>
        refine ⟨id, name, span, tid, written, lparen, decls, rparen, body, result, types, rfl,
          Analysis.decl?_of_ok htype, ?_⟩
        cases body with
        | none =>
          cases h
          exact .inl ⟨rfl, rfl⟩
        | some s =>
          obtain ⟨⟨⟨⟩, final⟩, hrun, hfinal⟩ := Except.bind_eq_ok.mp h
          cases hfinal
          exact .inr ⟨s, final, rfl, hrun, rfl⟩

theorem Decl.lowerGlobal_eq_ok {d : Decl} {g : Ir.Global} (h : d.lowerGlobal a = .ok g) :
    g.name = d.name ∧ ∃ type, a.types.decl? d = some type ∧ g.type = type.machine := by
  obtain ⟨type, htype, h⟩ := Except.bind_eq_ok.mp h
  have hknown := Analysis.decl?_of_ok htype
  have hzero : (pure ⟨d.name, type.machine, .zero type.machine⟩ : Except LowerError Ir.Global) = .ok g →
      g.name = d.name ∧ ∃ type, a.types.decl? d = some type ∧ g.type = type.machine := by
    intro h
    cases h
    exact ⟨rfl, type, hknown, rfl⟩
  cases d with
  | func _ _ _ _ _ | basic _ _ _ _ | typedef _ _ _ _ => exact hzero h
  | var id name span written init =>
    cases init with
    | none => exact hzero h
    | some init =>
      dsimp only at h
      split at h
      · cases h
        exact ⟨rfl, type, hknown, rfl⟩
      · cases h

/-- What one declaration adds to the module: a function if the name is bound to it, a global
variable if the name has none yet, or nothing. -/
theorem Decl.lowerInto_adds {d : Decl} (h : d.lowerInto a m = .ok m') :
    (d.isEmitted a ∧ d.isVar = false ∧ ∃ F, d.lowerFunction a = .ok F ∧ m' = m.addFunction F) ∨
    (d.isEmitted a = false ∧ d.isVar ∧ m.global? d.name = none ∧
      ∃ g, (d.bound a).lowerGlobal a = .ok g ∧ m' = m.addGlobal g) ∨
    (d.isEmitted a = false ∧ (d.isVar → (m.global? d.name).isSome) ∧ m' = m) := by
  cases d with
  | basic _ _ _ _ | typedef _ _ _ _ =>
    cases h
    exact .inr (.inr ⟨rfl, by simp [Decl.isVar], rfl⟩)
  | var id name span written init =>
    simp only [Decl.lowerInto] at h
    split at h
    next hsome =>
      cases h
      exact .inr (.inr ⟨rfl, fun _ => hsome, rfl⟩)
    next hnone =>
      obtain ⟨g, hg, hm⟩ := Except.bind_eq_ok.mp h
      cases hm
      exact .inr (.inl ⟨rfl, rfl, by simpa using hnone, g, hg, rfl⟩)
  | func id name span signature body =>
    simp only [Decl.lowerInto] at h
    split at h
    next hid =>
      obtain ⟨F, hF, hm⟩ := Except.bind_eq_ok.mp h
      cases hm
      exact .inl ⟨decide_eq_true hid, rfl, F, hF, rfl⟩
    next hid =>
      cases h
      exact .inr (.inr ⟨decide_eq_false hid, by simp [Decl.isVar], rfl⟩)

/-- A function body as the checks leave it: it is well typed, names in it are used where they are
visible, and the parameters are variables of types that can be passed. -/
structure Stmt.IsChecked (a : Analysis) (result : Ty) (params : List (Decl × Ty)) (body : Stmt) :
    Prop where
  typed : body.WellTyped a result
  inScope : body.Scoped a.resolution (params.map Prod.fst)
  isVar : ∀ param ∈ params, param.1.isVar
  params : ∀ param ∈ params, a.types.decl? param.1 = some param.2 ∧ param.2.isParam
  result : result.isScalar ∨ result.isVoid

theorem Program.body_checked {p : Program} (ha : a.Checked p) (htree : p.TreeShaped)
    (hbodies : p.BlockBodies) (hparams : p.VariableParams) (hr : p.resolve = .ok a.resolution)
    {id : DeclId} {name : String} {span : Span} {tid : TypeId} {written : TypeExpr}
    {lparen rparen : Span} {decls : List Decl} {body : Stmt} {result : Ty} {types : List Ty}
    (hd : Decl.func id name span (.func tid written lparen decls rparen) (some body) ∈ p.file)
    (htype : a.types.decl?
      (.func id name span (.func tid written lparen decls rparen) (some body)) =
        some (.func result types)) : body.IsChecked a result (decls.zip types) := by
  obtain ⟨_, _, htype', hbody, htypes, hfst, hresult⟩ := ha.definition hd
  cases htype.symm.trans htype'
  refine ⟨hbody.typed, ?_, ?_, htypes, hresult⟩
  · rw [hfst]
    exact p.body_scoped ha htree hbodies hparams hr hd
  · intro param hparam
    exact p.isVar_of_mem_params hparams hd (List.of_mem_zip hparam).1

theorem Stmt.lowerBody_completed {lexical : Prop} {P : Ir.Value → Prop} (ha : a.Permits lexical P)
    {name : String} {result : Ty} {params : List (Decl × Ty)} {body : Stmt} {final : Ir.Builder}
    (hscoped : lexical → body.Scoped a.resolution (params.map Prod.fst))
    (hvar : lexical → ∀ param ∈ params, param.1.isVar)
    (hrun : body.lowerBody a params (Decl.startBuilder name result params) = .ok ((), final)) :
    final.Completed P (Decl.startBuilder name result params) := by
  have htakes : ∀ param ∈ params, (ha.setting body.events).Takes param.1 param.2 := fun _ _ =>
    Setting.takes_of_untyped not_false (fun _ => trivial) (fun _ => trivial) _
  have hbuilt := (Stmt.lowerBody_follows (F := ha.setting body.events) name result
    ⟨hscoped, False.elim, List.Subset.refl _⟩ htakes hvar (Nat.zero_le _)
    (by simp [Analysis.Permits.setting, Decl.startBuilder_binding?]) False.elim).2
  exact (hbuilt.of_ok hrun).completed

/-- A function without a body has no blocks; one with a body is completely built. -/
theorem Decl.lowerFunction_completed {d : Decl} {F : Ir.Function}
    (h : d.lowerFunction a = .ok F) : F.name = d.name ∧
      ((d.isDefinition = false ∧ F.blocks = []) ∨
        (d.isDefinition ∧ ∃ start final : Ir.Builder, final.Completed (fun _ => True) start ∧
          F = final.toFunction)) := by
  obtain ⟨id, name, span, tid, written, lparen, decls, rparen, body, result, types, rfl, _, hbody⟩ :=
    Decl.lowerFunction_cases h
  rcases hbody with ⟨rfl, rfl⟩ | ⟨s, final, rfl, hrun, rfl⟩
  · exact ⟨rfl, .inl ⟨rfl, rfl⟩⟩
  · have hcompleted := Stmt.lowerBody_completed a.permits_any False.elim False.elim hrun
    exact ⟨hcompleted.name, .inr ⟨rfl, _, final, hcompleted, rfl⟩⟩

/-! Whole modules. -/

/-- The functions of a module are those of the declarations that names are bound to. -/
structure Ir.Module.HasFunctions (a : Analysis) (decls : List Decl) (m : Ir.Module) : Prop where
  names : m.functions.map (·.name) = (decls.filter (·.isEmitted a)).map Decl.name
  source : ∀ F ∈ m.functions, ∃ d ∈ decls, d.isEmitted a ∧ d.lowerFunction a = .ok F
  emitted : ∀ d ∈ decls, d.isEmitted a → ∃ F ∈ m.functions, d.lowerFunction a = .ok F

/-- The global variables of a module are those of the variables at file level. -/
structure Ir.Module.HasGlobals (a : Analysis) (decls : List Decl) (m : Ir.Module) : Prop where
  nodup : (m.globals.map (·.name)).Nodup
  source : ∀ g ∈ m.globals, ∃ d ∈ decls, d.isVar ∧ g.name = d.name ∧
    (d.bound a).lowerGlobal a = .ok g
  emitted : ∀ d ∈ decls, d.isVar → ∃ g ∈ m.globals, g.name = d.name ∧
    (d.bound a).lowerGlobal a = .ok g

/-- One more declaration. -/
theorem Ir.Module.HasFunctions.step {seen : List Decl} {d : Decl} (h : m.HasFunctions a seen)
    (hstep : d.lowerInto a m = .ok m') : m'.HasFunctions a (seen ++ [d]) := by
  -- Without a new function the list of functions stays as it is.
  have hsame : d.isEmitted a = false → m'.functions = m.functions →
      m'.HasFunctions a (seen ++ [d]) := by
    intro hnot hfunctions
    refine ⟨?_, ?_, ?_⟩
    · rw [hfunctions, h.names, List.filter_append, List.filter_cons_of_neg (by simp [hnot])]
      simp
    · intro F hF
      obtain ⟨d', hd', hsource⟩ := h.source F (hfunctions ▸ hF)
      exact ⟨d', List.mem_append_left _ hd', hsource⟩
    · intro d' hd' hemitted
      rcases List.mem_append.mp hd' with hold | hself
      · rw [hfunctions]
        exact h.emitted d' hold hemitted
      · rw [List.mem_singleton.mp hself, hnot] at hemitted
        cases hemitted
  rcases Decl.lowerInto_adds hstep with ⟨hemitted, _, F, hF, rfl⟩ | ⟨hnot, _, _, g, _, rfl⟩ |
    ⟨hnot, _, rfl⟩
  · refine ⟨?_, ?_, ?_⟩
    · rw [List.filter_append, List.filter_cons_of_pos hemitted, List.map_append, ← h.names]
      simp [Ir.Module.addFunction, (Decl.lowerFunction_completed hF).1]
    · intro F' hF'
      rcases List.mem_append.mp hF' with hold | hself
      · obtain ⟨d', hd', hsource⟩ := h.source F' hold
        exact ⟨d', List.mem_append_left _ hd', hsource⟩
      · rw [List.mem_singleton.mp hself]
        exact ⟨d, List.mem_append_right _ List.mem_cons_self, hemitted, hF⟩
    · intro d' hd' hemitted'
      rcases List.mem_append.mp hd' with hold | hself
      · obtain ⟨F', hF', hlower⟩ := h.emitted d' hold hemitted'
        exact ⟨F', List.mem_append_left _ hF', hlower⟩
      · rw [List.mem_singleton.mp hself]
        exact ⟨F, List.mem_append_right _ List.mem_cons_self, hF⟩
  · exact hsame hnot rfl
  · exact hsame hnot rfl

theorem Ir.Module.HasGlobals.step {seen : List Decl} {d : Decl} (h : m.HasGlobals a seen)
    (hbound : ∃ d₀, a.resolution.fileBinding? d.name = some d₀ ∧ d₀.name = d.name)
    (hstep : d.lowerInto a m = .ok m') : m'.HasGlobals a (seen ++ [d]) := by
  obtain ⟨d₀, hd₀, hname₀⟩ := hbound
  have hbound : d.bound a = d₀ := by rw [Decl.bound, hd₀, Option.getD_some]
  have hsame : (d.isVar → ∃ g ∈ m.globals, g.name = d.name ∧ (d.bound a).lowerGlobal a = .ok g) →
      m'.globals = m.globals → m'.HasGlobals a (seen ++ [d]) := by
    intro hself hglobals
    refine ⟨hglobals ▸ h.nodup, ?_, ?_⟩
    · intro g hg
      obtain ⟨d', hd', hsource⟩ := h.source g (hglobals ▸ hg)
      exact ⟨d', List.mem_append_left _ hd', hsource⟩
    · intro d' hd' hvar
      rw [hglobals]
      rcases List.mem_append.mp hd' with hold | hmem
      · exact h.emitted d' hold hvar
      · rw [List.mem_singleton.mp hmem] at hvar ⊢
        exact hself hvar
  rcases Decl.lowerInto_adds hstep with ⟨_, hnot, F, _, rfl⟩ | ⟨_, hvar, hnone, g, hg, rfl⟩ |
    ⟨_, hsome, rfl⟩
  · refine hsame ?_ rfl
    simp [hnot]
  · have hname : g.name = d.name := (Decl.lowerGlobal_eq_ok hg).1.trans (hbound ▸ hname₀)
    refine ⟨?_, ?_, ?_⟩
    · rw [Ir.Module.addGlobal, List.map_append, List.nodup_append]
      refine ⟨h.nodup, by simp, ?_⟩
      intro name hold name' hnew heq
      obtain ⟨g', hg', rfl⟩ := List.mem_map.mp hold
      obtain rfl : name' = g.name := by simpa using hnew
      have hfind := List.find?_eq_none.mp hnone g' hg'
      exact hfind (decide_eq_true (heq.trans hname))
    · intro g' hg'
      rcases List.mem_append.mp hg' with hold | hself
      · obtain ⟨d', hd', hsource⟩ := h.source g' hold
        exact ⟨d', List.mem_append_left _ hd', hsource⟩
      · rw [List.mem_singleton.mp hself]
        exact ⟨d, List.mem_append_right _ List.mem_cons_self, hvar, hname, hg⟩
    · intro d' hd' hvar'
      rcases List.mem_append.mp hd' with hold | hself
      · obtain ⟨g', hg', hsource⟩ := h.emitted d' hold hvar'
        exact ⟨g', List.mem_append_left _ hg', hsource⟩
      · rw [List.mem_singleton.mp hself]
        exact ⟨g, List.mem_append_right _ List.mem_cons_self, hname, hg⟩
  · refine hsame (fun hvar => ?_) rfl
    -- The name has a global already, that of an earlier declaration with the same binding.
    obtain ⟨g, hg⟩ := Option.isSome_iff_exists.mp (hsome hvar)
    have hname : g.name = d.name := by simpa using List.find?_some hg
    obtain ⟨d', _, _, hname', hlower⟩ := h.source g (List.mem_of_find?_eq_some hg)
    refine ⟨g, List.mem_of_find?_eq_some hg, hname, ?_⟩
    rw [Decl.bound, hname'.symm.trans hname, hd₀] at hlower
    rw [hbound]
    exact hlower

end

namespace Program

variable {p : Program} {a : Analysis} {moduleName : String} {m : Ir.Module}

theorem lower_hasFunctions (h : p.lower a moduleName = .ok m) : m.HasFunctions a p.file :=
  foldlM_seen (fun seen m => m.HasFunctions a seen)
    (fun _ _ _ _ _ hm hstep => hm.step hstep) ⟨rfl, by simp, by simp⟩ h

theorem lower_hasGlobals (hbound : ∀ d ∈ p.file, ∃ d₀,
    a.resolution.fileBinding? d.name = some d₀ ∧ d₀.name = d.name)
    (h : p.lower a moduleName = .ok m) : m.HasGlobals a p.file :=
  foldlM_seen (fun seen m => m.HasGlobals a seen)
    (fun _ d _ _ hd hm hstep => hm.step (hbound d hd) hstep) ⟨by simp, by simp, by simp⟩ h

end Program

end MicroC
