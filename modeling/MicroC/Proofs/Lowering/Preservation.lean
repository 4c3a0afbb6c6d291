import MicroC.Proofs.Lowering.ControlFlow
import MicroC.Proofs.Lowering.Functions
import MicroC.Proofs.Lowering.Linkage

/-!
Lowering preserves meaning. The module of a program has a function for each definition, and it
returns a value and leaves storage behind just as the body of the definition does by its own
meaning; so the same calls are possible in the module and in the program.
-/

namespace MicroC

open LowerM

/-! What is known of a definition at file level. -/

section

variable {p : Program} {a : Analysis} {id : DeclId} {name : String} {span : Span} {tid : TypeId}
  {written : TypeExpr} {lparen rparen : Span} {decls : List Decl} {body : Stmt}

theorem Decl.params_eq {result : Ty} {types : List Ty} {body : Option Stmt}
    (htype : a.types.decl? (.func id name span (.func tid written lparen decls rparen) body) =
      some (.func result types)) :
    (Decl.func id name span (.func tid written lparen decls rparen) body).params a =
      decls.zip types := by
  simp only [Decl.params, htype]

/-- A definition of a checked program has typed parameters and a typed body, each with its own
declarations. -/
theorem Analysis.Checked.defines (ha : a.Checked p) (htree : p.TreeShaped)
    (hbodies : p.BlockBodies) (hparams : p.VariableParams) (hr : p.resolve = .ok a.resolution)
    (hd : Decl.func id name span (.func tid written lparen decls rparen) (some body) ∈ p.file) :
    (Decl.func id name span (.func tid written lparen decls rparen) (some body)).Defines a body := by
  obtain ⟨result, types, htype, hbody, htypes, hfst, _⟩ := ha.definition hd
  have hsublist := Decl.inner_sublist id name span tid written lparen rparen decls body
  have hnodup : (Event.entered (Decl.eventsAll decls ++ body.events)).Nodup :=
    List.Nodup.sublist ((hsublist.trans (Decl.events_sublist hd)).filterMap _) htree
  have hmem : ∀ param ∈ decls.zip types, param.1 ∈ decls := by
    intro param hparam
    exact (List.of_mem_zip hparam).1
  have hhas : (Decl.func id name span (.func tid written lparen decls rparen)
      (some body)).HasParams a := by
    constructor <;> rw [Decl.params_eq htype]
    case isVar => exact fun param hparam => p.isVar_of_mem_params hparams hd (hmem param hparam)
    case entered =>
      intro param hparam
      have hin := Decl.mem_eventsAll (hmem param hparam) param.1.enter_mem_events
      exact hsublist.subset (List.mem_append_left _ hin)
    case types => exact fun param hparam => (htypes param hparam).1
    case isParam => exact fun param hparam => (htypes param hparam).2
    case nodup =>
      rw [hfst]
      rw [Event.entered_append] at hnodup
      exact (List.nodup_append.mp hnodup).1
  refine ⟨hhas, ⟨result, hbody.typed⟩, ?_, ?_, ?_⟩
  · rw [Decl.params_eq htype, hfst]
    exact p.body_scoped ha htree hbodies hparams hr hd
  · exact fun event hevent => hsublist.subset (List.mem_append_right _ hevent)
  · rw [Decl.params_eq htype, hfst]
    exact hnodup

end

/-! The code of a definition. -/

section

variable {p : Program} {a : Analysis} {f : Decl} {start final : Ir.Builder} {body : Stmt}

/-- Nothing is bound before the lowering of a function, so any addresses will do. -/
theorem Activation.realized_start (hbindings : ∀ id, start.binding? id = none) (args : List Datum)
    (calls : Calls) : (Activation.mk a (fun d => .address (.global d.name) 0) 0 calls).Realized p
      start ⟨0, args, calls⟩ where
  depth := rfl
  calls := rfl
  bound d v hv := by cases (hbindings d.id).symm.trans hv
  isVar d _ hbound := by simp [hbindings] at hbound
  global _ _ := rfl

/-- The function that is built for a definition stands for it. -/
theorem Analysis.Checked.toFunction_implements (ha : a.Checked p) (hp : p.Coherent)
    (htree : p.TreeShaped) (hf : f ∈ p.file) (hvar : f.isVar = false) (hbody : f.body? = some body)
    (hdefines : f.Defines a body)
    (hstart : start.params = (f.params a).map fun param => ⟨param.1.name, param.2.machineParam⟩)
    (hblocks : start.blocks = []) (hslots : start.slots = [])
    (hbindings : ∀ id, start.binding? id = none)
    (hrun : body.lowerBody a (f.params a) start = .ok ((), final)) (calls : Calls) :
    final.toFunction.Implements p a final.home f calls calls := by
  -- The slots are known once the body is lowered; what the code does is shown with these slots.
  have hbuilt := Stmt.lowerBody_executes
    (Activation.realized_start hbindings (List.replicate (f.params a).length .none) calls) ha hdefines
    (List.length_replicate ..) hstart hblocks hslots hbindings
  obtain ⟨hgrows, htidy, hlaid, hentry, _⟩ := hbuilt.of_ok hrun
  have hunique : ∀ d d', .enter (.decl d) ∈ f.events → .enter (.decl d') ∈ f.events →
      d.id = d'.id → d = d' := by
    intro d d' hd hd' hid
    exact hp.decl_eq (.inr (p.mem_events hf hd)) (.inr (p.mem_events hf hd')) hid
  have hcompletes : final.Completes a f :=
    ⟨htidy, hlaid, hentry, hgrows.params.trans hstart, hunique⟩
  refine hcompletes.implements hbody ?_
  intro depth args hargs
  have hfile : ∀ d, d.isVar → .enter (.decl d) ∈ f.events → ∀ g ∈ p.file, g.id ≠ d.id :=
    fun d hd hin g hg => htree.not_mem_file hp hf hvar hd hin hg
  have hx : (p.activation a final.home calls f depth args).Realized p final ⟨depth, args, calls⟩ :=
    p.activation_realized hp hfile hf hdefines.hasParams hlaid hargs
  have hlength : args.length = (f.params a).length := by
    rw [hargs.length_eq, List.length_map]
  have hexecutes := Stmt.lowerBody_executes hx ha hdefines hlength hstart hblocks hslots hbindings
  exact (hexecutes.of_ok hrun).2.2.2.2 (.refl final)

theorem Decl.lowerFunction_implements (ha : a.Checked p) (hp : p.Coherent) (htree : p.TreeShaped)
    (hbodies : p.BlockBodies) (hparams : p.VariableParams) (hr : p.resolve = .ok a.resolution)
    {F : Ir.Function} (hf : f ∈ p.file) (hdef : f.isDefinition) (hF : f.lowerFunction a = .ok F) :
    ∃ home, ∀ calls, F.Implements p a home f calls calls := by
  obtain ⟨id, name, span, tid, written, lparen, decls, rparen, body, result, types, rfl, htype,
    hbody⟩ := Decl.lowerFunction_cases hF
  rcases hbody with ⟨rfl, _⟩ | ⟨s, final, rfl, hrun, rfl⟩
  · cases hdef
  · refine ⟨final.home, ?_⟩
    have hdefines := ha.defines htree hbodies hparams hr hf
    rw [← Decl.params_eq htype] at hrun
    refine ha.toFunction_implements hp htree hf rfl rfl hdefines rfl rfl rfl ?_ hrun
    simp [Decl.startBuilder, Ir.Builder.new, Ir.Builder.binding?]

end

/-! The module of a program. -/

/-- A declaration with a body is the definition of a function. -/
theorem Decl.isSome_body?_iff {d : Decl} : d.body?.isSome ↔ d.isFunc ∧ d.isDefinition := by
  cases d <;> simp [Decl.body?, Decl.isFunc, Decl.isDefinition]

section

variable {p : Program} {a : Analysis} {m : Ir.Module}

/-- A function can be found by its name. -/
theorem Ir.Module.function?_of_mem {F : Ir.Function} (hnames : (m.functions.map (·.name)).Nodup)
    (hF : F ∈ m.functions) : m.function? F.name = some F := by
  obtain ⟨F', hF'⟩ : ∃ F', m.function? F.name = some F' :=
    Option.isSome_iff_exists.mp (List.find?_isSome.mpr ⟨F, hF, by simp⟩)
  have hname : F'.name = F.name := by simpa using List.find?_some hF'
  obtain ⟨i, hi⟩ := List.mem_iff_getElem?.mp hF
  obtain ⟨j, hj⟩ := List.mem_iff_getElem?.mp (List.mem_of_find?_eq_some hF')
  have hlt : j < (m.functions.map (·.name)).length := by
    simpa using (List.getElem?_eq_some_iff.mp hj).1
  obtain rfl : j = i := (List.getElem?_inj hlt hnames).mp (by simp [hi, hj, hname])
  rw [hF']
  exact hj.symm.trans hi

/-- The function with blocks that has the name of a definition is the one built for it. -/
theorem Ir.Module.HasFunctions.definition (h : m.HasFunctions a p.file) (ha : a.Checked p)
    (htree : p.TreeShaped) (hbodies : p.BlockBodies) (hparams : p.VariableParams)
    (hr : p.resolve = .ok a.resolution) {name : String} {f : Decl}
    (hf : p.definition? name = some f) : f ∈ p.file ∧ f.isDefinition ∧
      ∃ F, m.definition? name = some F ∧ f.lowerFunction a = .ok F := by
  have hmem := List.mem_of_find?_eq_some hf
  obtain ⟨rfl, hbody⟩ : f.name = name ∧ f.body?.isSome := by simpa using List.find?_some hf
  obtain ⟨hfunc, hdef⟩ := Decl.isSome_body?_iff.mp hbody
  -- A definition repeats nothing, so its name is bound to it.
  have hbound : f.bound a = f := by
    rcases p.fileBinding_repeats htree hbodies hparams hr hmem (ha.bound_mem hmem).1 with
      heq | ⟨_, hnot⟩
    · exact heq
    · rw [hdef] at hnot
      cases hnot
  have hemitted : f.isEmitted a := Decl.isEmitted_iff.mpr ⟨hfunc, by rw [hbound]⟩
  obtain ⟨F, hF, hlower⟩ := h.emitted f hmem hemitted
  have hfound := m.function?_of_mem (h.names_nodup ha htree) hF
  rw [(Decl.lowerFunction_completed hlower).1] at hfound
  have hblocks : F.isDeclaration = false := by
    simp [Ir.Function.isDeclaration, (Decl.lowerFunction_flowGraph hlower).2, hdef]
  exact ⟨hmem, hdef, F, by simp [definition?, hfound, hblocks], hlower⟩

/-- A function with blocks has the name of a definition. -/
theorem Ir.Module.HasFunctions.definition?_eq_none (h : m.HasFunctions a p.file) {name : String}
    (hnone : p.definition? name = none) : m.definition? name = none := by
  cases hF : m.definition? name with
  | none => rfl
  | some F =>
    obtain ⟨hfound, hblocks⟩ := Option.filter_eq_some_iff.mp hF
    obtain rfl : F.name = name := by simpa using List.find?_some hfound
    obtain ⟨d, hd, hemitted, hlower⟩ := h.source F (List.mem_of_find?_eq_some hfound)
    have hdef : d.isDefinition := by
      cases hdef : d.isDefinition with
      | true => rfl
      | false =>
        simp [Ir.Function.isDeclaration, (Decl.lowerFunction_flowGraph hlower).2, hdef] at hblocks
    have hbody := Decl.isSome_body?_iff.mpr ⟨(Decl.isEmitted_iff.mp hemitted).1, hdef⟩
    have hname := (Decl.lowerFunction_completed hlower).1
    have hall := List.find?_eq_none.mp hnone d hd
    simp [hname, hbody] at hall

/-- Every definition has its function in the module. -/
theorem Ir.Module.HasFunctions.implements (h : m.HasFunctions a p.file) (ha : a.Checked p)
    (hp : p.Coherent) (htree : p.TreeShaped) (hbodies : p.BlockBodies) (hparams : p.VariableParams)
    (hr : p.resolve = .ok a.resolution) : ∃ home, m.Implements p a home := by
  have hhome : ∀ name, ∃ home, ∀ f, p.definition? name = some f →
      ∃ F, m.definition? name = some F ∧ ∀ calls, F.Implements p a home f calls calls := by
    intro name
    cases hf : p.definition? name with
    | none => exact ⟨fun _ => 0, by simp⟩
    | some f =>
      obtain ⟨hmem, hdef, F, hF, hlower⟩ := h.definition ha htree hbodies hparams hr hf
      obtain ⟨home, himplements⟩ :=
        Decl.lowerFunction_implements ha hp htree hbodies hparams hr hmem hdef hlower
      refine ⟨home, ?_⟩
      rintro _ ⟨⟩
      exact ⟨F, hF, himplements⟩
  obtain ⟨home, hdefinition⟩ := Classical.skolem.mp hhome
  exact ⟨home, hdefinition, fun _ => h.definition?_eq_none⟩

end

namespace Program

/-- Lowering preserves meaning: every definition has a function that stands for it, whatever calls
do, and so calls do the same in the program and in its module. -/
theorem lower_implements (p : Program) (hp : p.Coherent) (htree : p.TreeShaped)
    (hbodies : p.BlockBodies) (hparams : p.VariableParams) (r : Resolution) (t : TypeTable)
    (moduleName : String) (m : Ir.Module) (hr : p.resolve = .ok r) (ht : p.check r = .ok t)
    (hm : p.lower ⟨r, t⟩ moduleName = .ok m) :
    ∃ home, m.Implements p ⟨r, t⟩ home ∧ ∀ other, p.calls ⟨r, t⟩ home other = m.calls other := by
  have ha := p.check_checked hp (.inr hparams) hr ht
  obtain ⟨home, himplements⟩ := (lower_hasFunctions hm).implements ha hp htree hbodies hparams hr
  exact ⟨home, himplements, himplements.calls_eq⟩

/-- A program with a loop, a call and an array that is passed. -/
theorem lower_implements_arraySum : ∃ c, Samples.arraySum.compile {} = .ok c ∧
    (Samples.arraySum.definition? "main").isSome ∧
    ∃ home, c.module.Implements Samples.arraySum ⟨c.resolution, c.types⟩ home := by
  obtain ⟨c, hc, _⟩ : ∃ c, Samples.arraySum.compile {} = .ok c ∧ true :=
    Except.exists_of_any (by decide +kernel)
  obtain ⟨hr, ht, hm⟩ := compile_ok hc
  obtain ⟨home, himplements, _⟩ := lower_implements Samples.arraySum (by decide +kernel)
    (by decide +kernel) (by decide +kernel) (by decide +kernel) _ _ _ _ hr ht hm
  exact ⟨c, hc, by decide +kernel, home, himplements⟩

end Program

end MicroC
