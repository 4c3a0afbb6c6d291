import MicroC.Proofs.Lowering.Contents

/-!
Modules are closed. The names of the functions and global variables of a compiled module all
differ, and each operand that names a function or a global variable names one of the module, with
its type.
-/

namespace MicroC

/-- What an operand can name in a module. -/
def Ir.Module.Links (m : Ir.Module) : Ir.Value → Prop
  | .global name type => ∃ g ∈ m.globals, g.name = name ∧ type = .ptr g.type
  | .function name type => ∃ F ∈ m.functions, F.name = name ∧ type = F.type
  | .const _ | .inst _ _ | .param _ _ => True

/-- No name is used twice, and what is named is there, with the type it has. -/
structure Ir.Module.Linked (m : Ir.Module) : Prop where
  names : (m.globals.map (·.name) ++ m.functions.map (·.name)).Nodup
  operands : ∀ F ∈ m.functions, ∀ i k v, F.Uses i k v → m.Links v

section

variable {p : Program} {a : Analysis} {m : Ir.Module}

/-- The binding of a declaration at file level. -/
theorem Analysis.Checked.bound_mem (ha : a.Checked p) {d : Decl} (hd : d ∈ p.file) :
    a.resolution.fileBinding? d.name = some (d.bound a) ∧ (d.bound a).name = d.name ∧
      d.bound a ∈ p.file := by
  obtain ⟨d₀, hd₀⟩ := ha.covers.binding_some d hd
  obtain ⟨hmem, hname⟩ := ha.covers.binding_mem _ d₀ hd₀
  have hbound : d.bound a = d₀ := by rw [Decl.bound, hd₀, Option.getD_some]
  rw [hbound]
  exact ⟨hd₀, hname, hmem⟩

theorem Decl.isEmitted_iff {d : Decl} : d.isEmitted a ↔ d.isFunc ∧ (d.bound a).id = d.id := by
  simp [Decl.isEmitted]

/-- Only one declaration of a name is emitted if all of them are bound to the same one. -/
theorem Ir.Module.HasFunctions.nodup_of_bound {decls : List Decl} (h : m.HasFunctions a decls)
    (hids : (decls.map Decl.id).Nodup)
    (hbound : ∀ d ∈ decls, ∀ d' ∈ decls, d.name = d'.name → d.bound a = d'.bound a) :
    (m.functions.map (·.name)).Nodup := by
  have hdistinct : List.Pairwise (fun d d' => d.id ≠ d'.id) (decls.filter (·.isEmitted a)) :=
    (List.pairwise_map.mp hids).filter _
  rw [h.names, List.nodup_iff_pairwise_ne, List.pairwise_map]
  refine hdistinct.imp_of_mem ?_
  intro d d' hd hd' hne hname
  obtain ⟨hmem, hemitted⟩ := List.mem_filter.mp hd
  obtain ⟨hmem', hemitted'⟩ := List.mem_filter.mp hd'
  have hid := (Decl.isEmitted_iff.mp hemitted).2
  rw [hbound d hmem d' hmem' hname, (Decl.isEmitted_iff.mp hemitted').2] at hid
  exact hne hid.symm

/-- A function name has one function. -/
theorem Ir.Module.HasFunctions.names_nodup (h : m.HasFunctions a p.file) (ha : a.Checked p)
    (htree : p.TreeShaped) : (m.functions.map (·.name)).Nodup := by
  refine h.nodup_of_bound htree.file_ids_nodup ?_
  intro d hd d' hd' hname
  have hbinding := (ha.bound_mem hd).1
  rw [hname] at hbinding
  exact Option.some.inj (hbinding.symm.trans (ha.bound_mem hd').1)

/-- A global variable and a function have different names. -/
theorem Ir.Module.HasGlobals.name_ne {F : Ir.Function} {g : Ir.Global} (hm : m.HasGlobals a p.file)
    (hm' : m.HasFunctions a p.file) (ha : a.Checked p) (htree : p.TreeShaped)
    (hbodies : p.BlockBodies) (hparams : p.VariableParams) (hr : p.resolve = .ok a.resolution)
    (hg : g ∈ m.globals) (hF : F ∈ m.functions) : g.name ≠ F.name := by
  intro heq
  obtain ⟨d, hd, hvar, hname, _⟩ := hm.source g hg
  obtain ⟨d', hd', hemitted, hlower⟩ := hm'.source F hF
  have hname' : d.name = d'.name :=
    hname.symm.trans (heq.trans (Decl.lowerFunction_completed hlower).1)
  obtain ⟨hbinding, _⟩ := ha.bound_mem hd
  -- Both are of the sort of the one declaration that the name is bound to.
  have hrepeats := p.fileBinding_repeats htree hbodies hparams hr hd hbinding
  have hrepeats' := p.fileBinding_repeats htree hbodies hparams hr hd' (hname' ▸ hbinding)
  have hfunc := (Decl.isEmitted_iff.mp hemitted).1
  have hsort : d'.isVar = true := hrepeats'.isVar_eq.symm.trans (hrepeats.isVar_eq.trans hvar)
  cases d' with
  | var _ _ _ _ _ => cases hfunc
  | func _ _ _ _ _ | basic _ _ _ _ | typedef _ _ _ _ => cases hsort

/-- The function of a declaration has its type. -/
theorem Decl.lowerFunction_type (ha : a.Consistent p) {d : Decl} {F : Ir.Function} {result : Ty}
    {params : List Ty} (hd : d ∈ p.file) (htype : a.types.decl? d = some (.func result params))
    (h : d.lowerFunction a = .ok F) : F.type = (Ty.func result params).machine := by
  obtain ⟨id, name, span, tid, written, lparen, decls, rparen, body, result', types, rfl, htype',
    hF⟩ := Decl.lowerFunction_cases h
  cases htype.symm.trans htype'
  obtain ⟨_, _, _, _, _, _, _, hsignature, hfunc, hdecls, _⟩ :=
    ha.sound.func_type ha.signatures (p.declares_of_mem_file hd) htype
  cases hsignature
  cases hfunc
  have hlength : params.length ≤ decls.length := by
    have hlengths := congrArg List.length hdecls
    simp only [List.length_map] at hlengths
    exact Nat.le_of_eq hlengths.symm
  have hstart : (Decl.startBuilder name result (decls.zip params)).toFunction.type =
      (Ty.func result params).machine := by
    change Ir.Ty.func result.machine _ = Ir.Ty.func result.machine (Ty.machineParams params)
    have hparams : params = (decls.zip params).map Prod.snd := (List.map_snd_zip hlength).symm
    rw [Ty.machineParams_eq_map]
    conv => rhs; rw [hparams]
    simp [Decl.startBuilder, Ir.Builder.new, Ir.Builder.toFunction]
  rcases hF with ⟨_, rfl⟩ | ⟨s, final, _, hrun, rfl⟩
  · exact hstart
  · have hfinal := Stmt.lowerBody_completed a.permits_any False.elim False.elim hrun
    rw [← hstart]
    change Ir.Ty.func final.result (final.params.map (·.type)) = _
    rw [hfinal.result, hfinal.params]
    rfl

/-- A name that is known at file level stands for itself there. -/
theorem Analysis.Checked.mem_file (ha : a.Checked p) {d : Decl} (htype : d.isType = false)
    (hat : d.AtFile a) : d ∈ p.file ∧ d.bound a = d := by
  rcases hat with hbinding | hbuiltin
  · exact ⟨(ha.covers.binding_mem _ _ hbinding).1, by rw [Decl.bound, hbinding, Option.getD_some]⟩
  · simp only [Decl.builtins, List.mem_cons, List.not_mem_nil, or_false] at hbuiltin
    rcases hbuiltin with rfl | rfl | rfl <;> cases htype

theorem Ir.Module.HasGlobals.of_atFile (hm : m.HasGlobals a p.file) (ha : a.Checked p) {d : Decl}
    (hvar : d.isVar) (hat : d.AtFile a) :
    ∃ g ∈ m.globals, g.name = d.name ∧ d.lowerGlobal a = .ok g := by
  have hnotType : d.isType = false := by cases d <;> first | rfl | cases hvar
  obtain ⟨hd, hbound⟩ := ha.mem_file hnotType hat
  obtain ⟨g, hg, hname, hlower⟩ := hm.emitted d hd hvar
  exact ⟨g, hg, hname, hbound ▸ hlower⟩

theorem Ir.Module.HasFunctions.of_atFile (hm : m.HasFunctions a p.file) (ha : a.Checked p) {d : Decl}
    (hfunc : d.isFunc) (hat : d.AtFile a) :
    d ∈ p.file ∧ ∃ F ∈ m.functions, F.name = d.name ∧ d.lowerFunction a = .ok F := by
  have hnotType : d.isType = false := by cases d <;> first | rfl | cases hfunc
  obtain ⟨hd, hbound⟩ := ha.mem_file hnotType hat
  have hemitted : d.isEmitted a := Decl.isEmitted_iff.mpr ⟨hfunc, by rw [hbound]⟩
  obtain ⟨F, hF, hlower⟩ := hm.emitted d hd hemitted
  exact ⟨hd, F, hF, (Decl.lowerFunction_completed hlower).1, hlower⟩

/-- What is at file level is in the module. -/
theorem Analysis.Consistent.permits_links (ha : a.Consistent p) (hm : m.HasGlobals a p.file)
    (hm' : m.HasFunctions a p.file) : a.Permits True m.Links := by
  constructor
  · exact fun _ => trivial
  · intro v hv
    cases v with
    | inst _ _ | param _ _ => trivial
    | const _ | global _ _ | function _ _ => cases hv
  · intro d type hat hvar htype
    obtain ⟨g, hg, hname, hlower⟩ := hm.of_atFile ha.toChecked hvar (hat trivial)
    obtain ⟨_, type', htype', hgtype⟩ := Decl.lowerGlobal_eq_ok hlower
    obtain rfl := Option.some.inj (htype.symm.trans htype')
    exact ⟨g, hg, hname, by rw [hgtype]⟩
  · intro d result params hat hfunc htype
    obtain ⟨hd, F, hF, hname, hlower⟩ := hm'.of_atFile ha.toChecked hfunc (hat trivial)
    exact ⟨F, hF, hname, (Decl.lowerFunction_type ha hd htype hlower).symm⟩

/-- The code of a function uses what may be named at file level. -/
theorem Decl.lowerFunction_permits (ha : a.Checked p) (htree : p.TreeShaped)
    (hbodies : p.BlockBodies) (hparams : p.VariableParams) (hr : p.resolve = .ok a.resolution)
    {P : Ir.Value → Prop} (hP : a.Permits True P) {d : Decl} {F : Ir.Function} (hd : d ∈ p.file)
    (hF : d.lowerFunction a = .ok F) {i k : Nat} {v : Ir.Value} (hv : F.Uses i k v) : P v := by
  obtain ⟨id, name, span, tid, written, lparen, decls, rparen, body, result, types, rfl, htype,
    hbody⟩ := Decl.lowerFunction_cases hF
  rcases hbody with ⟨_, rfl⟩ | ⟨s, final, rfl, hrun, rfl⟩
  · obtain ⟨block, hblock, _⟩ := hv
    cases hblock
  · have hs := p.body_checked ha htree hbodies hparams hr hd htype
    have hfinal := Stmt.lowerBody_completed hP (fun _ => hs.inScope) (fun _ => hs.isVar) hrun
    obtain ⟨_, rfl, hsound⟩ := hfinal.sound
    exact (hsound.supplies_of_uses hv).1

theorem Analysis.Checked.hasGlobals {moduleName : String} (ha : a.Checked p)
    (hm : p.lower a moduleName = .ok m) : m.HasGlobals a p.file := by
  refine Program.lower_hasGlobals (fun d hd => ?_) hm
  obtain ⟨hbinding, hname, _⟩ := ha.bound_mem hd
  exact ⟨_, hbinding, hname⟩

/-- No name stands for two things in the module. -/
theorem Ir.Module.HasGlobals.names_nodup (hm : m.HasGlobals a p.file)
    (hm' : m.HasFunctions a p.file) (ha : a.Checked p) (htree : p.TreeShaped)
    (hbodies : p.BlockBodies) (hparams : p.VariableParams) (hr : p.resolve = .ok a.resolution) :
    (m.globals.map (·.name) ++ m.functions.map (·.name)).Nodup := by
  rw [List.nodup_append]
  refine ⟨hm.nodup, hm'.names_nodup ha htree, ?_⟩
  intro name hname name' hname' heq
  obtain ⟨g, hg, rfl⟩ := List.mem_map.mp hname
  obtain ⟨F, hF, rfl⟩ := List.mem_map.mp hname'
  exact hm.name_ne hm' ha htree hbodies hparams hr hg hF heq

end

namespace Program

/-- The module of a compiled program is closed. -/
theorem compile_linked (p : Program) (hp : p.Coherent) (htree : p.TreeShaped)
    (hbodies : p.BlockBodies) (hparams : p.VariableParams) (hsig : p.FunctionSignatures)
    (settings : Settings) (c : Compilation) (h : p.compile settings = .ok c) :
    c.module.Linked := by
  obtain ⟨hr, ht, hm⟩ := compile_ok h
  have ha := p.check_consistent hp hsig hr ht
  have hfunctions := lower_hasFunctions hm
  have hglobals := ha.toChecked.hasGlobals hm
  refine ⟨hglobals.names_nodup hfunctions ha.toChecked htree hbodies hparams hr, ?_⟩
  intro F hF i k v hv
  obtain ⟨d, hd, _, hlower⟩ := hfunctions.source F hF
  exact Decl.lowerFunction_permits ha.toChecked htree hbodies hparams hr
    (ha.permits_links hglobals hfunctions) hd hlower hv

/-- A module with a global array and a call. -/
theorem compile_linked_arraySum : ∃ c, Samples.arraySum.compile {} = .ok c ∧
    c.module.Linked := by
  obtain ⟨c, hc, _⟩ : ∃ c, Samples.arraySum.compile {} = .ok c ∧ true :=
    Except.exists_of_any (by decide +kernel)
  have hlinked := compile_linked Samples.arraySum (by decide +kernel) (by decide +kernel)
    (by decide +kernel) (by decide +kernel) (by decide +kernel) {} c hc
  exact ⟨c, hc, hlinked⟩

end Program

end MicroC
