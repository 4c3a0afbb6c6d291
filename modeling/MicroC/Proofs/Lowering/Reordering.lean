import MicroC.Proofs.Lowering.Mirroring
import MicroC.Proofs.Lowering.Preservation

/-!
The order of the declarations at file level does not matter. A program compiles in every order or
in none, and the modules of two orders print the same global variables and the same functions. A
function that is only declared can come from another prototype, whose parameters have other names
and lengths; neither is printed.
-/

namespace MicroC

/-! Declarations. -/

theorem Decl.initializerFolds_iff {d : Decl} :
    d.InitializerFolds ↔ ∀ init ∈ d.init?, ∃ v, init.fold = .ok v := by
  cases d with
  | var id name span written init => cases init <;> simp [InitializerFolds, init?]
  | func _ _ _ _ _ | basic _ _ _ _ | typedef _ _ _ _ => simp [InitializerFolds, init?]

theorem Decl.Initializes.unique {d d' : Decl} {type : Ir.Ty} {value value' : Ir.Constant}
    (h : d.Initializes type value) (h' : d'.Initializes type value') (hinit : d.init? = d'.init?) :
    value = value' := by
  unfold Decl.Initializes at h h'
  rw [← hinit] at h'
  cases hd : d.init? with
  | none =>
    rw [hd] at h h'
    exact Eq.trans h (Eq.symm h')
  | some init =>
    rw [hd] at h h'
    obtain ⟨v, hv, rfl⟩ := h
    obtain ⟨v', hv', rfl⟩ := h'
    rw [Except.ok.inj (hv.symm.trans hv')]

/-- A function without blocks is printed by its name and its type only. -/
theorem Ir.Function.text_eq_of_type {F F' : Ir.Function} (hF : F.blocks = []) (hF' : F'.blocks = [])
    (hname : F.name = F'.name) (htype : F.type = F'.type) : F.text = F'.text := by
  obtain ⟨hresult, hparams⟩ := Ir.Ty.func.inj htype
  have htexts := congrArg (List.map Ir.Ty.text) hparams
  simp only [List.map_map, Function.comp_def] at htexts
  simp [text, lines, isDeclaration, hF, hF', hname, hresult, htexts]

/-! Two orders. -/

/-- The analyses of one program in two orders of its declarations. -/
structure Program.Reordered (p : Program) (file : List Decl) (a a' : Analysis) : Prop where
  regular : p.Regular
  perm : p.file.Perm file
  resolve : p.resolve = .ok a.resolution
  check : p.check a.resolution = .ok a.types
  resolve' : Program.resolve { p with file := file } = .ok a'.resolution
  check' : Program.check { p with file := file } a'.resolution = .ok a'.types
  alike : a.resolution.Alike p.file a'.resolution

namespace Program.Reordered

variable {p : Program} {file : List Decl} {a a' : Analysis} {d d' : Decl} {type type' : Ty}

theorem regular' (h : p.Reordered file a a') : Program.Regular { p with file := file } :=
  h.regular.reorder h.perm

theorem consistent (h : p.Reordered file a a') : a.Consistent p :=
  p.check_consistent h.regular.coherent h.regular.signatures h.resolve h.check

theorem consistent' (h : p.Reordered file a a') : a'.Consistent { p with file := file } :=
  Program.check_consistent h.regular'.coherent h.regular'.signatures h.resolve' h.check'

theorem uniform (h : p.Reordered file a a') : a.resolution.Uniform p.file := by
  refine Program.uniform h.regular.coherent h.regular.signatures h.resolve ?_
  intro d hd
  exact (check_records h.regular.coherent h.consistent.covers h.check d hd).1

theorem records (h : p.Reordered file a a') (hd : d ∈ p.file) : a.types.Records a.resolution d :=
  (check_records h.regular.coherent h.consistent.covers h.check d hd).2

theorem records' (h : p.Reordered file a a') (hd : d ∈ p.file) :
    a'.types.Records a'.resolution d :=
  (check_records h.regular'.coherent h.consistent'.covers h.check' d (h.perm.mem_iff.mp hd)).2

theorem declares (h : p.Reordered file a a') (hd : p.Declares d) :
    Program.Declares { p with file := file } d :=
  hd.imp id (Decl.eventsAll_perm h.perm).mem_iff.mp

theorem means (h : p.Reordered file a a') (hd : p.Declares d) (htype : a.types.decl? d = some type) :
    d.Means a.resolution type :=
  ((check_exact h.regular.coherent h.consistent.covers h.check).decls d type hd htype).1

theorem means' (h : p.Reordered file a a') (hd : p.Declares d)
    (htype : a'.types.decl? d = some type) : d.Means a'.resolution type :=
  ((check_exact h.regular'.coherent h.consistent'.covers h.check').decls d type (h.declares hd)
    htype).1

/-- A declaration has one type in both analyses. -/
theorem type_eq (h : p.Reordered file a a') (hd : p.Declares d)
    (htype : a.types.decl? d = some type) (htype' : a'.types.decl? d = some type') : type = type' :=
  ((h.means hd htype).reorder h.alike).unique (h.means' hd htype')

/-- Twins have types that differ at most in the lengths of parameters. -/
theorem outline_eq (h : p.Reordered file a a') (hd : p.Declares d) (htwins : d.Twins p.file d')
    (htype : a.types.decl? d = some type) (htype' : a'.types.decl? d' = some type') :
    type.outline = type'.outline := by
  cases htwins with
  | self => rw [h.type_eq hd htype htype']
  | other hmem hmem' hname hsort _ _ =>
    obtain ⟨found, found', hfound, hfound', houtline, _⟩ := h.uniform d hmem d' hmem' hname hsort
    obtain rfl : found = type := hfound.unique (h.means hd htype)
    obtain rfl : found' = type' :=
      (hfound'.reorder h.alike).unique (h.means' (p.declares_of_mem_file hmem') htype')
    exact houtline

theorem mirrors (h : p.Reordered file a a') {f : Decl} (hf : f ∈ p.file) (hfunc : f.isVar = false) :
    a.Mirrors p.file f.contents a' where
  idents ident d d' type type' hident hident' := by
    obtain ⟨found, hfound, htwins⟩ := h.alike.idents ident d hident.declOf
    obtain rfl : found = d' := Option.some.inj (hfound.symm.trans hident'.declOf)
    have hdeclares := h.consistent.covers.declares ident d hident.declOf
    exact ⟨htwins, h.outline_eq hdeclares htwins hident.typeOf hident'.typeOf⟩
  exprs e he := by
    obtain ⟨type, _, htype⟩ := (h.records hf).hasType h.consistent.sound hf he
    obtain ⟨type', _, htype'⟩ :=
      (h.records' hf).hasType h.consistent'.sound (h.perm.mem_iff.mp hf) he
    exact ⟨⟨type, htype⟩, type', htype'⟩
  locals d hvar hin := by
    have hevents := f.contents_subset hin
    refine ⟨fun g hg => h.regular.tree.not_mem_file h.regular.coherent hf hfunc hvar hevents hg, ?_⟩
    obtain ⟨type, htype, _⟩ := (h.records hf).covers.decls d hin
    obtain ⟨type', htype', _⟩ := (h.records' hf).covers.decls d hin
    obtain rfl := h.type_eq (.inr (p.mem_events hf hevents)) htype htype'
    rw [Analysis.Consistent.typeOf_eq htype, Analysis.Consistent.typeOf_eq htype']

/-! Functions. -/

/-- A declaration is lowered to the same function. -/
theorem lowerFunction_eq (h : p.Reordered file a a') (hd : d ∈ p.file) {F : Ir.Function}
    (hF : d.lowerFunction a = .ok F) : d.lowerFunction a' = .ok F := by
  obtain ⟨id, name, span, tid, written, lparen, decls, rparen, body, result, types, rfl, hknown,
    hbody⟩ := Decl.lowerFunction_cases hF
  have hd' := h.perm.mem_iff.mp hd
  obtain ⟨type', hknown'⟩ := (h.consistent'.typed _ hd').exists_type
  obtain rfl := h.type_eq (p.declares_of_mem_file hd) hknown hknown'
  rcases hbody with ⟨rfl, rfl⟩ | ⟨body, final, rfl, hrun, rfl⟩
  · exact Decl.lowerFunction_prototype hknown'
  · have hdefines := h.consistent.toChecked.defines h.regular.tree h.regular.bodies
      h.regular.params h.resolve hd
    have hids : ∀ param ∈ decls.zip types, ∀ g ∈ p.file, g.id ≠ param.1.id := by
      intro param hparam
      rw [← Decl.params_eq hknown] at hparam
      exact fun g hg => h.regular.tree.not_mem_file h.regular.coherent hd rfl
        (hdefines.hasParams.isVar param hparam) (hdefines.hasParams.entered param hparam) hg
    refine Decl.lowerFunction_definition hknown' ?_
    rw [Stmt.lowerBody_copies (h.mirrors hd rfl) (List.Subset.refl _) hids]
    exact hrun

/-- Twins are printed in the same way. -/
theorem function_text (h : p.Reordered file a a') (hd : d ∈ p.file) (htwins : d.Twins p.file d')
    {F F' : Ir.Function} (hF : d.lowerFunction a = .ok F) (hF' : d'.lowerFunction a' = .ok F') :
    F.text = F'.text := by
  have houtline : ∀ type type', a.types.decl? d = some type → a'.types.decl? d' = some type' →
      type.outline = type'.outline :=
    fun _ _ => h.outline_eq (p.declares_of_mem_file hd) htwins
  cases htwins with
  | self =>
    rw [h.lowerFunction_eq hd hF] at hF'
    rw [Except.ok.inj hF']
  | other _ hmem' hname _ hdef hdef' =>
    obtain ⟨_, _, _, _, _, _, _, _, _, result, types, _, hknown, _⟩ := Decl.lowerFunction_cases hF
    obtain ⟨_, _, _, _, _, _, _, _, _, result', types', _, hknown', _⟩ := Decl.lowerFunction_cases hF'
    obtain ⟨hFname, hFblocks⟩ := Decl.lowerFunction_blocks hF
    obtain ⟨hFname', hFblocks'⟩ := Decl.lowerFunction_blocks hF'
    refine Ir.Function.text_eq_of_type (hFblocks.mpr hdef) (hFblocks'.mpr hdef') ?_ ?_
    · rw [hFname, hFname', hname]
    · rw [Decl.lowerFunction_type h.consistent hd hknown hF,
        Decl.lowerFunction_type h.consistent' (h.perm.mem_iff.mp hmem') hknown' hF',
        Ty.machine_of_outline (houtline _ _ hknown hknown')]

/-! Modules. -/

theorem bound_twins (h : p.Reordered file a a') (hd : d ∈ p.file) :
    (d.bound a).Twins p.file (d.bound a') := by
  obtain ⟨d₀, hd₀⟩ := h.consistent.covers.binding_some d hd
  obtain ⟨d₀', hd₀', htwins⟩ := h.alike.bindings d.name d₀ hd₀
  rw [Decl.bound, Decl.bound, hd₀, hd₀']
  exact htwins

theorem initializersFold (h : p.Reordered file a a') (hfolds : a.resolution.InitializersFold) :
    a'.resolution.InitializersFold := by
  intro name d' hd'
  obtain ⟨hmem, rfl⟩ := h.consistent'.covers.binding_mem name d' hd'
  obtain ⟨d, hd⟩ := h.consistent.covers.binding_some d' (h.perm.mem_iff.mpr hmem)
  obtain ⟨found, hfound, htwins⟩ := h.alike.bindings d'.name d hd
  obtain rfl : found = d' := Option.some.inj (hfound.symm.trans hd')
  have hfold := hfolds _ d hd
  rw [Decl.initializerFolds_iff] at hfold ⊢
  rw [← htwins.init?_eq]
  exact hfold

variable {moduleName : String} {m m' : Ir.Module}

/-- Each global variable of one order is one of the other order. -/
theorem globals_subset (h : p.Reordered file a a') (hm : p.lower a moduleName = .ok m)
    (hm' : Program.lower { p with file := file } a' moduleName = .ok m') :
    m.globals ⊆ m'.globals := by
  intro g hg
  obtain ⟨d, hd, hvar, _, hlower⟩ := (h.consistent.toChecked.hasGlobals hm).source g hg
  obtain ⟨g', hg', _, hlower'⟩ :=
    (h.consistent'.toChecked.hasGlobals hm').emitted d (h.perm.mem_iff.mp hd) hvar
  have htwins := h.bound_twins hd
  have hbound := (h.consistent.toChecked.bound_mem hd).2.2
  obtain ⟨type, value, htype, hvalue, rfl⟩ := Decl.lowerGlobal_initializes hlower
  obtain ⟨type', value', htype', hvalue', rfl⟩ := Decl.lowerGlobal_initializes hlower'
  have houtline := h.outline_eq (p.declares_of_mem_file hbound) htwins htype htype'
  rw [htwins.name_eq, Ty.machine_of_outline houtline]
  rw [Ty.machine_of_outline houtline] at hvalue
  rw [hvalue.unique hvalue' htwins.init?_eq]
  exact hg'

/-- Each function of one order is printed in the other order too. -/
theorem functions_subset (h : p.Reordered file a a') (hm : p.lower a moduleName = .ok m)
    (hm' : Program.lower { p with file := file } a' moduleName = .ok m') :
    (m.functions.map fun F => (F.name, F.text)) ⊆ m'.functions.map fun F => (F.name, F.text) := by
  intro printed hprinted
  obtain ⟨F, hF, rfl⟩ := List.mem_map.mp hprinted
  obtain ⟨d, hd, hemitted, hlower⟩ := (lower_hasFunctions hm).source F hF
  obtain ⟨hfunc, hid⟩ := Decl.isEmitted_iff.mp hemitted
  have hself : d.bound a = d :=
    List.inj_on_of_nodup_map h.regular.tree.file_ids_nodup
      (h.consistent.toChecked.bound_mem hd).2.2 hd hid
  -- The name is bound to a twin in the other order, and that one is emitted.
  have htwins : d.Twins p.file (d.bound a') := by
    have hbound := h.bound_twins hd
    rw [hself] at hbound
    exact hbound
  obtain ⟨hbinding, hname, hmem⟩ := h.consistent'.toChecked.bound_mem (h.perm.mem_iff.mp hd)
  have hself' : (d.bound a').bound a' = d.bound a' := by
    change (a'.resolution.fileBinding? (d.bound a').name).getD _ = _
    rw [hname, hbinding, Option.getD_some]
  have hemitted' : (d.bound a').isEmitted a' := by
    rw [Decl.isEmitted_iff, hself', ← htwins.repeats.isFunc_eq]
    exact ⟨hfunc, rfl⟩
  obtain ⟨F', hF', hlower'⟩ := (lower_hasFunctions hm').emitted _ hmem hemitted'
  have hnames : F'.name = F.name := by
    rw [(Decl.lowerFunction_blocks hlower).1, (Decl.lowerFunction_blocks hlower').1, hname]
  exact List.mem_map.mpr ⟨F', hF', Prod.ext hnames (h.function_text hd htwins hlower hlower').symm⟩

end Program.Reordered

namespace Program

variable {p : Program} {file : List Decl} {settings : Settings} {c : Compilation}

/-- A program that compiles in one order compiles in every order, to a module that prints no
less. -/
theorem Regular.compile_reorder (h : p.Regular) (hperm : p.file.Perm file)
    (hc : p.compile settings = .ok c) :
    ∃ c', Program.compile { p with file := file } settings = .ok c' ∧
      c.module.globals ⊆ c'.module.globals ∧
      (c.module.functions.map fun F => (F.name, F.text)) ⊆
        c'.module.functions.map fun F => (F.name, F.text) := by
  obtain ⟨hr, ht, hm⟩ := compile_ok hc
  obtain ⟨r', hr', halike⟩ := h.resolve_reorder hperm hr
  obtain ⟨t', ht'⟩ := h.check_reorder hperm hr ht hr' halike
  have hreordered : p.Reordered file ⟨c.resolution, c.types⟩ ⟨r', t'⟩ :=
    ⟨h, hperm, hr, ht, hr', ht', halike⟩
  have hfolds := hreordered.initializersFold (initializersFold_of_lower hreordered.consistent hm)
  rcases lower_cases hreordered.consistent' settings.moduleName with ⟨_, m', hm'⟩ | ⟨hfails, _⟩
  · refine ⟨⟨r', t', m'⟩, ?_, hreordered.globals_subset hm hm', hreordered.functions_subset hm hm'⟩
    refine Except.bind_eq_ok.mpr ⟨r', Except.mapError_eq_ok.mpr hr', ?_⟩
    refine Except.bind_eq_ok.mpr ⟨t', Except.mapError_eq_ok.mpr ht', ?_⟩
    exact Except.bind_eq_ok.mpr ⟨m', Except.mapError_eq_ok.mpr hm', rfl⟩
  · exact absurd hfolds hfails

/-- Nothing in a module is printed twice. -/
theorem Regular.printed_nodup (h : p.Regular) (hc : p.compile settings = .ok c) :
    c.module.globals.Nodup ∧ (c.module.functions.map fun F => (F.name, F.text)).Nodup := by
  obtain ⟨hr, ht, hm⟩ := compile_ok hc
  have ha := p.check_consistent h.coherent h.signatures hr ht
  refine ⟨.of_map _ (ha.toChecked.hasGlobals hm).nodup, .of_map Prod.fst ?_⟩
  rw [List.map_map]
  exact (lower_hasFunctions hm).names_nodup ha.toChecked h.tree

/-- The order of the declarations at file level does not matter: a program compiles in every order
or in none, and in all orders it prints the same global variables and the same functions. -/
theorem compile_perm (p : Program) (hp : p.Coherent) (htree : p.TreeShaped) (hbodies : p.BlockBodies)
    (hparams : p.VariableParams) (hsig : p.FunctionSignatures) (file : List Decl)
    (hperm : p.file.Perm file) (settings : Settings) :
    ((∃ c, p.compile settings = .ok c) ↔
      ∃ c, Program.compile { p with file := file } settings = .ok c) ∧
    ∀ c c', p.compile settings = .ok c →
      Program.compile { p with file := file } settings = .ok c' →
      (c.module.globals.map Ir.Global.line).Perm (c'.module.globals.map Ir.Global.line) ∧
      (c.module.functions.map Ir.Function.text).Perm (c'.module.functions.map Ir.Function.text) := by
  have h : p.Regular := ⟨hp, htree, hbodies, hparams, hsig⟩
  have h' : Program.Regular { p with file := file } := h.reorder hperm
  refine ⟨⟨?_, ?_⟩, ?_⟩
  · rintro ⟨c, hc⟩
    obtain ⟨c', hc', _⟩ := h.compile_reorder hperm hc
    exact ⟨c', hc'⟩
  · rintro ⟨c', hc'⟩
    obtain ⟨c, hc, _⟩ := h'.compile_reorder hperm.symm hc'
    exact ⟨c, hc⟩
  · intro c c' hc hc'
    obtain ⟨found', hfound', hglobals, hfunctions⟩ := h.compile_reorder hperm hc
    obtain ⟨found, hfound, hglobals', hfunctions'⟩ := h'.compile_reorder hperm.symm hc'
    obtain rfl : found' = c' := Except.ok.inj (hfound'.symm.trans hc')
    obtain rfl : found = c := Except.ok.inj (hfound.symm.trans hc)
    obtain ⟨hnodup, hnodupF⟩ := h.printed_nodup hc
    obtain ⟨hnodup', hnodupF'⟩ := h'.printed_nodup hc'
    constructor
    · apply List.Perm.map
      rw [List.perm_ext_iff_of_nodup hnodup hnodup']
      exact fun g => ⟨fun hg => hglobals hg, fun hg => hglobals' hg⟩
    · have hprinted := (List.perm_ext_iff_of_nodup hnodupF hnodupF').mpr
        fun F => ⟨fun hF => hfunctions hF, fun hF => hfunctions' hF⟩
      simpa [Function.comp_def] using hprinted.map Prod.snd

/-- A name with two prototypes and one with two declarations, both used in a function:
`int n; int take(int few[3]); int take(int more[4]); int n = 5; int cells[4];
int main(void) { n = take(cells); return n; }`. -/
def repeatedPrototypes : Program := Build.finish do
  let intType ← Build.namedType "int"
  Build.push (← Build.var intType "n" none)
  let intType ← Build.namedType "int"
  let few ← Build.param (← Build.arrayType intType (some 3)) "few"
  let intType ← Build.namedType "int"
  Build.push (← Build.func "take" intType [few] none)
  let intType ← Build.namedType "int"
  let more ← Build.param (← Build.arrayType intType (some 4)) "more"
  let intType ← Build.namedType "int"
  Build.push (← Build.func "take" intType [more] none)
  let intType ← Build.namedType "int"
  let five ← Build.int 5
  Build.push (← Build.var intType "n" (some five))
  let intType ← Build.namedType "int"
  Build.push (← Build.var (← Build.arrayType intType (some 4)) "cells" none)
  let cells ← Build.name "cells"
  let taken ← Build.call "take" [cells]
  let target ← Build.name "n"
  let store ← Build.exprStmt (← Build.assign target taken)
  let n ← Build.name "n"
  let result ← Build.ret (some n)
  let body ← Build.block [.stmt store, .stmt result]
  let intType ← Build.namedType "int"
  Build.push (← Build.func "main" intType [] (some body))

/-- From last to first the prototype that is emitted is another one. -/
theorem compile_perm_repeatedPrototypes : ∃ c c', repeatedPrototypes.compile {} = .ok c ∧
    Program.compile { repeatedPrototypes with file := repeatedPrototypes.file.reverse } {} = .ok c' ∧
    c.module.functions.map (fun F => F.params.map (·.name)) = [["few"], []] ∧
    c'.module.functions.map (fun F => F.params.map (·.name)) = [[], ["more"]] ∧
    (c.module.globals.map Ir.Global.line).Perm (c'.module.globals.map Ir.Global.line) ∧
    (c.module.functions.map Ir.Function.text).Perm (c'.module.functions.map Ir.Function.text) := by
  obtain ⟨c, hc, hnames⟩ : ∃ c, repeatedPrototypes.compile {} = .ok c ∧
      decide (c.module.functions.map (fun F => F.params.map (·.name)) = [["few"], []]) :=
    Except.exists_of_any (by decide +kernel)
  obtain ⟨c', hc', hnames'⟩ : ∃ c', Program.compile
        { repeatedPrototypes with file := repeatedPrototypes.file.reverse } {} = .ok c' ∧
      decide (c'.module.functions.map (fun F => F.params.map (·.name)) = [[], ["more"]]) :=
    Except.exists_of_any (by decide +kernel)
  have hprinted := (compile_perm repeatedPrototypes (by decide +kernel) (by decide +kernel)
    (by decide +kernel) (by decide +kernel) (by decide +kernel) repeatedPrototypes.file.reverse
    (List.reverse_perm _).symm {}).2 c c' hc hc'
  exact ⟨c, c', hc, hc', of_decide_eq_true hnames, of_decide_eq_true hnames', hprinted⟩

end Program

end MicroC
