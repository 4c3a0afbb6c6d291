import Mathlib.Data.List.Nodup
import MicroC.Proofs.Ir.Naming
import MicroC.Proofs.Lowering.ControlFlow
import MicroC.Proofs.Lowering.WellTyped
import MicroC.Proofs.Scope.Parameters
import MicroC.Proofs.Typing.Completeness

/-!
The text of a compiled module is unambiguous. Names in programs are words, so that a name made
from one is neither a number nor a name made from another one; and in a checked program only
what has a value is used. What remains is that no function has two parameters of one name and that
everything named is in the module: both hold if parameters are variables.
-/

namespace MicroC

open LowerM

/-! Names in programs. -/

/-- Letters, digits and underscores, of which the first is not a digit. -/
def isWord (text : String) : Bool :=
  text.toList.all (fun c => c.isAlphanum || c == '_') && text.toList.head?.any (!·.isDigit)

theorem isBase_of_isWord {text : String} (h : isWord text) : Ir.Builder.IsBase text := by
  obtain ⟨hall, hfirst⟩ := Bool.and_eq_true_iff.mp h
  rw [List.all_eq_true] at hall
  constructor
  · intro hdot
    have hmem : '.' ∈ text.toList.reverse :=
      (List.dropWhile_sublist _).subset (List.mem_of_mem_head? hdot)
    exact absurd (hall '.' (List.mem_reverse.mp hmem)) (by decide)
  · obtain ⟨c, hc, hdigit⟩ := (Option.any_eq_true _ _).mp hfirst
    exact ⟨c, List.mem_of_mem_head? hc, by simpa using hdigit⟩

/-- The name of a declaration is a word. -/
def Node.nameIsWord : Node → Bool
  | .decl d => isWord d.name
  | _ => true

/-- Names can be made from those of the declarations that are entered. -/
def Event.GiveBases (events : List Event) : Prop :=
  ∀ d, .enter (.decl d) ∈ events → Ir.Builder.IsBase d.name

theorem Event.GiveBases.mono {events part : List Event} (h : Event.GiveBases events)
    (hpart : part ⊆ events) : Event.GiveBases part :=
  fun d hd => h d (hpart hd)

section

variable {p : Program} {a : Analysis} {m : Ir.Module} {d : Decl} {F : Ir.Function}

/-- Variables are declared under names that names can be made from. -/
def Ir.Sketch.baseRules : Ir.Sketch.Rules :=
  ⟨fun _ => True, fun d _ => Ir.Builder.IsBase d.name, fun _ _ => True, 0, False⟩

/-- A function body is built legibly. -/
theorem Stmt.lowerBody_legible {name : String} {result : Ty} {params : List (Decl × Ty)}
    {body : Stmt} {final : Ir.Builder} (hbody : Event.GiveBases body.events)
    (hparams : ∀ param ∈ params, Ir.Builder.IsBase param.1.name)
    (hrun : body.lowerBody a params (Decl.startBuilder name result params) = .ok ((), final)) :
    final.Legible := by
  let S := a.setting body.events Ir.Sketch.baseRules (fun _ => trivial) not_false
    fun hin _ _ => hbody _ hin
  have htakes : ∀ param ∈ params, S.Takes param.1 param.2 := fun param hparam =>
    Setting.takes_of_untyped not_false (fun _ => hparams param hparam) (fun _ => trivial) _
  have hbuilt := (Stmt.lowerBody_follows (F := S) name result
    ⟨False.elim, False.elim, List.Subset.refl _⟩ htakes False.elim (Nat.zero_le _) trivial
    False.elim).2
  obtain ⟨s, rfl, hsteps, _⟩ := hbuilt.of_ok hrun
  have hstart : (Decl.startBuilder name result params).Legible :=
    .new (List.forall_mem_map.mpr hparams)
  have hentry := hstart.withBlock (Ir.Builder.isBase_of_mem_blockLabels (by decide : "entry" ∈ _))
  exact hsteps.legible (fun _ _ hbase => hbase) (hentry.congr rfl rfl rfl rfl)

/-- A function with a body has been built legibly. -/
theorem Decl.lowerFunction_legible (hbases : Event.GiveBases p.events) (hd : d ∈ p.file)
    (h : d.lowerFunction a = .ok F) (hF : F.blocks ≠ []) :
    ∃ b : Ir.Builder, b.Legible ∧ b.blocks ≠ [] ∧ (b.insts.map (·.id)).Nodup ∧ F = b.toFunction := by
  obtain ⟨id, name, span, tid, written, lparen, decls, rparen, body, result, types, rfl, htype,
    hbody⟩ := Decl.lowerFunction_cases h
  rcases hbody with ⟨_, rfl⟩ | ⟨s, final, rfl, hrun, rfl⟩
  · exact absurd rfl hF
  · have hevents := p.events_subset (p.enter_mem_of_mem_file hd)
    have hinner := (Decl.inner_sublist id name span tid written lparen rparen decls s).subset
    have hbases := hbases.mono fun _ hevent => hevents (hinner hevent)
    have hparams : ∀ param ∈ decls.zip types, Ir.Builder.IsBase param.1.name := by
      intro param hparam
      have hmem := Decl.mem_eventsAll (List.of_mem_zip hparam).1 param.1.enter_mem_events
      exact hbases param.1 (List.mem_append_left _ hmem)
    have hinside := hbases.mono (List.subset_append_right _ _)
    have hlegible := Stmt.lowerBody_legible hinside hparams hrun
    have hfinal := Stmt.lowerBody_completed a.permits_any False.elim False.elim hrun
    obtain ⟨_, rfl, hsound⟩ := hfinal.sound
    exact ⟨_, hlegible, hfinal.blocks_ne_nil, hsound.unique.nodup, rfl⟩

/-- Results with a value have names in the text of a function. -/
theorem Decl.lowerFunction_named (hbases : Event.GiveBases p.events) (hd : d ∈ p.file)
    (h : d.lowerFunction a = .ok F) {inst : Ir.Instruction} (hinst : inst ∈ F.insts)
    (htype : inst.type ≠ .void) : ∃ name, F.HasName inst name := by
  have hblocks : F.blocks ≠ [] := by
    intro hnil
    simp [Ir.Function.insts, hnil] at hinst
  obtain ⟨b, _, hne, hids, rfl⟩ := Decl.lowerFunction_legible hbases hd h hblocks
  rw [← Ir.Builder.toFunction_insts hne] at hids
  exact Ir.Function.exists_hasName hids hinst htype

/-- An operand is written as what it stands for if that is in the module. -/
theorem Decl.lowerFunction_writes_iff (hbases : Event.GiveBases p.events) (hd : d ∈ p.file)
    (h : d.lowerFunction a = .ok F) (htyped : F.WellTyped) {i k : Nat} {v : Ir.Value}
    (hv : F.Uses i k v) : m.Writes F v ↔ m.Has v :=
  (Decl.lowerFunction_defines h hv).writes_iff (htyped.ne_void_of_uses hv)
    fun _ hinst htype => Decl.lowerFunction_named hbases hd h hinst htype

theorem Decl.lowerFunction_distinct_iff (hbases : Event.GiveBases p.events) (hd : d ∈ p.file)
    (h : d.lowerFunction a = .ok F) (hF : F.blocks ≠ []) :
    (Ir.Naming.ofFunction F).all.Nodup ↔ (F.params.map (·.name)).Nodup := by
  obtain ⟨b, hb, hne, _, rfl⟩ := Decl.lowerFunction_legible hbases hd h hF
  exact hb.all_nodup_iff hne

/-- The text of a well-typed module can only be ambiguous through parameters with one name, or
through names that do not belong to just one thing in the module. -/
theorem Ir.Module.HasFunctions.unambiguous_iff (hm : m.HasFunctions a p.file)
    (hbases : Event.GiveBases p.events) (htyped : m.WellTyped) :
    m.Unambiguous ↔ (∀ F ∈ m.functions, F.blocks ≠ [] → (F.params.map (·.name)).Nodup) ∧
      ∀ F ∈ m.functions, ∀ i k v, F.Uses i k v → m.Has v := by
  constructor
  · intro h
    constructor
    · intro F hF hblocks
      obtain ⟨d, hd, _, hlower⟩ := hm.source F hF
      exact (Decl.lowerFunction_distinct_iff hbases hd hlower hblocks).mp (h.distinct F hF hblocks)
    · intro F hF i k v hv
      obtain ⟨d, hd, _, hlower⟩ := hm.source F hF
      exact (Decl.lowerFunction_writes_iff hbases hd hlower (htyped.functions F hF) hv).mp
        (h.operands F hF i k v hv)
  · rintro ⟨hparams, hhas⟩
    constructor <;> intro F hF <;> obtain ⟨d, hd, _, hlower⟩ := hm.source F hF
    case distinct =>
      intro hblocks
      exact (Decl.lowerFunction_distinct_iff hbases hd hlower hblocks).mpr (hparams F hF hblocks)
    case named => exact fun inst hinst => Decl.lowerFunction_named hbases hd hlower hinst
    case operands =>
      intro i k v hv
      exact (Decl.lowerFunction_writes_iff hbases hd hlower (htyped.functions F hF) hv).mpr
        (hhas F hF i k v hv)
    case targets =>
      have hgraph := (Decl.lowerFunction_flowGraph hlower).1
      exact fun block hblock t ht j hj => hgraph.label_eq hblock ht hj

/-- The parameters of a function are those of its declaration. -/
theorem Decl.lowerFunction_params_nodup (ha : a.Checked p) (htree : p.TreeShaped)
    (hbodies : p.BlockBodies) (hparams : p.VariableParams) (hr : p.resolve = .ok a.resolution)
    (hd : d ∈ p.file) (h : d.lowerFunction a = .ok F) (hF : F.blocks ≠ []) :
    (F.params.map (·.name)).Nodup := by
  obtain ⟨id, name, span, tid, written, lparen, decls, rparen, body, result, types, rfl, htype,
    hbody⟩ := Decl.lowerFunction_cases h
  rcases hbody with ⟨_, rfl⟩ | ⟨s, final, rfl, hrun, rfl⟩
  · exact absurd rfl hF
  · obtain ⟨_, _, htype', _, _, hfst, _⟩ := ha.definition hd
    cases htype.symm.trans htype'
    have hfinal := Stmt.lowerBody_completed a.permits_any False.elim False.elim hrun
    have hnames : final.toFunction.params.map (·.name) = decls.map Decl.name := by
      change final.params.map (·.name) = _
      rw [hfinal.params, ← congrArg (List.map Decl.name) hfst]
      simp [Decl.startBuilder, Ir.Builder.new, Function.comp_def]
    rw [hnames]
    exact p.param_names_nodup ha htree hbodies hparams hr hd

/-- What is at file level has its name in the module. -/
theorem Analysis.Checked.permits_has (ha : a.Checked p) (hm : m.HasGlobals a p.file)
    (hm' : m.HasFunctions a p.file) (hnodup : m.symbols.Nodup) : a.Permits True m.Has := by
  constructor
  · exact fun _ => trivial
  · intro v hv
    cases v with
    | inst _ _ | param _ _ => trivial
    | const _ | global _ _ | function _ _ => cases hv
  · intro d type hat hvar _
    obtain ⟨g, hg, hname, _⟩ := hm.of_atFile ha hvar (hat trivial)
    refine ⟨⟨g, hg, hname⟩, List.count_eq_one_of_mem hnodup ?_⟩
    exact List.mem_append_left _ (List.mem_map.mpr ⟨g, hg, hname⟩)
  · intro d result params hat hfunc _
    obtain ⟨_, F, hF, hname, _⟩ := hm'.of_atFile ha hfunc (hat trivial)
    refine ⟨⟨F, hF, hname⟩, List.count_eq_one_of_mem hnodup ?_⟩
    exact List.mem_append_right _ (List.mem_map.mpr ⟨F, hF, hname⟩)

end

namespace Program

theorem check_takesParams {p : Program} {r : Resolution} {t : TypeTable} (hp : p.Coherent)
    (hr : p.resolve = .ok r) (ht : p.check r = .ok t) : Analysis.TakesParams ⟨r, t⟩ := by
  intro ident d result params h
  have hcovers := p.resolve_covers hr
  have hdeclares := hcovers.declares ident d h.declOf
  exact ((p.check_exact hp hcovers ht).decls d _ hdeclares h.typeOf).1.takesParams

/-- The text of the module of a program whose names are words is unambiguous. -/
theorem compile_unambiguous (p : Program) (hp : p.Coherent) (htree : p.TreeShaped)
    (hbodies : p.BlockBodies) (hparams : p.VariableParams)
    (hnames : p.Everywhere Node.nameIsWord) (settings : Settings) (c : Compilation)
    (h : p.compile settings = .ok c) : c.module.Unambiguous := by
  obtain ⟨hr, ht, hm⟩ := compile_ok h
  have ha := p.check_checked hp (.inr hparams) hr ht
  have hfunctions := lower_hasFunctions hm
  have hglobals := ha.hasGlobals hm
  have hnodup := hglobals.names_nodup hfunctions ha htree hbodies hparams hr
  have htyped := lower_typed ha (p.check_takesParams hp hr ht) htree hbodies hparams hr hm
  rw [hfunctions.unambiguous_iff (fun d hd => isBase_of_isWord (hnames _ hd)) htyped]
  constructor <;> intro F hF <;> obtain ⟨d, hd, _, hlower⟩ := hfunctions.source F hF
  · exact Decl.lowerFunction_params_nodup ha htree hbodies hparams hr hd hlower
  · intro i k v
    exact Decl.lowerFunction_permits ha htree hbodies hparams hr
      (ha.permits_has hglobals hfunctions hnodup) hd hlower

/-- Names that are used for several things at once: `int entry; int f(int a, char b[]) { int entry;
entry = a; while (entry && a) { int a; a = entry; entry = f(a, b); } return a; }`. -/
def sharedNames : Program := Build.finish do
  let intType ← Build.namedType "int"
  Build.push (← Build.var intType "entry" none)
  let intType ← Build.namedType "int"
  let a ← Build.param intType "a"
  let charType ← Build.namedType "char"
  let b ← Build.param (← Build.arrayType charType none) "b"
  let intType ← Build.namedType "int"
  let outer ← Build.var intType "entry" none
  let start ← Build.exprStmt (← Build.assign (← Build.name "entry") (← Build.name "a"))
  let more ← Build.binary .and (← Build.name "entry") (← Build.name "a")
  let intType ← Build.namedType "int"
  let inner ← Build.var intType "a" none
  let copy ← Build.exprStmt (← Build.assign (← Build.name "a") (← Build.name "entry"))
  let again ← Build.call "f" [← Build.name "a", ← Build.name "b"]
  let step ← Build.exprStmt (← Build.assign (← Build.name "entry") again)
  let loop ← Build.loop more (← Build.block [.decl inner, .stmt copy, .stmt step])
  let result ← Build.ret (some (← Build.name "a"))
  let body ← Build.block [.decl outer, .stmt start, .stmt loop, .stmt result]
  let intType ← Build.namedType "int"
  Build.push (← Build.func "f" intType [a, b] (some body))

/-- The variables and blocks of each name have different ones in the text. -/
theorem compile_unambiguous_sharedNames : ∃ c, sharedNames.compile {} = .ok c ∧
    c.module.Unambiguous ∧ c.module.functions.map (fun F => (Ir.Naming.ofFunction F).all) =
      [["a", "b", "entry", "while.cond", "and.rhs", "and.end", "while.body", "while.end", "a.1",
        "entry.1", "0", "a.2", "1", "2", "3", "4", "5", "6", "7", "8", "9", "10"]] := by
  obtain ⟨c, hc, hall⟩ : ∃ c, sharedNames.compile {} = .ok c ∧ decide (
      c.module.functions.map (fun F => (Ir.Naming.ofFunction F).all) =
        [["a", "b", "entry", "while.cond", "and.rhs", "and.end", "while.body", "while.end", "a.1",
          "entry.1", "0", "a.2", "1", "2", "3", "4", "5", "6", "7", "8", "9", "10"]]) :=
    Except.exists_of_any (by decide +kernel)
  have hunambiguous := compile_unambiguous sharedNames (by decide +kernel) (by decide +kernel)
    (by decide +kernel) (by decide +kernel) (by decide +kernel) {} c hc
  exact ⟨c, hc, hunambiguous, of_decide_eq_true hall⟩

end Program

end MicroC
