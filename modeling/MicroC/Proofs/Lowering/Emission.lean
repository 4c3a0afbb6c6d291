import Mathlib.Data.List.Nodup
import MicroC.Proofs.Lowering.Linkage
import MicroC.Proofs.Scope.Merging
import MicroC.Proofs.Syntax.Equality

/-!
Which declarations a module is made of, whatever the program looks like below the level of the
file. A name can be declared many times there. The declaration that stands for all of them is the
one that defines the name, or else the first one; variables are emitted in the order of first
declarations, functions in that of the declarations that stand for them.
-/

namespace MicroC

namespace Decl

variable {decls : List Decl} {d d' : Decl}

/-- The declaration that stands for its name among others: it has a body or an initial value, or
it is the first one and none of them has. -/
def StandsFor (decls : List Decl) (d : Decl) : Prop :=
  d.isDefinition ∨ decls.find? (·.name = d.name) = some d ∧
    ∀ d' ∈ decls, d'.name = d.name → d'.isDefinition = false

instance (decls : List Decl) (d : Decl) : Decidable (d.StandsFor decls) :=
  inferInstanceAs (Decidable (_ ∨ _))

theorem Repeats.isFunc_eq {d₀ d : Decl} (h : d₀.Repeats d) : d₀.isFunc = d.isFunc := by
  rcases h with rfl | ⟨hsort, _⟩
  · rfl
  · cases d₀ <;> cases d <;> simp_all [sameSort, isFunc]

/-- Declarations that can be merged have at most one definition for each name. -/
theorem Merged.definition_unique (h : Merged decls) (hd : d ∈ decls) (hd' : d' ∈ decls)
    (hname : d.name = d'.name) (hdef : d.isDefinition) (hdef' : d'.isDefinition) : d = d' := by
  have hbound : ∀ {d d₀ : Decl}, d₀.Repeats d → d.isDefinition → d₀ = d := by
    rintro d d₀ (heq | ⟨_, hnot⟩) hdef
    · exact heq
    · rw [hnot] at hdef
      cases hdef
  obtain ⟨d₀, hd₀⟩ := exists_bindingOf hd
  have hleft : d₀ = d := hbound (h d hd d₀ hd₀) hdef
  have hright : d₀ = d' := hbound (h d' hd' d₀ (hname ▸ hd₀)) hdef'
  exact hleft.symm.trans hright

/-- A name is bound to the declaration that stands for it. -/
theorem Merged.bindingOf_eq_self_iff (h : Merged decls) (hd : d ∈ decls) :
    bindingOf decls d.name = some d ↔ d.StandsFor decls := by
  have hnone : (∀ d' ∈ decls, d'.name = d.name → d'.isDefinition = false) ↔
      (decls.filter (·.name = d.name)).find? (·.isDefinition) = none := by
    simp [List.find?_eq_none]
  constructor
  · intro hbound
    rcases Option.or_eq_some_iff.mp hbound with hfind | ⟨hfind, hhead⟩
    · exact .inl (by simpa using List.find?_some hfind)
    · rw [List.head?_filter] at hhead
      exact .inr ⟨hhead, hnone.mpr hfind⟩
  · rintro (hdef | ⟨hfirst, hplain⟩)
    · obtain ⟨d₀, hd₀⟩ := exists_bindingOf hd
      rcases h d hd d₀ hd₀ with rfl | ⟨_, hnot⟩
      · exact hd₀
      · rw [hnot] at hdef
        cases hdef
    · rw [← List.head?_filter] at hfirst
      exact Option.or_eq_some_iff.mpr (.inr ⟨hnone.mp hplain, hfirst⟩)

/-- Some declaration stands for every name. -/
theorem Merged.exists_standsFor (h : Merged decls) (hd : d ∈ decls) :
    ∃ d₀ ∈ decls, d₀.name = d.name ∧ d₀.StandsFor decls ∧ d₀.Repeats d := by
  obtain ⟨d₀, hd₀⟩ := exists_bindingOf hd
  obtain ⟨hmem, hname⟩ := mem_of_bindingOf hd₀
  exact ⟨d₀, hmem, hname, (h.bindingOf_eq_self_iff hmem).mp (hname ▸ hd₀), h d hd d₀ hd₀⟩

end Decl

namespace Program

variable {p : Program} {r : Resolution}

/-- If all numbers differ, then each name is bound to the declaration that stands for it. -/
theorem resolve_bindingOf (hids : (p.file.map Decl.id).Nodup) (hr : p.resolve = .ok r) :
    Decl.Merged p.file ∧ ∀ name, r.fileBinding? name = Decl.bindingOf p.file name := by
  have hnumbered : Decl.Numbered p.file := fun _ hd _ hd' => List.inj_on_of_nodup_map hids hd hd'
  obtain ⟨hcoexist, hfile⟩ := resolve_coexist hnumbered hr
  exact ⟨hcoexist.merged, hfile⟩

end Program

section

variable {a : Analysis} {p : Program} {m m' : Ir.Module} {moduleName : String}

/-- The functions of a module, in order. -/
theorem Program.lower_functions (h : p.lower a moduleName = .ok m) :
    (p.file.filter (·.isEmitted a)).map (·.lowerFunction a) = m.functions.map .ok := by
  refine foldlM_seen (fun seen m =>
    (seen.filter (·.isEmitted a)).map (·.lowerFunction a) = m.functions.map .ok) ?_ rfl h
  intro seen d m m' _ hm hstep
  rcases Decl.lowerInto_adds hstep with ⟨hemitted, _, F, hF, rfl⟩ | ⟨hnot, _, _, g, _, rfl⟩ |
    ⟨hnot, _, rfl⟩
  · simp [List.filter_append, hemitted, hm, hF, Ir.Module.addFunction]
  · simp [List.filter_append, hnot, hm, Ir.Module.addGlobal]
  · simp [List.filter_append, hnot, hm]

/-- A module has a global variable of a name if its list of names has the name. -/
theorem Ir.Module.global?_isSome_iff {name : String} :
    (m.global? name).isSome ↔ name ∈ m.globals.map (·.name) := by
  simp [Ir.Module.global?]

private theorem eraseDups_concat (names : List String) (name : String) :
    (names ++ [name]).eraseDups =
      if name ∈ names then names.eraseDups else names.eraseDups ++ [name] := by
  rw [List.eraseDups_append]
  by_cases hmem : name ∈ names <;> simp [List.removeAll, hmem, List.eraseDups_cons]

/-- The global variables of a module stand in the order of first declarations. -/
theorem Program.lower_globalNames (hbound : ∀ d ∈ p.file, (d.bound a).name = d.name)
    (h : p.lower a moduleName = .ok m) :
    m.globals.map (·.name) = ((p.file.filter Decl.isVar).map Decl.name).eraseDups := by
  refine foldlM_seen (fun seen m =>
    m.globals.map (·.name) = ((seen.filter Decl.isVar).map Decl.name).eraseDups) ?_ rfl h
  intro seen d m m' hd hm hstep
  have hmem : d.name ∈ (seen.filter Decl.isVar).map Decl.name ↔ (m.global? d.name).isSome := by
    rw [Ir.Module.global?_isSome_iff, hm, List.mem_eraseDups]
  rcases Decl.lowerInto_adds hstep with ⟨_, hnot, F, _, rfl⟩ | ⟨_, hvar, hnone, g, hg, rfl⟩ |
    ⟨_, hsome, rfl⟩
  · simp [List.filter_append, hnot, hm, Ir.Module.addFunction]
  · have hname : g.name = d.name := (Decl.lowerGlobal_eq_ok hg).1.trans (hbound d hd)
    have hfresh : d.name ∉ (seen.filter Decl.isVar).map Decl.name := by
      rw [hmem, hnone]
      simp
    rw [List.filter_append, List.filter_cons_of_pos hvar, List.filter_nil, List.map_append,
      List.map_singleton, eraseDups_concat, if_neg hfresh, ← hm, ← hname]
    simp [Ir.Module.addGlobal]
  · cases hvar : d.isVar with
    | false => simp [List.filter_append, hvar, hm]
    | true =>
      rw [List.filter_append, List.filter_cons_of_pos hvar, List.filter_nil, List.map_append,
        List.map_singleton, eraseDups_concat, if_pos (hmem.mpr (hsome hvar)), hm]

/-- The initial value that a global variable gets from the declaration that stands for it. -/
def Decl.Initializes (d : Decl) (type : Ir.Ty) (value : Ir.Constant) : Prop :=
  match d.init? with
  | none => value = .zero type
  | some init => ∃ v, init.fold = .ok v ∧ value = .int type v.value

theorem Decl.lowerGlobal_initializes {d : Decl} {g : Ir.Global} (h : d.lowerGlobal a = .ok g) :
    ∃ type value, a.types.decl? d = some type ∧ d.Initializes type.machine value ∧
      g = ⟨d.name, type.machine, value⟩ := by
  obtain ⟨type, htype, h⟩ := Except.bind_eq_ok.mp h
  have hknown := Analysis.decl?_of_ok htype
  cases d with
  | func _ _ _ _ _ | basic _ _ _ _ | typedef _ _ _ _ =>
    cases h
    exact ⟨type, _, hknown, rfl, rfl⟩
  | var id name span written init =>
    cases init with
    | none =>
      cases h
      exact ⟨type, _, hknown, rfl, rfl⟩
    | some init =>
      dsimp only at h
      split at h
      next v hv =>
        cases h
        exact ⟨type, _, hknown, ⟨v, hv, rfl⟩, rfl⟩
      next => cases h

/-- Only a function without a body has no blocks. -/
theorem Decl.lowerFunction_blocks {d : Decl} {F : Ir.Function} (h : d.lowerFunction a = .ok F) :
    F.name = d.name ∧ (F.blocks = [] ↔ d.isDefinition = false) := by
  obtain ⟨hname, hbody⟩ := Decl.lowerFunction_completed h
  refine ⟨hname, ?_⟩
  rcases hbody with ⟨hnot, hnil⟩ | ⟨hdef, start, final, hcompleted, rfl⟩
  · simp [hnot, hnil]
  · have hlength : final.toFunction.blocks.length = final.blocks.length := by
      cases hblocks : final.blocks <;> simp [Ir.Builder.toFunction, hblocks]
    have hne : final.toFunction.blocks ≠ [] := by
      intro hnil
      rw [hnil] at hlength
      exact hcompleted.blocks_ne_nil (List.length_eq_zero_iff.mp hlength.symm)
    simp [hdef, hne]

end

/-- A module is made of the declarations that stand for the names among some of them. -/
structure Ir.Module.Emits (a : Analysis) (decls : List Decl) (m : Ir.Module) : Prop where
  /-- No name is defined twice. -/
  unique : ∀ d ∈ decls, ∀ d' ∈ decls, d.name = d'.name → d.isDefinition → d'.isDefinition → d = d'
  globalNames : m.globals.map (·.name) = ((decls.filter Decl.isVar).map Decl.name).eraseDups
  globals : ∀ d ∈ decls, d.isVar → d.StandsFor decls → ∃ type value,
    a.types.decl? d = some type ∧ d.Initializes type.machine value ∧
      ⟨d.name, type.machine, value⟩ ∈ m.globals
  functions : (decls.filter fun d => d.isFunc ∧ d.StandsFor decls).map (·.lowerFunction a) =
    m.functions.map .ok
  functionNames : (m.functions.map (·.name)).Nodup ∧
    ∀ name, name ∈ m.functions.map (·.name) ↔ ∃ d ∈ decls, d.isFunc ∧ d.name = name
  bodies : ∀ d ∈ decls, ∀ F, d.lowerFunction a = .ok F →
    F.name = d.name ∧ (F.blocks = [] ↔ d.isDefinition = false)

namespace Program

variable {p : Program} {a : Analysis} {m : Ir.Module} {moduleName : String}

/-- What is known of the names at file level. -/
structure Binds (p : Program) (a : Analysis) : Prop where
  ids : (p.file.map Decl.id).Nodup
  merged : Decl.Merged p.file
  bound : ∀ d ∈ p.file, Decl.bindingOf p.file d.name = some (d.bound a)

namespace Binds

variable {d : Decl}

theorem of_resolve (hids : (p.file.map Decl.id).Nodup) (hr : p.resolve = .ok a.resolution) :
    p.Binds a := by
  obtain ⟨hmerged, hfile⟩ := resolve_bindingOf hids hr
  refine ⟨hids, hmerged, ?_⟩
  intro d hd
  obtain ⟨d₀, hd₀⟩ := Decl.exists_bindingOf hd
  rw [Decl.bound, hfile, hd₀, Option.getD_some]

theorem bound_mem (h : p.Binds a) (hd : d ∈ p.file) :
    d.bound a ∈ p.file ∧ (d.bound a).name = d.name :=
  Decl.mem_of_bindingOf (h.bound d hd)

/-- A declaration is bound to itself if it stands for its name. -/
theorem bound_eq_self_iff (h : p.Binds a) (hd : d ∈ p.file) :
    d.bound a = d ↔ d.StandsFor p.file := by
  rw [← h.merged.bindingOf_eq_self_iff hd, h.bound d hd, Option.some.injEq]

theorem isEmitted_iff (h : p.Binds a) (hd : d ∈ p.file) :
    d.isEmitted a ↔ d.isFunc ∧ d.StandsFor p.file := by
  have hid : (d.bound a).id = d.id ↔ d.bound a = d :=
    ⟨fun heq => List.inj_on_of_nodup_map h.ids (h.bound_mem hd).1 hd heq, congrArg Decl.id⟩
  rw [Decl.isEmitted_iff, hid, h.bound_eq_self_iff hd]

end Binds

/-- The emitted functions have one name each, and all names of functions have one. -/
theorem lower_functionNames (h : p.Binds a) (hm : m.HasFunctions a p.file) :
    (m.functions.map (·.name)).Nodup ∧
      ∀ name, name ∈ m.functions.map (·.name) ↔ ∃ d ∈ p.file, d.isFunc ∧ d.name = name := by
  constructor
  · refine hm.nodup_of_bound h.ids ?_
    intro d hd d' hd' hname
    have hbound := h.bound d hd
    rw [hname, h.bound d' hd', Option.some.injEq] at hbound
    exact hbound.symm
  · intro name
    simp only [hm.names, List.mem_map, List.mem_filter]
    constructor
    · rintro ⟨d, ⟨hd, hemitted⟩, hname⟩
      exact ⟨d, hd, (Decl.isEmitted_iff.mp hemitted).1, hname⟩
    · rintro ⟨d, hd, hfunc, hname⟩
      obtain ⟨d₀, hd₀, hname₀, hstands, hrepeats⟩ := h.merged.exists_standsFor hd
      have hfunc₀ : d₀.isFunc := hrepeats.isFunc_eq.trans hfunc
      exact ⟨d₀, ⟨hd₀, (h.isEmitted_iff hd₀).mpr ⟨hfunc₀, hstands⟩⟩, hname₀.trans hname⟩

/-- The module of a program in which no top-level declaration is repeated is made of the
declarations that stand for the names of the file. -/
theorem lower_emits (p : Program) (hids : (p.file.map Decl.id).Nodup) (r : Resolution)
    (hr : p.resolve = .ok r) (t : TypeTable) (moduleName : String) (m : Ir.Module)
    (hm : p.lower ⟨r, t⟩ moduleName = .ok m) : m.Emits ⟨r, t⟩ p.file := by
  have h : p.Binds ⟨r, t⟩ := .of_resolve hids hr
  have hglobals : m.HasGlobals ⟨r, t⟩ p.file := by
    refine lower_hasGlobals ?_ hm
    intro d hd
    obtain ⟨_, hfile⟩ := resolve_bindingOf hids hr
    exact ⟨_, (hfile d.name).trans (h.bound d hd), (h.bound_mem hd).2⟩
  refine ⟨?_, lower_globalNames (fun d hd => (h.bound_mem hd).2) hm, ?_, ?_,
    lower_functionNames h (lower_hasFunctions hm), fun d _ F => Decl.lowerFunction_blocks⟩
  · intro d hd d' hd' hname hdef hdef'
    exact h.merged.definition_unique hd hd' hname hdef hdef'
  · intro d hd hvar hstands
    obtain ⟨g, hg, _, hlower⟩ := hglobals.emitted d hd hvar
    rw [(h.bound_eq_self_iff hd).mpr hstands] at hlower
    obtain ⟨type, value, htype, hvalue, rfl⟩ := Decl.lowerGlobal_initializes hlower
    exact ⟨type, value, htype, hvalue, hg⟩
  · have hfilter : p.file.filter (fun d => d.isFunc ∧ d.StandsFor p.file) =
        p.file.filter (·.isEmitted ⟨r, t⟩) := by
      apply List.filter_congr
      intro d hd
      rw [Bool.eq_iff_iff, decide_eq_true_iff]
      exact (h.isEmitted_iff hd).symm
    rw [hfilter]
    exact lower_functions hm

/-- Names that are declared again and again:
`int n; int f(int a); int n = 3; char c; int f(int a) { return n; } int g(void); int n;`. -/
def redeclarations : Program := Build.finish do
  let intType ← Build.namedType "int"
  Build.push (← Build.var intType "n" none)
  let intType ← Build.namedType "int"
  let a ← Build.param intType "a"
  let intType ← Build.namedType "int"
  Build.push (← Build.func "f" intType [a] none)
  let intType ← Build.namedType "int"
  let three ← Build.int 3
  Build.push (← Build.var intType "n" (some three))
  let charType ← Build.namedType "char"
  Build.push (← Build.var charType "c" none)
  let intType ← Build.namedType "int"
  let a ← Build.param intType "a"
  let n ← Build.name "n"
  let result ← Build.ret (some n)
  let body ← Build.block [.stmt result]
  let intType ← Build.namedType "int"
  Build.push (← Build.func "f" intType [a] (some body))
  let intType ← Build.namedType "int"
  Build.push (← Build.func "g" intType [] none)
  let intType ← Build.namedType "int"
  Build.push (← Build.var intType "n" none)

/-- The variable keeps the place of its first declaration and the value of the third one; the
function has the place of its body. -/
theorem lower_emits_redeclarations : ∃ c, redeclarations.compile {} = .ok c ∧
    c.module.Emits ⟨c.resolution, c.types⟩ redeclarations.file ∧
    c.module.globals = [⟨"n", .i32, .int .i32 3⟩, ⟨"c", .i8, .int .i8 0⟩] ∧
    c.module.functions.map (fun F => (F.name, F.blocks.length)) = [("f", 1), ("g", 0)] := by
  obtain ⟨c, hc, hcontents⟩ : ∃ c, redeclarations.compile {} = .ok c ∧ decide (
      c.module.globals = [⟨"n", .i32, .int .i32 3⟩, ⟨"c", .i8, .int .i8 0⟩] ∧
      c.module.functions.map (fun F => (F.name, F.blocks.length)) = [("f", 1), ("g", 0)]) :=
    Except.exists_of_any (by decide +kernel)
  obtain ⟨hresolve, _, hlower⟩ := compile_ok hc
  exact ⟨c, hc, lower_emits redeclarations (by decide +kernel) c.resolution hresolve c.types _
    c.module hlower, of_decide_eq_true hcontents⟩

end Program

end MicroC
