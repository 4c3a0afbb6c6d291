import MicroC.Proofs.Lowering.Emission
import MicroC.Proofs.Pair
import MicroC.Proofs.Typing.Repetition

/-!
A top-level declaration that is listed once more. The program compiles as before or fails with the
same error. A global variable is made once for each name, so there is none more. A function is made
for each entry of the declaration that its name is bound to: if this is the one that is repeated,
then the function is emitted once more.
-/

namespace MicroC

open LowerM

/-! What the lowering asks for. -/

section

variable {r r' : Resolution} {t : TypeTable}

theorem Resolution.SameNames.guide_eq (h : r.SameNames r') :
    Analysis.guide ⟨r', t⟩ = Analysis.guide ⟨r, t⟩ := by
  have hdeclOf : Analysis.declOf ⟨r', t⟩ = Analysis.declOf ⟨r, t⟩ := by
    funext ident
    unfold Analysis.declOf Resolution.declOf?
    rw [h.idents]
  exact congrArg (fun declOf => Guide.mk declOf _ _) hdeclOf

theorem Decl.lowerFunction_same (h : r.SameNames r') (d : Decl) :
    d.lowerFunction ⟨r', t⟩ = d.lowerFunction ⟨r, t⟩ :=
  congrArg (fun g => d.lowerFunctionBy g) h.guide_eq

theorem Decl.lowerInto_same (h : r.SameNames r') :
    Decl.lowerInto ⟨r', t⟩ = Decl.lowerInto ⟨r, t⟩ := by
  funext m d
  simp only [Decl.lowerInto, h.bindings, Decl.lowerFunction_same h]
  rfl

end

/-! Modules. -/

theorem Decl.lowerInto_of_isEmitted {a : Analysis} {d : Decl} {F : Ir.Function} (m : Ir.Module)
    (h : d.isEmitted a) (hF : d.lowerFunction a = .ok F) :
    d.lowerInto a m = .ok (m.addFunction F) := by
  obtain ⟨hfunc, hid⟩ := Decl.isEmitted_iff.mp h
  cases d with
  | func id name span signature body =>
    refine (if_pos hid).trans ?_
    rw [hF]
    rfl
  | var _ _ _ _ _ | basic _ _ _ _ | typedef _ _ _ _ => cases hfunc

/-- A declaration adds nothing if it has no function and its variable is there. -/
theorem Decl.lowerInto_of_placed {a : Analysis} {d : Decl} {m : Ir.Module}
    (h : d.isEmitted a = false) (hplaced : d.isVar → (m.global? d.name).isSome) :
    d.lowerInto a m = .ok m := by
  cases d with
  | func id name span signature body =>
    refine if_neg fun hid => ?_
    rw [Decl.isEmitted_iff.mpr ⟨rfl, hid⟩] at h
    cases h
  | var id name span written init => exact if_pos (hplaced rfl)
  | basic _ _ _ _ | typedef _ _ _ _ => rfl

namespace Program

variable {p : Program} {d : Decl} {r r' : Resolution} {t : TypeTable} {moduleName : String}
  {m : Ir.Module}

theorem lower_again (hsame : r.SameNames r') : (p.again d).lower ⟨r', t⟩ moduleName =
    p.lower ⟨r, t⟩ moduleName >>= fun m => d.lowerInto ⟨r, t⟩ m := by
  unfold lower again
  rw [Decl.lowerInto_same hsame, List.foldlM_append]
  simp only [List.foldlM_cons, List.foldlM_nil, bind_pure]

/-- A function is emitted for the declaration that its name is bound to. -/
theorem isEmitted_iff_fileBinding? (hp : p.Coherent) (hr : r.Covers p) (hd : d ∈ p.file) :
    d.isEmitted ⟨r, t⟩ ↔ d.isFunc ∧ r.fileBinding? d.name = some d := by
  obtain ⟨b, hb⟩ := hr.binding_some d hd
  obtain ⟨hmem, _⟩ := hr.binding_mem d.name b hb
  have hbound : d.bound ⟨r, t⟩ = b := by rw [Decl.bound, hb, Option.getD_some]
  rw [Decl.isEmitted_iff, hbound, hb, Option.some.injEq]
  refine and_congr_right fun _ => ⟨?_, congrArg Decl.id⟩
  exact hp.decl_eq (p.declares_of_mem_file hmem) (p.declares_of_mem_file hd)

/-- What a declaration adds to the module of a program that has it already. -/
theorem lowerInto_again (hp : p.Coherent) (hr : r.Covers p) (hd : d ∈ p.file)
    (hm : p.lower ⟨r, t⟩ moduleName = .ok m) :
    ∃ m', d.lowerInto ⟨r, t⟩ m = .ok m' ∧ m'.globals = m.globals ∧
      if d.isFunc ∧ r.fileBinding? d.name = some d then
        ∃ F ∈ m.functions, F.name = d.name ∧ m'.functions = m.functions ++ [F]
      else m'.functions = m.functions := by
  have hemitted := isEmitted_iff_fileBinding? (t := t) hp hr hd
  split
  next h =>
    obtain ⟨F, hF, hlower⟩ := (lower_hasFunctions hm).emitted d hd (hemitted.mpr h)
    exact ⟨m.addFunction F, Decl.lowerInto_of_isEmitted m (hemitted.mpr h) hlower, rfl, F, hF,
      (Decl.lowerFunction_completed hlower).1, rfl⟩
  next h =>
    have hnot : d.isEmitted ⟨r, t⟩ = false := Bool.eq_false_iff.mpr fun hyes => h (hemitted.mp hyes)
    refine ⟨m, Decl.lowerInto_of_placed hnot fun hvar => ?_, rfl, rfl⟩
    have hbound : ∀ d ∈ p.file, ∃ b, r.fileBinding? d.name = some b ∧ b.name = d.name := by
      intro d hd
      obtain ⟨b, hb⟩ := hr.binding_some d hd
      exact ⟨b, hb, (hr.binding_mem d.name b hb).2⟩
    obtain ⟨g, hg, hname, _⟩ := (lower_hasGlobals hbound hm).emitted d hd hvar
    exact Ir.Module.global?_isSome_iff.mpr (List.mem_map.mpr ⟨g, hg, hname⟩)

/-- A top-level declaration that is listed once more changes neither whether a program compiles
nor the error if it does not, and no global variable. It changes the functions in one case only:
if it is the function that its name is bound to, then that is emitted once more. All scopes have to
be closed in time, and no other declaration may use the same identifiers. -/
theorem compile_again (p : Program) (hp : p.Coherent) (hsettled : p.Settled) (d : Decl)
    (hd : d ∈ p.file) (howns : p.OwnsUses d) (settings : Settings) :
    Except.Rel Eq
      (fun c c' => c'.module.globals = c.module.globals ∧
        if d.isFunc ∧ c.resolution.fileBinding? d.name = some d then
          ∃ F ∈ c.module.functions, F.name = d.name ∧
            c'.module.functions = c.module.functions ++ [F]
        else c'.module.functions = c.module.functions)
      (p.compile settings) ((p.again d).compile settings) := by
  unfold compile resolveNames checkTypes lowerModule
  cases hr : p.resolve with
  | error e =>
    rw [resolve_again_error hp hd hr]
    exact .error rfl
  | ok r =>
    have hcovers := p.resolve_covers hr
    obtain ⟨r', hr', hsame⟩ := resolve_again hp hd hsettled howns hr
    rw [hr']
    change Except.Rel _ _ ((p.check r).mapError _ >>= _) (((p.again d).check r').mapError _ >>= _)
    rw [check_again hp hcovers hd hsame]
    cases ht : p.check r with
    | error e => exact .error rfl
    | ok t =>
      change Except.Rel _ _ ((p.lower ⟨r, t⟩ _).mapError _ >>= _)
        (((p.again d).lower ⟨r', t⟩ _).mapError _ >>= _)
      rw [lower_again hsame]
      cases hm : p.lower ⟨r, t⟩ settings.moduleName with
      | error e => exact .error rfl
      | ok m =>
        obtain ⟨m', hm', hcontents⟩ := lowerInto_again hp hcovers hd hm
        change Except.Rel _ _ _ ((d.lowerInto ⟨r, t⟩ m).mapError _ >>= _)
        rw [hm']
        exact .ok hcontents

/-- A prototype of a function that is defined later. -/
theorem compile_again_redeclarations : ∃ d ∈ redeclarations.file, d.name = "f" ∧
    d.isDefinition = false ∧ ∃ c c', redeclarations.compile {} = .ok c ∧
      (redeclarations.again d).compile {} = .ok c' ∧
      c.module.functions.map (·.name) = ["f", "g"] ∧
      c'.module.globals = c.module.globals ∧ c'.module.functions = c.module.functions := by
  obtain ⟨d, hd, hname, hdef⟩ : ∃ d ∈ redeclarations.file, d.name = "f" ∧
      d.isDefinition = false := by
    decide +kernel
  have howns : ∀ d ∈ redeclarations.file, redeclarations.OwnsUses d := by decide +kernel
  obtain ⟨c, hc, hcontents⟩ : ∃ c, redeclarations.compile {} = .ok c ∧ decide (
      c.module.functions.map (·.name) = ["f", "g"] ∧
      ∀ b ∈ c.resolution.fileBinding? "f", b.isDefinition) :=
    Except.exists_of_any (by decide +kernel)
  obtain ⟨hnames, hbinding⟩ := of_decide_eq_true hcontents
  have hrel := compile_again redeclarations (by decide +kernel) (by decide +kernel) d hd
    (howns d hd) {}
  rw [hc] at hrel
  generalize hagain : (redeclarations.again d).compile {} = out at hrel
  cases hrel with
  | ok hcontents =>
    obtain ⟨hglobals, hfunctions⟩ := hcontents
    rw [if_neg] at hfunctions
    · exact ⟨d, hd, hname, hdef, c, _, hc, hagain, hnames, hglobals, hfunctions⟩
    · rintro ⟨_, hself⟩
      rw [hname] at hself
      rw [hbinding d hself] at hdef
      cases hdef

/-- `int f(void);`. -/
def lonePrototype : Program := Build.finish do
  let intType ← Build.namedType "int"
  Build.push (← Build.func "f" intType [] none)

/-- The function is declared twice in the module if it is listed twice in the program. -/
theorem lonePrototype_emitted_twice : ∃ d ∈ lonePrototype.file, ∃ c c',
    lonePrototype.compile {} = .ok c ∧ (lonePrototype.again d).compile {} = .ok c' ∧
    c.module.functions.map (·.name) = ["f"] ∧ c'.module.functions.map (·.name) = ["f", "f"] := by
  have hany : lonePrototype.file.any fun d => (lonePrototype.compile {}).toOption.any fun c =>
      ((lonePrototype.again d).compile {}).toOption.any fun c' =>
        c.module.functions.map (·.name) = ["f"] ∧
          c'.module.functions.map (·.name) = ["f", "f"] := by
    decide +kernel
  obtain ⟨d, hd, hany⟩ := List.any_eq_true.mp hany
  obtain ⟨c, hc, hany⟩ := Except.exists_of_any hany
  obtain ⟨c', hc', hnames⟩ := Except.exists_of_any hany
  exact ⟨d, hd, c, c', hc, hc', of_decide_eq_true hnames⟩

/-- A scope that is left open: `int count; int f(int count) return count;`. -/
def hiddenCount : Program := Build.finish do
  let intType ← Build.namedType "int"
  Build.push (← Build.var intType "count" none)
  let intType ← Build.namedType "int"
  let count ← Build.param intType "count"
  let use ← Build.name "count"
  let body ← Build.ret (some use)
  let intType ← Build.namedType "int"
  Build.push (← Build.func "f" intType [count] (some body))

-- The variable clashes with the parameter, in whose scope the second walk takes place.
example : hiddenCount.Coherent ∧ ¬ hiddenCount.Settled ∧ (hiddenCount.compile {}).toBool ∧
    ∀ d ∈ hiddenCount.file, d.isVar → ((hiddenCount.again d).compile {}).toBool = false := by
  decide +kernel

/-- Two functions with one `return`: `int f(int x) { return x; } int g(int x) { return x; }`. -/
def sharedReturn : Program := Build.finish do
  let use ← Build.name "x"
  let result ← Build.ret (some use)
  let intType ← Build.namedType "int"
  let x ← Build.param intType "x"
  let body ← Build.block [.stmt result]
  Build.push (← Build.func "f" (← Build.namedType "int") [x] (some body))
  let intType ← Build.namedType "int"
  let x ← Build.param intType "x"
  let body ← Build.block [.stmt result]
  Build.push (← Build.func "g" (← Build.namedType "int") [x] (some body))

-- The use stands for the parameter of the function that has been walked through last.
example : sharedReturn.Coherent ∧ sharedReturn.Settled ∧ ∀ d ∈ sharedReturn.file, d.name = "f" →
    ¬ sharedReturn.OwnsUses d ∧ (sharedReturn.compile {}).toOption.any fun c =>
      ((sharedReturn.again d).compile {}).toOption.any fun c' =>
        (c'.module.functions.take 2).map (·.text) ≠ c.module.functions.map (·.text) := by
  decide +kernel

end Program

end MicroC
