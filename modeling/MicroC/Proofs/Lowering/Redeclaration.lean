import MicroC.Lowering.Machine
import MicroC.Proofs.Typing.Reordering

/-!
Machine types of names that are declared repeatedly. Declarations that agree may give different
lengths to the arrays that a function takes, and nothing else in their types may differ. An array
is passed as the address of its first element, so these lengths are lost in the machine.
-/

namespace MicroC

namespace Ty

theorem machineParam_passed (t : Ty) : t.passed.machineParam = t.machineParam := by
  cases t with
  | array elem len => cases len <;> rfl
  | basic _ | func _ _ => rfl

/-- The machine does not see the lengths of the arrays that a function takes. -/
theorem machine_outline (t : Ty) : t.outline.machine = t.machine := by
  cases t with
  | func result params =>
    simp [outline, machine, machineParams_eq_map, Function.comp_def, machineParam_passed]
  | basic _ | array _ _ => rfl

theorem machine_of_outline {s t : Ty} (h : s.outline = t.outline) : s.machine = t.machine := by
  rw [← machine_outline s, h, machine_outline t]

end Ty

namespace Program

/-- The types of any two declarations of one variable or function at file level agree in both
directions, and they are the same for the machine. -/
theorem redeclared_machine_eq (p : Program) (hp : p.Coherent) (hsig : p.FunctionSignatures)
    (r : Resolution) (hr : p.resolve = .ok r) (t : TypeTable) (ht : p.check r = .ok t)
    (d : Decl) (hd : d ∈ p.file) (hvalue : d.isType = false)
    (d' : Decl) (hd' : d' ∈ p.file) (hname : d.name = d'.name) :
    ∃ type type', t.decl? d = some type ∧ t.decl? d' = some type' ∧
      type.sameDecl type' ∧ type'.sameDecl type ∧ type.machine = type'.machine := by
  have hrecords := p.check_records hp (p.resolve_covers hr) ht
  have huniform := uniform hp hsig hr fun d hd => (hrecords d hd).1
  have hcoexist := (resolve_coexist hp.numbered hr).1 d hd d' hd' hname
  have hsort : d.sameSort d' := hcoexist.sameSort hvalue
  -- the types by the rules are those in the table
  have hknown : ∀ {d type}, d ∈ p.file → d.Means r type → t.decl? d = some type := by
    intro d type hd hmeans
    obtain ⟨found, hfound, hmeans'⟩ := (hrecords d hd).2.knows d List.mem_cons_self
    rw [hfound, hmeans'.unique hmeans]
  obtain ⟨type, type', hmeans, hmeans', houtline, hsame⟩ := huniform d hd d' hd' hname hsort
  obtain ⟨found', found, hfound', hfound, _, hsame'⟩ :=
    huniform d' hd' d hd hname.symm (Decl.sameSort_symm hsort)
  obtain rfl : found = type := hfound.unique hmeans
  obtain rfl : found' = type' := hfound'.unique hmeans'
  refine ⟨found, found', hknown hd hmeans, hknown hd' hmeans', hsame, hsame', ?_⟩
  exact Ty.machine_of_outline houtline

/-- Two prototypes that are compared with the definition only:
`int take(int few[3]); int take(int more[4]); int take(int any[]) { return any[0]; }`. -/
def openArray : Program := Build.finish do
  let intType ← Build.namedType "int"
  let few ← Build.param (← Build.arrayType intType (some 3)) "few"
  let intType ← Build.namedType "int"
  Build.push (← Build.func "take" intType [few] none)
  let intType ← Build.namedType "int"
  let more ← Build.param (← Build.arrayType intType (some 4)) "more"
  let intType ← Build.namedType "int"
  Build.push (← Build.func "take" intType [more] none)
  let intType ← Build.namedType "int"
  let any ← Build.param (← Build.arrayType intType none) "any"
  let zero ← Build.int 0
  let body ← Build.block [.stmt (← Build.ret (some (← Build.index "any" zero)))]
  let intType ← Build.namedType "int"
  Build.push (← Build.func "take" intType [any] (some body))

/-- The types of the prototypes are different, their machine types are not. -/
theorem redeclared_machine_eq_openArray : ∃ r t, openArray.resolve = .ok r ∧
    openArray.check r = .ok t ∧ ∃ d ∈ openArray.file, ∃ d' ∈ openArray.file,
      ∃ type type', t.decl? d = some type ∧ t.decl? d' = some type' ∧ type ≠ type' ∧
        type.sameDecl type' ∧ type'.sameDecl type ∧ type.machine = type'.machine := by
  obtain ⟨r, hr, hchecked⟩ : ∃ r, openArray.resolve = .ok r ∧ (openArray.check r).toOption.any
      fun t => decide (∃ d ∈ openArray.file, ∃ d' ∈ openArray.file,
        d.isType = false ∧ d.name = d'.name ∧ t.decl? d ≠ t.decl? d') :=
    Except.exists_of_any (by decide +kernel)
  obtain ⟨t, ht, hdifferent⟩ := Except.exists_of_any hchecked
  obtain ⟨d, hd, d', hd', hvalue, hname, hne⟩ := of_decide_eq_true hdifferent
  obtain ⟨type, type', htype, htype', hagree⟩ := redeclared_machine_eq openArray (by decide +kernel)
    (by decide +kernel) r hr t ht d hd hvalue d' hd' hname
  refine ⟨r, t, hr, ht, d, hd, d', hd', type, type', htype, htype', ?_, hagree⟩
  intro heq
  rw [htype, htype', heq] at hne
  exact hne rfl

end Program

end MicroC
