import MicroC.Proofs.Lowering.WellTyped
import MicroC.Proofs.Typing.Completeness

/-!
Operands agree with the table of types. The lowering takes the types of operands from values, slots
and declarations, and never looks up the type of an expression. Here every operand is put to a test
as soon as its expression is lowered, and the lowering is given up if the test fails. A test that
operands of the recorded types pass never fails, so that these are the types of all operands.
-/

namespace MicroC

open LowerM

/-- Emits the code of an expression and puts its operand to the test. -/
def Expr.tested (test : Expr → Ir.Value → Bool) (e : Expr) (code : LowerM Ir.Value) :
    LowerM Ir.Value := do
  let value ← code
  if test e value then return value else throw (.missingType "operand" e.span)

/-- Names and types are read from the tables, and operands are put to the test. -/
abbrev Analysis.guideTested (a : Analysis) (test : Expr → Ir.Value → Bool) : Guide :=
  { a.guide with operand := Expr.tested test }

/-- The function that a declaration stands for, if all operands in it pass the test. -/
def Decl.lowerFunctionTested (a : Analysis) (test : Expr → Ir.Value → Bool) (d : Decl) :
    Except LowerError Ir.Function :=
  d.lowerFunctionBy (a.guideTested test)

/-! A test that the right operands pass. -/

/-- The expressions among some events have types, and operands of these types pass the test. -/
def Analysis.Passes (a : Analysis) (test : Expr → Ir.Value → Bool) (events : List Event) : Prop :=
  ∀ e, .enter (.expr e) ∈ events →
    ∃ type, e.HasType a type ∧ ∀ v : Ir.Value, v.type = type.machineParam → test e v

section

variable {p : Program} {a : Analysis} {test : Expr → Ir.Value → Bool} {b : Ir.Builder}
  {events : List Event}

/-- An operand that the code is known to give passes. -/
theorem Expr.tested_eq {e : Expr} {code code' : LowerM Ir.Value} (hcode : code' b = code b)
    (hpasses : code.Ensures b fun v _ => test e v) : e.tested test code' b = code b := by
  have hbind : (code >>= pure) b = code b := by rw [bind_pure]
  rw [← hbind]
  refine LowerM.bind_congr hcode hpasses fun v b' hv => ?_
  rw [if_pos hv]

/-- The test comes to nothing where operands have the types of expressions. -/
theorem Analysis.Passes.mimics (h : a.Passes test events) {inv : Ir.Builder → Prop} :
    (a.guideTested test).Mimics a True events inv := by
  refine ⟨fun _ _ => rfl, fun _ _ => rfl, fun _ _ => Ident.elementAddress_congr, fun _ => rfl,
    fun _ _ => rfl, ?_⟩
  intro b e code hin hcode hsuits
  obtain ⟨type, htype, hpasses⟩ := h e hin
  refine Expr.tested_eq hcode (Run.mono hsuits fun v _ hv => ?_)
  exact hpasses v (hv trivial type htype).type_eq

/-- A function is lowered with the test as it is without. -/
theorem Decl.lowerFunctionTested_eq (ha : a.Consistent p) (htree : p.TreeShaped)
    (hbodies : p.BlockBodies) (hparams : p.VariableParams) (hr : p.resolve = .ok a.resolution)
    {d : Decl} (hd : d ∈ p.file) (htest : a.Passes test d.contents) :
    d.lowerFunctionTested a test = d.lowerFunction a := by
  cases d with
  | var _ _ _ _ _ | basic _ _ _ _ | typedef _ _ _ _ => rfl
  | func id name span signature body =>
    cases body with
    | none => rfl
    | some body =>
      obtain ⟨_, _, _, decls, _, result, types, rfl, hknown, _⟩ := ha.definition hd
      have hbody := p.body_checked ha.toChecked htree hbodies hparams hr hd hknown
      have heq := (hbody.lowerBody ha.toChecked ha.takesParams htest.mimics name).1
      have hknown : a.typeOf _ = .ok _ := Analysis.Consistent.typeOf_eq hknown
      rw [Decl.lowerFunctionTested, Decl.lowerFunction, Decl.lowerFunctionBy_definition hknown,
        Decl.lowerFunctionBy_definition hknown, heq]

/-- In the course of lowering a function an expression is lowered to an operand: the function does
not come about if just that operand of that expression is rejected. -/
def Decl.LowersTo (a : Analysis) (d : Decl) (e : Expr) (v : Ir.Value) : Prop :=
  d.lowerFunctionTested a (fun e' v' => ¬ (e' = e ∧ v' = v)) ≠ d.lowerFunction a

end

namespace Program

/-- Each function of a checked program can be lowered. A test that every operand passes which has
the machine type recorded for its expression does not change the function, so all operands in it
are of this kind. -/
theorem operand_types (p : Program) (hp : p.Coherent) (htree : p.TreeShaped)
    (hbodies : p.BlockBodies) (hparams : p.VariableParams) (hsig : p.FunctionSignatures)
    (r : Resolution) (t : TypeTable) (hr : p.resolve = .ok r) (ht : p.check r = .ok t) (d : Decl)
    (hd : d ∈ p.file) (hfunc : d.isFunc) :
    ∃ f, d.lowerFunction ⟨r, t⟩ = .ok f ∧
      (∀ test : Expr → Ir.Value → Bool,
        (∀ e type v, t.expr? e = some type → v.type = type.machineParam → test e v) →
        d.lowerFunctionTested ⟨r, t⟩ test = .ok f) ∧
      ∀ e v, d.LowersTo ⟨r, t⟩ e v →
        ∃ type, t.expr? e = some type ∧ v.type = type.machineParam := by
  have ha := p.check_consistent hp hsig hr ht
  have hrecords := (p.check_records hp ha.covers ht d hd).2
  have htested : ∀ test : Expr → Ir.Value → Bool,
      (∀ e type v, t.expr? e = some type → v.type = type.machineParam → test e v) →
      d.lowerFunctionTested ⟨r, t⟩ test = d.lowerFunction ⟨r, t⟩ := by
    intro test htest
    refine Decl.lowerFunctionTested_eq ha htree hbodies hparams hr hd fun e he => ?_
    obtain ⟨type, hknown, htype⟩ := hrecords.hasType ha.sound hd he
    exact ⟨type, htype, fun v hv => htest e type v hknown hv⟩
  obtain ⟨f, hf⟩ : ∃ f, d.lowerFunction ⟨r, t⟩ = .ok f := by
    cases d with
    | func _ _ _ _ _ => exact Decl.lowerFunction_ok ha hd
    | var _ _ _ _ _ | basic _ _ _ _ | typedef _ _ _ _ => cases hfunc
  refine ⟨f, hf, fun test htest => (htested test htest).trans hf, fun e v hlowers => ?_⟩
  by_cases hagrees : ∃ type, t.expr? e = some type ∧ v.type = type.machineParam
  · exact hagrees
  -- otherwise the test that rejects only this operand of this expression changes nothing
  · refine absurd (htested _ fun e' type v' hknown hv => decide_eq_true ?_) hlowers
    rintro ⟨rfl, rfl⟩
    exact hagrees ⟨type, hknown, hv⟩

/-- The argument `data` of the call in `Samples.arraySum`. -/
def dataArgument : Expr :=
  .name 33 ⟨20, "data", ⟨165, 169⟩⟩

/-- The argument, an array, is lowered to a pointer. -/
theorem operand_types_arraySum : ∃ r t, Samples.arraySum.resolve = .ok r ∧
    Samples.arraySum.check r = .ok t ∧ ∃ d ∈ Samples.arraySum.file, d.name = "main" ∧
      d.LowersTo ⟨r, t⟩ dataArgument (.inst 6 (.ptr .i32)) ∧
      t.expr? dataArgument = some (.array .int (some 3)) ∧
      ∃ type, t.expr? dataArgument = some type ∧ type.machineParam = .ptr .i32 := by
  have hany : Samples.arraySum.resolve.toOption.any fun r =>
      (Samples.arraySum.check r).toOption.any fun t => Samples.arraySum.file.any fun d =>
        d.isFunc ∧ d.name = "main" ∧ t.expr? dataArgument = some (.array .int (some 3)) ∧
          (d.lowerFunctionTested ⟨r, t⟩ fun e v =>
            ¬ (e = dataArgument ∧ v = .inst 6 (.ptr .i32))).toBool = false := by
    decide +kernel
  obtain ⟨r, hr, hany⟩ := Except.exists_of_any hany
  obtain ⟨t, ht, hany⟩ := Except.exists_of_any hany
  obtain ⟨d, hd, hmain⟩ := List.any_eq_true.mp hany
  obtain ⟨hfunc, hname, hknown, hrejected⟩ := of_decide_eq_true hmain
  obtain ⟨f, hf, _, htypes⟩ := operand_types Samples.arraySum (by decide +kernel)
    (by decide +kernel) (by decide +kernel) (by decide +kernel) (by decide +kernel) r t hr ht d hd
    hfunc
  have hlowers : d.LowersTo ⟨r, t⟩ dataArgument (.inst 6 (.ptr .i32)) := by
    intro heq
    rw [heq, hf] at hrejected
    cases hrejected
  obtain ⟨type, htype, hpointer⟩ := htypes _ _ hlowers
  exact ⟨r, t, hr, ht, d, hd, hname, hlowers, hknown, type, htype, hpointer.symm⟩

end Program

end MicroC
