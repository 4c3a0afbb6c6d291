import MicroC.Proofs.Lowering.Contents

/-!
The control flow of a lowered module. Whatever the analysis of the names and types of a program
says, as long as the program can be lowered, the blocks of each of its functions form a graph in
which all of them can be reached, and a result is computed before it is used on every path.
-/

namespace MicroC

/-- The function of a declaration. -/
theorem Decl.lowerFunction_flowGraph {a : Analysis} {d : Decl} {F : Ir.Function}
    (h : d.lowerFunction a = .ok F) : F.FlowGraph ∧ (F.blocks = [] ↔ d.isDefinition = false) := by
  rcases (Decl.lowerFunction_completed h).2 with ⟨hdef, hblocks⟩ | ⟨hdef, start, final, hfinal, rfl⟩
  · refine ⟨?_, by simp [hdef, hblocks]⟩
    constructor <;> simp [hblocks]
  · obtain ⟨s, rfl, hsound⟩ := hfinal.sound
    refine ⟨hsound.flowGraph hfinal.preceded hfinal.finished, ?_⟩
    rw [← List.length_eq_zero_iff, s.builder.toFunction_length, List.length_eq_zero_iff]
    simp [hdef, hfinal.blocks_ne_nil]

theorem Decl.lowerFunction_defines {a : Analysis} {d : Decl} {F : Ir.Function}
    (h : d.lowerFunction a = .ok F) {i k : Nat} {v : Ir.Value} (hv : F.Uses i k v) :
    F.Defines i k v := by
  rcases (Decl.lowerFunction_completed h).2 with ⟨_, hblocks⟩ | ⟨_, start, final, hfinal, rfl⟩
  · obtain ⟨block, hblock, _⟩ := hv
    simp [hblocks] at hblock
  · obtain ⟨s, rfl, hsound⟩ := hfinal.sound
    exact hsound.defines hfinal.preceded hfinal.finished hv

namespace Program

/-- The blocks of every function form a graph, and the functions with a body are those that have
blocks. -/
theorem lower_flowGraph (p : Program) (a : Analysis) (moduleName : String) (m : Ir.Module)
    (h : p.lower a moduleName = .ok m) : ∀ F ∈ m.functions, F.FlowGraph ∧
      ∃ d ∈ p.file, d.isFunc ∧ d.name = F.name ∧ (F.blocks = [] ↔ d.isDefinition = false) := by
  intro F hF
  obtain ⟨d, hd, hemitted, hlower⟩ := (lower_hasFunctions h).source F hF
  obtain ⟨hgraph, hblocks⟩ := Decl.lowerFunction_flowGraph hlower
  have hname := (Decl.lowerFunction_completed hlower).1
  exact ⟨hgraph, d, hd, (Bool.and_eq_true_iff.mp hemitted).1, hname.symm, hblocks⟩

/-- A function with a loop has four blocks. -/
theorem lower_flowGraph_arraySum : ∃ c, Samples.arraySum.compile {} = .ok c ∧
    ∃ F ∈ c.module.functions, F.blocks.length = 4 ∧ F.FlowGraph := by
  obtain ⟨c, hc, hany⟩ : ∃ c, Samples.arraySum.compile {} = .ok c ∧
      c.module.functions.any (·.blocks.length = 4) :=
    Except.exists_of_any (by decide +kernel)
  obtain ⟨F, hF, hlength⟩ := List.any_eq_true.mp hany
  have hall := lower_flowGraph Samples.arraySum _ _ c.module (compile_ok hc).2.2
  exact ⟨c, hc, F, hF, of_decide_eq_true hlength, (hall F hF).1⟩

/-- Every operand is defined before it is used. -/
theorem lower_defines (p : Program) (a : Analysis) (moduleName : String) (m : Ir.Module)
    (h : p.lower a moduleName = .ok m) :
    ∀ F ∈ m.functions, ∀ i k v, F.Uses i k v → F.Defines i k v := by
  intro F hF i k v hv
  obtain ⟨d, _, _, hlower⟩ := (lower_hasFunctions h).source F hF
  exact Decl.lowerFunction_defines hlower hv

/-- A value that is computed before `&&` and used after it:
`int f(int a, int b) { return a + (a && b); }`. -/
def sumWithConjunction : Program := Build.finish do
  let intType ← Build.namedType "int"
  let a ← Build.param intType "a"
  let intType ← Build.namedType "int"
  let b ← Build.param intType "b"
  let first ← Build.name "a"
  let left ← Build.name "a"
  let right ← Build.name "b"
  let both ← Build.binary .and left right
  let result ← Build.ret (some (← Build.binary .add first both))
  let body ← Build.block [.stmt result]
  let intType ← Build.namedType "int"
  Build.push (← Build.func "f" intType [a, b] (some body))

/-- The sum uses the value of `a` in the block where the two ways of `&&` meet. -/
theorem lower_defines_sumWithConjunction : ∃ c, sumWithConjunction.compile {} = .ok c ∧
    ∃ F ∈ c.module.functions, F.Uses 2 1 (.inst 4 .i32) ∧ F.Defines 2 1 (.inst 4 .i32) := by
  obtain ⟨c, hc, hany⟩ : ∃ c, sumWithConjunction.compile {} = .ok c ∧ c.module.functions.any
      (·.blocks[2]?.any (·.insts[1]?.any (Ir.Value.inst 4 .i32 ∈ ·.operation.operands))) :=
    Except.exists_of_any (by decide +kernel)
  obtain ⟨F, hF, hused⟩ := List.any_eq_true.mp hany
  have huses : F.Uses 2 1 (.inst 4 .i32) := by
    obtain ⟨block, hblock, hused⟩ := Option.any_eq_true _ _ |>.mp hused
    obtain ⟨inst, hinst, hmem⟩ := Option.any_eq_true _ _ |>.mp hused
    exact ⟨block, hblock, .inl ⟨inst, hinst, of_decide_eq_true hmem⟩⟩
  have hall := lower_defines sumWithConjunction _ _ c.module (compile_ok hc).2.2
  exact ⟨c, hc, F, hF, huses, hall F hF 2 1 _ huses⟩

end Program

end MicroC
