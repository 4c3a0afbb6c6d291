import MicroC.Proofs.Meaning.Evaluation
import MicroC.Proofs.Meaning.Execution

/-!
What it means that a function of a module stands for a function of a program: the variables have
slots of their own, and calls of the two do the same with the storage of the variables and with all
other storage. If all functions of a module stand for those of a program, then the same calls are
possible in both.
-/

namespace MicroC

namespace Ir.Function

/-- A stack slot with a name, which belongs to a variable. -/
def Names (F : Function) (number : Nat) : Prop :=
  ∃ inst ∈ F.insts, inst.id = number ∧ inst.name.isSome ∧ ∃ type, inst.operation = .alloca type

/-- Frames with the same contents in the slots of variables. -/
def SameFrame (F : Function) (frame frame' : Nat → List Int) : Prop :=
  ∀ number, F.Names number → frame' number = frame number

/-- Storage with the same contents, apart from slots at a depth that belong to no variable. -/
def SameMemory (F : Function) (depth : Nat) (M M' : Memory) : Prop :=
  ∀ object, (∀ number, object = .slot depth number → F.Names number) → M' object = M object

theorem SameMemory.dropFrame_eq {F : Function} {depth : Nat} {M M' : Memory}
    (h : F.SameMemory depth M M') : M'.dropFrame depth = M.dropFrame depth := by
  funext object
  cases object with
  | global name => exact h _ (by simp)
  | slot k number =>
    by_cases hk : k = depth
    · simp [Memory.dropFrame, Memory.withFrame, hk]
    · simp only [Memory.dropFrame, Memory.withFrame, if_neg hk]
      exact h _ (by simp [hk])

/-- The function stands for the declaration `f`, if calls are possible as given. -/
structure Implements (F : Function) (p : Program) (a : Analysis) (home : DeclId → Nat) (f : Decl)
    (calls calls' : Calls) : Prop where
  /-- No two variables share a slot. -/
  apart : ∀ d d', f.Owns a d → f.Owns a d' → home d.id = home d'.id → d = d'
  /-- A slot with a name belongs to a variable. -/
  named : ∀ number, F.Names number → ∃ d, f.Owns a d ∧ home d.id = number
  /-- Whatever the variables contain, there is a frame with these contents, and conversely. -/
  frame : ∀ frame, f.Lays a home frame → ∃ frame', F.Lays frame' ∧ F.SameFrame frame frame'
  contents : ∀ frame', F.Lays frame' → ∃ frame, f.Lays a home frame ∧ F.SameFrame frame frame'
  /-- What the declaration can do, the function does. -/
  forth : ∀ (depth : Nat) (args : List Datum) (M : Memory) (frame frame' : Nat → List Int)
    (result : Option Int) (M₁ : Memory), F.Lays frame' → F.SameFrame frame frame' →
    f.Returns p a home calls depth args (M.withFrame depth frame) result M₁ →
    ∃ M₁', F.Returns calls' depth args (M.withFrame depth frame') result M₁' ∧
      F.SameMemory depth M₁ M₁'
  /-- What the function can do, the declaration does. -/
  back : ∀ (depth : Nat) (args : List Datum) (M : Memory) (frame frame' : Nat → List Int)
    (result : Option Int) (M₁' : Memory), F.Lays frame' → F.SameFrame frame frame' →
    F.Returns calls' depth args (M.withFrame depth frame') result M₁' →
    ∃ M₁, f.Returns p a home calls depth args (M.withFrame depth frame) result M₁ ∧
      F.SameMemory depth M₁ M₁'

end Ir.Function

namespace Ir.Module

/-- Every definition of the program has a function that stands for it, and there are no others. -/
structure Implements (m : Module) (p : Program) (a : Analysis) (home : String → DeclId → Nat) :
    Prop where
  definition : ∀ name f, p.definition? name = some f → ∃ F, m.definition? name = some F ∧
    ∀ calls, F.Implements p a (home name) f calls calls
  other : ∀ name, p.definition? name = none → m.definition? name = none

variable {m : Module} {p : Program} {a : Analysis} {home : String → DeclId → Nat}

/-- The same calls are possible, to any depth. -/
theorem Implements.callsWithin_eq (h : m.Implements p a home) (other : Calls) (n : Nat) :
    p.callsWithin a home other n = m.callsWithin other n := by
  induction n with
  | zero => rfl
  | succ n ih =>
    funext depth name args M result M'
    rw [Program.callsWithin, callsWithin]
    cases hdef : p.definition? name with
    | none => simp only [hdef, h.other name hdef]
    | some f =>
      obtain ⟨F, hF, himplements⟩ := h.definition name f hdef
      simp only [hdef, hF, ← ih]
      have hcall := himplements (p.callsWithin a home other n)
      refine propext ⟨?_, ?_⟩
      · rintro ⟨frame, after, hlays, hreturns, rfl⟩
        obtain ⟨frame', hlays', hsame⟩ := hcall.frame frame hlays
        obtain ⟨after', hreturns', hagree⟩ := hcall.forth _ _ _ _ _ _ _ hlays' hsame hreturns
        exact ⟨frame', after', hlays', hreturns', hagree.dropFrame_eq.symm⟩
      · rintro ⟨frame', after', hlays', hreturns', rfl⟩
        obtain ⟨frame, hlays, hsame⟩ := hcall.contents frame' hlays'
        obtain ⟨after, hreturns, hagree⟩ := hcall.back _ _ _ _ _ _ _ hlays' hsame hreturns'
        exact ⟨frame, after, hlays, hreturns, hagree.dropFrame_eq⟩

theorem Implements.calls_eq (h : m.Implements p a home) (other : Calls) :
    p.calls a home other = m.calls other := by
  funext depth name args M result M'
  simp only [Program.calls, calls, h.callsWithin_eq]

end Ir.Module

end MicroC
