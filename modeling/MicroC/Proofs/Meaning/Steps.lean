import MicroC.Proofs.Meaning.Place

/-!
Single steps of the machine code. A run goes from position to position, and it can be looked at
where it stands in the middle of a function; a call returns exactly if a run from the entry comes
to a return.
-/

namespace MicroC.Ir

/-- A position in the code of a function: before an instruction of a block, or at its end. -/
structure Position where
  block : BlockId
  index : Nat

namespace Function

variable {f : Function} {x : Activation}

inductive Step (f : Function) (x : Activation) : Position → State → Position → State → Prop
  | inst {i k : Nat} {block : Block} {inst : Instruction} {s : State} {result : Datum}
      {memory : Memory} : f.blocks[i]? = some block → block.insts[k]? = some inst →
      inst.run x s.results s.memory result memory →
      Step f x ⟨i, k⟩ s ⟨i, k + 1⟩ (s.after inst.id result memory)
  | br {i : Nat} {block : Block} {target : BlockId} {s : State} : f.blocks[i]? = some block →
      block.terminator = some (.br target) →
      Step f x ⟨i, block.insts.length⟩ s ⟨target, 0⟩ s
  | condBr {i : Nat} {block : Block} {cond : Value} {onTrue onFalse : BlockId} {c : Int}
      {s : State} : f.blocks[i]? = some block →
      block.terminator = some (.condBr cond onTrue onFalse) → cond.eval x s.results = .int c →
      Step f x ⟨i, block.insts.length⟩ s ⟨if c = 0 then onFalse else onTrue, 0⟩ s

/-- Any number of steps. -/
inductive Runs (f : Function) (x : Activation) : Position → State → Position → State → Prop
  | refl (p : Position) (s : State) : Runs f x p s p s
  | next {p p₁ p₂ : Position} {s s₁ s₂ : State} :
      f.Step x p s p₁ s₁ → Runs f x p₁ s₁ p₂ s₂ → Runs f x p s p₂ s₂

theorem Step.runs {p p' : Position} {s s' : State} (h : f.Step x p s p' s') :
    f.Runs x p s p' s' :=
  .next h (.refl p' s')

theorem Runs.trans {p p₁ p₂ : Position} {s s₁ s₂ : State} (h : f.Runs x p s p₁ s₁)
    (h' : f.Runs x p₁ s₁ p₂ s₂) : f.Runs x p s p₂ s₂ := by
  induction h with
  | refl _ _ => exact h'
  | next hstep _ ih => exact .next hstep (ih h')

/-- The end of a block that returns with a value, or without one. -/
def ReturnsAt (f : Function) (x : Activation) (p : Position) (s : State) (value : Option Int) :
    Prop :=
  ∃ block, f.blocks[p.block]? = some block ∧ p.index = block.insts.length ∧
    match block.terminator with
    | some (.ret none) => value = none
    | some (.ret (some operand)) => ∃ n, operand.eval x s.results = .int n ∧ value = some n
    | _ => False

/-- A run from a position comes to a return. -/
def FinishesFrom (f : Function) (x : Activation) (p : Position) (s : State) (value : Option Int)
    (M : Memory) : Prop :=
  ∃ block n, f.blocks[p.block]? = some block ∧ p.index ≤ block.insts.length ∧
    f.Finishes x n (block.insts.drop p.index) block.terminator s value M

theorem Step.finishesFrom {p p' : Position} {s s' : State} {value : Option Int} {M : Memory}
    (h : f.Step x p s p' s') (hrest : f.FinishesFrom x p' s' value M) :
    f.FinishesFrom x p s value M := by
  obtain ⟨next, n, hnext, hle, hfinishes⟩ := hrest
  cases h with
  | inst hblock hinst hrun =>
    obtain rfl := Option.some.inj (hblock.symm.trans hnext)
    obtain ⟨hlt, hget⟩ := List.getElem?_eq_some_iff.mp hinst
    refine ⟨_, n + 1, hblock, Nat.le_of_lt hlt, ?_⟩
    rw [List.drop_eq_getElem_cons hlt, hget]
    exact ⟨_, _, hrun, hfinishes⟩
  | br hblock hend =>
    refine ⟨_, n + 1, hblock, Nat.le_refl _, ?_⟩
    rw [List.drop_length, hend]
    exact ⟨next, hnext, hfinishes⟩
  | condBr hblock hend hcond =>
    refine ⟨_, n + 1, hblock, Nat.le_refl _, ?_⟩
    rw [List.drop_length, hend]
    exact ⟨_, next, hcond, hnext, hfinishes⟩

theorem ReturnsAt.finishesFrom {p : Position} {s : State} {value : Option Int}
    (h : f.ReturnsAt x p s value) : f.FinishesFrom x p s value s.memory := by
  obtain ⟨block, hblock, hindex, hend⟩ := h
  refine ⟨block, 1, hblock, Nat.le_of_eq hindex, ?_⟩
  rw [hindex, List.drop_length]
  split at hend
  next hterm =>
    rw [hterm]
    exact ⟨hend, rfl⟩
  next hterm =>
    obtain ⟨n, hn, hvalue⟩ := hend
    rw [hterm]
    exact ⟨n, hn, hvalue, rfl⟩
  next => exact hend.elim

/-- The steps that a finished run consists of. -/
theorem Finishes.exists_runs {i k : Nat} {block : Block} {n : Nat} {s : State} {value : Option Int}
    {M : Memory} (hblock : f.blocks[i]? = some block) (hk : k ≤ block.insts.length)
    (h : f.Finishes x n (block.insts.drop k) block.terminator s value M) :
    ∃ p s', f.Runs x ⟨i, k⟩ s p s' ∧ f.ReturnsAt x p s' value ∧ M = s'.memory := by
  induction n generalizing i k block s with
  | zero => exact h.elim
  | succ n ih =>
    by_cases hlt : k < block.insts.length
    · rw [List.drop_eq_getElem_cons hlt] at h
      obtain ⟨result, memory, hrun, hrest⟩ := h
      obtain ⟨p, s', hruns, hreturns⟩ := ih hblock hlt hrest
      exact ⟨p, s', .next (.inst hblock (List.getElem?_eq_getElem hlt) hrun) hruns, hreturns⟩
    · obtain rfl : k = block.insts.length := by omega
      rw [List.drop_length] at h
      have hend : ∀ v, (match block.terminator with
          | some (.ret none) => v = none
          | some (.ret (some operand)) => ∃ n, operand.eval x s.results = .int n ∧ v = some n
          | _ => False) → f.ReturnsAt x ⟨i, block.insts.length⟩ s v :=
        fun v hv => ⟨block, hblock, rfl, hv⟩
      cases hterm : block.terminator with
      | none =>
        rw [hterm] at h
        exact h.elim
      | some terminator =>
        rw [hterm] at h hend
        cases terminator with
        | br target =>
          obtain ⟨next, hnext, hrest⟩ := h
          obtain ⟨p, s', hruns, hreturns⟩ := ih hnext (Nat.zero_le _) hrest
          exact ⟨p, s', .next (.br hblock hterm) hruns, hreturns⟩
        | condBr cond onTrue onFalse =>
          obtain ⟨c, next, hcond, hnext, hrest⟩ := h
          obtain ⟨p, s', hruns, hreturns⟩ := ih hnext (Nat.zero_le _) hrest
          exact ⟨p, s', .next (.condBr hblock hterm hcond) hruns, hreturns⟩
        | ret operand =>
          cases operand with
          | none =>
            obtain ⟨hvalue, hM⟩ := h
            exact ⟨_, s, .refl _ s, hend value hvalue, hM⟩
          | some operand =>
            obtain ⟨m, hm, hvalue, hM⟩ := h
            exact ⟨_, s, .refl _ s, hend value ⟨m, hm, hvalue⟩, hM⟩

/-- A run finishes if single steps lead to a return. -/
theorem finishesFrom_iff_runs {p : Position} {s : State} {value : Option Int} {M : Memory} :
    f.FinishesFrom x p s value M ↔
      ∃ p' s', f.Runs x p s p' s' ∧ f.ReturnsAt x p' s' value ∧ M = s'.memory := by
  constructor
  · rintro ⟨block, n, hblock, hle, hfinishes⟩
    exact hfinishes.exists_runs hblock hle
  · rintro ⟨p', s', hruns, hreturns, rfl⟩
    induction hruns with
    | refl p s => exact hreturns.finishesFrom
    | next hstep _ ih => exact hstep.finishesFrom (ih hreturns)

/-- A call returns exactly if a run from the entry comes to a return. -/
theorem returns_iff_runs {calls : Calls} {depth : Nat} {args : List Datum} {M M' : Memory}
    {value : Option Int} :
    f.Returns calls depth args M value M' ↔
      Datum.AreArguments depth (f.params.map (·.type.pointee?.isSome)) args ∧
        ∃ p s, f.Runs ⟨depth, args, calls⟩ ⟨0, 0⟩ ⟨fun _ => .none, M⟩ p s ∧
          f.ReturnsAt ⟨depth, args, calls⟩ p s value ∧ M' = s.memory := by
  rw [← finishesFrom_iff_runs, Returns, FinishesFrom, List.head?_eq_getElem?]
  refine and_congr Iff.rfl ?_
  simp only [List.drop_zero, Nat.zero_le, true_and]

end Function

end MicroC.Ir
