import MicroC.Proofs.Run

/-!
Two runs side by side. Two computations agree from two states if both give the same result and
leave states that are related again, or if both fail with errors that are related.
-/

namespace MicroC

variable {σ ε δ α β γ : Type}

theorem Option.rel_cases {R : α → β → Prop} {x : Option α} {y : Option β} (h : Option.Rel R x y) :
    (x = none ∧ y = none) ∨ ∃ a b, x = some a ∧ y = some b ∧ R a b := by
  cases h with
  | none => exact .inl ⟨rfl, rfl⟩
  | some hab => exact .inr ⟨_, _, rfl, rfl, hab⟩

/-- Two results that are related, or two errors that are. -/
inductive Except.Rel (E : ε → ε → Prop) (Q : α → β → Prop) : Except ε α → Except ε β → Prop
  | ok {a : α} {b : β} : Q a b → Except.Rel E Q (.ok a) (.ok b)
  | error {e e' : ε} : E e e' → Except.Rel E Q (.error e) (.error e')

namespace Except.Rel

variable {E : ε → ε → Prop} {Q : α → β → Prop} {x : Except ε α} {y : Except ε β}

theorem mono {Q' : α → β → Prop} (h : Except.Rel E Q x y) (hmono : ∀ a b, Q a b → Q' a b) :
    Except.Rel E Q' x y := by
  cases h with
  | ok hab => exact .ok (hmono _ _ hab)
  | error he => exact .error he

theorem eq_cases (h : Except.Rel E Q x y) :
    (∃ a b, x = .ok a ∧ y = .ok b ∧ Q a b) ∨ ∃ e e', x = .error e ∧ y = .error e' ∧ E e e' := by
  cases h with
  | ok hab => exact .inl ⟨_, _, rfl, rfl, hab⟩
  | error he => exact .inr ⟨_, _, rfl, rfl, he⟩

theorem bind {α' β' : Type} {R : α' → β' → Prop} {f : α → Except ε α'} {g : β → Except ε β'}
    (h : Except.Rel E Q x y) (hf : ∀ a b, Q a b → Except.Rel E R (f a) (g b)) :
    Except.Rel E R (x >>= f) (y >>= g) := by
  cases h with
  | ok hab => exact hf _ _ hab
  | error he => exact .error he

theorem bind_left {γ : Type} {R : γ → β → Prop} {f : α → Except ε γ} (h : Except.Rel E Q x y)
    (hf : ∀ a b, Q a b → Except.Rel E R (f a) (.ok b)) : Except.Rel E R (x >>= f) y := by
  cases h with
  | ok hab => exact hf _ _ hab
  | error he => exact .error he

theorem bind_right {γ : Type} {R : α → γ → Prop} {g : β → Except ε γ} (h : Except.Rel E Q x y)
    (hg : ∀ a b, Q a b → Except.Rel E R (.ok a) (g b)) : Except.Rel E R x (y >>= g) := by
  cases h with
  | ok hab => exact hg _ _ hab
  | error he => exact .error he

theorem ite {c c' : Prop} [Decidable c] [Decidable c'] {x' : Except ε α} {y' : Except ε β}
    (hc : c ↔ c') (h : Except.Rel E Q x y) (h' : Except.Rel E Q x' y') :
    Except.Rel E Q (if c then x else x') (if c' then y else y') := by
  by_cases hcond : c
  · rw [if_pos hcond, if_pos (hc.mp hcond)]
    exact h
  · rw [if_neg hcond, if_neg (mt hc.mpr hcond)]
    exact h'

theorem mapError {D : δ → δ → Prop} {wrap : ε → δ} (h : Except.Rel E Q x y)
    (hwrap : ∀ e e', E e e' → D (wrap e) (wrap e')) :
    Except.Rel D Q (x.mapError wrap) (y.mapError wrap) := by
  cases h with
  | ok hab => exact .ok hab
  | error he => exact .error (hwrap _ _ he)

end Except.Rel

/-- Two computations agree from two states. -/
def Pair (E : ε → ε → Prop) (I : σ → σ → Prop) (m m' : StateT σ (Except ε) α) (s s' : σ) : Prop :=
  Except.Rel E (fun out out' => out.1 = out'.1 ∧ I out.2 out'.2) (m s) (m' s')

namespace Pair

variable {E : ε → ε → Prop} {I J : σ → σ → Prop} {m m' : StateT σ (Except ε) α} {s s' : σ}

theorem pure (x : α) (h : I s s') : Pair E I (pure x) (pure x) s s' := .ok ⟨rfl, h⟩

theorem throw {e e' : ε} (h : E e e') :
    Pair E I (throw e : StateT σ (Except ε) α) (throw e') s s' :=
  .error h

theorem bind {f f' : α → StateT σ (Except ε) β} (hm : Pair E I m m' s s')
    (hf : ∀ x t t', I t t' → Pair E J (f x) (f' x) t t') : Pair E J (m >>= f) (m' >>= f') s s' := by
  refine Except.Rel.bind hm ?_
  rintro ⟨x, t⟩ ⟨x', t'⟩ ⟨rfl, ht⟩
  exact hf x t t' ht

theorem ite {c : Prop} [Decidable c] {n n' : StateT σ (Except ε) α} (hm : Pair E I m m' s s')
    (hn : Pair E I n n' s s') :
    Pair E I (if c then m else n) (if c then m' else n') s s' := by
  split
  · exact hm
  · exact hn

theorem mono (h : Pair E I m m' s s') (hmono : ∀ t t', I t t' → J t t') : Pair E J m m' s s' :=
  Except.Rel.mono h fun _ _ hout => ⟨hout.1, hmono _ _ hout.2⟩

theorem discard (h : Pair E I m m' s s') : Pair E I (discard m) (discard m') s s' :=
  h.bind fun _ _ _ ht => .pure _ ht

/-- Computations that do not depend on the state. -/
theorem liftBind {Q : α → β → Prop} {x : Except ε α} {y : Except ε β}
    {f : α → StateT σ (Except ε) γ} {g : β → StateT σ (Except ε) γ} (h : Except.Rel E Q x y)
    (hf : ∀ a b, Q a b → Pair E I (f a) (g b) s s') :
    Pair E I (liftM x >>= f) (liftM y >>= g) s s' := by
  cases h with
  | ok hab => exact hf _ _ hab
  | error he => exact .error he

end Pair

end MicroC
