/-!
Runs of computations with a state and errors. `Run E m s Q` says what the run of `m` from
the state `s` comes to: a result and a state with `Q`, or an error with `E`. With `E` always
false the run succeeds; with `E` always true only successful runs matter.
-/

namespace MicroC

variable {σ ε α β : Type}

theorem Except.bind_eq_ok {x : Except ε α} {f : α → Except ε β} {b : β} :
    (x >>= f) = .ok b ↔ ∃ a, x = .ok a ∧ f a = .ok b := by
  cases x with
  | error e => simp [bind, Except.bind]
  | ok a => simp [bind, Except.bind]

theorem Except.bind_eq_error {x : Except ε α} {f : α → Except ε β} {e : ε} :
    (x >>= f) = .error e ↔ x = .error e ∨ ∃ a, x = .ok a ∧ f a = .error e := by
  cases x with
  | error e => simp [bind, Except.bind]
  | ok a => simp [bind, Except.bind]

theorem Except.mapError_eq_ok {δ : Type} {g : δ → ε} {x : Except δ α} {a : α} :
    x.mapError g = .ok a ↔ x = .ok a := by
  cases x with
  | error d => exact ⟨nofun, nofun⟩
  | ok b =>
    change Except.ok b = .ok a ↔ _
    simp

theorem Except.mapError_eq_error {δ : Type} {g : δ → ε} {x : Except δ α} {e : ε} :
    x.mapError g = .error e ↔ ∃ d, x = .error d ∧ e = g d := by
  cases x with
  | error d =>
    change Except.error (g d) = .error e ↔ _
    simp [eq_comm]
  | ok b => exact ⟨nofun, nofun⟩

/-- A result that passes a test. -/
theorem Except.exists_of_any {x : Except ε α} {test : α → Bool} (h : x.toOption.any test) :
    ∃ a, x = .ok a ∧ test a := by
  cases x with
  | error e => cases h
  | ok a => exact ⟨a, rfl, h⟩

def Except.error? : Except ε α → Option ε
  | .error e => some e
  | .ok _ => none

theorem Except.error?_eq_some_iff {x : Except ε α} {e : ε} : Except.error? x = some e ↔ x = .error e := by
  cases x with
  | error e' => simp [Except.error?]
  | ok a => simp [Except.error?]

/-- An invariant of a fold that may speak about the part of the list gone through so far. -/
theorem foldlM_seen {step : β → α → Except ε β} (I : List α → β → Prop) {whole : List α}
    (hstep : ∀ seen x s s', x ∈ whole → I seen s → step s x = .ok s' → I (seen ++ [x]) s')
    {s s' : β} (hstart : I [] s) (h : whole.foldlM step s = .ok s') : I whole s' := by
  have along : ∀ (rest seen : List α) (s : β), seen ++ rest = whole → I seen s →
      rest.foldlM step s = .ok s' → I whole s' := by
    intro rest
    induction rest with
    | nil =>
      intro seen s hwhole hseen hrun
      obtain rfl : s = s' := Except.ok.inj hrun
      rw [List.append_nil] at hwhole
      exact hwhole ▸ hseen
    | cons x rest ih =>
      intro seen s hwhole hseen hrun
      obtain ⟨next, hx, hrest⟩ := Except.bind_eq_ok.mp hrun
      have hmem : x ∈ whole := by simp [← hwhole]
      exact ih (seen ++ [x]) next (by simpa using hwhole) (hstep seen x s next hmem hseen hx) hrest
  exact along whole [] s rfl hstart h

/-- With distinct keys every pair is found. -/
theorem lookup_of_mem [BEq α] [LawfulBEq α] {pairs : List (α × β)} (h : (pairs.map Prod.fst).Nodup)
    {pair : α × β} (hmem : pair ∈ pairs) : pairs.lookup pair.1 = some pair.2 := by
  obtain ⟨before, after, rfl⟩ := List.append_of_mem hmem
  refine List.lookup_eq_some_iff.mpr ⟨before, after, rfl, ?_⟩
  intro other hother
  rw [List.map_append, List.nodup_append] at h
  have hne := h.2.2 other.1 (List.mem_map_of_mem hother) pair.1 (by simp)
  exact bne_iff_ne.mpr fun heq => hne heq.symm

def Run (E : ε → Prop) (m : StateT σ (Except ε) α) (s : σ) (Q : α → σ → Prop) : Prop :=
  match m s with
  | .ok (a, s') => Q a s'
  | .error e => E e

namespace Run

variable {E : ε → Prop} {s : σ} {Q : α → σ → Prop}

@[simp] theorem pure_iff {a : α} : Run E (pure a) s Q ↔ Q a s := Iff.rfl

@[simp] theorem throw_iff {e : ε} : Run E (throw e : StateT σ (Except ε) α) s Q ↔ E e := Iff.rfl

@[simp] theorem bind_iff {m : StateT σ (Except ε) β} {f : β → StateT σ (Except ε) α} :
    Run E (m >>= f) s Q ↔ Run E m s fun b s' => Run E (f b) s' Q := by
  simp only [Run, bind, StateT.bind, Except.bind]
  cases m s with
  | error e => rfl
  | ok out => rfl

@[simp] theorem map_iff {m : StateT σ (Except ε) β} {f : β → α} :
    Run E (f <$> m) s Q ↔ Run E m s fun b s' => Q (f b) s' := by
  simp only [Run, Functor.map, StateT.map, bind, Except.bind]
  cases m s with
  | error e => rfl
  | ok out => rfl

@[simp] theorem discard_iff {m : StateT σ (Except ε) β} {Q : Unit → σ → Prop} :
    Run E (discard m) s Q ↔ Run E m s fun _ s' => Q () s' :=
  map_iff

@[simp] theorem get_iff {Q : σ → σ → Prop} :
    Run E (get : StateT σ (Except ε) σ) s Q ↔ Q s s := Iff.rfl

@[simp] theorem modify_iff {f : σ → σ} {Q : Unit → σ → Prop} :
    Run E (modify f : StateT σ (Except ε) Unit) s Q ↔ Q () (f s) := Iff.rfl

@[simp] theorem modifyGet_iff {f : σ → α × σ} :
    Run E (modifyGet f : StateT σ (Except ε) α) s Q ↔ Q (f s).1 (f s).2 := Iff.rfl

theorem lift_ok_iff {x : Except ε α} {a : α} (h : x = .ok a) :
    Run E (liftM x : StateT σ (Except ε) α) s Q ↔ Q a s := by
  subst h
  rfl

/-- A computation that does not depend on the state. -/
@[simp] theorem lift_iff {x : Except ε α} :
    Run E (liftM x : StateT σ (Except ε) α) s Q ↔ (∀ a, x = .ok a → Q a s) ∧ ∀ e, x = .error e → E e := by
  cases x with
  | ok a =>
    rw [lift_ok_iff rfl]
    simp
  | error e =>
    have hlift : Run E (liftM (.error e : Except ε α) : StateT σ (Except ε) α) s Q ↔ E e := Iff.rfl
    rw [hlift]
    simp

theorem mono {m : StateT σ (Except ε) α} {Q' : α → σ → Prop} (h : Run E m s Q)
    (hmono : ∀ a s', Q a s' → Q' a s') : Run E m s Q' := by
  unfold Run at h ⊢
  split at h
  · exact hmono _ _ h
  · exact h

/-- What holds of the one result for each index holds for all of them. -/
theorem forall_intro {ι : Type} [Nonempty ι] {m : StateT σ (Except ε) α} {R : ι → α → σ → Prop}
    (h : ∀ i, Run E m s (R i)) : Run E m s fun a s' => ∀ i, R i a s' := by
  unfold Run at h ⊢
  split
  next heq =>
    intro i
    simpa [heq] using h i
  next heq =>
    obtain ⟨i⟩ := ‹Nonempty ι›
    simpa [heq] using h i

theorem weaken {m : StateT σ (Except ε) α} {E' : ε → Prop} (h : Run E m s Q)
    (hE : ∀ e, E e → E' e) : Run E' m s Q := by
  unfold Run at h ⊢
  split at h
  · exact h
  · exact hE _ h

theorem of_ok {m : StateT σ (Except ε) α} {a : α} {s' : σ} (h : Run E m s Q)
    (hm : m s = .ok (a, s')) : Q a s' := by
  unfold Run at h
  rw [hm] at h
  exact h

theorem of_error {m : StateT σ (Except ε) α} {e : ε} (h : Run E m s Q)
    (hm : m s = .error e) : E e := by
  unfold Run at h
  rw [hm] at h
  exact h

/-- Without possible errors there is a result. -/
theorem exists_ok {m : StateT σ (Except ε) α} (h : Run (fun _ => False) m s Q) :
    ∃ a s', m s = .ok (a, s') ∧ Q a s' := by
  unfold Run at h
  split at h
  next a s' heq => exact ⟨a, s', heq, h⟩
  next => exact h.elim

end Run

end MicroC
