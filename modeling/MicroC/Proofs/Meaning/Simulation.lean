import MicroC.Proofs.Meaning.Place

/-!
Runs of machine code against computations on storage. The storage of a run mirrors that of the
computation, apart from the slots without a name, which only the code knows. `Translates` says in
both directions that a run from one place to others has the same effect as a computation: what
the computation can do, some run does, and a run that finishes goes through one of the places to
which the computation leads.
-/

namespace MicroC.Ir

/-- A slot that belongs to a variable. -/
def Builder.Names (b : Builder) (k : Nat) : Prop :=
  ∃ slot ∈ b.slots, slot.id = k ∧ slot.name.isSome

/-- A slot that belongs to no variable. -/
structure Builder.Hides (b : Builder) (k : Nat) : Prop where
  exists_slot : ∃ slot ∈ b.slots, slot.id = k
  not_names : ¬ b.Names k

section

variable (final : Builder) (x : Activation)

/-- An object that the program knows: in its own frame, the slots of variables. -/
def Shows (object : Object) : Prop := ∀ k, object = .slot x.depth k → final.Names k

/-- A datum that the program can have. -/
def ShowsDatum : Datum → Prop
  | .address object _ => Shows final x object
  | _ => True

/-- The storage of a run is that of the computation, as far as the program knows it. -/
structure Mirrors (M N : Memory) : Prop where
  shown : ∀ object, Shows final x object → N object = M object
  hidden : ∀ k, final.Hides k → (N (.slot x.depth k)).length = 1

/-- The slots have been made, and the storage is mirrored. -/
structure Simulates (M : Memory) (s : State) : Prop where
  mirrors : Mirrors final x M s.memory
  slots : ∀ slot ∈ final.slots, s.results slot.id = .address (.slot x.depth slot.id) 0

/-- Two computations do the same from given storage; `f` relates their results. -/
structure MatchesAt {α : Type} (M N : Memory) (f : α → Datum) (E : Action α) (R : Action Datum) :
    Prop where
  forth : ∀ r M', E M r M' → ∃ N', R N (f r) N' ∧ Mirrors final x M' N'
  back : ∀ d N', R N d N' → ∃ r M', d = f r ∧ E M r M' ∧ Mirrors final x M' N'

/-- A run from `P`, under a condition on its state, has the effect of a computation; it goes on
at a place that depends on the result. -/
def Translates {α : Type} (P : Place) (Pre : State → Prop) (E : Action α) (Q : α → Place)
    (Post : α → State → Prop) : Prop :=
  ∀ M s, Simulates final x M s → Pre s →
    (∀ r M', E M r M' → ∃ s', Simulates final x M' s' ∧ Post r s' ∧
      ∀ n v N, (Q r).Finishes final x n s' v N → ∃ k, P.Finishes final x k s v N) ∧
    ∀ n v N, P.Finishes final x n s v N → ∃ r M' s', E M r M' ∧ Simulates final x M' s' ∧
      Post r s' ∧ (Q r).Finishes final x n s' v N

end

variable {final : Builder} {x : Activation} {M N : Memory} {α β : Type}

/-! Computations that are the same on both sides. -/

/-- A computation that neither reads nor changes the storage. -/
def IsInert (E : Action α) : Prop := ∀ M r M', E M r M' → M' = M ∧ ∀ N, E N r N

theorem isInert_pure (r : α) : IsInert (pure r : Action α) := by
  rintro M _ M' ⟨rfl, rfl⟩
  exact ⟨rfl, fun N => ⟨rfl, rfl⟩⟩

theorem isInert_fail : IsInert (Action.fail : Action α) := fun _ _ _ h => h.elim

theorem IsInert.bind {E : Action α} {G : α → Action β} (hE : IsInert E) (hG : ∀ r, IsInert (G r)) :
    IsInert (E >>= G) := by
  rintro M r' M' ⟨r, M₁, hr, hr'⟩
  obtain ⟨rfl, hE'⟩ := hE M r M₁ hr
  obtain ⟨rfl, hG'⟩ := hG r M₁ r' M' hr'
  exact ⟨rfl, fun N => ⟨r, N, hE' N, hG' N⟩⟩

theorem isInert_toInt (d : Datum) : IsInert d.toInt := by
  cases d with
  | int n => exact isInert_pure n
  | address _ _ | function _ | none => exact isInert_fail

theorem isInert_element (size : Nat) (base index : Datum) : IsInert (base.element size index) := by
  cases base with
  | address o k =>
    cases index with
    | int n => exact isInert_pure _
    | address _ _ | function _ | none => exact isInert_fail
  | int _ | function _ | none => exact isInert_fail

namespace MatchesAt

theorem inert {E : Action Datum} (hE : IsInert E) (hM : Mirrors final x M N) :
    MatchesAt final x M N id E E := by
  constructor
  · intro r M' h
    obtain ⟨rfl, hall⟩ := hE M r M' h
    exact ⟨N, hall N, hM⟩
  · intro d N' h
    obtain ⟨rfl, hall⟩ := hE N d N' h
    exact ⟨d, M, rfl, hall M, hM⟩

theorem map {E : Action α} {f : α → Datum} (hE : IsInert E) (hM : Mirrors final x M N) :
    MatchesAt final x M N f E (do return f (← E)) := by
  constructor
  · intro r M' h
    obtain ⟨rfl, hall⟩ := hE M r M' h
    exact ⟨N, ⟨r, N, hall N, rfl, rfl⟩, hM⟩
  · rintro _ N' ⟨r, N₁, h, rfl, rfl⟩
    obtain ⟨rfl, hall⟩ := hE N r _ h
    exact ⟨r, M, rfl, hall M, hM⟩

theorem load {place : Datum} (hplace : ShowsDatum final x place) (hM : Mirrors final x M N) :
    MatchesAt final x M N id (Action.load place) (Action.load place) := by
  cases place with
  | address o k =>
    have hread : N.read? o k = M.read? o k := by
      rw [Memory.read?, Memory.read?, hM.shown o hplace]
    constructor
    · rintro r M' ⟨rfl, n, hn, rfl⟩
      exact ⟨N, ⟨rfl, n, hread.trans hn, rfl⟩, hM⟩
    · rintro d N' ⟨rfl, n, hn, rfl⟩
      exact ⟨.int n, M, rfl, ⟨rfl, n, hread.symm.trans hn, rfl⟩, hM⟩
  | int _ | function _ | none => exact ⟨fun _ _ h => h.elim, fun _ _ h => h.elim⟩

end MatchesAt

/-- Writing the same number to an object that is shown. -/
theorem Mirrors.write {o : Object} {k n : Int} (hM : Mirrors final x M N)
    (ho : Shows final x o) :
    (∀ M', M.write? o k n = some M' → ∃ N', N.write? o k n = some N' ∧ Mirrors final x M' N') ∧
      ∀ N', N.write? o k n = some N' → ∃ M', M.write? o k n = some M' ∧ Mirrors final x M' N' := by
  have hsame := hM.shown o ho
  have hmirrors : Mirrors final x (fun o' => if o' = o then (M o).set k.toNat n else M o')
      (fun o' => if o' = o then (N o).set k.toNat n else N o') := by
    constructor
    · intro o' ho'
      by_cases heq : o' = o
      · simp [heq, hsame]
      · simp [heq, hM.shown o' ho']
    · intro k hk
      by_cases heq : Object.slot x.depth k = o
      · simp [← heq, hM.hidden k hk]
      · simp [heq, hM.hidden k hk]
  unfold Memory.write?
  rw [hsame]
  split
  · rw [hsame] at hmirrors
    constructor <;> rintro _ ⟨rfl⟩ <;> exact ⟨_, rfl, hmirrors⟩
  · exact ⟨by simp, by simp⟩

theorem MatchesAt.store {place value : Datum} (hplace : ShowsDatum final x place)
    (hM : Mirrors final x M N) :
    MatchesAt final x M N (fun _ => .none) (Action.store place value)
      (do Action.store place value; return .none) := by
  cases place with
  | address o k =>
    cases value with
    | int n =>
      obtain ⟨hforth, hback⟩ := hM.write (k := k) (n := n) hplace
      constructor
      · intro r M' h
        obtain ⟨N', hN', hmirrors⟩ := hforth M' h
        exact ⟨N', ⟨(), N', hN', rfl, rfl⟩, hmirrors⟩
      · rintro d N' ⟨_, _, h, rfl, rfl⟩
        obtain ⟨M', hM', hmirrors⟩ := hback N' h
        exact ⟨(), M', rfl, hM', hmirrors⟩
    | address _ _ | function _ | none =>
      exact ⟨fun _ _ h => h.elim, fun _ _ ⟨_, _, h, _⟩ => h.elim⟩
  | int _ | function _ | none => exact ⟨fun _ _ h => h.elim, fun _ _ ⟨_, _, h, _⟩ => h.elim⟩

/-- What is shared with a call is shown. -/
theorem shows_of_isShared {args : List Datum} (hargs : ∀ d ∈ args, ShowsDatum final x d)
    {o : Object} (ho : o.isShared args) : Shows final x o := by
  cases o with
  | global name => simp [Shows]
  | slot depth k =>
    simp only [Object.isShared, List.any_eq_true] at ho
    obtain ⟨d, hd, hsame⟩ := ho
    cases d with
    | address o' cell =>
      obtain rfl : o' = .slot depth k := by simpa using hsame
      exact hargs _ hd
    | int _ | function _ | none => simp at hsame

theorem MatchesAt.call {calls : Calls} {depth : Nat} {name : String} {args : List Datum}
    (hargs : ∀ d ∈ args, ShowsDatum final x d) (hM : Mirrors final x M N) :
    MatchesAt final x M N id (Action.call calls depth name args)
      (Action.call calls depth name args) := by
  have hshare : N.share args = M.share args := by
    funext o
    unfold Memory.share
    split
    next ho => exact hM.shown o (shows_of_isShared hargs ho)
    · rfl
  have hjoin : ∀ after, Mirrors final x (M.join args after) (N.join args after) := by
    intro after
    constructor
    · intro o ho
      unfold Memory.join
      rw [hM.shown o ho]
    · intro k hk
      have hprivate : (Object.slot x.depth k).isShared args = false := by
        rw [Bool.eq_false_iff]
        exact fun hshared => hk.not_names (shows_of_isShared hargs hshared k rfl)
      rw [Memory.join, hprivate]
      exact hM.hidden k hk
  constructor
  · rintro r M' ⟨result, after, hcall, rfl, rfl⟩
    exact ⟨_, ⟨result, after, hshare ▸ hcall, rfl, rfl⟩, hjoin after⟩
  · rintro d N' ⟨result, after, hcall, rfl, rfl⟩
    exact ⟨_, _, rfl, ⟨result, after, hshare ▸ hcall, rfl, rfl⟩, hjoin after⟩

/-! Rules for `Translates`. -/

namespace Translates

variable {P P' : Place} {Pre Pre' : State → Prop} {E : Action α} {Q : α → Place}
  {Post Post' : α → State → Prop}

/-- A computation without effect does not move. -/
theorem pure {r : α} (hQ : Q r = P) (h : ∀ M s, Simulates final x M s → Pre s → Post r s) :
    Translates final x P Pre (Pure.pure r) Q Post := by
  intro M s hs hpre
  constructor
  · rintro _ _ ⟨rfl, rfl⟩
    refine ⟨s, hs, h _ s hs hpre, ?_⟩
    intro n v N hn
    exact ⟨n, hQ ▸ hn⟩
  · intro n v N hn
    exact ⟨r, M, s, ⟨rfl, rfl⟩, hs, h M s hs hpre, hQ.symm ▸ hn⟩

theorem bind {G : α → Action β} {R : β → Place} {Post' : β → State → Prop}
    (hE : Translates final x P Pre E Q Post)
    (hG : ∀ r, Translates final x (Q r) (Post r) (G r) R Post') :
    Translates final x P Pre (E >>= G) R Post' := by
  intro M s hs hpre
  obtain ⟨hforth, hback⟩ := hE M s hs hpre
  constructor
  · rintro r' M' ⟨r, M₁, hr, hr'⟩
    obtain ⟨s₁, hs₁, hpost, hfinish⟩ := hforth r M₁ hr
    obtain ⟨s', hs', hpost', hfinish'⟩ := (hG r M₁ s₁ hs₁ hpost).1 r' M' hr'
    refine ⟨s', hs', hpost', ?_⟩
    intro n v N hn
    obtain ⟨k, hk⟩ := hfinish' n v N hn
    exact hfinish k v N hk
  · intro n v N hn
    obtain ⟨r, M₁, s₁, hr, hs₁, hpost, hn₁⟩ := hback n v N hn
    obtain ⟨r', M', s', hr', hs', hpost', hn'⟩ := (hG r M₁ s₁ hs₁ hpost).2 n v N hn₁
    exact ⟨r', M', s', ⟨r, M₁, hr, hr'⟩, hs', hpost', hn'⟩

/-- A part of the run that has no effect on what follows. -/
theorem silent {Mid : State → Prop}
    (h : Translates final x P Pre (Pure.pure () : Action Unit) (fun _ => P') (fun _ => Mid))
    (h' : Translates final x P' Mid E Q Post) : Translates final x P Pre E Q Post := by
  simpa using h.bind fun _ => h'

theorem mono (h : Translates final x P Pre E Q Post) (hpre : ∀ s, Pre' s → Pre s)
    (hpost : ∀ r s, Post r s → Post' r s) : Translates final x P Pre' E Q Post' := by
  intro M s hs hs'
  obtain ⟨hforth, hback⟩ := h M s hs (hpre s hs')
  constructor
  · intro r M' hr
    obtain ⟨s', hsim, hr', hfinish⟩ := hforth r M' hr
    exact ⟨s', hsim, hpost r s' hr', hfinish⟩
  · intro n v N hn
    obtain ⟨r, M', s', hr, hsim, hr', hn'⟩ := hback n v N hn
    exact ⟨r, M', s', hr, hsim, hpost r s' hr', hn'⟩

/-- Nothing is claimed about a place that is not reached. -/
theorem of_false (h : ∀ s, ¬ Pre s) : Translates final x P Pre E Q Post :=
  fun _ s _ hs => (h s hs).elim

/-- A step of the run that the computation does not see. -/
theorem step (hstep : P.LeadsTo final x P')
    (h : Translates final x P' Pre E Q Post) : Translates final x P Pre E Q Post := by
  intro M s hs hpre
  obtain ⟨hforth, hback⟩ := h M s hs hpre
  constructor
  · intro r M' hr
    obtain ⟨s', hsim, hpost, hfinish⟩ := hforth r M' hr
    refine ⟨s', hsim, hpost, ?_⟩
    intro n v N hn
    obtain ⟨k, hk⟩ := hfinish n v N hn
    exact ⟨k + 1, (hstep _ _ _ _).mpr ⟨k, rfl, hk⟩⟩
  · intro n v N hn
    obtain ⟨m, rfl, hm⟩ := (hstep n s v N).mp hn
    obtain ⟨r, M', s', hr, hsim, hpost, hn'⟩ := hback m v N hm
    exact ⟨r, M', s', hr, hsim, hpost, hn'.mono (Nat.le_succ m)⟩

/-- An instruction does what a computation does. -/
theorem emit {b : Builder} {id : BlockId} {operation : Operation} {type : Ty} {f : α → Datum}
    (htidy : b.Tidy) (hid : b.current = some id)
    (hgrows : (b.withInst id operation type none).Grows final)
    (hrun : ∀ M s, Simulates final x M s → Pre s → MatchesAt final x M s.memory f E
      ((Instruction.mk b.nextInst operation type none).run x s.results))
    (hpost : ∀ M M' s r N, Simulates final x M s → Pre s → E M r M' →
      (Instruction.mk b.nextInst operation type none).run x s.results s.memory (f r) N →
      Post r (s.after b.nextInst (f r) N)) :
    Translates final x b.place Pre E (fun _ => (b.withInst id operation type none).place) Post := by
  have hafter : ∀ {M s d N}, Simulates final x M s → ∀ M', Mirrors final x M' N →
      Simulates final x M' (s.after b.nextInst d N) := by
    intro M s d N hs M' hM'
    refine ⟨hM', ?_⟩
    intro slot hslot
    rw [State.after_results_of_ne s (htidy.slot_ne hgrows hslot)]
    exact hs.slots slot hslot
  intro M s hs hpre
  obtain ⟨hforth, hback⟩ := hrun M s hs hpre
  constructor
  · intro r M' hr
    obtain ⟨N, hN, hmirrors⟩ := hforth r M' hr
    refine ⟨_, hafter hs M' hmirrors, hpost M M' s r N hs hpre hr hN, ?_⟩
    intro n v N' hn
    refine ⟨n + 1, ?_⟩
    rw [Builder.finishes_withInst hid (htidy.selected id hid) hgrows]
    exact ⟨n, rfl, f r, N, hN, hn⟩
  · intro n v N' hn
    rw [Builder.finishes_withInst hid (htidy.selected id hid) hgrows] at hn
    obtain ⟨m, rfl, d, N, hN, hm⟩ := hn
    obtain ⟨r, M', rfl, hr, hmirrors⟩ := hback d N hN
    exact ⟨r, M', _, hr, hafter hs M' hmirrors, hpost M M' s r N hs hpre hr hN,
      hm.mono (Nat.le_succ m)⟩

end Translates

/-! Ends of blocks. -/

section

variable {b : Builder} {id : BlockId} {s : State} {v : Option Int} {n : Nat}

theorem Builder.leadsTo_br {target : BlockId} (hid : b.current = some id) (hopen : b.Unfinished id)
    (hgrows : (b.withTerminator id (.br target)).Grows final) (htarget : target ≠ 0) :
    b.place.LeadsTo final x (.before target 0) := by
  intro n s v M
  rw [finishes_withTerminator hid hopen hgrows]
  cases n with
  | zero => simp [Function.Finishes]
  | succ n => simp [Function.Finishes, Place.Finishes, toFunction_getElem? final htarget]

theorem Builder.leadsTo_ret (hid : b.current = some id) (hopen : b.Unfinished id)
    (hgrows : (b.withTerminator id (.ret none)).Grows final) :
    b.place.LeadsTo final x (.done none) := by
  intro n s v M
  rw [finishes_withTerminator hid hopen hgrows]
  cases n with
  | zero => simp [Function.Finishes]
  | succ n => simp [Function.Finishes, Place.Finishes]

variable {Pre : State → Prop} {d : Datum}

/-- A return goes wrong if its operand is not a number. -/
theorem Translates.ret {value : Value} (hid : b.current = some id) (hopen : b.Unfinished id)
    (hgrows : (b.withTerminator id (.ret (some value))).Grows final)
    (hvalue : ∀ s, Pre s → value.eval x s.results = d) :
    Translates final x b.place Pre d.toInt (fun n => .done (some n)) (fun _ => Pre) := by
  intro M s hs hpre
  have hplace := fun n v N => @Builder.finishes_withTerminator final b x id s v N n _ hid hopen hgrows
  constructor
  · intro n M' hn
    cases hd : d with
    | int k =>
      rw [hd] at hn
      obtain ⟨rfl, rfl⟩ := hn
      refine ⟨s, hs, hpre, ?_⟩
      rintro m v N ⟨rfl, rfl⟩
      exact ⟨1, (hplace _ _ _).mpr ⟨n, (hvalue s hpre).trans hd, rfl, rfl⟩⟩
    | address _ _ | function _ | none =>
      rw [hd] at hn
      exact hn.elim
  · intro n v N hn
    rw [hplace] at hn
    cases n with
    | zero => exact hn.elim
    | succ n =>
      obtain ⟨k, hk, rfl, rfl⟩ := hn
      have hd : d = .int k := (hvalue s hpre).symm.trans hk
      exact ⟨k, M, s, by simp [hd, Datum.toInt], hs, hpre, rfl, rfl⟩

/-- A conditional jump goes wrong if its condition is not a number. -/
theorem Translates.condBr {cond : Value} {onTrue onFalse : BlockId} (hid : b.current = some id)
    (hopen : b.Unfinished id)
    (hgrows : (b.withTerminator id (.condBr cond onTrue onFalse)).Grows final)
    (htrue : onTrue ≠ 0) (hfalse : onFalse ≠ 0) (hcond : ∀ s, Pre s → cond.eval x s.results = d) :
    Translates final x b.place Pre d.toInt
      (fun n => .before (if n = 0 then onFalse else onTrue) 0) (fun n s => Pre s ∧ d = .int n) := by
  intro M s hs hpre
  have hplace := fun n v N => @Builder.finishes_withTerminator final b x id s v N n _ hid hopen hgrows
  have htarget : ∀ n : Int, final.toFunction.blocks[if n = 0 then onFalse else onTrue]? =
      final.blocks[if n = 0 then onFalse else onTrue]? := by
    intro n
    refine Builder.toFunction_getElem? final ?_
    split
    · exact hfalse
    · exact htrue
  constructor
  · intro n M' hn
    cases hd : d with
    | int k =>
      rw [hd] at hn
      obtain ⟨rfl, rfl⟩ := hn
      refine ⟨s, hs, ⟨hpre, rfl⟩, ?_⟩
      rintro m v N ⟨block, hblock, hrun⟩
      refine ⟨m + 1, (hplace _ _ _).mpr ⟨n, block, (hcond s hpre).trans hd, ?_, hrun⟩⟩
      rw [htarget, hblock]
    | address _ _ | function _ | none =>
      rw [hd] at hn
      exact hn.elim
  · intro n v N hn
    rw [hplace] at hn
    cases n with
    | zero => exact hn.elim
    | succ n =>
      obtain ⟨k, block, hk, hblock, hrun⟩ := hn
      have hd : d = .int k := (hcond s hpre).symm.trans hk
      refine ⟨k, M, s, by simp [hd, Datum.toInt], hs, ⟨hpre, hd⟩, block, ?_, hrun.mono (Nat.le_succ n)⟩
      rw [← htarget, hblock]

end

/-- Where a run goes on after a statement. -/
def Place.after (next : Place) : Exit → Place
  | .next => next
  | .ret value => .done value

/-- The end of a statement leads to another place by one step. -/
theorem Translates.rejoin {P next next' : Place} {Pre K R : State → Prop} {E : Action Exit}
    (h : Translates final x P Pre E next.after fun exit s => exit = .next → K s)
    (hstep : ∀ s, K s → R s ∧ next.LeadsTo final x next') :
    Translates final x P Pre E next'.after fun exit s => exit = .next → R s := by
  intro M s hs hpre
  obtain ⟨hforth, hback⟩ := h M s hs hpre
  constructor
  · intro exit M' hexit
    obtain ⟨s', hs', hpost, hfinish⟩ := hforth exit M' hexit
    refine ⟨s', hs', fun heq => (hstep s' (hpost heq)).1, ?_⟩
    intro n v N hn
    cases exit with
    | next => exact hfinish (n + 1) v N (((hstep s' (hpost rfl)).2 _ _ v N).mpr ⟨n, rfl, hn⟩)
    | ret value => exact hfinish n v N hn
  · intro n v N hn
    obtain ⟨exit, M', s', hexit, hs', hpost, hn'⟩ := hback n v N hn
    refine ⟨exit, M', s', hexit, hs', fun heq => (hstep s' (hpost heq)).1, ?_⟩
    cases exit with
    | next =>
      obtain ⟨m, rfl, hm⟩ := ((hstep s' (hpost rfl)).2 _ _ v N).mp hn'
      exact hm.mono (Nat.le_succ m)
    | ret value => exact hn'

/-- A loop: from the header to its body or out of it, and from the end of the body back. -/
theorem Translates.loop {cond : Action Bool} {body : Action Exit} {header inside outside last : Place}
    {R : State → Prop} {Post : Exit → State → Prop}
    (hcond : Translates final x header R cond (fun t => if t then inside else outside) fun _ => R)
    (hbody : Translates final x inside R body last.after Post)
    (hback : ∀ s, Post .next s → R s ∧ last.LeadsTo final x header) :
    Translates final x header R (Action.loop cond body) outside.after
      fun exit s => exit = .next → R s := by
  intro M s hs hR
  constructor
  · intro exit M' hloop
    -- along the rounds of the computation
    induction hloop generalizing s with
    | done hfalse =>
      obtain ⟨s₁, hs₁, hR₁, hfinish⟩ := (hcond _ s hs hR).1 _ _ hfalse
      exact ⟨s₁, hs₁, fun _ => hR₁, hfinish⟩
    | leave htrue hleave =>
      obtain ⟨s₁, hs₁, hR₁, hfinish₁⟩ := (hcond _ s hs hR).1 _ _ htrue
      obtain ⟨s₂, hs₂, _, hfinish₂⟩ := (hbody _ s₁ hs₁ hR₁).1 _ _ hleave
      refine ⟨s₂, hs₂, by simp, ?_⟩
      intro n v N hn
      obtain ⟨k, hk⟩ := hfinish₂ n v N hn
      exact hfinish₁ k v N hk
    | round htrue hround _ ih =>
      obtain ⟨s₁, hs₁, hR₁, hfinish₁⟩ := (hcond _ s hs hR).1 _ _ htrue
      obtain ⟨s₂, hs₂, hpost₂, hfinish₂⟩ := (hbody _ s₁ hs₁ hR₁).1 _ _ hround
      obtain ⟨hR₂, hlast⟩ := hback s₂ hpost₂
      obtain ⟨s₃, hs₃, hR₃, hfinish₃⟩ := ih s₂ hs₂ hR₂
      refine ⟨s₃, hs₃, hR₃, ?_⟩
      intro n v N hn
      obtain ⟨k₃, hk₃⟩ := hfinish₃ n v N hn
      obtain ⟨k₂, hk₂⟩ := hfinish₂ (k₃ + 1) v N ((hlast _ _ _ _).mpr ⟨k₃, rfl, hk₃⟩)
      exact hfinish₁ k₂ v N hk₂
  · -- along the steps of the run: the way back to the header takes one
    intro n
    induction n using Nat.strongRecOn generalizing M s with
    | ind n ih =>
      intro v N hn
      obtain ⟨t, M₁, s₁, ht, hs₁, hR₁, hn₁⟩ := (hcond M s hs hR).2 n v N hn
      cases t with
      | false => exact ⟨.next, M₁, s₁, .done ht, hs₁, fun _ => hR₁, hn₁⟩
      | true =>
        obtain ⟨exit, M₂, s₂, hexit, hs₂, hpost₂, hn₂⟩ := (hbody M₁ s₁ hs₁ hR₁).2 n v N hn₁
        cases exit with
        | ret value => exact ⟨.ret value, M₂, s₂, .leave ht hexit, hs₂, by simp, hn₂⟩
        | next =>
          obtain ⟨hR₂, hlast⟩ := hback s₂ hpost₂
          obtain ⟨m, rfl, hm⟩ := (hlast _ _ _ _).mp hn₂
          obtain ⟨exit, M₃, s₃, hexit₃, hs₃, hR₃, hn₃⟩ :=
            ih m (Nat.lt_succ_self m) M₂ s₂ hs₂ hR₂ v N hm
          exact ⟨exit, M₃, s₃, .round ht hexit hexit₃, hs₃, hR₃, hn₃.mono (Nat.le_succ m)⟩

/-! Conditions that later instructions do not touch. -/

/-- A condition on results with smaller numbers only. -/
def Stable (k : Nat) (R : State → Prop) : Prop :=
  ∀ s s' : State, (∀ i < k, s'.results i = s.results i) → R s → R s'

theorem Stable.mono {k k' : Nat} {R : State → Prop} (h : Stable k R) (hle : k ≤ k') : Stable k' R :=
  fun s s' hsame => h s s' fun i hi => hsame i (Nat.lt_of_lt_of_le hi hle)

theorem Stable.and {k : Nat} {R R' : State → Prop} (h : Stable k R) (h' : Stable k R') :
    Stable k fun s => R s ∧ R' s :=
  fun s s' hsame hs => ⟨h s s' hsame hs.1, h' s s' hsame hs.2⟩

/-- The next instruction does not touch the condition. -/
theorem Stable.after {k : Nat} {R : State → Prop} (h : Stable k R) {s : State} {result : Datum}
    {memory : Memory} (hs : R s) : R (s.after k result memory) :=
  h s _ (fun _ hi => s.after_results_of_ne (Nat.ne_of_lt hi) result memory) hs

/-- An operand that is available before the instruction with a number. -/
def Value.IsBefore (k : Nat) (v : Value) : Prop := ∀ id type, v = .inst id type → id < k

theorem Value.IsBefore.of_ne {k : Nat} {v : Value} (h : ∀ id type, v ≠ .inst id type) :
    v.IsBefore k :=
  fun id type hv => absurd hv (h id type)

theorem Value.IsBefore.mono {k k' : Nat} {v : Value} (h : v.IsBefore k) (hle : k ≤ k') :
    v.IsBefore k' :=
  fun id type hv => Nat.lt_of_lt_of_le (h id type hv) hle

theorem Value.IsBefore.stable {k : Nat} {v : Value} (h : v.IsBefore k) (d : Datum) :
    Stable k fun s => v.eval x s.results = d := by
  intro s s' hsame hs
  cases v with
  | inst id type =>
    change s'.results id = d
    rw [hsame id (h id type rfl)]
    exact hs
  | const c => cases c <;> exact hs
  | param _ _ | global _ _ | function _ _ => exact hs

end MicroC.Ir
