import MicroC.Proofs.Lowering.Continuation
import MicroC.Proofs.Meaning.Pieces

/-!
Constants at compile time and at run time. The code of an expression that can be folded gives
its operand the folded value, in any function under construction and whatever is known about
names; the right operand of `&&` need not be constant where it is not evaluated.
-/

namespace MicroC

open LowerM

/-! Arithmetic. -/

/-- The machine type of scalar values. -/
def Scalar.machine : Scalar → Ir.Ty
  | .char => .i8
  | .int => .i32

theorem Scalar.wrap_machine {kind : Scalar} {n : Int} (h : kind.Fits n) :
    kind.machine.wrap n = n := by
  cases kind with
  | char =>
    simp only [Scalar.Fits, Scalar.least, Scalar.greatest] at h
    simp only [Scalar.machine, Ir.Ty.wrap, Int.bmod]
    omega
  | int =>
    simp only [Scalar.Fits, Scalar.least, Scalar.greatest] at h
    simp only [Scalar.machine, Ir.Ty.wrap, Int.bmod]
    omega

theorem Scalar.cells_machine (kind : Scalar) : kind.machine.cells = 1 := by
  cases kind <;> rfl

theorem Scalar.fit_eq_ok {kind : Scalar} {n : Int} {span : Span} {v : ScalarValue}
    (h : kind.fit n span = .ok v) : v.kind = kind ∧ v.value = n := by
  unfold Scalar.fit at h
  split at h
  next hfits =>
    obtain rfl := Except.ok.inj h
    exact ScalarValue.ofInt?_eq_some_iff.mp hfits
  next => cases h

/-- A folded value does not wrap around. -/
theorem Scalar.wrap_of_fit {kind : Scalar} {n : Int} {span : Span} {v : ScalarValue}
    (h : kind.fit n span = .ok v) : v.kind = kind ∧ kind.machine.wrap n = v.value := by
  obtain ⟨rfl, rfl⟩ := Scalar.fit_eq_ok h
  exact ⟨rfl, Scalar.wrap_machine v.fits⟩

theorem ScalarValue.truth_value (kind : Scalar) (holds : Bool) :
    (ScalarValue.truth kind holds).value = holds.toInt := by
  cases holds <;> rfl

theorem ScalarValue.isTrue_eq (v : ScalarValue) : v.isTrue = decide (v.value ≠ 0) := by
  rw [isTrue, bne, decide_not]
  rfl

theorem BinaryOp.fold_arithmetic {op : BinaryOp} {instruction : Ir.BinaryOp} {kind : Scalar}
    {m n : Int} {span : Span} {v : ScalarValue} (hop : op.arithmetic? = some instruction)
    (h : op.fold kind m n span = .ok v) :
    v.kind = kind ∧ instruction.eval kind.machine m n = pure v.value := by
  cases op with
  | add | sub | mul =>
    cases hop
    obtain ⟨hkind, hwrap⟩ := Scalar.wrap_of_fit h
    exact ⟨hkind, by rw [Ir.BinaryOp.eval, hwrap]⟩
  | div =>
    cases hop
    rw [BinaryOp.fold] at h
    split at h
    next => cases h
    next hne =>
      obtain ⟨hkind, hwrap⟩ := Scalar.wrap_of_fit h
      exact ⟨hkind, by rw [Ir.BinaryOp.eval, if_neg hne, hwrap]⟩
  | lt | gt | le | ge | eq | ne | and | assign => cases hop

theorem BinaryOp.fold_predicate {op : BinaryOp} {predicate : Ir.Predicate} {kind : Scalar}
    {m n : Int} {span : Span} {v : ScalarValue} (hop : op.predicate? = some predicate)
    (h : op.fold kind m n span = .ok v) :
    v.kind = kind ∧ v.value = (predicate.eval m n).toInt := by
  cases op with
  | lt | gt | le | ge | eq | ne =>
    cases hop
    obtain rfl := Except.ok.inj h
    exact ⟨rfl, ScalarValue.truth_value kind _⟩
  | add | sub | mul | div | and | assign => cases hop

namespace Expr

variable {id : ExprId} {op : BinaryOp} {span : Span} {lhs rhs : Expr} {v : ScalarValue}

/-- The right operand of `&&` counts only if the left one holds. -/
theorem fold_and (h : (binary id .and span lhs rhs).fold = .ok v) :
    ∃ c c', lhs.fold = .ok c ∧ (c.isTrue → rhs.fold = .ok c') ∧
      v = .truth c.kind (c.isTrue && c'.isTrue) := by
  rw [fold, if_neg (by decide)] at h
  obtain ⟨c, hlhs, h⟩ := Except.bind_eq_ok.mp h
  split at h
  next hzero =>
    have hfalse : c.isTrue = false := by simpa using hzero
    obtain rfl := Except.ok.inj h
    exact ⟨c, c, hlhs, by simp [hfalse], by rw [hfalse, Bool.false_and]⟩
  next hnonzero =>
    have htrue : c.isTrue = true := by simpa using hnonzero
    obtain ⟨c', hrhs, h⟩ := Except.bind_eq_ok.mp h
    split at h
    next => cases h
    next =>
      obtain rfl := Except.ok.inj h
      refine ⟨c, c', hlhs, fun _ => hrhs, ?_⟩
      rw [c.isTrue_eq, c'.isTrue_eq, Bool.decide_and]

/-- Other operators count both operands. -/
theorem fold_strict (hand : op ≠ .and) (h : (binary id op span lhs rhs).fold = .ok v) :
    op ≠ .assign ∧ ∃ c c', lhs.fold = .ok c ∧ rhs.fold = .ok c' ∧
      op.fold c.kind c.value c'.value span = .ok v := by
  rw [fold] at h
  split at h
  next => cases h
  next hassign =>
    obtain ⟨c, hlhs, h⟩ := Except.bind_eq_ok.mp h
    rw [if_neg (by simp [hand])] at h
    obtain ⟨c', hrhs, h⟩ := Except.bind_eq_ok.mp h
    split at h
    next => cases h
    next => exact ⟨hassign, c, c', hlhs, hrhs, h⟩

end Expr

/-! Code that computes numbers. -/

namespace Ir

namespace State

variable {x : Activation} {m lo hi k : Nat} {s s' : State}

theorem within_after (result : Datum) (hle : lo ≤ k) (hlt : k < hi) :
    s.Within x m lo hi (s.after k result s.memory) := by
  refine ⟨fun i hout => ?_, fun _ _ => rfl, fun _ => rfl⟩
  have hne : i ≠ k := by omega
  exact s.after_results_of_ne hne result s.memory

/-- A stack slot with its contents. -/
structure Holds (x : Activation) (k : Nat) (contents : List Int) (s : State) : Prop where
  address : s.results k = .address (.slot x.depth k) 0
  contents_eq : s.memory (.slot x.depth k) = contents

/-- A slot made before is not written. -/
theorem Holds.within {contents : List Int} (h : s.Holds x k contents)
    (hwithin : s.Within x m lo hi s') (hlo : k < lo) (hm : k < m) : s'.Holds x k contents := by
  refine ⟨(hwithin.results k (.inl hlo)).trans h.address, ?_⟩
  rw [hwithin.memory, h.contents_eq]
  rintro k' hk' _ heq
  cases heq
  omega

/-- The contents of a slot of one cell are replaced. -/
theorem Holds.store {old n : Int} {id : InstId} {value : Value} (h : s.Holds x k [old])
    (hvalue : value.eval x s.results = .int n) (hm : m ≤ k) (hlt : k < id) (type : Ty) :
    ∃ memory, (Instruction.mk id (.store value (.inst k type)) .void none).run x s.results s.memory
        .none memory ∧ s.Within x m id (id + 1) (s.after id .none memory) ∧
      (s.after id .none memory).Holds x k [n] := by
  let memory : Memory := fun o => if o = .slot x.depth k then [n] else s.memory o
  have hwrite : Action.store (.address (.slot x.depth k) 0) (.int n) s.memory () memory := by
    change s.memory.write? _ 0 n = some memory
    rw [Memory.write?, h.contents_eq]
    rfl
  refine ⟨memory, ?_, ⟨?_, ?_, ?_⟩, ?_, if_pos rfl⟩
  · rw [Instruction.run_store, hvalue, Value.eval, h.address]
    exact ⟨(), memory, hwrite, rfl, rfl⟩
  · intro i hout
    have hne : i ≠ id := by omega
    exact s.after_results_of_ne hne .none memory
  · intro object hobject
    exact if_neg (hobject k hm (Nat.lt_succ_of_lt hlt))
  · intro object
    change (if object = .slot x.depth k then [n] else s.memory object).length = _
    split
    next heq => rw [heq, h.contents_eq, List.length_singleton, List.length_singleton]
    next => rfl
  · rw [s.after_results_of_ne (Nat.ne_of_lt hlt), h.address]

end State

namespace Builder

variable {b b₁ b₂ : Builder} {i k m : Nat} {n : Int} {operation : Operation} {type : Ty}
  {P : Activation → State → Prop} {v w : Value} {c c' : ScalarValue}

namespace Code

/-- An instruction whose result is a number. -/
theorem number (hid : b.current = some i)
    (hrun : ∀ x s, P x s → (Instruction.mk b.nextInst operation type none).run x s.results
      s.memory (.int n) s.memory) :
    Code m b (b.withInst i operation type none) P fun _ s => s.results b.nextInst = .int n :=
  emit hid fun x s hpre => ⟨.int n, s.memory, hrun x s hpre,
    State.within_after _ (Nat.le_refl _) (Nat.lt_succ_self _), s.after_results_self _ _ _⟩

/-- The truth of a value is stored in a slot. -/
theorem test (hb : b.Selected) (hid : b.current = some i) (hm : m ≤ k) (hlt : k < b.nextInst)
    (type : Ty) : Code m b (b.withTest i v (.inst k type))
      (fun x s => v.eval x s.results = .int n ∧ ∃ old, s.Holds x k [old])
      fun x s => s.Holds x k [(decide (n ≠ 0)).toInt] ∧
        s.results b.nextInst = .int (decide (n ≠ 0)).toInt := by
  obtain ⟨j, hat⟩ := hb.exists_at hid
  have hcompare : Code b.nextInst b (b.withInst i (.cmp .ne v (.int v.type 0)) v.type none)
      (fun x s => v.eval x s.results = .int n)
      fun _ s => s.results b.nextInst = .int (decide (n ≠ 0)).toInt := by
    refine number hid fun x s hn => ?_
    rw [Instruction.run_cmp, hn]
    exact ⟨n, _, ⟨rfl, rfl⟩, 0, _, ⟨rfl, rfl⟩, rfl, rfl⟩
  have hkeep := hcompare.frame (F := fun x s => ∃ old, s.Holds x k [old]) ?_
  · refine (hkeep.mono (Nat.le_trans hm (Nat.le_of_lt hlt)) (fun _ _ h => h) fun _ _ h => h).trans
      ⟨i, _, hat.withInst⟩ ?_
    refine emit hid ?_
    rintro x s ⟨htruth, old, hold⟩
    have hvalue : (Value.inst b.nextInst v.type).eval x s.results = _ := htruth
    obtain ⟨memory, hrun, hwithin, hholds⟩ := hold.store hvalue hm (Nat.lt_succ_of_lt hlt) type
    refine ⟨.none, memory, hrun, hwithin, hholds, ?_⟩
    exact (s.after_results_of_ne (Nat.ne_of_lt (Nat.lt_succ_self _)) _ _).trans htruth
  · rintro x s s' hwithin ⟨old, hold⟩
    exact ⟨old, hold.within hwithin hlt hlt⟩

end Code

/-- The code between two states gives an operand a constant. -/
structure Gives (b : Builder) (c : ScalarValue) (v : Value) (b' : Builder) : Prop where
  continues : b.Continues b'
  selected : b'.Selected
  type_eq : v.type = c.kind.machine
  isBefore : v.IsBefore b'.nextInst
  code : Code b.nextInst b b' (fun _ _ => True) fun x s => v.eval x s.results = .int c.value

namespace Gives

/-- The last instruction computes the constant. -/
theorem of_code (hcontinues : b.Continues b₁) (hb₁ : b₁.Selected) (hid : b₁.current = some i)
    (hcode : Code b.nextInst b b₁ (fun _ _ => True) P) (htype : type = c.kind.machine)
    (hrun : ∀ x s, P x s → (Instruction.mk b₁.nextInst operation type none).run x s.results
      s.memory (.int c.value) s.memory) :
    b.Gives c (.inst b₁.nextInst type) (b₁.withInst i operation type none) := by
  obtain ⟨k, hat⟩ := hb₁.exists_at hid
  refine ⟨hcontinues.withInst hid, ⟨i, _, hat.withInst⟩, htype, ?_, ?_⟩
  · rintro id t h
    cases h
    exact Nat.lt_succ_self _
  · exact hcode.trans hb₁ (.number hid hrun)

/-- The left one of two operands keeps its value. -/
theorem pair (h : b.Gives c v b₁) (h' : b₁.Gives c' w b₂) :
    Code b.nextInst b b₂ (fun _ _ => True)
      fun x s => w.eval x s.results = .int c'.value ∧ v.eval x s.results = .int c.value := by
  refine h.code.trans h.selected ?_
  refine (h'.code.frame ?_).mono h.continues.nextInst (fun _ _ hv => ⟨trivial, hv⟩) fun _ _ hw => hw
  intro x s s' hwithin
  exact h.isBefore.stable _ s s' fun i hi => hwithin.results i (.inl hi)

end Gives

/-! The code of `&&`. -/

variable {left right : Value} {d last : BlockId}

namespace Code

/-- The left operand is tested, and its truth is in a slot of its own. -/
theorem tested (hb : b.Selected) (hid : b.current = some i) (hcells : left.type.cells = 1) :
    Code b.nextInst b (b.withLeft i left) (fun x s => left.eval x s.results = .int n)
      fun x s => s.Holds x b.nextInst [(decide (n ≠ 0)).toInt] ∧
        s.results (b.nextInst + 1) = .int (decide (n ≠ 0)).toInt := by
  obtain ⟨k, hat⟩ := hb.exists_at hid
  have hslot : Code b.nextInst b (b.withSlot left.type none)
      (fun x s => left.eval x s.results = .int n)
      fun x s => left.eval x s.results = .int n ∧ ∃ old, s.Holds x b.nextInst [old] := by
    refine .stay .withSlot (fun _ _ h => h) fun x s halloc hn => ⟨hn, ?_⟩
    obtain ⟨haddress, hlength⟩ := halloc ⟨b.nextInst, .alloca left.type, .ptr left.type, none⟩
      (by simp [withSlot_slots]) (Nat.le_refl _) left.type rfl
    obtain ⟨old, hold⟩ := List.length_eq_one_iff.mp (hlength.trans hcells)
    exact ⟨old, haddress, hold⟩
  have hselected : (b.withSlot left.type none).Selected := ⟨i, k, hat⟩
  have htest := test (n := n) (v := left) hselected hid (Nat.le_refl b.nextInst)
    (Nat.lt_succ_self b.nextInst) (.ptr left.type)
  refine (hslot.trans hselected htest).trans (hselected.withTest hid) ?_
  exact .stay ((Precedes.withBlock _).trans (.withBlock _))
    (fun _ _ h => (h.withBlock _).withBlock _) fun _ _ _ h => h

/-- The truth of the left operand says which block follows. -/
theorem fork (hb : b.Selected) (hid : b.current = some i)
    (hopen : (b.withLeft i left).Unfinished i) (hended : (b.withFork i left).Precedes b₁)
    (hat : b₁.At (if n = 0 then b.blocks.length + 1 else b.blocks.length) 0) :
    Code m (b.withLeft i left) b₁
      (fun x s => s.Holds x b.nextInst [n] ∧ s.results (b.nextInst + 1) = .int n)
      fun x s => s.Holds x b.nextInst [n] := by
  obtain ⟨k, hlt⟩ := hb.exists_at hid
  have htarget : (if n = 0 then b.blocks.length + 1 else b.blocks.length) ≠ 0 := by
    have := hlt.lt
    split <;> omega
  refine (jump ((Precedes.withTerminator hopen).trans hended) hended hid hat htarget ?_).mono
    (Nat.le_refl m) (fun _ _ h => h) fun _ _ h => h.1
  rintro x s ⟨_, hcond⟩
  exact .inr ⟨_, _, _, n, rfl, hcond, rfl⟩

/-- The truth of the right operand goes to the same slot, and both ways meet. -/
theorem join (hb : b.Selected) (hid : b.current = some d) (hopen : b.Unfinished d) (hm : m ≤ k)
    (hlt : k < b.nextInst) (hlast : last ≠ 0)
    (hend : ((b.withTest d right (.inst k type)).withTerminator d (.br last)).Fresh last) :
    Code m b (b.atEnd d right (.inst k type) last)
      (fun x s => right.eval x s.results = .int n ∧ ∃ old, s.Holds x k [old])
      fun x s => s.Holds x k [(decide (n ≠ 0)).toInt] := by
  have hended := Precedes.withCurrent hend.unfinished
  have hjump : Code m (b.withTest d right (.inst k type)) (b.atEnd d right (.inst k type) last)
      (fun x s => s.Holds x k [(decide (n ≠ 0)).toInt])
      fun x s => s.Holds x k [(decide (n ≠ 0)).toInt] :=
    jump ((Precedes.withTerminator (withTest_unfinished.mpr hopen)).trans hended) hended hid
      hend.at_zero hlast fun _ _ _ => .inl rfl
  refine (test hb hid hm hlt type).trans (hb.withTest hid) ?_
  exact hjump.mono (Nat.le_refl m) (fun _ _ h => h.1) fun _ _ h => h

end Code

/-- The slot holds the truth of both operands where they meet. The right one counts only if the
left one holds, and need not be constant otherwise. -/
theorem Code.conjunction (hb : b.Selected) (hid : b.current = some i)
    (hopen : (b.withLeft i left).Unfinished i) (hcells : left.type.cells = 1)
    (hcontinues : (b.atRight i left).Continues b₁) (hb₁ : b₁.Selected) (hd : b₁.current = some d)
    (hopen' : b₁.Unfinished d) (hright : c.isTrue → (b.atRight i left).Gives c' right b₁) :
    Code b.nextInst b (b₁.atEnd d right (.inst b.nextInst (.ptr left.type)) (b.blocks.length + 1))
      (fun x s => left.eval x s.results = .int c.value)
      fun x s => s.Holds x b.nextInst [(c.isTrue && c'.isTrue).toInt] := by
  obtain ⟨_, hat, hfresh⟩ := hb.atRight hid hopen
  have hne : (b.atRight i left).current ≠ some (b.blocks.length + 1) := by simp [hat.1]
  have hend := hfresh.atEnd hne hcontinues hd right (.inst b.nextInst (.ptr left.type))
  have hfork : (b.withFork i left).Precedes (b.atRight i left) :=
    .withCurrent (hb.withFork_fresh hid left).1.unfinished
  have hlt : b.nextInst < (b.atRight i left).nextInst := by
    exact Nat.lt_add_of_pos_right (by decide : 0 < 3)
  refine (tested hb hid hcells).trans (withLeft_selected hb hid) ?_
  rw [← c.isTrue_eq]
  cases htrue : c.isTrue with
  | true =>
    have hkeep := (hright htrue).code.frame (F := fun x s => ∃ old, s.Holds x b.nextInst [old]) <| by
      rintro x s s' hwithin ⟨old, hold⟩
      exact ⟨old, hold.within hwithin hlt hlt⟩
    rw [Bool.true_and, c'.isTrue_eq]
    refine (fork (n := 1) hb hid hopen hfork hat).trans ⟨_, _, hat⟩ ?_
    refine (hkeep.mono (Nat.le_of_lt hlt) (fun _ _ h => ⟨trivial, _, h⟩) fun _ _ h => h).trans hb₁ ?_
    exact join hb₁ hd hopen' (Nat.le_refl _) (Nat.lt_of_lt_of_le hlt hcontinues.nextInst)
      (Nat.succ_ne_zero _) hend
  | false =>
    refine fork (n := 0) hb hid hopen ?_ hend.at_zero
    exact (hfork.trans (hcontinues.withTest hd).toPrecedes).trans
      ((Precedes.withTerminator (withTest_unfinished.mpr hopen')).trans
        (.withCurrent hend.unfinished))

theorem Gives.conjunction (h : b.Gives c left b₁) (hid : b₁.current = some i)
    (hopen : (b₁.withLeft i left).Unfinished i) (hcontinues : (b₁.atRight i left).Continues b₂)
    (hb₂ : b₂.Selected) (hd : b₂.current = some d) (hopen' : b₂.Unfinished d)
    (hright : c.isTrue → (b₁.atRight i left).Gives c' right b₂) :
    b.Gives (.truth c.kind (c.isTrue && c'.isTrue)) (.inst (b₂.nextInst + 2) left.type)
      ((b₂.atEnd d right (.inst b₁.nextInst (.ptr left.type)) (b₁.blocks.length + 1)).withInst
        (b₁.blocks.length + 1) (.load (.inst b₁.nextInst (.ptr left.type))) left.type none) := by
  obtain ⟨hnext, hat, hfresh⟩ := h.selected.atRight hid hopen
  have hne : (b₁.atRight i left).current ≠ some (b₁.blocks.length + 1) := by simp [hat.1]
  have hend := hfresh.atEnd hne hcontinues hd right (.inst b₁.nextInst (.ptr left.type))
  have hmeet := ((h.continues.trans hnext).trans hcontinues).atEnd hd hopen' hend
    (Nat.le_succ_of_le h.continues.length)
  have hcells : left.type.cells = 1 := by rw [h.type_eq, Scalar.cells_machine]
  have hcode := Code.conjunction h.selected hid hopen hcells hcontinues hb₂ hd hopen' hright
  refine of_code hmeet ⟨_, _, hend.at_zero⟩ rfl (h.code.trans h.selected
    (hcode.mono h.continues.nextInst (fun _ _ h => h) fun _ _ h => h)) h.type_eq ?_
  intro x s hs
  rw [Instruction.run_load, Value.eval, hs.address, ScalarValue.truth_value]
  exact ⟨rfl, _, by rw [Memory.read?, hs.contents_eq]; rfl, rfl⟩

end Builder

end Ir

/-! Expressions. -/

section

variable {a : Analysis}

theorem Ir.Builder.gives_const {b : Ir.Builder} (hb : b.Selected) (c : ScalarValue) :
    b.Gives c (.int c.kind.machine c.value) b :=
  ⟨.refl b, hb, rfl, .of_ne nofun, .stay (.refl b) (fun _ _ h => h) fun _ _ _ _ => rfl⟩

/-- The instruction of an operator computes what folding computes. -/
theorem BinaryOp.emit_gives {op : BinaryOp} {span foldSpan : Span} {b b₁ b₂ : Ir.Builder}
    {left right : Ir.Value} {c c' v : ScalarValue} (hleft : b.Gives c left b₁)
    (hright : b₁.Gives c' right b₂) (hfold : op.fold c.kind c.value c'.value foldSpan = .ok v) :
    (op.emit span left right).Ensures b₂ (b.Gives v) := by
  have hcontinues := hleft.continues.trans hright.continues
  unfold BinaryOp.emit
  split
  next predicate _ hop =>
    obtain ⟨hkind, hvalue⟩ := BinaryOp.fold_predicate hop hfold
    refine emit_ensures fun i hid => .of_code hcontinues hright.selected hid (hleft.pair hright)
      (by rw [hleft.type_eq, hkind]) ?_
    rintro x s ⟨hn, hm⟩
    rw [Ir.Instruction.run_cmp, hm, hn, hvalue]
    exact ⟨_, _, ⟨rfl, rfl⟩, _, _, ⟨rfl, rfl⟩, rfl, rfl⟩
  next instruction _ hop =>
    obtain ⟨hkind, hvalue⟩ := BinaryOp.fold_arithmetic hop hfold
    refine emit_ensures fun i hid => .of_code hcontinues hright.selected hid (hleft.pair hright)
      (by rw [hleft.type_eq, hkind]) ?_
    rintro x s ⟨hn, hm⟩
    rw [Ir.Instruction.run_binary, hm, hn, hleft.type_eq]
    have heval : instruction.eval c.kind.machine c.value c'.value s.memory v.value s.memory := by
      rw [hvalue]
      exact ⟨rfl, rfl⟩
    exact ⟨_, _, ⟨rfl, rfl⟩, _, _, ⟨rfl, rfl⟩, _, _, heval, rfl, rfl⟩
  next => trivial

/-- The right operand of `&&` may be any code where the left one is zero. -/
theorem Expr.emitAnd_gives {lhs rhs : LowerM Ir.Value} {b : Ir.Builder} {c c' : ScalarValue}
    (hlhs : lhs.Ensures b (b.Gives c)) (hrhs : rhs.Proceeds)
    (hright : c.isTrue → ∀ {b : Ir.Builder}, b.Selected → rhs.Ensures b (b.Gives c')) :
    (Expr.emitAnd lhs rhs).Ensures b (b.Gives (.truth c.kind (c.isTrue && c'.isTrue))) := by
  refine Expr.emitAnd_ensures (Run.mono hlhs fun left b₁ h i hid hopen => ?_)
  obtain ⟨_, hat, _⟩ := h.selected.atRight hid hopen
  have hrun : rhs.Ensures (b₁.atRight i left) fun right b₂ => (b₁.atRight i left).Continues b₂ ∧
      b₂.Selected ∧ (c.isTrue → (b₁.atRight i left).Gives c' right b₂) := by
    by_cases htrue : c.isTrue
    · refine Run.mono (hright htrue ⟨_, _, hat⟩) fun right b₂ hgives => ?_
      exact ⟨hgives.continues, hgives.selected, fun _ => hgives⟩
    · refine Run.mono (hrhs _ ⟨_, _, hat⟩) fun right b₂ hany => ?_
      exact ⟨hany.1, hany.2, fun h => absurd h htrue⟩
  refine Run.mono hrun ?_
  rintro right b₂ ⟨hcontinues, hb₂, hgives⟩ d hd hopen'
  exact h.conjunction hid hopen hcontinues hb₂ hd hopen' hgives

/-- Whatever is known about names, the code of an expression that can be folded gives its operand
the folded value. -/
theorem Expr.lower_gives : (e : Expr) → ∀ {v : ScalarValue}, e.fold = .ok v →
    ∀ {b : Ir.Builder}, b.Selected → (e.lower a).Ensures b (b.Gives v)
  | .literal _ (.int value) _, v, hfold, b, hb => by
    obtain ⟨hkind, rfl⟩ := Scalar.fit_eq_ok hfold
    have hconst := Ir.Builder.gives_const hb v
    rw [hkind] at hconst
    exact hconst
  | .literal _ (.char byte) _, _, hfold, b, hb => by
    obtain rfl := Except.ok.inj hfold
    exact Ir.Builder.gives_const hb _
  | .paren _ _ inner _, _, hfold, _, hb => inner.lower_gives hfold hb
  | .unary _ .neg _ operand, v, hfold, b, hb => by
    obtain ⟨c, hoperand, hfit⟩ := Except.bind_eq_ok.mp hfold
    obtain ⟨hkind, hwrap⟩ := Scalar.wrap_of_fit hfit
    refine (operand.lower_gives hoperand hb).bind fun value b₁ h => ?_
    refine emit_ensures fun i hid => .of_code h.continues h.selected hid h.code
      (by rw [h.type_eq, hkind]) ?_
    intro x s hs
    rw [Ir.Instruction.run_unary, hs, h.type_eq, ← hwrap]
    exact ⟨_, _, ⟨rfl, rfl⟩, rfl, rfl⟩
  | .unary _ .not _ operand, v, hfold, b, hb => by
    obtain ⟨c, hoperand, htruth⟩ := Except.bind_eq_ok.mp hfold
    obtain rfl := Except.ok.inj htruth
    refine (operand.lower_gives hoperand hb).bind fun value b₁ h => ?_
    refine emit_ensures fun i hid => .of_code h.continues h.selected hid h.code rfl ?_
    intro x s hs
    rw [Ir.Instruction.run_unary, hs, ScalarValue.truth_value, c.isTrue_eq, decide_not, Bool.not_not]
    exact ⟨_, _, ⟨rfl, rfl⟩, rfl, rfl⟩
  | .binary _ op _ lhs rhs, v, hfold, b, hb => by
    by_cases hand : op = .and
    · subst hand
      obtain ⟨c, c', hlhs, hrhs, rfl⟩ := Expr.fold_and hfold
      exact Expr.emitAnd_gives (lhs.lower_gives hlhs hb) rhs.lower_proceeds
        fun htrue _ hb' => rhs.lower_gives (hrhs htrue) hb'
    · obtain ⟨hassign, c, c', hlhs, hrhs, hop⟩ := Expr.fold_strict hand hfold
      rw [Expr.lower_strict hassign hand]
      refine (lhs.lower_gives hlhs hb).bind fun left b₁ hleft => ?_
      refine (rhs.lower_gives hrhs hleft.selected).bind fun right b₂ hright => ?_
      exact BinaryOp.emit_gives hleft hright hop
  | .call .., _, hfold, _, _ | .name .., _, hfold, _, _ | .index .., _, hfold, _, _ => by
    cases hfold

/-- The code of an expression that can be folded, emitted where the cursor stands, leads from there
to where the cursor stands afterwards, in every function that the code becomes part of. The operand
then has the folded value; nothing else has changed but results and slots of this code. -/
theorem Expr.lower_fold {e : Expr} {v : ScalarValue} (hfold : e.fold = .ok v) {b b' : Ir.Builder}
    {i k : Nat} (hat : b.At i k) {value : Ir.Value} (hlower : e.lower a b = .ok (value, b')) :
    value.type = v.kind.machine ∧ ∃ j l, b'.At j l ∧
      ∀ final, b'.Kept final → ∀ x s, s.Allocates x b.nextInst b'.slots →
        ∃ s', final.toFunction.Runs x (final.position i k) s (final.position j l) s' ∧
          value.eval x s'.results = .int v.value ∧
          s.Within x b.nextInst b.nextInst b'.nextInst s' := by
  have hgives : b.Gives v value b' := Run.of_ok (e.lower_gives hfold ⟨i, k, hat⟩) hlower
  obtain ⟨j, l, hat'⟩ := hgives.selected
  refine ⟨hgives.type_eq, j, l, hat', ?_⟩
  intro final hfinal x s halloc
  obtain ⟨s', hruns, hwithin, hvalue⟩ := hgives.code.runs hfinal hat hat' halloc trivial
  exact ⟨s', hruns, hvalue, hwithin⟩

end

/-- The expression `!('\xff' && ('\x00' && n))`. -/
def Expr.guarded : Expr :=
  .unary 0 .not default (.binary 1 .and default (.literal 2 (.char 255) default)
    (.binary 3 .and default (.literal 4 (.char 0) default) (.name 5 ⟨0, "n", default⟩)))

/-- The name `n` stands for a local variable of type `char`. -/
def Analysis.oneLocal : Analysis where
  resolution :=
    { scopes := {}, root := 0, file := 0
      idents := {(0, .var 3 "n" default (.named 0 ⟨1, "char", default⟩) none)} }
  types := { decls := {(3, .basic .char)} }

/-- A function in which only the variable has been declared. -/
def Ir.Builder.oneLocal : Ir.Builder :=
  (((Ir.Builder.new "f" .i32 []).withBlock "entry").withCurrent (some 0)).withLocal 3 "n" .i8

/-- Both operands of the first `&&` are evaluated, `n` is not read. -/
theorem Expr.lower_fold_guarded :
    ∃ value b', Expr.guarded.lower Analysis.oneLocal .oneLocal = .ok (value, b') ∧ value.type = .i32 ∧
      ∃ j l, b'.At j l ∧ (j, b'.blocks.length) = (2, 5) ∧ ∃ s',
        b'.toFunction.Runs ⟨0, [], fun _ _ _ _ _ _ => False⟩ (b'.position 0 0)
          (Ir.State.withSlots ⟨fun _ => .none, fun _ => [0]⟩ ⟨0, [], fun _ _ _ _ _ _ => False⟩
            b'.slots) (b'.position j l) s' ∧
        value.eval ⟨0, [], fun _ _ _ _ _ _ => False⟩ s'.results = .int 1 := by
  obtain ⟨⟨value, b'⟩, hlower, htest⟩ : ∃ out, Expr.guarded.lower Analysis.oneLocal .oneLocal = .ok out ∧
      decide (out.2.current = some 2 ∧ out.2.blocks.length = 5 ∧ ∀ slot ∈ out.2.slots,
        slot.operation = .alloca .i8) :=
    Except.exists_of_any (by decide +kernel)
  obtain ⟨hcurrent, hlength, hslots⟩ := of_decide_eq_true htest
  have halloc : (Ir.State.withSlots ⟨fun _ => .none, fun _ => [0]⟩
      ⟨0, [], fun _ _ _ _ _ _ => False⟩ b'.slots).Allocates
      ⟨0, [], fun _ _ _ _ _ _ => False⟩ 0 b'.slots := by
    refine Ir.State.withSlots_allocates fun slot hslot type htype => ?_
    obtain rfl : type = .i8 := by simpa [hslots slot hslot] using htype.symm
    rfl
  obtain ⟨htype, j, l, hat, hruns⟩ := Expr.lower_fold (v := .truth .int true) rfl
    (i := 0) (k := 0) ⟨rfl, _, rfl, rfl⟩ hlower
  obtain ⟨s', hsteps, hvalue, _⟩ := hruns b' (.refl b') _ _
    (halloc.mono (Nat.zero_le _) (List.Subset.refl _))
  have hj : j = 2 := Option.some.inj (hat.1.symm.trans hcurrent)
  exact ⟨value, b', hlower, htype, j, l, hat, by rw [hj, hlength], s', hsteps, hvalue⟩

end MicroC
