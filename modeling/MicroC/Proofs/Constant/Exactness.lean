import MicroC.Constant.Fold

/-!
Constant expressions over the integers. The number of an expression is computed without any
bounds; beside it stand the expressions that are evaluated on the way, operands first, and what
can be wrong with each of them. Folding gives the number if nothing is wrong, and otherwise
reports the first obstacle.
-/

namespace MicroC

/-! Numbers without bounds. -/

/-- The number of a literal; the upper half of the bytes is negative. -/
def Literal.number : Literal → Int
  | int value => value
  | char byte => if byte.toNat < 128 then byte.toNat else byte.toNat - 256

def Literal.kind : Literal → Scalar
  | int _ => .int
  | char _ => .char

/-- The result of an operator; quotients are rounded toward zero and truth values are 1 and 0. -/
def BinaryOp.number (op : BinaryOp) (x y : Int) : Int :=
  match op with
  | .add => x + y
  | .sub => x - y
  | .mul => x * y
  | .div => x.tdiv y
  | .lt => if x < y then 1 else 0
  | .gt => if x > y then 1 else 0
  | .le => if x ≤ y then 1 else 0
  | .ge => if x ≥ y then 1 else 0
  | .eq => if x = y then 1 else 0
  | .ne => if x ≠ y then 1 else 0
  | .and => if x ≠ 0 ∧ y ≠ 0 then 1 else 0
  | .assign => y

namespace Expr

/-- The type of a constant expression. A comparison and `&&` have that of the left operand. -/
def kind : Expr → Scalar
  | literal _ value _ => value.kind
  | paren _ _ inner _ => inner.kind
  | unary _ .neg _ operand => operand.kind
  | unary _ .not _ _ => .int
  | binary _ _ _ lhs _ => lhs.kind
  | call .. | name .. | index .. => .int

/-- The number of a constant expression. What is not constant counts as zero. -/
def number : Expr → Int
  | literal _ value _ => value.number
  | paren _ _ inner _ => inner.number
  | unary _ .neg _ operand => -operand.number
  | unary _ .not _ operand => if operand.number = 0 then 1 else 0
  | binary _ op _ lhs rhs => op.number lhs.number rhs.number
  | call .. | name .. | index .. => 0

/-- Whether an operation goes without its right operand. -/
def Skips (op : BinaryOp) (lhs : Expr) : Prop := op = .and ∧ lhs.number = 0

instance (op : BinaryOp) (lhs : Expr) : Decidable (Skips op lhs) :=
  inferInstanceAs (Decidable (_ ∧ _))

/-- The expressions that are evaluated, from left to right and operands first. Nothing inside an
assignment, a call or an element is evaluated. -/
def evaluated : Expr → List Expr
  | e@(paren _ _ inner _) => inner.evaluated ++ [e]
  | e@(unary _ _ _ operand) => operand.evaluated ++ [e]
  | e@(binary _ op _ lhs rhs) =>
    if op = .assign then [e]
    else if Skips op lhs then lhs.evaluated ++ [e]
    else lhs.evaluated ++ rhs.evaluated ++ [e]
  | e@(literal ..) | e@(call ..) | e@(name ..) | e@(index ..) => [e]

end Expr

/-- A number that is too large or too small for its type. -/
def Scalar.obstacle? (kind : Scalar) (number : Int) (span : Span) : Option ConstError :=
  if kind.Fits number then none else some (.overflow kind.text span)

/-- What is wrong with an operation on two numbers of one type. -/
def BinaryOp.obstacle? (op : BinaryOp) (kind : Scalar) (x y : Int) (span : Span) :
    Option ConstError :=
  if op = .div ∧ y = 0 then some (.divisionByZero span) else kind.obstacle? (op.number x y) span

namespace Expr

/-- What is wrong with an expression itself, if nothing is wrong with its operands. -/
def obstacle? : Expr → Option ConstError
  | literal _ value span => value.kind.obstacle? value.number span
  | paren .. | unary _ .not _ _ => none
  | unary _ .neg span operand => operand.kind.obstacle? (-operand.number) span
  | e@(binary _ op span lhs rhs) =>
    if op = .assign then some (.notConstant e.span)
    else if Skips op lhs then none
    else if lhs.kind ≠ rhs.kind then some (.mixedOperands span)
    else op.obstacle? lhs.kind lhs.number rhs.number span
  | e@(call ..) | e@(name ..) | e@(index ..) => some (.notConstant e.span)

/-- The first thing that is wrong with an expression. -/
def firstObstacle? (e : Expr) : Option ConstError := e.evaluated.findSome? obstacle?

end Expr

/-! What an evaluation comes to. -/

/-- A value is computed if there is no obstacle, and the obstacle is reported otherwise. -/
inductive Comes (kind : Scalar) (number : Int) :
    Option ConstError → Except ConstError ScalarValue → Prop
  | value {v : ScalarValue} : v.kind = kind → v.value = number → Comes kind number none (.ok v)
  | report (error : ConstError) : Comes kind number (some error) (.error error)

namespace Comes

variable {kind kind' : Scalar} {number number' : Int} {first : Option ConstError}
  {x : Except ConstError ScalarValue}

/-- A step after an evaluation; obstacles of the evaluation come before those of the step. -/
theorem bind {next : Option ConstError} {f : ScalarValue → Except ConstError ScalarValue}
    (h : Comes kind number first x)
    (hf : ∀ v : ScalarValue, v.kind = kind → v.value = number → Comes kind' number' next (f v)) :
    Comes kind' number' (first.or next) (x >>= f) := by
  cases h with
  | value hkind hvalue => exact hf _ hkind hvalue
  | report error => exact .report error

theorem ok_iff (h : Comes kind number first x) : (∃ v, x = .ok v) ↔ first = none := by
  cases h <;> simp

theorem error_iff (h : Comes kind number first x) {error : ConstError} :
    x = .error error ↔ first = some error := by
  cases h <;> simp

theorem of_ok (h : Comes kind number first x) {v : ScalarValue} (hv : x = .ok v) :
    v.kind = kind ∧ v.value = number := by
  cases h with
  | value hkind hvalue =>
    cases hv
    exact ⟨hkind, hvalue⟩
  | report error => cases hv

end Comes

theorem Scalar.fit_comes (kind : Scalar) (number : Int) (span : Span) :
    Comes kind number (kind.obstacle? number span) (kind.fit number span) := by
  unfold Scalar.obstacle? Scalar.fit ScalarValue.ofInt?
  by_cases hfits : kind.Fits number
  · simp only [hfits, if_true, dif_pos]
    exact .value rfl rfl
  · simp only [hfits, if_false, dif_neg, not_false_eq_true]
    exact .report _

theorem Scalar.fits_truth (kind : Scalar) (p : Prop) [Decidable p] :
    kind.Fits (if p then 1 else 0) := by
  by_cases hp : p <;> cases kind <;> simp [hp, Scalar.Fits, Scalar.least, Scalar.greatest]

/-- A truth value fits both types. -/
theorem ScalarValue.truth_comes (kind : Scalar) (p : Prop) [Decidable p] (span : Span) :
    Comes kind (if p then 1 else 0) (kind.obstacle? (if p then 1 else 0) span)
      (.ok (.truth kind (decide p))) := by
  rw [Scalar.obstacle?, if_pos (kind.fits_truth p)]
  refine .value rfl ?_
  by_cases hp : p <;> simp [truth, hp]

theorem BinaryOp.fold_comes {op : BinaryOp} (hop : op ≠ .assign) (kind : Scalar) (x y : Int)
    (span : Span) :
    Comes kind (op.number x y) (op.obstacle? kind x y span) (op.fold kind x y span) := by
  cases op with
  | assign => exact absurd rfl hop
  | add | sub | mul => exact kind.fit_comes _ span
  | lt | gt | le | ge | eq | ne | and => exact ScalarValue.truth_comes kind _ span
  | div =>
    by_cases hy : y = 0
    · simp only [BinaryOp.obstacle?, BinaryOp.fold, hy, and_self, if_true]
      exact .report _
    · simp only [BinaryOp.obstacle?, BinaryOp.fold, hy, and_false, if_false]
      exact kind.fit_comes _ span

theorem ScalarValue.ofByte_value (byte : UInt8) :
    (ofByte byte).value = (Literal.char byte).number := by
  have hlt : byte.toNat < 256 := byte.toNat_lt
  simp only [ofByte, Literal.number, Int.bmod]
  by_cases hbyte : byte.toNat < 128
  · rw [if_pos hbyte, if_pos (by omega)]
    omega
  · rw [if_neg hbyte, if_neg (by omega)]
    omega

theorem Literal.char_fits (byte : UInt8) : Scalar.char.Fits (Literal.char byte).number :=
  ScalarValue.ofByte_value byte ▸ (ScalarValue.ofByte byte).fits

namespace Expr

/-! The obstacles of an expression are those of its operands, then its own. -/

theorem firstObstacle?_paren (id : ExprId) (lparen rparen : Span) (inner : Expr) :
    (paren id lparen inner rparen).firstObstacle? = inner.firstObstacle?.or none := by
  simp [firstObstacle?, evaluated, List.findSome?_append, obstacle?]

theorem firstObstacle?_unary (id : ExprId) (op : UnaryOp) (span : Span) (operand : Expr) :
    (unary id op span operand).firstObstacle? =
      operand.firstObstacle?.or (unary id op span operand).obstacle? := by
  rw [firstObstacle?, evaluated, List.findSome?_append, List.findSome?_singleton]
  rfl

theorem firstObstacle?_binary (id : ExprId) {op : BinaryOp} (hop : op ≠ .assign) (span : Span)
    (lhs rhs : Expr) :
    (binary id op span lhs rhs).firstObstacle? =
      lhs.firstObstacle?.or (if Skips op lhs then none
        else rhs.firstObstacle?.or (if lhs.kind ≠ rhs.kind then some (.mixedOperands span)
          else op.obstacle? lhs.kind lhs.number rhs.number span)) := by
  rw [firstObstacle?, evaluated, if_neg hop]
  by_cases hskips : Skips op lhs
  · rw [if_pos hskips, if_pos hskips, List.findSome?_append, List.findSome?_singleton, obstacle?,
      if_neg hop, if_pos hskips]
    rfl
  · rw [if_neg hskips, if_neg hskips, List.findSome?_append, List.findSome?_append,
      List.findSome?_singleton, obstacle?, if_neg hop, if_neg hskips, Option.or_assoc]
    rfl

/-- An operation other than an assignment. -/
theorem fold_binary_comes (id : ExprId) {op : BinaryOp} (hop : op ≠ .assign) (span : Span)
    {lhs rhs : Expr} (hlhs : Comes lhs.kind lhs.number lhs.firstObstacle? lhs.fold)
    (hrhs : Comes rhs.kind rhs.number rhs.firstObstacle? rhs.fold) :
    Comes lhs.kind (op.number lhs.number rhs.number) (binary id op span lhs rhs).firstObstacle?
      (binary id op span lhs rhs).fold := by
  rw [firstObstacle?_binary id hop, fold, if_neg hop]
  refine hlhs.bind ?_
  intro left hleft hvalue
  have hskips : (op = .and ∧ (!left.isTrue) = true) ↔ Skips op lhs := by
    simp [Skips, ScalarValue.isTrue, hvalue]
  by_cases hskip : Skips op lhs
  · rw [if_pos hskip, if_pos (hskips.mpr hskip)]
    refine .value hleft ?_
    simp [ScalarValue.truth, BinaryOp.number, hskip.1, hskip.2]
  · rw [if_neg hskip, if_neg (mt hskips.mp hskip)]
    refine hrhs.bind ?_
    intro right hright hvalue'
    rw [hleft, hright, hvalue, hvalue']
    by_cases hkinds : lhs.kind = rhs.kind
    · rw [if_neg (not_not_intro hkinds), if_neg (not_not_intro hkinds)]
      exact BinaryOp.fold_comes hop lhs.kind lhs.number rhs.number span
    · rw [if_pos hkinds, if_pos hkinds]
      exact .report _

/-- Folding computes the number of an expression or reports its first obstacle. -/
theorem fold_comes : (e : Expr) → Comes e.kind e.number e.firstObstacle? e.fold
  | literal _ (.int value) span => by
    rw [firstObstacle?, evaluated, List.findSome?_singleton]
    exact Scalar.int.fit_comes value span
  | literal _ (.char byte) span => by
    rw [firstObstacle?, evaluated, List.findSome?_singleton, obstacle?, Literal.kind,
      Scalar.obstacle?, if_pos (Literal.char_fits byte)]
    exact .value rfl (ScalarValue.ofByte_value byte)
  | paren id lparen inner rparen => by
    rw [firstObstacle?_paren, Option.or_none]
    exact inner.fold_comes
  | unary id .neg span operand => by
    rw [firstObstacle?_unary]
    refine operand.fold_comes.bind ?_
    intro v hkind hvalue
    rw [hkind, hvalue]
    exact Scalar.fit_comes _ _ span
  | unary id .not span operand => by
    rw [firstObstacle?_unary]
    refine operand.fold_comes.bind ?_
    intro v _ hvalue
    refine .value rfl ?_
    by_cases hzero : operand.number = 0 <;>
      simp [ScalarValue.truth, ScalarValue.isTrue, number, hvalue, hzero]
  | binary id op span lhs rhs => by
    by_cases hop : op = .assign
    · subst hop
      exact .report _
    · exact fold_binary_comes id hop span lhs.fold_comes rhs.fold_comes
  | call .. | name .. | index .. => .report _

end Expr

/-! Machine words. -/

/-- The arithmetic operators on 64-bit words. -/
def BinaryOp.onWords : BinaryOp → Int64 → Int64 → Option Int64
  | .add, x, y => some (x + y)
  | .sub, x, y => some (x - y)
  | .mul, x, y => some (x * y)
  | .div, x, y => some (x / y)
  | _, _, _ => none

theorem ScalarValue.natAbs_le (v : ScalarValue) : v.value.natAbs ≤ 2147483648 := by
  have hfits := v.fits
  cases hkind : v.kind <;>
    simp only [hkind, Scalar.Fits, Scalar.least, Scalar.greatest] at hfits <;> omega

/-- What an operator computes from two values is far from the ends of 64-bit words. -/
theorem BinaryOp.natAbs_number_le (op : BinaryOp) (x y : ScalarValue) :
    (op.number x.value y.value).natAbs ≤ 4611686018427387904 := by
  have hx := x.natAbs_le
  have hy := y.natAbs_le
  cases op with
  | add | sub | assign =>
    simp only [number]
    omega
  | mul =>
    rw [number, Int.natAbs_mul]
    calc x.value.natAbs * y.value.natAbs
        ≤ 2147483648 * 2147483648 := Nat.mul_le_mul hx hy
      _ = 4611686018427387904 := rfl
  | div =>
    have hle : (x.value.tdiv y.value).natAbs ≤ x.value.natAbs := Int.natAbs_tdiv_le_natAbs _ _
    rw [number]
    omega
  | lt | gt | le | ge | eq | ne | and =>
    simp only [number]
    split <;> decide

theorem ScalarValue.toInt_word (v : ScalarValue) : (Int64.ofInt v.value).toInt = v.value := by
  have hv := v.natAbs_le
  exact Int64.toInt_ofInt_of_le (by omega) (by omega)

/-- Words of 64 bits hold what an operator computes from two values. -/
theorem BinaryOp.onWords_exact {op : BinaryOp} (x y : ScalarValue) {word : Int64}
    (h : op.onWords (.ofInt x.value) (.ofInt y.value) = some word) :
    word.toInt = op.number x.value y.value := by
  -- modulo the word size the two agree, and the result is too small to be reduced
  have hword : word.toInt = (op.number x.value y.value).bmod (2 ^ 64) := by
    cases op with
    | add | sub | mul | div =>
      obtain rfl : _ = word := Option.some.inj h
      simp only [Int64.toInt_add, Int64.toInt_sub, Int64.toInt_mul, Int64.toInt_div, x.toInt_word,
        y.toInt_word, number]
    | lt | gt | le | ge | eq | ne | and | assign => simp [onWords] at h
  have hbound := op.natAbs_number_le x y
  rw [hword]
  exact Int.bmod_eq_of_le (by omega) (by omega)

/-- An expression has a constant value exactly if there is no obstacle in what is evaluated of it,
and the value is then its number in its type; otherwise the first obstacle is reported. Each
operation on the way comes out the same in 64-bit words. -/
theorem Expr.fold_exact (e : Expr) :
    ((∃ v, e.fold = .ok v) ↔ ∀ inner ∈ e.evaluated, inner.obstacle? = none) ∧
    (∀ v, e.fold = .ok v → v.kind = e.kind ∧ v.value = e.number) ∧
    (∀ error, e.fold = .error error ↔ e.evaluated.findSome? obstacle? = some error) ∧
    ∀ id op span lhs rhs, binary id op span lhs rhs ∈ e.evaluated →
      ∀ left right, lhs.fold = .ok left → rhs.fold = .ok right →
        ∀ word, op.onWords (.ofInt left.value) (.ofInt right.value) = some word →
          word.toInt = op.number left.value right.value := by
  refine ⟨?_, ?_, ?_, ?_⟩
  · rw [← List.findSome?_eq_none_iff]
    exact e.fold_comes.ok_iff
  · intro v hv
    exact e.fold_comes.of_ok hv
  · intro error
    exact e.fold_comes.error_iff
  · intro id op span lhs rhs _ left right _ _ word hword
    exact BinaryOp.onWords_exact left right hword

end MicroC
