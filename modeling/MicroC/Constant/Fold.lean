import MicroC.Constant.Scalar

/-!
Values of constant expressions. Literals, parentheses and the operators other than
`=` are constant; arithmetic is exact and must stay in the range of its operands'
type. The right operand of `&&` counts only if the left one is not zero.
-/

namespace MicroC

inductive ConstError where
  | notConstant (span : Span)
  | divisionByZero (span : Span)
  | overflow (type : String) (span : Span)
  | mixedOperands (span : Span)
deriving DecidableEq, Repr

namespace ConstError

def message : ConstError → String
  | notConstant _ => "initializer is not a constant expression"
  | divisionByZero _ => "division by zero in constant expression"
  | overflow type _ => s!"constant expression overflows `{type}`"
  | mixedOperands _ => "operands of constant expression have different types"

def span : ConstError → Span
  | notConstant span | divisionByZero span | overflow _ span | mixedOperands span => span

end ConstError

/-- The value of a type, or the report that it overflows there. -/
def Scalar.fit (kind : Scalar) (value : Int) (span : Span) : Except ConstError ScalarValue :=
  match ScalarValue.ofInt? kind value with
  | some v => .ok v
  | none => .error (.overflow kind.text span)

/-- A binary operator on two values of one type; quotients are rounded toward zero. -/
def BinaryOp.fold (op : BinaryOp) (kind : Scalar) (x y : Int) (span : Span) :
    Except ConstError ScalarValue :=
  match op with
  | .add => kind.fit (x + y) span
  | .sub => kind.fit (x - y) span
  | .mul => kind.fit (x * y) span
  | .div => if y = 0 then .error (.divisionByZero span) else kind.fit (x.tdiv y) span
  | .lt => .ok (.truth kind (x < y))
  | .gt => .ok (.truth kind (x > y))
  | .le => .ok (.truth kind (x ≤ y))
  | .ge => .ok (.truth kind (x ≥ y))
  | .eq => .ok (.truth kind (x = y))
  | .ne => .ok (.truth kind (x ≠ y))
  | .and => .ok (.truth kind (x ≠ 0 ∧ y ≠ 0))
  | .assign => .error (.notConstant span)

/-- The value of a constant expression. -/
def Expr.fold : Expr → Except ConstError ScalarValue
  | .literal _ (.int value) span => Scalar.fit .int value span
  | .literal _ (.char byte) _ => .ok (.ofByte byte)
  | .paren _ _ inner _ => inner.fold
  | .unary _ .neg opSpan operand => do
    let v ← operand.fold
    v.kind.fit (-v.value) opSpan
  | .unary _ .not _ operand => do
    let v ← operand.fold
    return .truth .int (!v.isTrue)
  | e@(.binary _ op opSpan lhs rhs) =>
    if op = .assign then .error (.notConstant e.span)
    else do
      let left ← lhs.fold
      if op = .and ∧ !left.isTrue then
        return .truth left.kind false
      else
        let right ← rhs.fold
        if left.kind ≠ right.kind then throw (.mixedOperands opSpan)
        else op.fold left.kind left.value right.value opSpan
  | e@(.call ..) | e@(.name ..) | e@(.index ..) => .error (.notConstant e.span)

end MicroC
