import MicroC.Syntax.Basic

/-!
Values of the two scalar types. An `int` has 32 bits and a `char` has 8, both signed;
a scalar value carries the proof that it lies in the range of its type.
-/

namespace MicroC

inductive Scalar where
  | char | int
deriving DecidableEq, Repr, Inhabited

namespace Scalar

def basicKind : Scalar → BasicKind
  | .char => .char
  | .int => .int

def text (kind : Scalar) : String := kind.basicKind.text

def least : Scalar → Int
  | .char => -128
  | .int => -2147483648

def greatest : Scalar → Int
  | .char => 127
  | .int => 2147483647

def Fits (kind : Scalar) (value : Int) : Prop := kind.least ≤ value ∧ value ≤ kind.greatest

instance (kind : Scalar) (value : Int) : Decidable (kind.Fits value) :=
  inferInstanceAs (Decidable (_ ∧ _))

end Scalar

structure ScalarValue where
  kind : Scalar
  value : Int
  fits : kind.Fits value
deriving DecidableEq, Repr

namespace ScalarValue

def ofInt? (kind : Scalar) (value : Int) : Option ScalarValue :=
  if h : kind.Fits value then some ⟨kind, value, h⟩ else none

/-- The `char` whose eight bits are those of a byte. -/
def ofByte (byte : UInt8) : ScalarValue where
  kind := .char
  value := (byte.toNat : Int).bmod 256
  fits := by
    have hlo := Int.le_bmod (x := (byte.toNat : Int)) (m := 256) (by decide)
    have hhi := Int.bmod_lt (x := (byte.toNat : Int)) (m := 256) (by decide)
    simp only [Scalar.Fits, Scalar.least, Scalar.greatest]
    omega

/-- Truth values are 1 and 0, in either type. -/
def truth (kind : Scalar) (holds : Bool) : ScalarValue where
  kind := kind
  value := if holds then 1 else 0
  fits := by cases kind <;> cases holds <;> decide

def isTrue (v : ScalarValue) : Bool := v.value != 0

theorem ofInt?_eq_some_iff {kind : Scalar} {value : Int} {v : ScalarValue} :
    ofInt? kind value = some v ↔ v.kind = kind ∧ v.value = value := by
  obtain ⟨k, x, hx⟩ := v
  unfold ofInt?
  split
  case isTrue h => simp [eq_comm]
  case isFalse h =>
    simp only [reduceCtorEq, false_iff, not_and]
    rintro rfl rfl
    exact h hx

end ScalarValue

end MicroC
