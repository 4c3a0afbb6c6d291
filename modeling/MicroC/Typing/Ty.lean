import MicroC.Syntax.Basic

/-!
Types of declarations and expressions. There is no conversion between types: two
values can meet only if their types are compatible, which ignores the lengths of
arrays and never holds of functions.
-/

namespace MicroC

/-- An array without a length is a parameter that takes arrays of any length. -/
inductive Ty where
  | basic (kind : BasicKind)
  | array (elem : Ty) (len : Option Nat)
  | func (result : Ty) (params : List Ty)
deriving Repr, Inhabited

namespace Ty

abbrev char : Ty := .basic .char
abbrev int : Ty := .basic .int
abbrev void : Ty := .basic .void

mutual

def decEq : (s t : Ty) → Decidable (s = t)
  | basic k, basic l => if h : k = l then isTrue (h ▸ rfl) else isFalse (by simp [h])
  | array e m, array f n =>
    match decEq e f with
    | isTrue h => if hn : m = n then isTrue (by rw [h, hn]) else isFalse (by simp [hn])
    | isFalse h => isFalse (by simp [h])
  | func r ps, func q qs =>
    match decEq r q, decEqAll ps qs with
    | isTrue h, isTrue hs => isTrue (by rw [h, hs])
    | isFalse h, _ => isFalse (by simp [h])
    | _, isFalse hs => isFalse (by simp [hs])
  | basic _, array .. | basic _, func .. | array .., basic _ | array .., func ..
  | func .., basic _ | func .., array .. => isFalse (by simp)

def decEqAll : (ss ts : List Ty) → Decidable (ss = ts)
  | [], [] => isTrue rfl
  | s :: ss, t :: ts =>
    match decEq s t, decEqAll ss ts with
    | isTrue h, isTrue hs => isTrue (by rw [h, hs])
    | isFalse h, _ => isFalse (by simp [h])
    | _, isFalse hs => isFalse (by simp [hs])
  | [], _ :: _ | _ :: _, [] => isFalse (by simp)

end

instance : DecidableEq Ty := decEq

mutual

def text : Ty → String
  | basic kind => kind.text
  | array elem (some len) => elem.text ++ "[" ++ toString len ++ "]"
  | array elem none => elem.text ++ "[]"
  | func result [] => result.text ++ "(void)"
  | func result (param :: params) => result.text ++ "(" ++ param.text ++ textRest params ++ ")"

/-- The parameters after the first. -/
def textRest : List Ty → String
  | [] => ""
  | param :: params => ", " ++ param.text ++ textRest params

end

def isScalar : Ty → Bool
  | basic .char | basic .int => true
  | _ => false

def isVoid : Ty → Bool
  | basic .void => true
  | _ => false

def element? : Ty → Option Ty
  | array elem _ => some elem
  | _ => none

/-- Whether values of the two types can meet in an operation. -/
def compatible : Ty → Ty → Bool
  | basic k, basic l => k == l
  | array e _, array f _ => e.compatible f
  | _, _ => false

/-- Whether two declarations of one name agree. Results have to agree and parameters to be
compatible; two arrays disagree on their length only if both have one. -/
def sameDecl : Ty → Ty → Bool
  | func r ps, func q qs =>
    r.sameDecl q && ps.length == qs.length && (ps.zip qs).all fun pair => pair.1.compatible pair.2
  | array e m, array f n => e.sameDecl f && (m.isNone || n.isNone || m == n)
  | s, t => s.compatible t

/-- Whether a variable of the type has a size: it is a scalar or an array of known length. -/
def isComplete : Ty → Bool
  | array elem len => len.isSome && elem.isScalar
  | t => t.isScalar

/-- Whether a parameter can have the type. -/
def isParam : Ty → Bool
  | array elem _ => elem.isScalar
  | t => t.isScalar

end Ty

end MicroC
