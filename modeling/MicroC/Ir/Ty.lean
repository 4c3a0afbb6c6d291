/-!
Machine types: the two integer widths, arrays, pointers, functions and the type of
no value.
-/

namespace MicroC.Ir

inductive Ty where
  | void | i8 | i32
  | array (elem : Ty) (len : Nat)
  | ptr (pointee : Ty)
  | func (result : Ty) (params : List Ty)
deriving Repr, Inhabited

namespace Ty

mutual

def decEq : (s t : Ty) → Decidable (s = t)
  | void, void | i8, i8 | i32, i32 => isTrue rfl
  | array e m, array f n =>
    match decEq e f with
    | isTrue h => if hn : m = n then isTrue (by rw [h, hn]) else isFalse (by simp [hn])
    | isFalse h => isFalse (by simp [h])
  | ptr s, ptr t =>
    match decEq s t with
    | isTrue h => isTrue (by rw [h])
    | isFalse h => isFalse (by simp [h])
  | func r ps, func q qs =>
    match decEq r q, decEqAll ps qs with
    | isTrue h, isTrue hs => isTrue (by rw [h, hs])
    | isFalse h, _ => isFalse (by simp [h])
    | _, isFalse hs => isFalse (by simp [hs])
  | void, i8 | void, i32 | void, array .. | void, ptr _ | void, func ..
  | i8, void | i8, i32 | i8, array .. | i8, ptr _ | i8, func ..
  | i32, void | i32, i8 | i32, array .. | i32, ptr _ | i32, func ..
  | array .., void | array .., i8 | array .., i32 | array .., ptr _ | array .., func ..
  | ptr _, void | ptr _, i8 | ptr _, i32 | ptr _, array .. | ptr _, func ..
  | func .., void | func .., i8 | func .., i32 | func .., array .. | func .., ptr _ =>
    isFalse (by simp)

def decEqAll : (ss ts : List Ty) → Decidable (ss = ts)
  | [], [] => isTrue rfl
  | s :: ss, t :: ts =>
    match decEq s t, decEqAll ss ts with
    | isTrue h, isTrue hs => isTrue (by rw [h, hs])
    | isFalse h, _ => isFalse (by simp [h])
    | _, isFalse hs => isFalse (by simp [hs])
  | [], _ :: _ | _ :: _, [] => isFalse (by simp)

end

instance : DecidableEq Ty := decEq

mutual

def text : Ty → String
  | void => "void"
  | i8 => "i8"
  | i32 => "i32"
  | array elem len => "[" ++ toString len ++ " x " ++ elem.text ++ "]"
  | ptr pointee => pointee.text ++ "*"
  | func result [] => result.text ++ " ()"
  | func result (param :: params) => result.text ++ " (" ++ param.text ++ textRest params ++ ")"

/-- The parameters after the first. -/
def textRest : List Ty → String
  | [] => ""
  | param :: params => ", " ++ param.text ++ textRest params

end

def pointee? : Ty → Option Ty
  | ptr pointee => some pointee
  | _ => none

def isInteger : Ty → Bool
  | i8 | i32 => true
  | _ => false

end Ty

end MicroC.Ir
