import MicroC.Syntax.Basic

/-!
Statements that always return. A loop is never assumed to run, so it does not
count even if its body returns.
-/

namespace MicroC

mutual

/-- Whether every path through a statement ends in a `return`. -/
def Stmt.alwaysReturns : Stmt → Bool
  | .ret .. => true
  | .block _ _ items _ => Item.anyReturns items
  | .branch _ _ _ onTrue (some onFalse) => onTrue.alwaysReturns && onFalse.alwaysReturns
  | .branch _ _ _ _ none | .empty .. | .expr .. | .loop .. => false

/-- Whether one of the statements in a block always returns. -/
def Item.anyReturns : List Item → Bool
  | [] => false
  | item :: rest => item.alwaysReturns || Item.anyReturns rest

def Item.alwaysReturns : Item → Bool
  | .decl _ => false
  | .stmt s => s.alwaysReturns

end

end MicroC
