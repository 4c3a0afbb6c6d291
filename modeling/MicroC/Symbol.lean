/-!
Symbol numbers. A table numbers the distinct names it is given in the order of
their first appearance; a name keeps its number for good.
-/

namespace MicroC

structure SymbolTable where
  names : List String := []
deriving DecidableEq, Repr, Inhabited

namespace SymbolTable

def size (t : SymbolTable) : Nat := t.names.length

/-- The number of a name the table already holds. -/
def get? (t : SymbolTable) (name : String) : Option Nat := t.names.idxOf? name

/-- The name that has a number. -/
def name? (t : SymbolTable) (symbol : Nat) : Option String := t.names[symbol]?

/-- The number of a name, which is entered at the end of the table if it is new. -/
def intern (t : SymbolTable) (name : String) : Nat × SymbolTable :=
  match t.get? name with
  | some symbol => (symbol, t)
  | none => (t.size, { names := t.names ++ [name] })

def text (t : SymbolTable) : String := s!"Interner \x7b len: {t.size} \x7d"

end SymbolTable

end MicroC
