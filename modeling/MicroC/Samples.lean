import MicroC.Syntax.Program

/-!
Sample programs.
-/

namespace MicroC.Samples

open Build

def assignInt (target : String) (value : Int) : Build Stmt := do
  let target ← name target
  let value ← int value
  exprStmt (← assign target value)

/-- A global variable that is written and read:
`int x; int main(void) { x = 42; return x; }`. -/
def globalStore : Program := finish do
  let intType ← namedType "int"
  push (← var intType "x" none)
  let store ← assignInt "x" 42
  let read ← name "x"
  let result ← ret (some read)
  let body ← block [.stmt store, .stmt result]
  let intType ← namedType "int"
  push (← func "main" intType [] (some body))

/-- A recursive function:
`int fact(int n) { if (n < 2) return 1; return n * fact(n - 1); }`. -/
def factorial : Program := finish do
  let intType ← namedType "int"
  let n ← param intType "n"
  let lhs ← name "n"
  let two ← int 2
  let cond ← binary .lt lhs two
  let one ← int 1
  let base ← ret (some one)
  let test ← branch cond base none
  let factor ← name "n"
  let lhs ← name "n"
  let one ← int 1
  let pred ← binary .sub lhs one
  let call ← call "fact" [pred]
  let product ← binary .mul factor call
  let result ← ret (some product)
  let body ← block [.stmt test, .stmt result]
  let intType ← namedType "int"
  push (← func "fact" intType [n] (some body))

/-- A loop over an array parameter:
`int sum(int a[], int n) { int i; int s; i = 0; s = 0; while (i < n) { s = s + a[i]; i = i + 1; }
return s; } int data[3];
int main(void) { data[0] = 4; data[1] = 5; data[2] = 6; return sum(data, 3); }`. -/
def arraySum : Program := finish do
  let intType ← namedType "int"
  let array ← arrayType intType none
  let a ← param array "a"
  let intType ← namedType "int"
  let n ← param intType "n"
  let intType ← namedType "int"
  let i ← var intType "i" none
  let intType ← namedType "int"
  let s ← var intType "s" none
  let startIndex ← assignInt "i" 0
  let startSum ← assignInt "s" 0
  let index ← name "i"
  let bound ← name "n"
  let cond ← binary .lt index bound
  let sum ← name "s"
  let position ← name "i"
  let element ← Build.index "a" position
  let total ← binary .add sum element
  let target ← name "s"
  let accumulate ← assign target total
  let accumulate ← exprStmt accumulate
  let position ← name "i"
  let one ← int 1
  let next ← binary .add position one
  let target ← name "i"
  let step ← assign target next
  let step ← exprStmt step
  let loopBody ← block [.stmt accumulate, .stmt step]
  let loop ← loop cond loopBody
  let sum ← name "s"
  let result ← ret (some sum)
  let body ← block
    [.decl i, .decl s, .stmt startIndex, .stmt startSum, .stmt loop, .stmt result]
  let intType ← namedType "int"
  push (← func "sum" intType [a, n] (some body))
  let intType ← namedType "int"
  let array ← arrayType intType (some 3)
  push (← var array "data" none)
  let stores ← [(0, 4), (1, 5), (2, 6)].mapM fun (position, value) => do
    let position ← int position
    let element ← Build.index "data" position
    let value ← int value
    exprStmt (← assign element value)
  let data ← name "data"
  let length ← int 3
  let call ← call "sum" [data, length]
  let result ← ret (some call)
  let body ← block (stores.map .stmt ++ [.stmt result])
  let intType ← namedType "int"
  push (← func "main" intType [] (some body))

/-- The samples by name. -/
def byName? : String → Option Program
  | "global_store" => some globalStore
  | "factorial" => some factorial
  | "array_sum" => some arraySum
  | _ => none

end MicroC.Samples
