import MicroC.Ir.Builder

/-!
Functions assembled in place. The stack slots stand at the head of the entry block among its other
instructions; how many there are is counted, and this is where the next one is inserted. All else
is as for a function whose slots are collected apart. Blocks, instructions and repeated names are
numbered from 0 on, and a call raises each number by at most one: below 2^32 calls all of them fit
into 32 bits.
-/

namespace MicroC.Ir

structure Assembly where
  name : String
  result : Ty
  params : List Param
  /-- The blocks, with the stack slots in the first one. -/
  blocks : List Block := []
  /-- The value that stands for each declaration. -/
  bindings : Std.TreeMap DeclId Value := ∅
  /-- The selected block. -/
  current : Option BlockId := none
  nextInst : InstId := 0
  /-- The number of stack slots at the head of the entry block. -/
  entrySlots : Nat := 0
  /-- How often each name was asked for. -/
  names : Std.TreeMap String Nat := ∅

namespace Assembly

/-- A result or an error, and the new state. -/
abbrev Outcome (α : Type) := Except BuildError α × Assembly

/-- A function without a body. Its parameters use up their names. -/
def new (name : String) (result : Ty) (params : List Param) : Assembly where
  name := name
  result := result
  params := params
  names := params.foldl (fun names p => names.insert p.name 1) ∅

/-- The function built so far. -/
def toFunction (f : Assembly) : Function where
  name := f.name
  result := f.result
  params := f.params
  blocks := f.blocks

def param? (f : Assembly) (index : Nat) : Option Value :=
  f.params[index]?.map fun p => .param index p.type

/-- A name made from `base`; from the second time on a counter is appended. -/
def uniqueName (f : Assembly) (base : String) : String × Assembly :=
  let count := f.names.getD base 0
  let name := if count = 0 then base else base ++ "." ++ toString count
  (name, { f with names := f.names.insert base (count + 1) })

/-- Appends a block, which is not selected. -/
def newBlock (f : Assembly) (label : String) : BlockId × Assembly :=
  let id := f.blocks.length
  let (label, f) := f.uniqueName label
  (id, { f with blocks := f.blocks ++ [{ id, label }] })

/-- Makes and selects the entry block. -/
def startBody (f : Assembly) : Outcome BlockId :=
  if f.blocks.isEmpty then
    let (entry, f) := f.newBlock "entry"
    (.ok entry, { f with current := some entry })
  else (.error (.bodyAlreadyStarted f.name), f)

def block (f : Assembly) (id : BlockId) : Except BuildError Block :=
  match f.blocks[id]? with
  | some block => .ok block
  | none => .error (.unknownBlock f.name id)

/-- Selects a block that has no terminator. -/
def selectBlock (f : Assembly) (id : BlockId) : Outcome Unit :=
  match f.block id with
  | .error e => (.error e, f)
  | .ok block =>
    if block.terminator.isSome then (.error (.terminatorAlreadySet f.name block.label), f)
    else (.ok (), { f with current := some id })

def bind (f : Assembly) (decl : DeclId) (value : Value) : Assembly :=
  { f with bindings := f.bindings.insert decl value }

def binding? (f : Assembly) (decl : DeclId) : Option Value := f.bindings[decl]?

/-- Appends an instruction to the selected block, if there is one with that number. -/
def append (f : Assembly) (operation : Operation) (type : Ty) (name : Option String) :
    Outcome Value :=
  match f.current.filter (· < f.blocks.length) with
  | none => (.error (.noCurrentBlock f.name), f)
  | some id =>
    let inst := { id := f.nextInst, operation, type, name }
    (.ok (.inst f.nextInst type),
      { f with
        blocks := f.blocks.modify id fun block => { block with insts := block.insts ++ [inst] }
        nextInst := f.nextInst + 1 })

def emit (f : Assembly) (operation : Operation) (type : Ty) : Outcome Value :=
  f.append operation type none

/-- Appends a named instruction and binds a declaration to its result. The name is used up
even if no block is selected. -/
def emitNamed (f : Assembly) (decl : DeclId) (name : String) (operation : Operation) (type : Ty) :
    Outcome Value :=
  let (name, f) := f.uniqueName name
  match f.append operation type (some name) with
  | (.ok value, f) => (.ok value, f.bind decl value)
  | failure => failure

/-- Inserts a stack slot into the entry block, behind those that are there. -/
def insertSlot (f : Assembly) (type : Ty) (name : Option String) : Value × Assembly :=
  let inst := { id := f.nextInst, operation := .alloca type, type := .ptr type, name }
  (.inst f.nextInst (.ptr type),
    { f with
      blocks := f.blocks.modify 0 fun entry =>
        { entry with insts := entry.insts.insertIdx f.entrySlots inst }
      entrySlots := f.entrySlots + 1
      nextInst := f.nextInst + 1 })

/-- Makes a stack slot; with a declaration it is named and bound to it. -/
def emitAlloca (f : Assembly) (binding : Option (DeclId × String)) (type : Ty) : Outcome Value :=
  if f.blocks.isEmpty then (.error (.noCurrentBlock f.name), f)
  else
    match binding with
    | none =>
      let (slot, f) := f.insertSlot type none
      (.ok slot, f)
    | some (decl, name) =>
      let (name, f) := f.uniqueName name
      let (slot, f) := f.insertSlot type (some name)
      (.ok slot, f.bind decl slot)

/-- Ends a block that has no terminator. -/
def setTerminator (f : Assembly) (id : BlockId) (terminator : Terminator) : Outcome Unit :=
  match f.block id with
  | .error e => (.error e, f)
  | .ok block =>
    if block.terminator.isSome then (.error (.terminatorAlreadySet f.name block.label), f)
    else
      (.ok (), { f with
        blocks := f.blocks.modify id fun block => { block with terminator := some terminator } })

/-- Closes the cursor. -/
def close (f : Assembly) : Assembly := { f with current := none }

/-- Ends the selected block and closes the cursor. -/
def terminate (f : Assembly) (terminator : Terminator) : Outcome Unit :=
  match f.current with
  | none => (.error (.noCurrentBlock f.name), f)
  | some id =>
    match f.setTerminator id terminator with
    | (.ok (), f) => (.ok (), f.close)
    | failure => failure

/-- Succeeds if every block has a terminator. -/
def checkTerminated (f : Assembly) : Outcome Unit :=
  match f.blocks.find? (·.terminator.isNone) with
  | some block => (.error (.unterminatedBlock f.name block.label), f)
  | none => (.ok (), f)

/-- Completes the body. If a block is still selected, a function without result returns there;
the cursor is closed in any case. -/
def endBody (f : Assembly) : Outcome Unit :=
  match f.current with
  | none => f.checkTerminated
  | some id =>
    let f := f.close
    if f.result = .void then
      match f.setTerminator id (.ret none) with
      | (.ok (), f) => f.checkTerminated
      | failure => failure
    else
      match f.block id with
      | .ok block => (.error (.missingTerminator f.name block.label f.result.text), f)
      | .error e => (.error e, f)

end Assembly

end MicroC.Ir
