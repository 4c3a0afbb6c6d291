import Std.Data.TreeMap
import MicroC.Ir.Module
import MicroC.Syntax.Basic

/-!
Functions under construction. Instructions go to the selected block; ending that
block closes the cursor, so that nothing is emitted until another block is selected.
Stack slots are collected apart and stand at the head of the entry block whatever
block is selected when they are made. An operation that fails gives its error beside
the state it leaves behind. Numbers have no upper bound here; no operation raises one by
more than one, so 32 bits are enough for up to 2^32 operations.
-/

namespace MicroC.Ir

inductive BuildError where
  | bodyAlreadyStarted (function : String)
  | noCurrentBlock (function : String)
  | terminatorAlreadySet (function label : String)
  | unknownBlock (function : String) (block : BlockId)
  | missingTerminator (function label result : String)
  | unterminatedBlock (function label : String)
deriving DecidableEq, Repr

def BuildError.message : BuildError → String
  | bodyAlreadyStarted function => s!"function `{function}` already has a body"
  | noCurrentBlock function => s!"no block is selected for emission in `{function}`"
  | terminatorAlreadySet function label =>
    s!"block `{label}` of `{function}` already has a terminator"
  | unknownBlock function block => s!"function `{function}` has no block bb{block}"
  | missingTerminator function label result =>
    s!"block `{label}` of `{function}` falls through in a function returning `{result}`"
  | unterminatedBlock function label => s!"block `{label}` of `{function}` has no terminator"

structure Builder where
  name : String
  result : Ty
  params : List Param
  /-- The stack slots, in order. -/
  slots : List Instruction := []
  /-- The blocks, without the stack slots. -/
  blocks : List Block := []
  /-- The value that stands for each declaration. -/
  bindings : Std.TreeMap DeclId Value := ∅
  /-- The selected block. -/
  current : Option BlockId := none
  nextInst : InstId := 0
  /-- How often each name was asked for. -/
  names : Std.TreeMap String Nat := ∅

/-- What an operation on a function under construction gives: a result or an error, and
the new state. -/
abbrev Outcome (α : Type) := Except BuildError α × Builder

namespace Builder

/-- A function without a body. Its parameters use up their names. -/
def new (name : String) (result : Ty) (params : List Param) : Builder where
  name := name
  result := result
  params := params
  names := params.foldl (fun names p => names.insert p.name 1) ∅

/-- The function built so far. -/
def toFunction (b : Builder) : Function where
  name := b.name
  result := b.result
  params := b.params
  blocks :=
    match b.blocks with
    | [] => []
    | entry :: rest => { entry with insts := b.slots ++ entry.insts } :: rest

def param? (b : Builder) (index : Nat) : Option Value :=
  b.params[index]?.map fun p => .param index p.type

/-- A name made from `base`; from the second time on a counter is appended. -/
def uniqueName (b : Builder) (base : String) : String × Builder :=
  let count := b.names.getD base 0
  let name := if count = 0 then base else base ++ "." ++ toString count
  (name, { b with names := b.names.insert base (count + 1) })

/-- Appends a block, which is not selected. -/
def newBlock (b : Builder) (label : String) : BlockId × Builder :=
  let id := b.blocks.length
  let (label, b) := b.uniqueName label
  (id, { b with blocks := b.blocks ++ [{ id, label }] })

/-- Makes and selects the entry block. -/
def startBody (b : Builder) : Outcome BlockId :=
  if b.blocks.isEmpty then
    let (entry, b) := b.newBlock "entry"
    (.ok entry, { b with current := some entry })
  else (.error (.bodyAlreadyStarted b.name), b)

/-- The block of a number as it stands in the function. -/
def block (b : Builder) (id : BlockId) : Except BuildError Block :=
  match b.toFunction.blocks[id]? with
  | some block => .ok block
  | none => .error (.unknownBlock b.name id)

/-- Selects a block that has no terminator. -/
def selectBlock (b : Builder) (id : BlockId) : Outcome Unit :=
  match b.blocks[id]? with
  | none => (.error (.unknownBlock b.name id), b)
  | some block =>
    if block.terminator.isSome then (.error (.terminatorAlreadySet b.name block.label), b)
    else (.ok (), { b with current := some id })

def bind (b : Builder) (decl : DeclId) (value : Value) : Builder :=
  { b with bindings := b.bindings.insert decl value }

def binding? (b : Builder) (decl : DeclId) : Option Value := b.bindings[decl]?

/-- Appends an instruction to the selected block. -/
def append (b : Builder) (operation : Operation) (type : Ty) (name : Option String) :
    Outcome Value :=
  match b.current with
  | none => (.error (.noCurrentBlock b.name), b)
  | some id =>
    let inst := { id := b.nextInst, operation, type, name }
    (.ok (.inst b.nextInst type),
      { b with
        blocks := b.blocks.modify id fun block => { block with insts := block.insts ++ [inst] }
        nextInst := b.nextInst + 1 })

def emit (b : Builder) (operation : Operation) (type : Ty) : Outcome Value :=
  b.append operation type none

/-- Appends a named instruction and binds a declaration to its result. The name is used up
even if no block is selected. -/
def emitNamed (b : Builder) (decl : DeclId) (name : String) (operation : Operation) (type : Ty) :
    Outcome Value :=
  let (name, b) := b.uniqueName name
  match b.append operation type (some name) with
  | (.ok value, b) => (.ok value, b.bind decl value)
  | failure => failure

/-- Appends a stack slot to those at the head of the entry block. -/
def addSlot (b : Builder) (type : Ty) (name : Option String) : Value × Builder :=
  let inst := { id := b.nextInst, operation := .alloca type, type := .ptr type, name }
  (.inst b.nextInst (.ptr type), { b with slots := b.slots ++ [inst], nextInst := b.nextInst + 1 })

/-- Makes a stack slot; with a declaration it is named and bound to it. -/
def emitAlloca (b : Builder) (binding : Option (DeclId × String)) (type : Ty) : Outcome Value :=
  if b.blocks.isEmpty then (.error (.noCurrentBlock b.name), b)
  else
    match binding with
    | none =>
      let (slot, b) := b.addSlot type none
      (.ok slot, b)
    | some (decl, name) =>
      let (name, b) := b.uniqueName name
      let (slot, b) := b.addSlot type (some name)
      (.ok slot, b.bind decl slot)

/-- Ends a block that has no terminator. -/
def setTerminator (b : Builder) (id : BlockId) (terminator : Terminator) : Outcome Unit :=
  match b.blocks[id]? with
  | none => (.error (.unknownBlock b.name id), b)
  | some block =>
    if block.terminator.isSome then (.error (.terminatorAlreadySet b.name block.label), b)
    else
      (.ok (), { b with
        blocks := b.blocks.modify id fun block => { block with terminator := some terminator } })

/-- Ends the selected block and closes the cursor. -/
def terminate (b : Builder) (terminator : Terminator) : Outcome Unit :=
  match b.current with
  | none => (.error (.noCurrentBlock b.name), b)
  | some id =>
    match b.setTerminator id terminator with
    | (.ok (), b) => (.ok (), { b with current := none })
    | failure => failure

/-- Succeeds if every block has a terminator. -/
def checkTerminated (b : Builder) : Outcome Unit :=
  match b.blocks.find? (·.terminator.isNone) with
  | some block => (.error (.unterminatedBlock b.name block.label), b)
  | none => (.ok (), b)

/-- Completes the body. If a block is still selected, a function without result returns there;
the cursor is closed in any case. -/
def endBody (b : Builder) : Outcome Unit :=
  match b.current with
  | none => b.checkTerminated
  | some id =>
    let b := { b with current := none }
    if b.result = .void then
      match b.setTerminator id (.ret none) with
      | (.ok (), b) => b.checkTerminated
      | failure => failure
    else
      match b.blocks[id]? with
      | some block => (.error (.missingTerminator b.name block.label b.result.text), b)
      | none => (.error (.unknownBlock b.name id), b)

end Builder

end MicroC.Ir
