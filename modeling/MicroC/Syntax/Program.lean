import MicroC.Syntax.Traversal

/-!
Programs and their construction. A program lists the nodes of each family by number
and the top-level declarations of its file. Nodes are made one at a time: `add…`
numbers a node with given positions, while the other functions lay out the tokens
they need one after another, a byte apart, and so give each token a position of its own.
-/

namespace MicroC

structure Program where
  fileId : Nat := 0
  decls : Array Decl := Decl.builtins.toArray
  stmts : Array Stmt := #[]
  exprs : Array Expr := #[]
  types : Array TypeExpr := #[]
  idents : Array Ident := #[]
  /-- The top-level declarations, in order; the same one may occur repeatedly. -/
  file : List Decl := []

namespace Program

def events (p : Program) : List Event := Decl.eventsAll p.file

def identUses (p : Program) : List Ident := Event.identUses p.events

end Program

/-- A program under construction and the offset of its next token. -/
structure Draft where
  program : Program := {}
  offset : Nat := 0

abbrev Build := StateM Draft

namespace Build

def addDecl (node : DeclId → Decl) : Build Decl :=
  modifyGet fun d =>
    let new := node d.program.decls.size
    (new, { d with program.decls := d.program.decls.push new })

def addStmt (node : StmtId → Stmt) : Build Stmt :=
  modifyGet fun d =>
    let new := node d.program.stmts.size
    (new, { d with program.stmts := d.program.stmts.push new })

def addExpr (node : ExprId → Expr) : Build Expr :=
  modifyGet fun d =>
    let new := node d.program.exprs.size
    (new, { d with program.exprs := d.program.exprs.push new })

def addType (node : TypeId → TypeExpr) : Build TypeExpr :=
  modifyGet fun d =>
    let new := node d.program.types.size
    (new, { d with program.types := d.program.types.push new })

def addIdent (name : String) (span : Span) : Build Ident :=
  modifyGet fun d =>
    let new := ⟨d.program.idents.size, name, span⟩
    (new, { d with program.idents := d.program.idents.push new })

/-! Nodes with given positions. -/

def addNamedType (ident : Ident) : Build TypeExpr :=
  addType fun id => .named id ident

def addArrayType (elem : TypeExpr) (len : Option Nat) (lbracket rbracket : Span) :
    Build TypeExpr :=
  addType fun id => .array id elem lbracket len rbracket

def addFuncType (result : TypeExpr) (params : List Decl) (lparen rparen : Span) :
    Build TypeExpr :=
  addType fun id => .func id result lparen params rparen

def addLiteral (value : Literal) (span : Span) : Build Expr :=
  addExpr fun id => .literal id value span

def addName (ident : Ident) : Build Expr :=
  addExpr fun id => .name id ident

def addBinary (op : BinaryOp) (lhs rhs : Expr) (opSpan : Span) : Build Expr :=
  addExpr fun id => .binary id op opSpan lhs rhs

def addCall (callee : Ident) (args : List Expr) (lparen rparen : Span) : Build Expr :=
  addExpr fun id => .call id callee lparen args rparen

def addIndex (array : Ident) (position : Expr) (lbracket rbracket : Span) : Build Expr :=
  addExpr fun id => .index id array lbracket position rbracket

def addParen (inner : Expr) (lparen rparen : Span) : Build Expr :=
  addExpr fun id => .paren id lparen inner rparen

def addUnary (op : UnaryOp) (operand : Expr) (opSpan : Span) : Build Expr :=
  addExpr fun id => .unary id op opSpan operand

def addVar (name : String) (nameSpan : Span) (type : TypeExpr) (init : Option Expr) :
    Build Decl :=
  addDecl fun id => .var id name nameSpan type init

def addFunc (name : String) (nameSpan : Span) (signature : TypeExpr) (body : Option Stmt) :
    Build Decl :=
  addDecl fun id => .func id name nameSpan signature body

def addBasic (name : String) (nameSpan : Span) (kind : BasicKind) : Build Decl :=
  addDecl fun id => .basic id name nameSpan kind

def addTypedef (name : String) (nameSpan : Span) (target : TypeExpr) : Build Decl :=
  addDecl fun id => .typedef id name nameSpan target

def addBlock (items : List Item) (lbrace rbrace : Span) : Build Stmt :=
  addStmt fun id => .block id lbrace items rbrace

def addEmpty (span : Span) : Build Stmt :=
  addStmt fun id => .empty id span

def exprStmt (value : Expr) : Build Stmt :=
  addStmt fun id => .expr id value

def addRet (value : Option Expr) (span : Span) : Build Stmt :=
  addStmt fun id => .ret id span value

def addBranch (cond : Expr) (onTrue : Stmt) (onFalse : Option Stmt) (span : Span) : Build Stmt :=
  addStmt fun id => .branch id span cond onTrue onFalse

def addLoop (cond : Expr) (body : Stmt) (span : Span) : Build Stmt :=
  addStmt fun id => .loop id span cond body

/-! Nodes whose tokens follow those laid out before. -/

/-- The next `length` bytes, at least one, as a token. A blank follows it. -/
def token (length : Nat) : Build Span :=
  modifyGet fun d =>
    let span := Span.ofLength d.offset (max length 1)
    (span, { d with offset := span.stop + 1 })

/-- The token of a piece of text. -/
def textToken (text : String) : Build Span := token text.utf8ByteSize

def ident (name : String) : Build Ident := do
  addIdent name (← textToken name)

def namedType (name : String) : Build TypeExpr := do
  addNamedType (← ident name)

def arrayType (elem : TypeExpr) (len : Option Nat) : Build TypeExpr := do
  addArrayType elem len (← token 1) (← token 1)

def funcType (result : TypeExpr) (params : List Decl) : Build TypeExpr := do
  addFuncType result params (← token 1) (← token 1)

def int (value : Int) : Build Expr := do
  addLiteral (.int value) (← textToken (toString value))

def char (byte : UInt8) : Build Expr := do
  addLiteral (.char byte) (← token 3)

def name (name : String) : Build Expr := do
  addName (← ident name)

def binary (op : BinaryOp) (lhs rhs : Expr) : Build Expr := do
  addBinary op lhs rhs (← textToken op.text)

def assign (lhs rhs : Expr) : Build Expr := binary .assign lhs rhs

def call (callee : String) (args : List Expr) : Build Expr := do
  addCall (← ident callee) args (← token 1) (← token 1)

def index (array : String) (position : Expr) : Build Expr := do
  addIndex (← ident array) position (← token 1) (← token 1)

def paren (inner : Expr) : Build Expr := do
  addParen inner (← token 1) (← token 1)

def unary (op : UnaryOp) (operand : Expr) : Build Expr := do
  addUnary op operand (← textToken op.text)

def var (type : TypeExpr) (name : String) (init : Option Expr) : Build Decl := do
  addVar name (← textToken name) type init

def param (type : TypeExpr) (name : String) : Build Decl := var type name none

def func (name : String) (result : TypeExpr) (params : List Decl) (body : Option Stmt) :
    Build Decl := do
  addFunc name (← textToken name) (← funcType result params) body

def typedef (target : TypeExpr) (name : String) : Build Decl := do
  addTypedef name (← textToken name) target

def block (items : List Item) : Build Stmt := do
  addBlock items (← token 1) (← token 1)

def empty : Build Stmt := do
  addEmpty (← token 1)

def ret (value : Option Expr) : Build Stmt := do
  addRet value (← textToken "return")

def branch (cond : Expr) (onTrue : Stmt) (onFalse : Option Stmt) : Build Stmt := do
  addBranch cond onTrue onFalse (← textToken "if")

def loop (cond : Expr) (body : Stmt) : Build Stmt := do
  addLoop cond body (← textToken "while")

/-- Appends a top-level declaration. -/
def push (decl : Decl) : Build Unit :=
  modify fun d => { d with program.file := d.program.file ++ [decl] }

/-- The program that a sequence of construction steps makes. -/
def finish (build : Build Unit) : Program := (build.run {}).2.program

end Build

end MicroC
