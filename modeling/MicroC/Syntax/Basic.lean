import MicroC.Span

/-!
Syntax trees of the language. Every node carries a number that is unique in its
family (declarations, statements, expressions, types, identifiers); the tables of
the later passes are keyed by these numbers. A node that is used in several places
is the same tree, with the same number, in each of them.
-/

namespace MicroC

abbrev DeclId := Nat
abbrev StmtId := Nat
abbrev ExprId := Nat
abbrev TypeId := Nat
abbrev IdentId := Nat

inductive BasicKind where
  | char | int | void
deriving DecidableEq, Repr, Inhabited

def BasicKind.text : BasicKind → String
  | .char => "char"
  | .int => "int"
  | .void => "void"

inductive BinaryOp where
  | add | sub | mul | div
  | lt | gt | le | ge | eq | ne
  | and | assign
deriving DecidableEq, Repr, Inhabited

namespace BinaryOp

def text : BinaryOp → String
  | .add => "+"
  | .sub => "-"
  | .mul => "*"
  | .div => "/"
  | .lt => "<"
  | .gt => ">"
  | .le => "<="
  | .ge => ">="
  | .eq => "=="
  | .ne => "!="
  | .and => "&&"
  | .assign => "="

def isComparison : BinaryOp → Bool
  | .lt | .gt | .le | .ge | .eq | .ne => true
  | _ => false

end BinaryOp

inductive UnaryOp where
  | neg | not
deriving DecidableEq, Repr, Inhabited

def UnaryOp.text : UnaryOp → String
  | .neg => "-"
  | .not => "!"

inductive Literal where
  | int (value : Int)
  | char (byte : UInt8)
deriving DecidableEq, Repr

/-- One use of a name. -/
structure Ident where
  id : IdentId
  name : String
  span : Span
deriving DecidableEq, Repr

inductive Expr where
  | literal (id : ExprId) (value : Literal) (span : Span)
  | binary (id : ExprId) (op : BinaryOp) (opSpan : Span) (lhs rhs : Expr)
  | call (id : ExprId) (callee : Ident) (lparen : Span) (args : List Expr) (rparen : Span)
  | name (id : ExprId) (ident : Ident)
  | index (id : ExprId) (array : Ident) (lbracket : Span) (position : Expr) (rbracket : Span)
  | paren (id : ExprId) (lparen : Span) (inner : Expr) (rparen : Span)
  | unary (id : ExprId) (op : UnaryOp) (opSpan : Span) (operand : Expr)
deriving Repr

namespace Expr

def id : Expr → ExprId
  | literal id .. | binary id .. | call id .. | name id .. | index id .. | paren id .. | unary id .. =>
    id

/-- The source range from the first to the last token of an expression. -/
def span : Expr → Span
  | literal _ _ s => s
  | binary _ _ _ lhs rhs => lhs.span.join rhs.span
  | call _ callee _ _ rparen => callee.span.join rparen
  | name _ ident => ident.span
  | index _ array _ _ rbracket => array.span.join rbracket
  | paren _ lparen _ rparen => lparen.join rparen
  | unary _ _ opSpan operand => opSpan.join operand.span

/-- Whether an expression denotes storage: a name, an element, or either in parentheses. -/
def isAssignable : Expr → Bool
  | name .. | index .. => true
  | paren _ _ inner _ => inner.isAssignable
  | _ => false

end Expr

mutual

/-- A type as it is written. The parameters of a function type are declarations. -/
inductive TypeExpr where
  | named (id : TypeId) (ident : Ident)
  | array (id : TypeId) (elem : TypeExpr) (lbracket : Span) (len : Option Nat) (rbracket : Span)
  | func (id : TypeId) (result : TypeExpr) (lparen : Span) (params : List Decl) (rparen : Span)

/-- A declaration. `basic` gives a name to a basic type, `typedef` to a type that is written out;
a function is a prototype when it has no body. -/
inductive Decl where
  | func (id : DeclId) (name : String) (nameSpan : Span) (signature : TypeExpr) (body : Option Stmt)
  | var (id : DeclId) (name : String) (nameSpan : Span) (type : TypeExpr) (init : Option Expr)
  | basic (id : DeclId) (name : String) (nameSpan : Span) (kind : BasicKind)
  | typedef (id : DeclId) (name : String) (nameSpan : Span) (target : TypeExpr)

inductive Stmt where
  | block (id : StmtId) (lbrace : Span) (items : List Item) (rbrace : Span)
  | empty (id : StmtId) (span : Span)
  | expr (id : StmtId) (value : Expr)
  | branch (id : StmtId) (span : Span) (cond : Expr) (onTrue : Stmt) (onFalse : Option Stmt)
  | ret (id : StmtId) (span : Span) (value : Option Expr)
  | loop (id : StmtId) (span : Span) (cond : Expr) (body : Stmt)

/-- An entry of a block. -/
inductive Item where
  | decl (decl : Decl)
  | stmt (stmt : Stmt)

end

def TypeExpr.id : TypeExpr → TypeId
  | named id .. | array id .. | func id .. => id

def Stmt.id : Stmt → StmtId
  | block id .. | empty id .. | expr id .. | branch id .. | ret id .. | loop id .. => id

namespace Decl

def id : Decl → DeclId
  | func id .. | var id .. | basic id .. | typedef id .. => id

def name : Decl → String
  | func _ name .. | var _ name .. | basic _ name .. | typedef _ name .. => name

/-- The position of the declared name. -/
def span : Decl → Span
  | func _ _ span .. | var _ _ span .. | basic _ _ span .. | typedef _ _ span .. => span

/-- Whether the declaration settles what its name means: it has a body or an initializer,
or it names a type. -/
def isDefinition : Decl → Bool
  | func _ _ _ _ body => body.isSome
  | var _ _ _ _ init => init.isSome
  | basic .. | typedef .. => true

def isType : Decl → Bool
  | basic .. | typedef .. => true
  | _ => false

def kindText : Decl → String
  | func .. => "function"
  | var .. => "variable"
  | basic .. | typedef .. => "type"

/-- The declarations every program starts with. -/
def builtins : List Decl :=
  [.basic 0 "char" Span.builtin .char, .basic 1 "int" Span.builtin .int,
    .basic 2 "void" Span.builtin .void]

def isBuiltin (d : Decl) : Bool := builtins.any (·.id == d.id)

end Decl

end MicroC
