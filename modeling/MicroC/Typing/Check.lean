import MicroC.Constant.Scalar
import MicroC.Scope.Resolution
import MicroC.Typing.Error
import MicroC.Typing.Returns

/-!
Type checking. The declarations of a resolved file are checked in order; the types
of declarations and expressions are entered in a table as soon as they are known,
and what is in the table is not computed again. The first error ends the check.
-/

namespace MicroC

structure TypeTable where
  exprs : Std.TreeMap ExprId Ty := ∅
  decls : Std.TreeMap DeclId Ty := ∅

namespace TypeTable

def expr? (t : TypeTable) (e : Expr) : Option Ty := t.exprs[e.id]?

def decl? (t : TypeTable) (d : Decl) : Option Ty := t.decls[d.id]?

def setExpr (t : TypeTable) (id : ExprId) (type : Ty) : TypeTable :=
  { t with exprs := t.exprs.insert id type }

def setDecl (t : TypeTable) (id : DeclId) (type : Ty) : TypeTable :=
  { t with decls := t.decls.insert id type }

end TypeTable

abbrev CheckM := StateT TypeTable (Except TypeError)

namespace CheckM

/-- The type the table holds for a declaration; it is computed and entered if there is none. -/
def memoDecl (id : DeclId) (compute : CheckM Ty) : CheckM Ty := do
  match (← get).decls[id]? with
  | some type => return type
  | none =>
    let type ← compute
    modify (·.setDecl id type)
    return type

/-- The type the table holds for an expression; it is computed and entered if there is none. -/
def memoExpr (id : ExprId) (compute : CheckM Ty) : CheckM Ty := do
  match (← get).exprs[id]? with
  | some type => return type
  | none =>
    let type ← compute
    modify (·.setExpr id type)
    return type

end CheckM

open CheckM

/-- What is done where an expansion stops: at an alias that is being expanded already, and at a name
that is too deep inside others. -/
structure Halts where
  again : String → Span → CheckM Ty
  tooDeep : Ident → CheckM Ty

/-- The checker knows no type there. -/
def Halts.refuse : Halts where
  again name span := throw (.notAType name span)
  tooDeep ident := throw (.notAType ident.name ident.span)

mutual

/-- The type that a written type denotes. Type names in it are read by `named`, which is told
the aliases that are being expanded. -/
def TypeExpr.denote (halts : Halts) (named : List DeclId → Ident → CheckM Ty)
    (expanding : List DeclId) : TypeExpr → CheckM Ty
  | .named _ ident => named expanding ident
  | .array _ elem lbracket len _ => do
    let elem ← elem.denote halts named expanding
    if elem.isScalar then return .array elem len else throw (.notScalar elem lbracket)
  | .func _ result _ params _ => do
    let result ← result.denote halts named expanding
    let params ← Decl.paramTypes halts named expanding params
    return .func result params

/-- The type of a declaration. The expansion stops at an alias that is reached from its own
target. -/
def Decl.typeWith (halts : Halts) (named : List DeclId → Ident → CheckM Ty)
    (expanding : List DeclId) : Decl → CheckM Ty
  | d@(.func id _ _ signature _) => memoDecl id do
    let type ← signature.denote halts named expanding
    match type with
    | .func result _ =>
      if result.isScalar || result.isVoid then return type else throw (.invalidObject d type)
    | _ => return type
  | .var id _ _ type _ => memoDecl id (type.denote halts named expanding)
  | .basic id _ _ kind => memoDecl id (return .basic kind)
  | .typedef id name nameSpan target => memoDecl id do
    if id ∈ expanding then halts.again name nameSpan
    else target.denote halts named (id :: expanding)

/-- The types of the parameters of a function type. -/
def Decl.paramTypes (halts : Halts) (named : List DeclId → Ident → CheckM Ty)
    (expanding : List DeclId) : List Decl → CheckM (List Ty)
  | [] => return []
  | d :: rest => do
    let type ← d.typeWith halts named expanding
    if type.isParam then return type :: (← Decl.paramTypes halts named expanding rest)
    else throw (.invalidObject d type)

end

/-- The declaration a name stands for. -/
def Resolution.declOf (r : Resolution) (ident : Ident) : CheckM Decl :=
  match r.declOf? ident with
  | some d => return d
  | none => throw (.unresolved ident.span)

/-- The type a type name stands for, with at most `depth` names inside one another. -/
def Resolution.namedType (r : Resolution) (halts : Halts) :
    Nat → List DeclId → Ident → CheckM Ty
  | 0, _, ident => halts.tooDeep ident
  | depth + 1, expanding, ident => do
    let d ← r.declOf ident
    if d.isType then d.typeWith halts (r.namedType halts depth) expanding
    else throw (.notAType ident.name ident.span)

/-- A bound for names inside one another. Each name on the way leads to an alias that is not yet
being expanded, or the expansion ends there, so there is one more of them than aliases at most. -/
def Resolution.nameDepth (r : Resolution) : Nat := r.idents.size + 1

/-- The type of a declaration, found with at most `depth` names inside one another. -/
def Decl.expand (r : Resolution) (halts : Halts) (depth : Nat) (d : Decl) : CheckM Ty :=
  d.typeWith halts (r.namedType halts depth) []

/-- The type of a declaration. An alias that is reached from its own target is no type. -/
def Decl.typeOf (r : Resolution) (d : Decl) : CheckM Ty := d.expand r .refuse r.nameDepth

/-- The type of a name that is used as a value. -/
def Ident.typeOf (r : Resolution) (ident : Ident) : CheckM Ty := do
  let d ← r.declOf ident
  if d.isType then throw (.notAValue ident.name ident.span) else d.typeOf r

/-- The type of the two operands of an operator, which is also that of the result. -/
def BinaryOp.resultType (op : BinaryOp) (opSpan : Span) (assignable : Bool) (lhs rhs : Ty) :
    CheckM Ty :=
  if op = .assign ∧ !assignable then throw (.notAssignable lhs.text opSpan)
  else if !lhs.compatible rhs then throw (.mismatch lhs.text rhs.text opSpan)
  else if !lhs.isScalar then throw (.notScalar lhs opSpan)
  else return lhs

mutual

def Expr.typeOf (r : Resolution) : Expr → CheckM Ty
  | .literal id (.int value) span => memoExpr id do
    if Scalar.int.Fits value then return .int else throw (.literalOutOfRange value span)
  | .literal id (.char _) _ => memoExpr id (return .char)
  | .name id ident => memoExpr id (ident.typeOf r)
  | .paren id _ inner _ => memoExpr id (inner.typeOf r)
  | .unary id op opSpan operand => memoExpr id do
    let type ← operand.typeOf r
    if !type.isScalar then throw (.notScalar type opSpan)
    else match op with
      | .neg => return type
      | .not => return .int
  | .binary id op opSpan lhs rhs => memoExpr id do
    let left ← lhs.typeOf r
    let right ← rhs.typeOf r
    op.resultType opSpan lhs.isAssignable left right
  | .call id callee lparen args _ => memoExpr id do
    let type ← callee.typeOf r
    match type with
    | .func result params =>
      if params.length ≠ args.length then
        throw (.argumentCount callee.name params.length args.length lparen)
      else
        Expr.checkArgs r params args
        return result
    | _ => throw (.notCallable callee.name type.text lparen)
  | .index id array lbracket position _ => memoExpr id do
    let type ← array.typeOf r
    match type.element? with
    | none => throw (.notIndexable array.name type.text lbracket)
    | some elem =>
      let index ← position.typeOf r
      if index.isScalar then return elem else throw (.notScalar index position.span)

/-- Checks the arguments of a call against the types of the parameters. -/
def Expr.checkArgs (r : Resolution) : List Ty → List Expr → CheckM Unit
  | param :: params, arg :: args => do
    let type ← arg.typeOf r
    if param.compatible type then Expr.checkArgs r params args
    else throw (.mismatch param.text type.text arg.span)
  | _, _ => return ()

end

/-- Checks a variable of a known type: the type has a size, and an initializer fits a scalar. -/
def Decl.checkVariable (r : Resolution) (d : Decl) (type : Ty) (init : Option Expr) :
    CheckM Unit := do
  if !type.isComplete then throw (.invalidObject d type)
  else match init with
    | none => return ()
    | some init =>
      let found ← init.typeOf r
      if type.isScalar && type.compatible found then return ()
      else throw (.mismatch type.text found.text init.span)

/-- Checks a declaration inside a function, which has to be a variable. -/
def Decl.checkLocal (r : Resolution) (d : Decl) : CheckM Unit := do
  match d with
  | .var _ _ _ _ init =>
    let type ← d.typeOf r
    d.checkVariable r type init
  | .func .. => throw (.unsupported "function declaration inside a function body" d.span)
  | .basic .. | .typedef .. => throw (.unsupported "type alias inside a function body" d.span)

def Expr.checkCondition (r : Resolution) (cond : Expr) : CheckM Unit := do
  let type ← cond.typeOf r
  if type.isScalar then return () else throw (.notScalar type cond.span)

/-- Checks a returned value against the result of the function, if there is a function. -/
def Stmt.checkReturn (r : Resolution) (result : Option Ty) (span : Span) (value : Option Expr) :
    CheckM Unit :=
  match result, value with
  | none, _ => throw (.unsupported "return outside of a function body" span)
  | some result, none =>
    if result.isVoid then return ()
    else throw (.mismatch result.text Ty.void.text span)
  | some result, some value => do
    let found ← value.typeOf r
    if !result.isVoid && result.compatible found then return ()
    else throw (.mismatch result.text found.text span)

mutual

/-- Checks a statement of a function with the given result. -/
def Stmt.check (r : Resolution) (result : Ty) : Stmt → CheckM Unit
  | .block _ _ items _ => Item.checkAll r result items
  | .empty .. => return ()
  | .expr _ value => discard (value.typeOf r)
  | .branch _ _ cond onTrue none => do
    cond.checkCondition r
    onTrue.check r result
  | .branch _ _ cond onTrue (some onFalse) => do
    cond.checkCondition r
    onTrue.check r result
    onFalse.check r result
  | .ret _ span value => Stmt.checkReturn r (some result) span value
  | .loop _ _ cond body => do
    cond.checkCondition r
    body.check r result

def Item.check (r : Resolution) (result : Ty) : Item → CheckM Unit
  | .decl d => d.checkLocal r
  | .stmt s => s.check r result

def Item.checkAll (r : Resolution) (result : Ty) : List Item → CheckM Unit
  | [] => return ()
  | item :: rest => do
    item.check r result
    Item.checkAll r result rest

end

/-- Checks the body of a function: a result other than `void` is returned on every path. -/
def Decl.checkBody (r : Resolution) (d : Decl) (type : Ty) (body : Stmt) : CheckM Unit := do
  match type with
  | .func result _ =>
    body.check r result
    if !result.isVoid && !body.alwaysReturns then throw (.missingReturn d.name d.span)
    else return ()
  | _ => throw (.unsupported "function body with a non-function signature" d.span)

/-- Compares a declaration with the one its name stands for at file level. -/
def Decl.checkBinding (r : Resolution) (d : Decl) (type : Ty) : CheckM Unit := do
  match r.fileBinding? d.name with
  | none => return ()
  | some binding =>
    if binding.id = d.id then return ()
    else
      let bound ← binding.typeOf r
      if bound.sameDecl type then return ()
      else throw (.mismatch bound.text type.text d.span)

def Decl.checkGlobal (r : Resolution) (d : Decl) : CheckM Unit := do
  let type ← d.typeOf r
  d.checkBinding r type
  match d with
  | .func _ _ _ _ (some body) => d.checkBody r type body
  | .var _ _ _ _ init => d.checkVariable r type init
  | .func _ _ _ _ none | .basic .. | .typedef .. => return ()

/-- Checks the top-level declarations of a resolved program and gives the types found. -/
def Program.check (p : Program) (r : Resolution) : Except TypeError TypeTable := do
  let ((), table) ← (p.file.forM (Decl.checkGlobal r)).run {}
  return table

end MicroC
