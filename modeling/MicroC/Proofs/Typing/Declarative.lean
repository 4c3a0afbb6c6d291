import MicroC.Proofs.Typing.Rules

/-!
Typing rules without a table. The type of a declaration follows from its written type, and that of
a type name from the declaration that the name stands for. Derivations are finite, so an alias that
leads back to itself has no type. The rules for expressions and statements go by their structure.
-/

namespace MicroC

/-! Types of declarations. -/

mutual

/-- The type that a written type stands for. -/
inductive TypeExpr.Means (r : Resolution) : TypeExpr → Ty → Prop
  | named {id : TypeId} {ident : Ident} {d : Decl} {type : Ty} :
    r.declOf? ident = some d → d.isType → d.Means r type → TypeExpr.Means r (.named id ident) type
  | array {id : TypeId} {elem : TypeExpr} {lbracket rbracket : Span} {len : Option Nat} {type : Ty} :
    elem.Means r type → type.isScalar →
    TypeExpr.Means r (.array id elem lbracket len rbracket) (.array type len)
  | func {id : TypeId} {result : TypeExpr} {lparen rparen : Span} {params : List Decl} {type : Ty}
      {types : List Ty} :
    result.Means r type → Decl.ParamsMean r params types →
    TypeExpr.Means r (.func id result lparen params rparen) (.func type types)

/-- The type that a declaration gives to its name. -/
inductive Decl.Means (r : Resolution) : Decl → Ty → Prop
  | func {id : DeclId} {name : String} {span : Span} {signature : TypeExpr} {body : Option Stmt}
      {type : Ty} :
    signature.Means r type →
    (∀ result params, type = .func result params → result.isScalar || result.isVoid) →
    Decl.Means r (.func id name span signature body) type
  | var {id : DeclId} {name : String} {span : Span} {written : TypeExpr} {init : Option Expr}
      {type : Ty} :
    written.Means r type → Decl.Means r (.var id name span written init) type
  | basic {id : DeclId} {name : String} {span : Span} {kind : BasicKind} :
    Decl.Means r (.basic id name span kind) (.basic kind)
  | typedef {id : DeclId} {name : String} {span : Span} {target : TypeExpr} {type : Ty} :
    target.Means r type → Decl.Means r (.typedef id name span target) type

/-- The types of parameters. -/
inductive Decl.ParamsMean (r : Resolution) : List Decl → List Ty → Prop
  | nil : Decl.ParamsMean r [] []
  | cons {d : Decl} {type : Ty} {rest : List Decl} {types : List Ty} :
    d.Means r type → type.isParam → Decl.ParamsMean r rest types →
    Decl.ParamsMean r (d :: rest) (type :: types)

end

section

variable {r : Resolution}

mutual

/-- A written type stands for one type only. -/
theorem TypeExpr.Means.unique {type type' : Ty} : {written : TypeExpr} →
    written.Means r type → written.Means r type' → type = type'
  | _, .named hd _ h, .named hd' _ h' => by
    obtain rfl := Option.some.inj (hd.symm.trans hd')
    exact h.unique h'
  | _, .array h _, .array h' _ => by rw [h.unique h']
  | _, .func h hparams, .func h' hparams' => by rw [h.unique h', hparams.unique hparams']

theorem Decl.Means.unique {type type' : Ty} : {d : Decl} →
    d.Means r type → d.Means r type' → type = type'
  | _, .func h _, .func h' _ => h.unique h'
  | _, .var h, .var h' => h.unique h'
  | _, .basic, .basic => rfl
  | _, .typedef h, .typedef h' => h.unique h'

theorem Decl.ParamsMean.unique {types types' : List Ty} : {ds : List Decl} →
    Decl.ParamsMean r ds types → Decl.ParamsMean r ds types' → types = types'
  | _, .nil, .nil => rfl
  | _, .cons h _ hrest, .cons h' _ hrest' => by rw [h.unique h', hrest.unique hrest']

end

/-- The parameters of a function can be passed. -/
def Ty.TakesParams : Ty → Prop
  | .func _ params => ∀ param ∈ params, param.isParam
  | .basic _ | .array _ _ => True

theorem Decl.ParamsMean.isParam {types : List Ty} : {ds : List Decl} →
    Decl.ParamsMean r ds types → ∀ type ∈ types, type.isParam
  | _, .nil => by simp
  | _, .cons _ hparam hrest => List.forall_mem_cons.mpr ⟨hparam, hrest.isParam⟩

mutual

theorem TypeExpr.Means.takesParams {type : Ty} : {written : TypeExpr} → written.Means r type →
    type.TakesParams
  | _, .named _ _ h => h.takesParams
  | _, .array _ _ => trivial
  | _, .func _ hparams => hparams.isParam

theorem Decl.Means.takesParams {type : Ty} : {d : Decl} → d.Means r type → type.TakesParams
  | _, .func h _ | _, .var h | _, .typedef h => h.takesParams
  | _, .basic => trivial

end

/-- What the type of a written type or of a declaration is made from. -/
inductive Node.Below (r : Resolution) : Node → Node → Prop
  | named {id : TypeId} {ident : Ident} {d : Decl} :
    r.declOf? ident = some d → Below r (.decl d) (.type (.named id ident))
  | elem {id : TypeId} {elem : TypeExpr} {lbracket rbracket : Span} {len : Option Nat} :
    Below r (.type elem) (.type (.array id elem lbracket len rbracket))
  | result {id : TypeId} {result : TypeExpr} {lparen rparen : Span} {params : List Decl} :
    Below r (.type result) (.type (.func id result lparen params rparen))
  | param {id : TypeId} {result : TypeExpr} {lparen rparen : Span} {params : List Decl} {d : Decl} :
    d ∈ params → Below r (.decl d) (.type (.func id result lparen params rparen))
  | signature {id : DeclId} {name : String} {span : Span} {signature : TypeExpr}
      {body : Option Stmt} : Below r (.type signature) (.decl (.func id name span signature body))
  | written {id : DeclId} {name : String} {span : Span} {written : TypeExpr} {init : Option Expr} :
    Below r (.type written) (.decl (.var id name span written init))
  | target {id : DeclId} {name : String} {span : Span} {target : TypeExpr} :
    Below r (.type target) (.decl (.typedef id name span target))

mutual

/-- What a type with a meaning is made from ends somewhere. -/
theorem TypeExpr.Means.acc {type : Ty} : {written : TypeExpr} → written.Means r type →
    Acc (Node.Below r) (.type written)
  | _, .named hd _ h => by
    have hacc := h.acc
    constructor
    intro n hn
    cases hn with
    | named hd' =>
      rw [← Option.some.inj (hd.symm.trans hd')]
      exact hacc
  | _, .array h _ => by
    have hacc := h.acc
    constructor
    rintro _ ⟨⟩
    exact hacc
  | _, .func h hparams => by
    have hacc := h.acc
    have haccs := hparams.acc
    constructor
    intro n hn
    cases hn with
    | result => exact hacc
    | param hd => exact haccs _ hd

theorem Decl.Means.acc {type : Ty} : {d : Decl} → d.Means r type → Acc (Node.Below r) (.decl d)
  | _, .func h _ | _, .var h | _, .typedef h => by
    have hacc := h.acc
    constructor
    rintro _ ⟨⟩
    exact hacc
  | _, .basic => .intro _ nofun

theorem Decl.ParamsMean.acc {types : List Ty} : {ds : List Decl} → Decl.ParamsMean r ds types →
    ∀ d ∈ ds, Acc (Node.Below r) (.decl d)
  | _, .nil => by simp
  | _, .cons h _ hrest => by
    have hacc := h.acc
    have haccs := hrest.acc
    intro d hd
    rcases List.mem_cons.mp hd with rfl | hmem
    · exact hacc
    · exact haccs d hmem

end

theorem Decl.Means.not_transGen_self {d : Decl} {type : Ty} (h : d.Means r type) :
    ¬ Relation.TransGen (Node.Below r) (.decl d) (.decl d) := by
  intro hself
  have hacc := h.acc.transGen
  generalize Node.decl d = n at hself hacc
  induction hacc with
  | intro n _ ih => exact ih n hself hself

end

/-! Types of expressions. -/

/-- A name stands for a value of a type. -/
def Ident.OfType (r : Resolution) (ident : Ident) (type : Ty) : Prop :=
  ∃ d, r.declOf? ident = some d ∧ d.isType = false ∧ d.Means r type

mutual

/-- The type of an expression. The operands of an operator have one scalar type. -/
def Expr.OfType (r : Resolution) : Expr → Ty → Prop
  | .literal _ (.int value) _, type => Scalar.int.Fits value ∧ type = .int
  | .literal _ (.char _) _, type => type = .char
  | .name _ ident, type => ident.OfType r type
  | .paren _ _ inner _, type => inner.OfType r type
  | .unary _ .neg _ operand, type => operand.OfType r type ∧ type.isScalar
  | .unary _ .not _ operand, type => type = .int ∧ ∃ found, operand.OfType r found ∧ found.isScalar
  | .binary _ op _ lhs rhs, type =>
    lhs.OfType r type ∧ rhs.OfType r type ∧ type.isScalar ∧ (op = .assign → lhs.isAssignable)
  | .call _ callee _ args _, type =>
    ∃ params, callee.OfType r (.func type params) ∧ Expr.ArgsOfType r params args
  | .index _ array _ position _, type =>
    ∃ len place, array.OfType r (.array type len) ∧ position.OfType r place ∧ place.isScalar

/-- Every parameter has an argument of a compatible type. -/
def Expr.ArgsOfType (r : Resolution) : List Ty → List Expr → Prop
  | [], [] => True
  | param :: params, arg :: args =>
    (∃ type, arg.OfType r type ∧ param.compatible type) ∧ Expr.ArgsOfType r params args
  | [], _ :: _ | _ :: _, [] => False

end

theorem Ident.OfType.unique {r : Resolution} {ident : Ident} {type type' : Ty}
    (h : ident.OfType r type) (h' : ident.OfType r type') : type = type' := by
  obtain ⟨d, hd, _, hmeans⟩ := h
  obtain ⟨d', hd', _, hmeans'⟩ := h'
  obtain rfl := Option.some.inj (hd.symm.trans hd')
  exact hmeans.unique hmeans'

/-- An expression has one type only. -/
theorem Expr.OfType.unique {r : Resolution} {type type' : Ty} : {e : Expr} → e.OfType r type →
    e.OfType r type' → type = type'
  | .literal _ (.int _) _, h, h' => h.2.trans h'.2.symm
  | .literal _ (.char _) _, h, h' => Eq.trans h (Eq.symm h')
  | .name _ _, h, h' => Ident.OfType.unique h h'
  | .paren _ _ inner _, h, h' => Expr.OfType.unique (e := inner) h h'
  | .unary _ .neg _ _, h, h' => h.1.unique h'.1
  | .unary _ .not _ _, h, h' => h.1.trans h'.1.symm
  | .binary _ _ _ _ _, h, h' => h.1.unique h'.1
  | .call _ _ _ _ _, h, h' => by
    obtain ⟨_, hcallee, _⟩ := h
    obtain ⟨_, hcallee', _⟩ := h'
    exact (Ty.func.inj (hcallee.unique hcallee')).1
  | .index _ _ _ _ _, h, h' => by
    obtain ⟨_, _, harray, _⟩ := h
    obtain ⟨_, _, harray', _⟩ := h'
    exact (Ty.array.inj (harray.unique harray')).1

/-! Statements and declarations. -/

def Expr.IsCondition (r : Resolution) (cond : Expr) : Prop :=
  ∃ type, cond.OfType r type ∧ type.isScalar

/-- A variable that has a size; if there is an initial value, both are scalars of one type. -/
def Ty.IsVariable (r : Resolution) (type : Ty) : Option Expr → Prop
  | none => type.isComplete
  | some init => type.isScalar ∧ init.OfType r type

/-- What is returned fits the result of the function. -/
def Ty.IsReturned (r : Resolution) (result : Ty) : Option Expr → Prop
  | none => result.isVoid
  | some value => result.isVoid = false ∧ ∃ type, value.OfType r type ∧ result.compatible type

/-- Inside a function there are variables only. -/
def Decl.IsLocal (r : Resolution) (d : Decl) : Prop :=
  match d with
  | .var _ _ _ _ init => ∃ type, d.Means r type ∧ type.IsVariable r init
  | .func .. | .basic .. | .typedef .. => False

mutual

/-- A statement of a function with a given result. -/
def Stmt.Valid (r : Resolution) (result : Ty) : Stmt → Prop
  | .block _ _ items _ => Item.AllValid r result items
  | .empty .. => True
  | .expr _ value => ∃ type, value.OfType r type
  | .branch _ _ cond onTrue none => cond.IsCondition r ∧ onTrue.Valid r result
  | .branch _ _ cond onTrue (some onFalse) =>
    cond.IsCondition r ∧ onTrue.Valid r result ∧ onFalse.Valid r result
  | .ret _ _ value => result.IsReturned r value
  | .loop _ _ cond body => cond.IsCondition r ∧ body.Valid r result

def Item.Valid (r : Resolution) (result : Ty) : Item → Prop
  | .decl d => d.IsLocal r
  | .stmt s => s.Valid r result

def Item.AllValid (r : Resolution) (result : Ty) : List Item → Prop
  | [] => True
  | item :: rest => item.Valid r result ∧ Item.AllValid r result rest

end

namespace Decl

/-- A declaration of a type agrees with the one that its name is bound to at file level. -/
def Agrees (r : Resolution) (d : Decl) (type : Ty) : Prop :=
  ∀ binding, r.fileBinding? d.name = some binding → binding ≠ d →
    ∃ bound, binding.Means r bound ∧ bound.sameDecl type

/-- What is inside a declaration of a type fits the type. -/
def Fits (r : Resolution) : Decl → Ty → Prop
  | .func _ _ _ _ (some body), type => ∃ result params, type = .func result params ∧
    body.Valid r result ∧ (result.isVoid ∨ body.alwaysReturns)
  | .var _ _ _ _ init, type => type.IsVariable r init
  | .func _ _ _ _ none, _ | .basic .., _ | .typedef .., _ => True

/-- A declaration at file level. -/
def Valid (r : Resolution) (d : Decl) : Prop := ∃ type, d.Means r type ∧ d.Agrees r type ∧ d.Fits r type

end Decl

end MicroC
