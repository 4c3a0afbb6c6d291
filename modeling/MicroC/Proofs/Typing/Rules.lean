import MicroC.Lowering.Body

/-!
Typing rules over a table of declaration types. What a name stands for is given by the
resolution and what type a declaration has by the table; the rules for types, expressions,
statements and declarations are stated as relations. They only read the types of
declarations, they determine the type of an expression, and a larger table keeps them.
-/

namespace MicroC

namespace Ty

/-- Scalar types are compatible only with themselves. -/
theorem eq_of_compatible_of_isScalar {s t : Ty} (h : s.compatible t) (hs : s.isScalar) : t = s := by
  cases s with
  | basic k =>
    cases t with
    | basic l =>
      have hkl : k = l := by simpa [compatible] using h
      rw [hkl]
    | array _ _ | func _ _ => simp [compatible] at h
  | array _ _ | func _ _ => simp [isScalar] at hs

theorem compatible_self_of_isScalar {s : Ty} (h : s.isScalar) : s.compatible s := by
  cases s with
  | basic k => simp [compatible]
  | array _ _ | func _ _ => simp [isScalar] at h

theorem isParam_of_isComplete {t : Ty} (h : t.isComplete) : t.isParam := by
  cases t with
  | basic _ => exact h
  | array elem len =>
    simp only [isComplete, Bool.and_eq_true] at h
    exact h.2
  | func _ _ => simp [isComplete, isScalar] at h

theorem isComplete_of_isScalar {t : Ty} (h : t.isScalar) : t.isComplete := by
  cases t with
  | basic _ => exact h
  | array _ _ | func _ _ => simp [isScalar] at h

theorem isParam_of_isScalar {t : Ty} (h : t.isScalar) : t.isParam := by
  cases t with
  | basic _ => exact h
  | array _ _ | func _ _ => simp [isScalar] at h

end Ty

/-- A name stands for a value of a type. -/
structure Ident.HasType (a : Analysis) (ident : Ident) (d : Decl) (type : Ty) : Prop where
  declOf : a.resolution.declOf? ident = some d
  isValue : d.isType = false
  typeOf : a.types.decl? d = some type

/-- The type that a written type denotes. -/
inductive TypeExpr.Denotes (a : Analysis) : TypeExpr → Ty → Prop
  | named {id : TypeId} {ident : Ident} {d : Decl} {type : Ty} :
    a.resolution.declOf? ident = some d → d.isType → a.types.decl? d = some type →
    Denotes a (.named id ident) type
  | array {id : TypeId} {elem : TypeExpr} {lbracket rbracket : Span} {len : Option Nat} {type : Ty} :
    elem.Denotes a type → type.isScalar →
    Denotes a (.array id elem lbracket len rbracket) (.array type len)
  | func {id : TypeId} {result : TypeExpr} {lparen rparen : Span} {params : List Decl} {type : Ty}
      {types : List Ty} :
    result.Denotes a type → params.map a.types.decl? = types.map some → (∀ t ∈ types, t.isParam) →
    Denotes a (.func id result lparen params rparen) (.func type types)

/-- The type that a declaration gives to its name. -/
inductive Decl.Denotes (a : Analysis) : Decl → Ty → Prop
  | func {id : DeclId} {name : String} {span : Span} {signature : TypeExpr} {body : Option Stmt}
      {type : Ty} :
    signature.Denotes a type →
    (∀ result params, type = .func result params → result.isScalar || result.isVoid) →
    Denotes a (.func id name span signature body) type
  | var {id : DeclId} {name : String} {span : Span} {written : TypeExpr} {init : Option Expr}
      {type : Ty} :
    written.Denotes a type → Denotes a (.var id name span written init) type
  | basic {id : DeclId} {name : String} {span : Span} {kind : BasicKind} :
    Denotes a (.basic id name span kind) (.basic kind)
  | typedef {id : DeclId} {name : String} {span : Span} {target : TypeExpr} {type : Ty} :
    target.Denotes a type → Denotes a (.typedef id name span target) type

mutual

/-- The type of an expression. -/
inductive Expr.HasType (a : Analysis) : Expr → Ty → Prop
  | int {id : ExprId} {value : Int} {span : Span} :
    Scalar.int.Fits value → HasType a (.literal id (.int value) span) .int
  | char {id : ExprId} {byte : UInt8} {span : Span} : HasType a (.literal id (.char byte) span) .char
  | name {id : ExprId} {ident : Ident} {d : Decl} {type : Ty} :
    ident.HasType a d type → HasType a (.name id ident) type
  | paren {id : ExprId} {lparen rparen : Span} {inner : Expr} {type : Ty} :
    inner.HasType a type → HasType a (.paren id lparen inner rparen) type
  | neg {id : ExprId} {span : Span} {operand : Expr} {type : Ty} :
    operand.HasType a type → type.isScalar → HasType a (.unary id .neg span operand) type
  | not {id : ExprId} {span : Span} {operand : Expr} {type : Ty} :
    operand.HasType a type → type.isScalar → HasType a (.unary id .not span operand) .int
  | binary {id : ExprId} {op : BinaryOp} {span : Span} {lhs rhs : Expr} {type : Ty} :
    lhs.HasType a type → rhs.HasType a type → type.isScalar →
    (op = .assign → lhs.isAssignable) → HasType a (.binary id op span lhs rhs) type
  | call {id : ExprId} {callee : Ident} {d : Decl} {lparen rparen : Span} {args : List Expr}
      {type : Ty} {params : List Ty} :
    callee.HasType a d (.func type params) → Expr.ArgsFit a params args →
    HasType a (.call id callee lparen args rparen) type
  | index {id : ExprId} {array : Ident} {d : Decl} {lbracket rbracket : Span} {position : Expr}
      {type place : Ty} {len : Option Nat} :
    array.HasType a d (.array type len) → position.HasType a place → place.isScalar →
    HasType a (.index id array lbracket position rbracket) type

/-- Arguments fit parameters one by one. -/
inductive Expr.ArgsFit (a : Analysis) : List Ty → List Expr → Prop
  | nil : ArgsFit a [] []
  | cons {param type : Ty} {params : List Ty} {arg : Expr} {args : List Expr} :
    arg.HasType a type → param.compatible type → Expr.ArgsFit a params args →
    ArgsFit a (param :: params) (arg :: args)

end

/-- A variable has a type with a size, and its initial value fits. -/
inductive Decl.IsVariable (a : Analysis) : Decl → Prop
  | plain {id : DeclId} {name : String} {span : Span} {written : TypeExpr} {type : Ty} :
    a.types.decl? (.var id name span written none) = some type → type.isComplete →
    IsVariable a (.var id name span written none)
  | initialized {id : DeclId} {name : String} {span : Span} {written : TypeExpr} {init : Expr}
      {type : Ty} :
    a.types.decl? (.var id name span written (some init)) = some type → type.isScalar →
    init.HasType a type → IsVariable a (.var id name span written (some init))

mutual

/-- A statement of a function with a given result. -/
inductive Stmt.WellTyped (a : Analysis) (result : Ty) : Stmt → Prop
  | block {id : StmtId} {lbrace rbrace : Span} {items : List Item} :
    Item.AllTyped a result items → Stmt.WellTyped a result (.block id lbrace items rbrace)
  | empty {id : StmtId} {span : Span} : Stmt.WellTyped a result (.empty id span)
  | expr {id : StmtId} {value : Expr} {type : Ty} :
    value.HasType a type → Stmt.WellTyped a result (.expr id value)
  | branch {id : StmtId} {span : Span} {cond : Expr} {type : Ty} {onTrue : Stmt} :
    cond.HasType a type → type.isScalar → onTrue.WellTyped a result →
    Stmt.WellTyped a result (.branch id span cond onTrue none)
  | branchElse {id : StmtId} {span : Span} {cond : Expr} {type : Ty} {onTrue onFalse : Stmt} :
    cond.HasType a type → type.isScalar → onTrue.WellTyped a result →
    onFalse.WellTyped a result → Stmt.WellTyped a result (.branch id span cond onTrue (some onFalse))
  | ret {id : StmtId} {span : Span} : result.isVoid → Stmt.WellTyped a result (.ret id span none)
  | retValue {id : StmtId} {span : Span} {value : Expr} {type : Ty} :
    value.HasType a type → result.isVoid = false → result.compatible type →
    Stmt.WellTyped a result (.ret id span (some value))
  | loop {id : StmtId} {span : Span} {cond : Expr} {type : Ty} {body : Stmt} :
    cond.HasType a type → type.isScalar → body.WellTyped a result →
    Stmt.WellTyped a result (.loop id span cond body)

inductive Item.Typed (a : Analysis) (result : Ty) : Item → Prop
  | decl {d : Decl} : d.IsVariable a → Item.Typed a result (.decl d)
  | stmt {s : Stmt} : s.WellTyped a result → Item.Typed a result (.stmt s)

inductive Item.AllTyped (a : Analysis) (result : Ty) : List Item → Prop
  | nil : Item.AllTyped a result []
  | cons {item : Item} {rest : List Item} :
    item.Typed a result → Item.AllTyped a result rest → Item.AllTyped a result (item :: rest)

end

/-- A function body matches the type of the function, and returns a result if there is one. -/
structure Stmt.IsBody (a : Analysis) (type : Ty) (body : Stmt) (result : Ty) (params : List Ty) :
    Prop where
  type_eq : type = .func result params
  typed : body.WellTyped a result
  returns : result.isVoid ∨ body.alwaysReturns

/-- A top-level declaration. -/
inductive Decl.WellTyped (a : Analysis) : Decl → Prop
  | prototype {id : DeclId} {name : String} {span : Span} {signature : TypeExpr} {type : Ty} :
    a.types.decl? (.func id name span signature none) = some type →
    WellTyped a (.func id name span signature none)
  | definition {id : DeclId} {name : String} {span : Span} {signature : TypeExpr} {body : Stmt}
      {type result : Ty} {params : List Ty} :
    a.types.decl? (.func id name span signature (some body)) = some type →
    body.IsBody a type result params → WellTyped a (.func id name span signature (some body))
  | var {id : DeclId} {name : String} {span : Span} {written : TypeExpr} {init : Option Expr} :
    (Decl.var id name span written init).IsVariable a →
    WellTyped a (.var id name span written init)
  | typeName {d : Decl} {type : Ty} : d.isType → a.types.decl? d = some type → WellTyped a d

/-! A larger table keeps what is known. -/

structure TypeTable.Within (t t' : TypeTable) : Prop where
  decls : ∀ (id : DeclId) type, t.decls[id]? = some type → t'.decls[id]? = some type
  exprs : ∀ (id : ExprId) type, t.exprs[id]? = some type → t'.exprs[id]? = some type

namespace TypeTable.Within

theorem refl (t : TypeTable) : t.Within t := ⟨fun _ _ h => h, fun _ _ h => h⟩

theorem trans {t t' t'' : TypeTable} (h : t.Within t') (h' : t'.Within t'') : t.Within t'' :=
  ⟨fun id type hid => h'.decls id type (h.decls id type hid),
    fun id type hid => h'.exprs id type (h.exprs id type hid)⟩

theorem decl? {t t' : TypeTable} (h : t.Within t') {d : Decl} {type : Ty}
    (hd : t.decl? d = some type) : t'.decl? d = some type :=
  h.decls d.id type hd

end TypeTable.Within

section

variable {r : Resolution} {t t' : TypeTable}

theorem Ident.HasType.mono (ht : t.Within t') {ident : Ident} {d : Decl} {type : Ty}
    (h : ident.HasType ⟨r, t⟩ d type) : ident.HasType ⟨r, t'⟩ d type :=
  ⟨h.declOf, h.isValue, ht.decl? h.typeOf⟩

theorem TypeExpr.Denotes.mono (ht : t.Within t') {written : TypeExpr} {type : Ty}
    (h : written.Denotes ⟨r, t⟩ type) : written.Denotes ⟨r, t'⟩ type := by
  induction h with
  | named hdecl htype hd => exact .named hdecl htype (ht.decl? hd)
  | array _ hscalar ih => exact .array ih hscalar
  | func _ htypes hparams ih =>
    refine .func ih ?_ hparams
    rename_i params _ types _
    clear hparams
    induction params generalizing types with
    | nil => simpa using htypes
    | cons d rest ihp =>
      cases types with
      | nil => simp at htypes
      | cons type types =>
        simp only [List.map_cons, List.cons.injEq] at htypes ⊢
        exact ⟨ht.decl? htypes.1, ihp htypes.2⟩

theorem Decl.Denotes.mono (ht : t.Within t') {d : Decl} {type : Ty} (h : d.Denotes ⟨r, t⟩ type) :
    d.Denotes ⟨r, t'⟩ type := by
  cases h with
  | func hsig hresult => exact .func (hsig.mono ht) hresult
  | var hwritten => exact .var (hwritten.mono ht)
  | basic => exact .basic
  | typedef htarget => exact .typedef (htarget.mono ht)

mutual

theorem Expr.HasType.mono (ht : t.Within t') {e : Expr} {type : Ty} :
    e.HasType ⟨r, t⟩ type → e.HasType ⟨r, t'⟩ type
  | .int hfits => .int hfits
  | .char => .char
  | .name hident => .name (hident.mono ht)
  | .paren hinner => .paren (hinner.mono ht)
  | .neg hoperand hscalar => .neg (hoperand.mono ht) hscalar
  | .not hoperand hscalar => .not (hoperand.mono ht) hscalar
  | .binary hlhs hrhs hscalar hassign => .binary (hlhs.mono ht) (hrhs.mono ht) hscalar hassign
  | .call hcallee hargs => .call (hcallee.mono ht) (hargs.mono ht)
  | .index harray hposition hscalar => .index (harray.mono ht) (hposition.mono ht) hscalar

theorem Expr.ArgsFit.mono (ht : t.Within t') {params : List Ty} {args : List Expr} :
    Expr.ArgsFit ⟨r, t⟩ params args → Expr.ArgsFit ⟨r, t'⟩ params args
  | .nil => .nil
  | .cons harg hparam hrest => .cons (harg.mono ht) hparam (hrest.mono ht)

end

theorem Decl.IsVariable.mono (ht : t.Within t') {d : Decl} (h : d.IsVariable ⟨r, t⟩) :
    d.IsVariable ⟨r, t'⟩ := by
  cases h with
  | plain hd hcomplete => exact .plain (ht.decl? hd) hcomplete
  | initialized hd hscalar hinit => exact .initialized (ht.decl? hd) hscalar (hinit.mono ht)

mutual

theorem Stmt.WellTyped.mono (ht : t.Within t') {s : Stmt} {result : Ty} :
    s.WellTyped ⟨r, t⟩ result → s.WellTyped ⟨r, t'⟩ result
  | .block hitems => .block (hitems.mono ht)
  | .empty => .empty
  | .expr hvalue => .expr (hvalue.mono ht)
  | .branch hcond hscalar honTrue => .branch (hcond.mono ht) hscalar (honTrue.mono ht)
  | .branchElse hcond hscalar honTrue honFalse =>
    .branchElse (hcond.mono ht) hscalar (honTrue.mono ht) (honFalse.mono ht)
  | .ret hvoid => .ret hvoid
  | .retValue hvalue hresult hcompatible => .retValue (hvalue.mono ht) hresult hcompatible
  | .loop hcond hscalar hbody => .loop (hcond.mono ht) hscalar (hbody.mono ht)

theorem Item.Typed.mono (ht : t.Within t') {item : Item} {result : Ty} :
    item.Typed ⟨r, t⟩ result → item.Typed ⟨r, t'⟩ result
  | .decl hd => .decl (hd.mono ht)
  | .stmt hs => .stmt (hs.mono ht)

theorem Item.AllTyped.mono (ht : t.Within t') {items : List Item} {result : Ty} :
    Item.AllTyped ⟨r, t⟩ result items → Item.AllTyped ⟨r, t'⟩ result items
  | .nil => .nil
  | .cons hitem hrest => .cons (hitem.mono ht) (hrest.mono ht)

end

theorem Decl.WellTyped.mono (ht : t.Within t') {d : Decl} (h : d.WellTyped ⟨r, t⟩) :
    d.WellTyped ⟨r, t'⟩ := by
  cases h with
  | prototype hd => exact .prototype (ht.decl? hd)
  | definition hd hbody =>
    exact .definition (ht.decl? hd) ⟨hbody.type_eq, hbody.typed.mono ht, hbody.returns⟩
  | var hvar => exact .var (hvar.mono ht)
  | typeName htype hd => exact .typeName htype (ht.decl? hd)

end

/-! The rules leave no choice. -/

section

variable {a : Analysis}

theorem Ident.HasType.unique {ident : Ident} {d d' : Decl} {type type' : Ty}
    (h : ident.HasType a d type) (h' : ident.HasType a d' type') : d = d' ∧ type = type' := by
  obtain rfl : d = d' := Option.some.inj (h.declOf.symm.trans h'.declOf)
  exact ⟨rfl, Option.some.inj (h.typeOf.symm.trans h'.typeOf)⟩

theorem TypeExpr.Denotes.unique {written : TypeExpr} {type type' : Ty}
    (h : written.Denotes a type) (h' : written.Denotes a type') : type = type' := by
  induction h generalizing type' with
  | named hdecl _ hd =>
    cases h' with
    | named hdecl' _ hd' =>
      obtain rfl := Option.some.inj (hdecl.symm.trans hdecl')
      exact Option.some.inj (hd.symm.trans hd')
  | array _ _ ih =>
    cases h' with
    | array helem _ => rw [ih helem]
  | func _ htypes _ ih =>
    cases h' with
    | func hresult htypes' _ =>
      have heq := (List.map_inj_right fun _ _ => Option.some.inj).mp (htypes.symm.trans htypes')
      rw [ih hresult, heq]

theorem Decl.Denotes.unique {d : Decl} {type type' : Ty} (h : d.Denotes a type)
    (h' : d.Denotes a type') : type = type' := by
  cases h with
  | func hsig _ =>
    cases h' with
    | func hsig' _ => exact hsig.unique hsig'
  | var hwritten =>
    cases h' with
    | var hwritten' => exact hwritten.unique hwritten'
  | basic =>
    cases h' with
    | basic => rfl
  | typedef htarget =>
    cases h' with
    | typedef htarget' => exact htarget.unique htarget'

/-- An expression has one type. -/
theorem Expr.HasType.unique {type type' : Ty} :
    {e : Expr} → e.HasType a type → e.HasType a type' → type = type'
  | .literal .., .int _, .int _ => rfl
  | .literal .., .char, .char => rfl
  | .name .., .name h, .name h' => (h.unique h').2
  | .paren .., .paren h, .paren h' => h.unique h'
  | .unary .., .neg h _, .neg h' _ => h.unique h'
  | .unary .., .not _ _, .not _ _ => rfl
  | .binary .., .binary h _ _ _, .binary h' _ _ _ => h.unique h'
  | .call .., .call h _, .call h' _ => (Ty.func.inj (h.unique h').2).1
  | .index .., .index h _ _, .index h' _ _ => (Ty.array.inj (h.unique h').2).1

end

end MicroC
