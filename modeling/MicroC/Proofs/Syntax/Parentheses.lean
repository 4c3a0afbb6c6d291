import MicroC.Constant.Fold
import MicroC.Proofs.Pair
import MicroC.Proofs.Syntax.Shape
import MicroC.Scope.Basic
import MicroC.Typing.Returns

/-!
Trees that differ in parentheses. Two trees are alike if one can be made from the other by putting
expressions in parentheses or taking them out. Declarations and uses of names keep their numbers;
all other numbers and all positions may differ.
-/

namespace MicroC

structure Ident.Alike (ident ident' : Ident) : Prop where
  id_eq : ident.id = ident'.id
  name_eq : ident.name = ident'.name

mutual

inductive Expr.Alike : Expr → Expr → Prop
  | literal {id id' : ExprId} {value : Literal} {span span' : Span} :
    Expr.Alike (.literal id value span) (.literal id' value span')
  | binary {id id' : ExprId} {op : BinaryOp} {span span' : Span} {lhs lhs' rhs rhs' : Expr} :
    lhs.Alike lhs' → rhs.Alike rhs' →
    Expr.Alike (.binary id op span lhs rhs) (.binary id' op span' lhs' rhs')
  | call {id id' : ExprId} {callee callee' : Ident} {lparen lparen' rparen rparen' : Span}
      {args args' : List Expr} :
    callee.Alike callee' → Expr.AllAlike args args' →
    Expr.Alike (.call id callee lparen args rparen) (.call id' callee' lparen' args' rparen')
  | name {id id' : ExprId} {ident ident' : Ident} :
    ident.Alike ident' → Expr.Alike (.name id ident) (.name id' ident')
  | index {id id' : ExprId} {array array' : Ident} {lbracket lbracket' rbracket rbracket' : Span}
      {position position' : Expr} :
    array.Alike array' → position.Alike position' →
    Expr.Alike (.index id array lbracket position rbracket)
      (.index id' array' lbracket' position' rbracket')
  | unary {id id' : ExprId} {op : UnaryOp} {span span' : Span} {operand operand' : Expr} :
    operand.Alike operand' → Expr.Alike (.unary id op span operand) (.unary id' op span' operand')
  /-- The first expression has parentheses that the second lacks. -/
  | opened {id : ExprId} {lparen rparen : Span} {inner e' : Expr} :
    inner.Alike e' → Expr.Alike (.paren id lparen inner rparen) e'
  /-- The second expression has parentheses that the first lacks. -/
  | wrapped {id : ExprId} {lparen rparen : Span} {e inner' : Expr} :
    e.Alike inner' → Expr.Alike e (.paren id lparen inner' rparen)

inductive Expr.AllAlike : List Expr → List Expr → Prop
  | nil : Expr.AllAlike [] []
  | cons {e e' : Expr} {rest rest' : List Expr} :
    e.Alike e' → Expr.AllAlike rest rest' → Expr.AllAlike (e :: rest) (e' :: rest')

end

mutual

inductive TypeExpr.Alike : TypeExpr → TypeExpr → Prop
  | named {id id' : TypeId} {ident ident' : Ident} :
    ident.Alike ident' → TypeExpr.Alike (.named id ident) (.named id' ident')
  | array {id id' : TypeId} {elem elem' : TypeExpr} {lbracket lbracket' rbracket rbracket' : Span}
      {len : Option Nat} :
    elem.Alike elem' →
    TypeExpr.Alike (.array id elem lbracket len rbracket) (.array id' elem' lbracket' len rbracket')
  | func {id id' : TypeId} {result result' : TypeExpr} {lparen lparen' rparen rparen' : Span}
      {params params' : List Decl} :
    result.Alike result' → Decl.AllAlike params params' →
    TypeExpr.Alike (.func id result lparen params rparen)
      (.func id' result' lparen' params' rparen')

inductive Decl.Alike : Decl → Decl → Prop
  | prototype {id : DeclId} {name : String} {span span' : Span} {signature signature' : TypeExpr} :
    signature.Alike signature' →
    Decl.Alike (.func id name span signature none) (.func id name span' signature' none)
  | definition {id : DeclId} {name : String} {span span' : Span} {signature signature' : TypeExpr}
      {body body' : Stmt} :
    signature.Alike signature' → body.Alike body' →
    Decl.Alike (.func id name span signature (some body))
      (.func id name span' signature' (some body'))
  | plain {id : DeclId} {name : String} {span span' : Span} {type type' : TypeExpr} :
    type.Alike type' → Decl.Alike (.var id name span type none) (.var id name span' type' none)
  | initialized {id : DeclId} {name : String} {span span' : Span} {type type' : TypeExpr}
      {init init' : Expr} :
    type.Alike type' → init.Alike init' →
    Decl.Alike (.var id name span type (some init)) (.var id name span' type' (some init'))
  | basic {id : DeclId} {name : String} {span span' : Span} {kind : BasicKind} :
    Decl.Alike (.basic id name span kind) (.basic id name span' kind)
  | typedef {id : DeclId} {name : String} {span span' : Span} {target target' : TypeExpr} :
    target.Alike target' →
    Decl.Alike (.typedef id name span target) (.typedef id name span' target')

inductive Decl.AllAlike : List Decl → List Decl → Prop
  | nil : Decl.AllAlike [] []
  | cons {d d' : Decl} {rest rest' : List Decl} :
    d.Alike d' → Decl.AllAlike rest rest' → Decl.AllAlike (d :: rest) (d' :: rest')

inductive Stmt.Alike : Stmt → Stmt → Prop
  | block {id id' : StmtId} {lbrace lbrace' rbrace rbrace' : Span} {items items' : List Item} :
    Item.AllAlike items items' →
    Stmt.Alike (.block id lbrace items rbrace) (.block id' lbrace' items' rbrace')
  | empty {id id' : StmtId} {span span' : Span} : Stmt.Alike (.empty id span) (.empty id' span')
  | expr {id id' : StmtId} {value value' : Expr} :
    value.Alike value' → Stmt.Alike (.expr id value) (.expr id' value')
  | branch {id id' : StmtId} {span span' : Span} {cond cond' : Expr} {onTrue onTrue' : Stmt} :
    cond.Alike cond' → onTrue.Alike onTrue' →
    Stmt.Alike (.branch id span cond onTrue none) (.branch id' span' cond' onTrue' none)
  | branchElse {id id' : StmtId} {span span' : Span} {cond cond' : Expr}
      {onTrue onTrue' onFalse onFalse' : Stmt} :
    cond.Alike cond' → onTrue.Alike onTrue' → onFalse.Alike onFalse' →
    Stmt.Alike (.branch id span cond onTrue (some onFalse))
      (.branch id' span' cond' onTrue' (some onFalse'))
  | ret {id id' : StmtId} {span span' : Span} : Stmt.Alike (.ret id span none) (.ret id' span' none)
  | retValue {id id' : StmtId} {span span' : Span} {value value' : Expr} :
    value.Alike value' → Stmt.Alike (.ret id span (some value)) (.ret id' span' (some value'))
  | loop {id id' : StmtId} {span span' : Span} {cond cond' : Expr} {body body' : Stmt} :
    cond.Alike cond' → body.Alike body' →
    Stmt.Alike (.loop id span cond body) (.loop id' span' cond' body')

inductive Item.Alike : Item → Item → Prop
  | decl {d d' : Decl} : d.Alike d' → Item.Alike (.decl d) (.decl d')
  | stmt {s s' : Stmt} : s.Alike s' → Item.Alike (.stmt s) (.stmt s')

inductive Item.AllAlike : List Item → List Item → Prop
  | nil : Item.AllAlike [] []
  | cons {item item' : Item} {rest rest' : List Item} :
    item.Alike item' → Item.AllAlike rest rest' → Item.AllAlike (item :: rest) (item' :: rest')

end

/-! A tree is like itself, so one pair of parentheses more is enough for a difference. -/

theorem Ident.Alike.refl (ident : Ident) : ident.Alike ident := ⟨rfl, rfl⟩

mutual

theorem Expr.Alike.refl : (e : Expr) → e.Alike e
  | .literal .. => .literal
  | .binary _ _ _ lhs rhs => .binary (.refl lhs) (.refl rhs)
  | .call _ callee _ args _ => .call (.refl callee) (.refl args)
  | .name _ ident => .name (.refl ident)
  | .index _ array _ position _ => .index (.refl array) (.refl position)
  | .paren _ _ inner _ => .opened (.wrapped (.refl inner))
  | .unary _ _ _ operand => .unary (.refl operand)

theorem Expr.AllAlike.refl : (es : List Expr) → Expr.AllAlike es es
  | [] => .nil
  | e :: rest => .cons (.refl e) (.refl rest)

end

mutual

theorem TypeExpr.Alike.refl : (t : TypeExpr) → t.Alike t
  | .named _ ident => .named (.refl ident)
  | .array _ elem _ _ _ => .array (.refl elem)
  | .func _ result _ params _ => .func (.refl result) (.refl params)

theorem Decl.Alike.refl : (d : Decl) → d.Alike d
  | .func _ _ _ signature none => .prototype (.refl signature)
  | .func _ _ _ signature (some body) => .definition (.refl signature) (.refl body)
  | .var _ _ _ type none => .plain (.refl type)
  | .var _ _ _ type (some init) => .initialized (.refl type) (.refl init)
  | .basic .. => .basic
  | .typedef _ _ _ target => .typedef (.refl target)

theorem Decl.AllAlike.refl : (ds : List Decl) → Decl.AllAlike ds ds
  | [] => .nil
  | d :: rest => .cons (.refl d) (.refl rest)

theorem Stmt.Alike.refl : (s : Stmt) → s.Alike s
  | .block _ _ items _ => .block (.refl items)
  | .empty .. => .empty
  | .expr _ value => .expr (.refl value)
  | .branch _ _ cond onTrue none => .branch (.refl cond) (.refl onTrue)
  | .branch _ _ cond onTrue (some onFalse) => .branchElse (.refl cond) (.refl onTrue) (.refl onFalse)
  | .ret _ _ none => .ret
  | .ret _ _ (some value) => .retValue (.refl value)
  | .loop _ _ cond body => .loop (.refl cond) (.refl body)

theorem Item.Alike.refl : (item : Item) → item.Alike item
  | .decl d => .decl (.refl d)
  | .stmt s => .stmt (.refl s)

theorem Item.AllAlike.refl : (items : List Item) → Item.AllAlike items items
  | [] => .nil
  | item :: rest => .cons (.refl item) (.refl rest)

end

/-! What parentheses do not change. -/

theorem Ident.Alike.symm {ident ident' : Ident} (h : ident.Alike ident') : ident'.Alike ident :=
  ⟨h.id_eq.symm, h.name_eq.symm⟩

mutual

theorem Expr.Alike.symm {e e' : Expr} : e.Alike e' → e'.Alike e
  | .literal => .literal
  | .binary hlhs hrhs => .binary hlhs.symm hrhs.symm
  | .call hcallee hargs => .call hcallee.symm hargs.symm
  | .name hident => .name hident.symm
  | .index harray hposition => .index harray.symm hposition.symm
  | .unary hoperand => .unary hoperand.symm
  | .opened hinner => .wrapped hinner.symm
  | .wrapped hinner => .opened hinner.symm

theorem Expr.AllAlike.symm {es es' : List Expr} : Expr.AllAlike es es' → Expr.AllAlike es' es
  | .nil => .nil
  | .cons he hrest => .cons he.symm hrest.symm

end

theorem Expr.AllAlike.length_eq {es es' : List Expr} : Expr.AllAlike es es' → es.length = es'.length
  | .nil => rfl
  | .cons _ hrest => congrArg Nat.succ hrest.length_eq

theorem Expr.Alike.isAssignable_eq {e e' : Expr} :
    e.Alike e' → e.isAssignable = e'.isAssignable
  | .literal | .binary _ _ | .call _ _ | .name _ | .index _ _ | .unary _ => rfl
  | .opened hinner | .wrapped hinner => hinner.isAssignable_eq

mutual

theorem Stmt.Alike.alwaysReturns_eq {s s' : Stmt} : s.Alike s' → s.alwaysReturns = s'.alwaysReturns
  | .block hitems => hitems.anyReturns_eq
  | .branchElse _ honTrue honFalse => by
    rw [Stmt.alwaysReturns, Stmt.alwaysReturns, honTrue.alwaysReturns_eq, honFalse.alwaysReturns_eq]
  | .empty | .expr _ | .branch _ _ | .ret | .retValue _ | .loop _ _ => rfl

theorem Item.Alike.alwaysReturns_eq {item item' : Item} :
    item.Alike item' → item.alwaysReturns = item'.alwaysReturns
  | .decl _ => rfl
  | .stmt hs => hs.alwaysReturns_eq

theorem Item.AllAlike.anyReturns_eq {items items' : List Item} :
    Item.AllAlike items items' → Item.anyReturns items = Item.anyReturns items'
  | .nil => rfl
  | .cons hitem hrest => by
    rw [Item.anyReturns, Item.anyReturns, hitem.alwaysReturns_eq, hrest.anyReturns_eq]

end

namespace Decl.Alike

variable {d d' c c' : Decl}

theorem id_eq (h : d.Alike d') : d.id = d'.id := by
  cases h <;> rfl

theorem name_eq (h : d.Alike d') : d.name = d'.name := by
  cases h <;> rfl

theorem isType_eq (h : d.Alike d') : d.isType = d'.isType := by
  cases h <;> rfl

theorem isDefinition_eq (h : d.Alike d') : d.isDefinition = d'.isDefinition := by
  cases h <;> rfl

theorem sameSort_eq (h : d.Alike d') (h' : c.Alike c') : d.sameSort c = d'.sameSort c' := by
  cases h <;> cases h' <;> rfl

end Decl.Alike

/-! Constant expressions. -/

/-- The error without its position. -/
def ConstError.unplaced : ConstError → ConstError
  | .notConstant _ => .notConstant Span.builtin
  | .divisionByZero _ => .divisionByZero Span.builtin
  | .overflow type _ => .overflow type Span.builtin
  | .mixedOperands _ => .mixedOperands Span.builtin

/-- The same value, or the same error at another place. -/
abbrev FoldsAlike (x y : Except ConstError ScalarValue) : Prop :=
  Except.Rel (fun e e' => e.unplaced = e'.unplaced) Eq x y

theorem Scalar.fit_alike (kind : Scalar) (value : Int) (span span' : Span) :
    FoldsAlike (kind.fit value span) (kind.fit value span') := by
  unfold Scalar.fit
  split
  · exact .ok rfl
  · exact .error rfl

theorem BinaryOp.fold_alike (op : BinaryOp) (kind : Scalar) (x y : Int) (span span' : Span) :
    FoldsAlike (op.fold kind x y span) (op.fold kind x y span') := by
  cases op with
  | add | sub | mul => exact kind.fit_alike _ span span'
  | div =>
    simp only [BinaryOp.fold]
    split
    · exact .error rfl
    · exact kind.fit_alike _ span span'
  | lt | gt | le | ge | eq | ne | and => exact .ok rfl
  | assign => exact .error rfl

theorem Expr.Alike.fold : {e e' : Expr} → e.Alike e' → FoldsAlike e.fold e'.fold
  | .literal _ (.int value) _, _, .literal => Scalar.fit_alike .int value _ _
  | .literal _ (.char _) _, _, .literal => .ok rfl
  | _, _, .opened hinner | _, _, .wrapped hinner => hinner.fold
  | .unary _ .neg _ _, _, .unary hoperand => by
    refine hoperand.fold.bind ?_
    rintro v _ rfl
    exact Scalar.fit_alike v.kind _ _ _
  | .unary _ .not _ _, _, .unary hoperand => by
    refine hoperand.fold.bind ?_
    rintro v _ rfl
    exact .ok rfl
  | .binary _ op _ _ _, _, .binary hlhs hrhs => by
    rw [Expr.fold, Expr.fold]
    split
    · exact .error rfl
    · refine hlhs.fold.bind ?_
      rintro left _ rfl
      split
      · exact .ok rfl
      · refine hrhs.fold.bind ?_
        rintro right _ rfl
        split
        · exact .error rfl
        · exact op.fold_alike _ _ _ _ _
  | _, _, .call _ _ | _, _, .name _ | _, _, .index _ _ => .error rfl

end MicroC
