import MicroC.Proofs.Syntax.Equality
import MicroC.Proofs.Typing.Expansion
import MicroC.Samples

/-!
The checker accepts just the programs that are well typed by the rules. It then has the type of
every declaration and of every expression in a function body or an initializer.
-/

namespace MicroC

open CheckM

section

variable {p : Program} {r : Resolution} {t : TypeTable}

/-! Expressions. -/

theorem Ident.typeOf_decides (hp : p.Coherent) (hr : r.Refers p) (ident : Ident) :
    Decides p r t (ident.typeOf r) (∀ type, ¬ ident.OfType r type) fun type _ =>
      ident.OfType r type := by
  refine (r.declOf_decides hr ident).bind ?_ ?_
  · rintro hnone type ⟨d, hd, _⟩
    cases hnone.symm.trans hd
  · rintro d t' _ ⟨hd, hdeclares⟩
    have hident : ∀ type, ident.OfType r type → d.isType = false ∧ d.Means r type := by
      rintro type ⟨d', hd', hrest⟩
      rw [Option.some.inj (hd.symm.trans hd')]
      exact hrest
    split
    next htype =>
      refine .throw ?_
      intro type hof
      rw [(hident type hof).1] at htype
      cases htype
    next htype =>
      refine (Decl.typeOf_decides hp hr hdeclares).mono ?_ ?_
      · exact fun hwrong type hof => hwrong type (hident type hof).2
      · rintro type t'' _ _ ⟨hmeans, _⟩
        exact ⟨d, hd, by simpa using htype, hmeans⟩

theorem BinaryOp.resultType_decides {id : ExprId} {op : BinaryOp} {opSpan : Span} {lhs rhs : Expr}
    {left right : Ty} (hleft : lhs.OfType r left) (hright : rhs.OfType r right) :
    Decides p r t (op.resultType opSpan lhs.isAssignable left right)
      (∀ type, ¬ (Expr.binary id op opSpan lhs rhs).OfType r type) fun type t' =>
        (Expr.binary id op opSpan lhs rhs).OfType r type ∧ t' = t := by
  have hof : ∀ type, (Expr.binary id op opSpan lhs rhs).OfType r type →
      left = type ∧ right = type ∧ type.isScalar ∧ (op = .assign → lhs.isAssignable) := by
    rintro type ⟨hlhs, hrhs, hrest⟩
    exact ⟨hleft.unique hlhs, hright.unique hrhs, hrest⟩
  unfold BinaryOp.resultType
  split
  next hassign =>
    refine .throw ?_
    intro type htype
    obtain ⟨_, _, _, hassignable⟩ := hof type htype
    simp [hassignable hassign.1] at hassign
  next hassign =>
    split
    next hcompatible =>
      refine .throw ?_
      intro type htype
      obtain ⟨rfl, rfl, hscalar, _⟩ := hof type htype
      simp [Ty.compatible_self_of_isScalar hscalar] at hcompatible
    next hcompatible =>
      split
      next hscalar =>
        refine .throw ?_
        intro type htype
        obtain ⟨rfl, _, hscalar', _⟩ := hof type htype
        simp [hscalar'] at hscalar
      next hscalar =>
        have hscalar' : left.isScalar = true := by simpa using hscalar
        obtain rfl : right = left :=
          Ty.eq_of_compatible_of_isScalar (by simpa using hcompatible) hscalar'
        refine .pure ⟨⟨hleft, hright, hscalar', ?_⟩, rfl⟩
        intro hop
        simpa [hop] using hassign

theorem Expr.ArgsOfType.length_eq : {params : List Ty} → {args : List Expr} →
    Expr.ArgsOfType r params args → params.length = args.length
  | [], [], _ => rfl
  | _ :: _, _ :: _, h => congrArg (· + 1) (Expr.ArgsOfType.length_eq h.2)

/-- The checker finds the type of an expression, or there is none. -/
def Expr.IsDecided (p : Program) (r : Resolution) (t : TypeTable) (e : Expr) : Prop :=
  Decides p r t (e.typeOf r) (∀ type, ¬ e.OfType r type) fun type t' =>
    e.OfType r type ∧ t'.Covers r e.events

def Expr.AreDecided (p : Program) (r : Resolution) (t : TypeTable) (params : List Ty)
    (args : List Expr) : Prop :=
  Decides p r t (Expr.checkArgs r params args) (¬ Expr.ArgsOfType r params args) fun _ t' =>
    Expr.ArgsOfType r params args ∧ t'.Covers r (Expr.eventsAll args)

theorem Expr.unary_isDecided (hp : p.Coherent) {id : ExprId} {op : UnaryOp} {opSpan : Span}
    {operand : Expr} (hin : (Expr.unary id op opSpan operand).events ⊆ p.events)
    (hoperand : operand.IsDecided p r t) : (Expr.unary id op opSpan operand).IsDecided p r t := by
  have hof : ∀ type, (Expr.unary id op opSpan operand).OfType r type →
      ∃ found, operand.OfType r found ∧ found.isScalar := by
    intro type hof
    cases op with
    | neg => exact ⟨type, hof⟩
    | not => exact hof.2
  refine .memoExpr hp hin rfl (hoperand.bind ?_ ?_)
  · intro hwrong type htype
    obtain ⟨found, hfound, _⟩ := hof type htype
    exact hwrong found hfound
  · rintro found t' _ ⟨hfound, hcovers⟩
    split
    next hscalar =>
      refine .throw ?_
      intro type htype
      obtain ⟨found', hfound', hscalar'⟩ := hof type htype
      rw [hfound.unique hfound', hscalar'] at hscalar
      cases hscalar
    next hscalar =>
      have hscalar' : found.isScalar = true := by simpa using hscalar
      cases op with
      | neg => exact .pure ⟨⟨hfound, hscalar'⟩, hcovers⟩
      | not => exact .pure ⟨⟨rfl, found, hfound, hscalar'⟩, hcovers⟩

theorem Expr.call_isDecided (hp : p.Coherent) (hr : r.Refers p) {id : ExprId} {callee : Ident}
    {lparen rparen : Span} {args : List Expr}
    (hin : (Expr.call id callee lparen args rparen).events ⊆ p.events)
    (hargs : ∀ params t, params.length = args.length → Expr.AreDecided p r t params args) :
    (Expr.call id callee lparen args rparen).IsDecided p r t := by
  refine .memoExpr hp hin rfl ((Ident.typeOf_decides hp hr callee).bind ?_ ?_)
  · rintro hwrong type ⟨params, hcallee, _⟩
    exact hwrong _ hcallee
  · intro type t₁ _ hcallee
    split
    next result params =>
      have hof : ∀ type, (Expr.call id callee lparen args rparen).OfType r type →
          Expr.ArgsOfType r params args := by
        rintro type ⟨params', hcallee', hfit⟩
        cases hcallee.unique hcallee'
        exact hfit
      split
      next hlength => exact .throw fun type htype => hlength (hof type htype).length_eq
      next hlength =>
        refine (hargs params t₁ (by simpa using hlength)).bind
          (fun hwrong type htype => hwrong (hof type htype)) ?_
        rintro _ t₂ _ ⟨hfit, hcovers⟩
        exact .pure ⟨⟨params, hcallee, hfit⟩, (TypeTable.Covers.ident callee).append hcovers⟩
    next hother =>
      refine .throw ?_
      rintro type' ⟨params, hcallee', _⟩
      exact hother _ _ (hcallee.unique hcallee')

theorem Expr.index_isDecided (hp : p.Coherent) (hr : r.Refers p) {id : ExprId} {array : Ident}
    {lbracket rbracket : Span} {position : Expr}
    (hin : (Expr.index id array lbracket position rbracket).events ⊆ p.events)
    (hposition : ∀ t, position.IsDecided p r t) :
    (Expr.index id array lbracket position rbracket).IsDecided p r t := by
  refine .memoExpr hp hin rfl ((Ident.typeOf_decides hp hr array).bind ?_ ?_)
  · rintro hwrong type ⟨len, place, harray, _⟩
    exact hwrong _ harray
  · intro type t₁ _ harray
    cases type with
    | basic _ | func _ _ =>
      refine .throw ?_
      rintro type ⟨len, place, harray', _⟩
      cases harray.unique harray'
    | array elem len =>
      refine (hposition t₁).bind ?_ ?_
      · rintro hwrong type ⟨_, place, _, hplace, _⟩
        exact hwrong place hplace
      · rintro place t₂ _ ⟨hplace, hcovers⟩
        split
        next hscalar =>
          exact .pure ⟨⟨len, place, harray, hplace, hscalar⟩,
            (TypeTable.Covers.ident array).append hcovers⟩
        next hscalar =>
          refine .throw ?_
          rintro type ⟨_, place', _, hplace', hscalar'⟩
          rw [hplace.unique hplace'] at hscalar
          exact hscalar hscalar'

mutual

theorem Expr.isDecided (hp : p.Coherent) (hr : r.Refers p) :
    (e : Expr) → e.events ⊆ p.events → ∀ t, e.IsDecided p r t
  | .literal id (.int value) span, hin, t => by
    refine .memoExpr hp hin rfl ?_
    split
    next hfits => exact .pure ⟨⟨hfits, rfl⟩, .nil⟩
    next hfits => exact .throw fun type hof => hfits hof.1
  | .literal id (.char byte) span, hin, t => .memoExpr hp hin rfl (.pure ⟨rfl, .nil⟩)
  | .name id ident, hin, t => by
    refine .memoExpr hp hin rfl ((Ident.typeOf_decides hp hr ident).mono (fun hwrong => hwrong) ?_)
    intro type t' _ _ hof
    exact ⟨hof, .ident ident⟩
  | .paren id lparen inner rparen, hin, t =>
    .memoExpr hp hin rfl (inner.isDecided hp hr (Node.inside_events hin) t)
  | .unary id op opSpan operand, hin, t =>
    Expr.unary_isDecided hp hin (operand.isDecided hp hr (Node.inside_events hin) t)
  | .binary id op opSpan lhs rhs, hin, t => by
    obtain ⟨hlhs, hrhs⟩ := List.append_subset.mp (Node.inside_events hin)
    refine .memoExpr hp hin rfl ((lhs.isDecided hp hr hlhs t).bind ?_ ?_)
    · exact fun hwrong type hof => hwrong type hof.1
    · rintro left t₁ _ ⟨hleft, hcovers⟩
      refine (rhs.isDecided hp hr hrhs t₁).bind ?_ ?_
      · exact fun hwrong type hof => hwrong type hof.2.1
      · rintro right t₂ hwithin ⟨hright, hcovers'⟩
        refine (BinaryOp.resultType_decides hleft hright).mono (fun hwrong => hwrong) ?_
        rintro type t₃ _ _ ⟨hof, rfl⟩
        exact ⟨hof, (hcovers.mono hwithin).append hcovers'⟩
  | .call id callee lparen args rparen, hin, t => by
    obtain ⟨_, hargs⟩ := List.append_subset.mp (Node.inside_events hin)
    exact Expr.call_isDecided hp hr hin fun params t hlength =>
      Expr.areDecided hp hr params args hlength hargs t
  | .index id array lbracket position rbracket, hin, t => by
    obtain ⟨_, hposition⟩ := List.append_subset.mp (Node.inside_events hin)
    exact Expr.index_isDecided hp hr hin fun t => position.isDecided hp hr hposition t

theorem Expr.areDecided (hp : p.Coherent) (hr : r.Refers p) :
    (params : List Ty) → (args : List Expr) → params.length = args.length →
    Expr.eventsAll args ⊆ p.events → ∀ t, Expr.AreDecided p r t params args
  | [], [], _, _, t => .pure ⟨trivial, .nil⟩
  | [], _ :: _, hlength, _, _ | _ :: _, [], hlength, _, _ => by simp at hlength
  | param :: params, arg :: args, hlength, hin, t => by
    obtain ⟨harg, hargs⟩ := List.append_subset.mp hin
    refine (arg.isDecided hp hr harg t).bind ?_ ?_
    · rintro hwrong ⟨⟨type, htype, _⟩, _⟩
      exact hwrong type htype
    · rintro type t₁ _ ⟨htype, hcovers⟩
      split
      next hcompatible =>
        refine (Expr.areDecided hp hr params args (by simpa using hlength) hargs t₁).mono ?_ ?_
        · exact fun hwrong hfit => hwrong hfit.2
        · rintro _ t₂ hwithin _ ⟨hfit, hcovers'⟩
          exact ⟨⟨⟨type, htype, hcompatible⟩, hfit⟩, (hcovers.mono hwithin).append hcovers'⟩
      next hcompatible =>
        refine .throw ?_
        rintro ⟨⟨type', htype', hcompatible'⟩, _⟩
        rw [htype.unique htype'] at hcompatible
        exact hcompatible hcompatible'

end

/-! Statements. -/

theorem Expr.checkCondition_decides (hp : p.Coherent) (hr : r.Refers p) {cond : Expr}
    (hin : cond.events ⊆ p.events) :
    Decides p r t (cond.checkCondition r) (¬ cond.IsCondition r) fun _ t' =>
      cond.IsCondition r ∧ t'.Covers r cond.events := by
  refine (cond.isDecided hp hr hin t).bind ?_ ?_
  · rintro hwrong ⟨type, hof, _⟩
    exact hwrong type hof
  · rintro type t' _ ⟨hof, hcovers⟩
    split
    next hscalar => exact .pure ⟨⟨type, hof, hscalar⟩, hcovers⟩
    next hscalar =>
      refine .throw ?_
      rintro ⟨type', hof', hscalar'⟩
      rw [hof.unique hof'] at hscalar
      exact hscalar hscalar'

/-- The type of a variable has no parameters in it. -/
theorem TypeExpr.Means.covers {type : Ty} : {written : TypeExpr} → written.Means r type →
    (∀ result params, type ≠ .func result params) → t.Covers r written.events
  | .named _ ident, _, _ => (TypeTable.Covers.ident ident).type
  | .array _ _ _ _ _, hmeans, _ => by
    cases hmeans with
    | array helem hscalar =>
      refine (helem.covers ?_).type
      rintro result params rfl
      simp [Ty.isScalar] at hscalar
  | .func _ _ _ _ _, hmeans, hne => by
    cases hmeans with
    | func _ _ => exact absurd rfl (hne _ _)

theorem Ty.IsVariable.isComplete {type : Ty} {init : Option Expr} (h : type.IsVariable r init) :
    type.isComplete := by
  cases init with
  | none => exact h
  | some init =>
    obtain ⟨hscalar, _⟩ := h
    cases type with
    | basic kind => exact hscalar
    | array _ _ | func _ _ => simp [Ty.isScalar] at hscalar

/-- A variable of a type. -/
theorem Decl.checkVariable_decides (hp : p.Coherent) (hr : r.Refers p) {id : DeclId} {name : String}
    {span : Span} {written : TypeExpr} {init : Option Expr} {type : Ty}
    (hin : (Decl.var id name span written init).events ⊆ p.events)
    (hmeans : (Decl.var id name span written init).Means r type)
    (hknown : t.HasDecl r (.var id name span written init)) :
    Decides p r t ((Decl.var id name span written init).checkVariable r type init)
      (¬ type.IsVariable r init) fun _ t' =>
        type.IsVariable r init ∧ t'.Covers r (Decl.var id name span written init).events := by
  unfold Decl.checkVariable
  split
  next hcomplete =>
    refine .throw ?_
    intro hvariable
    simp [hvariable.isComplete] at hcomplete
  next hcomplete =>
    have hcomplete' : type.isComplete = true := by simpa using hcomplete
    have hwritten : ∀ t : TypeTable, t.Covers r written.events := by
      intro t
      cases hmeans with
      | var hwritten =>
        refine hwritten.covers ?_
        rintro result params rfl
        simp [Ty.isComplete, Ty.isScalar] at hcomplete'
    cases init with
    | none => exact .pure ⟨hcomplete', (hwritten t).decl hknown⟩
    | some init =>
      obtain ⟨_, hinit⟩ := List.append_subset.mp (Node.inside_events hin)
      refine (init.isDecided hp hr hinit t).bind ?_ ?_
      · exact fun hwrong hvariable => hwrong type hvariable.2
      · rintro found t' hwithin ⟨hfound, hcovers⟩
        split
        next hfits =>
          simp only [Bool.and_eq_true] at hfits
          obtain rfl := Ty.eq_of_compatible_of_isScalar hfits.2 hfits.1
          exact .pure ⟨⟨hfits.1, hfound⟩, ((hwritten t').append hcovers).decl (hknown.mono hwithin)⟩
        next hfits =>
          refine .throw ?_
          rintro ⟨hscalar, hof⟩
          rw [hfound.unique hof] at hfits
          simp [hscalar, Ty.compatible_self_of_isScalar hscalar] at hfits

theorem Decl.checkLocal_decides (hp : p.Coherent) (hr : r.Refers p) {d : Decl}
    (hin : d.events ⊆ p.events) :
    Decides p r t (d.checkLocal r) (¬ d.IsLocal r) fun _ t' =>
      d.IsLocal r ∧ t'.Covers r d.events := by
  cases d with
  | var id name span written init =>
    refine (Decl.typeOf_decides hp hr (.inr (hin (Decl.enter_mem_events _)))).bind ?_ ?_
    · rintro hwrong ⟨type, hmeans, _⟩
      exact hwrong type hmeans
    · rintro type t' _ ⟨hmeans, hknown, _⟩
      refine (Decl.checkVariable_decides hp hr hin hmeans ⟨type, hknown, hmeans⟩).mono ?_ ?_
      · rintro hwrong ⟨type', hmeans', hvariable⟩
        rw [hmeans'.unique hmeans] at hvariable
        exact hwrong hvariable
      · rintro _ t'' _ _ ⟨hvariable, hcovers⟩
        exact ⟨⟨type, hmeans, hvariable⟩, hcovers⟩
  | func _ _ _ _ _ | basic _ _ _ _ | typedef _ _ _ _ => exact .throw fun hlocal => hlocal

theorem Stmt.checkReturn_decides (hp : p.Coherent) (hr : r.Refers p) {id : StmtId} {result : Ty}
    {span : Span} {value : Option Expr} (hin : (Stmt.ret id span value).events ⊆ p.events) :
    Decides p r t (Stmt.checkReturn r (some result) span value) (¬ result.IsReturned r value) fun _ t' =>
      result.IsReturned r value ∧ t'.Covers r (Stmt.ret id span value).events := by
  cases value with
  | none =>
    rw [Stmt.checkReturn]
    split
    next hvoid => exact .pure ⟨hvoid, .stmt .nil⟩
    next hvoid => exact .throw hvoid
  | some value =>
    refine (value.isDecided hp hr (Node.inside_events hin) t).bind ?_ ?_
    · rintro hwrong ⟨_, type, hof, _⟩
      exact hwrong type hof
    · rintro found t' _ ⟨hfound, hcovers⟩
      split
      next hfits =>
        simp only [Bool.and_eq_true, Bool.not_eq_true'] at hfits
        exact .pure ⟨⟨hfits.1, found, hfound, hfits.2⟩, hcovers.stmt⟩
      next hfits =>
        refine .throw ?_
        rintro ⟨hvoid, type, hof, hcompatible⟩
        rw [hfound.unique hof] at hfits
        simp [hvoid, hcompatible] at hfits

mutual

theorem Stmt.check_decides (hp : p.Coherent) (hr : r.Refers p) (result : Ty) :
    (s : Stmt) → s.events ⊆ p.events → ∀ t,
    Decides p r t (s.check r result) (¬ s.Valid r result) fun _ t' =>
      s.Valid r result ∧ t'.Covers r s.events
  | .block id lbrace items rbrace, hin, t => by
    refine (Item.checkAll_decides hp hr result items (Node.inside_events hin) t).mono
      (fun hwrong => hwrong) ?_
    rintro _ t' _ _ ⟨hvalid, hcovers⟩
    exact ⟨hvalid, hcovers.stmt⟩
  | .empty id span, hin, t => .pure ⟨trivial, .stmt .nil⟩
  | .expr id value, hin, t => by
    refine (value.isDecided hp hr (Node.inside_events hin) t).discard ?_ ?_
    · rintro hwrong ⟨type, hof⟩
      exact hwrong type hof
    · rintro type t' ⟨hof, hcovers⟩
      exact ⟨⟨type, hof⟩, hcovers.stmt⟩
  | .branch id span cond onTrue none, hin, t => by
    obtain ⟨hcond, honTrue⟩ := List.append_subset.mp (Node.inside_events hin)
    refine (Expr.checkCondition_decides hp hr hcond).bind (fun hwrong hvalid => hwrong hvalid.1) ?_
    rintro _ t₁ _ ⟨hvalid, hcovers⟩
    refine (onTrue.check_decides hp hr result honTrue t₁).mono
      (fun hwrong hvalid => hwrong hvalid.2) ?_
    rintro _ t₂ hwithin _ ⟨hvalid', hcovers'⟩
    exact ⟨⟨hvalid, hvalid'⟩, ((hcovers.mono hwithin).append hcovers').stmt⟩
  | .branch id span cond onTrue (some onFalse), hin, t => by
    obtain ⟨hboth, honFalse⟩ := List.append_subset.mp (Node.inside_events hin)
    obtain ⟨hcond, honTrue⟩ := List.append_subset.mp hboth
    refine (Expr.checkCondition_decides hp hr hcond).bind (fun hwrong hvalid => hwrong hvalid.1) ?_
    rintro _ t₁ _ ⟨hvalid, hcovers⟩
    refine (onTrue.check_decides hp hr result honTrue t₁).bind
      (fun hwrong hvalid => hwrong hvalid.2.1) ?_
    rintro _ t₂ hwithin ⟨hvalid', hcovers'⟩
    refine (onFalse.check_decides hp hr result honFalse t₂).mono
      (fun hwrong hvalid => hwrong hvalid.2.2) ?_
    rintro _ t₃ hwithin' _ ⟨hvalid'', hcovers''⟩
    have hboth := ((hcovers.mono hwithin).append hcovers').mono hwithin'
    exact ⟨⟨hvalid, hvalid', hvalid''⟩, (hboth.append hcovers'').stmt⟩
  | .ret id span value, hin, t => Stmt.checkReturn_decides hp hr hin
  | .loop id span cond body, hin, t => by
    obtain ⟨hcond, hbody⟩ := List.append_subset.mp (Node.inside_events hin)
    refine (Expr.checkCondition_decides hp hr hcond).bind (fun hwrong hvalid => hwrong hvalid.1) ?_
    rintro _ t₁ _ ⟨hvalid, hcovers⟩
    refine (body.check_decides hp hr result hbody t₁).mono (fun hwrong hvalid => hwrong hvalid.2) ?_
    rintro _ t₂ hwithin _ ⟨hvalid', hcovers'⟩
    exact ⟨⟨hvalid, hvalid'⟩, ((hcovers.mono hwithin).append hcovers').stmt⟩

theorem Item.check_decides (hp : p.Coherent) (hr : r.Refers p) (result : Ty) :
    (item : Item) → item.events ⊆ p.events → ∀ t,
    Decides p r t (item.check r result) (¬ item.Valid r result) fun _ t' =>
      item.Valid r result ∧ t'.Covers r item.events
  | .decl _, hin, _ => Decl.checkLocal_decides hp hr hin
  | .stmt s, hin, t => s.check_decides hp hr result hin t

theorem Item.checkAll_decides (hp : p.Coherent) (hr : r.Refers p) (result : Ty) :
    (items : List Item) → Item.eventsAll items ⊆ p.events → ∀ t,
    Decides p r t (Item.checkAll r result items) (¬ Item.AllValid r result items) fun _ t' =>
      Item.AllValid r result items ∧ t'.Covers r (Item.eventsAll items)
  | [], _, t => .pure ⟨trivial, .nil⟩
  | item :: rest, hin, t => by
    obtain ⟨hitem, hrest⟩ := List.append_subset.mp hin
    refine (item.check_decides hp hr result hitem t).bind (fun hwrong hvalid => hwrong hvalid.1) ?_
    rintro _ t₁ _ ⟨hvalid, hcovers⟩
    refine (Item.checkAll_decides hp hr result rest hrest t₁).mono
      (fun hwrong hvalid => hwrong hvalid.2) ?_
    rintro _ t₂ hwithin _ ⟨hvalid', hcovers'⟩
    exact ⟨⟨hvalid, hvalid'⟩, (hcovers.mono hwithin).append hcovers'⟩

end

/-! Declarations at file level. -/

theorem Decl.checkBody_decides (hp : p.Coherent) (hr : r.Refers p) {d : Decl} {type : Ty}
    {body : Stmt} (hin : body.events ⊆ p.events) :
    Decides p r t (d.checkBody r type body)
      (¬ ∃ result params, type = .func result params ∧ body.Valid r result ∧
        (result.isVoid ∨ body.alwaysReturns)) fun _ t' =>
      (∃ result params, type = .func result params ∧ body.Valid r result ∧
        (result.isVoid ∨ body.alwaysReturns)) ∧ t'.Covers r body.events := by
  cases type with
  | basic _ | array _ _ =>
    refine .throw ?_
    rintro ⟨result, params, htype, _⟩
    cases htype
  | func result params =>
    refine (body.check_decides hp hr result hin t).bind ?_ ?_
    · rintro hwrong ⟨_, _, ⟨⟩, hvalid, _⟩
      exact hwrong hvalid
    · rintro _ t' _ ⟨hvalid, hcovers⟩
      split
      next hreturns =>
        refine .throw ?_
        rintro ⟨_, _, ⟨⟩, _, hreturns'⟩
        simp only [Bool.and_eq_true, Bool.not_eq_true'] at hreturns
        rcases hreturns' with hvoid | halways
        · simp [hvoid] at hreturns
        · simp [halways] at hreturns
      next hreturns =>
        refine .pure ⟨⟨result, params, rfl, hvalid, ?_⟩, hcovers⟩
        cases hvoid : result.isVoid with
        | true => exact .inl rfl
        | false =>
          rw [hvoid] at hreturns
          exact .inr (by simpa using hreturns)

theorem Decl.checkBinding_decides (hp : p.Coherent) (hr : r.Refers p) {d : Decl} {type : Ty}
    (hd : p.Declares d) :
    Decides p r t (d.checkBinding r type) (¬ d.Agrees r type) fun _ _ => d.Agrees r type := by
  unfold Decl.checkBinding
  split
  next hnone =>
    refine .pure ?_
    intro binding hbinding
    cases hnone.symm.trans hbinding
  next binding hbinding =>
    have hdeclares := hr.binding d.name binding hbinding
    split
    next hid =>
      refine .pure ?_
      intro binding' hbinding' hne
      obtain rfl := Option.some.inj (hbinding.symm.trans hbinding')
      exact absurd (hp.decl_eq hdeclares hd hid) hne
    next hid =>
      have hne : binding ≠ d := fun heq => hid (heq ▸ rfl)
      refine (Decl.typeOf_decides hp hr hdeclares).bind ?_ ?_
      · intro hwrong hagrees
        obtain ⟨bound, hbound, _⟩ := hagrees binding hbinding hne
        exact hwrong bound hbound
      · rintro bound t' _ ⟨hbound, _⟩
        split
        next hsame =>
          refine .pure ?_
          intro binding' hbinding' _
          obtain rfl := Option.some.inj (hbinding.symm.trans hbinding')
          exact ⟨bound, hbound, hsame⟩
        next hsame =>
          refine .throw ?_
          intro hagrees
          obtain ⟨bound', hbound', hsame'⟩ := hagrees binding hbinding hne
          rw [hbound.unique hbound'] at hsame
          exact hsame hsame'

/-- What is visited in the body of a function or in the initial value of a variable. -/
def Decl.contents : Decl → List Event
  | .func _ _ _ _ (some body) => body.events
  | .var _ _ _ _ (some init) => init.events
  | .func _ _ _ _ none | .var _ _ _ _ none | .basic .. | .typedef .. => []

/-- The table has the types of a declaration, its parameters and all that is inside. -/
structure TypeTable.Records (r : Resolution) (t : TypeTable) (d : Decl) : Prop where
  knows : t.Knows r (d :: d.paramDecls)
  covers : t.Covers r d.contents

theorem TypeTable.Records.mono {t' : TypeTable} {d : Decl} (h : t.Records r d) (ht : t.Within t') :
    t'.Records r d :=
  ⟨h.knows.mono ht, h.covers.mono ht⟩

theorem Decl.contents_subset (d : Decl) : d.contents ⊆ d.events := by
  cases d with
  | func _ _ _ _ body =>
    cases body with
    | none => exact List.nil_subset _
    | some body => exact (List.append_subset.mp (Node.inside_events (List.Subset.refl _))).2
  | var _ _ _ _ init =>
    cases init with
    | none => exact List.nil_subset _
    | some init => exact (List.append_subset.mp (Node.inside_events (List.Subset.refl _))).2
  | basic _ _ _ _ | typedef _ _ _ _ => exact List.nil_subset _

/-- Each expression in the body of a function has a type, which is in the table. -/
theorem TypeTable.Records.hasType {d : Decl} (h : t.Records r d) (hsound : t.Sound p r)
    (hd : d ∈ p.file) {e : Expr} (he : .enter (.expr e) ∈ d.contents) :
    ∃ type, t.expr? e = some type ∧ e.HasType ⟨r, t⟩ type := by
  obtain ⟨type, hknown, _⟩ := h.covers.exprs e he
  have hmem := p.events_subset (p.enter_mem_of_mem_file hd) (d.contents_subset he)
  exact ⟨type, hknown, hsound.exprs e type hmem hknown⟩

theorem Decl.checkGlobal_decides (hp : p.Coherent) (hr : r.Refers p) {d : Decl} (hd : d ∈ p.file) :
    Decides p r t (d.checkGlobal r) (¬ d.Valid r) fun _ t' => d.Valid r ∧ t'.Records r d := by
  have hin : d.events ⊆ p.events := p.events_subset (p.enter_mem_of_mem_file hd)
  have hdeclares := p.declares_of_mem_file hd
  refine (Decl.typeOf_decides hp hr hdeclares).bind ?_ ?_
  · rintro hwrong ⟨type, hmeans, _⟩
    exact hwrong type hmeans
  rintro type t₁ _ ⟨hmeans, hknown, hparams⟩
  have hvalid : d.Valid r → d.Agrees r type ∧ d.Fits r type := by
    rintro ⟨type', hmeans', hrest⟩
    rw [hmeans.unique hmeans']
    exact hrest
  refine (Decl.checkBinding_decides hp hr hdeclares).bind (fun hwrong h => hwrong (hvalid h).1) ?_
  intro _ t₂ hwithin hagrees
  have hself : t₂.HasDecl r d := ⟨type, hwithin.decl? hknown, hmeans⟩
  have hknows : t₂.Knows r (d :: d.paramDecls) :=
    List.forall_mem_cons.mpr ⟨hself, hparams.mono hwithin⟩
  -- It remains to check what is inside.
  have hinside : ∀ {m : CheckM Unit}, Decides p r t₂ m (¬ d.Fits r type) (fun _ t' =>
      d.Fits r type ∧ t'.Covers r d.contents) →
      Decides p r t₂ m (¬ d.Valid r) fun _ t' => d.Valid r ∧ t'.Records r d := by
    intro m hm
    refine hm.mono (fun hwrong h => hwrong (hvalid h).2) ?_
    rintro _ t₃ hwithin' _ ⟨hfits, hcovers⟩
    exact ⟨⟨type, hmeans, hagrees, hfits⟩, hknows.mono hwithin', hcovers⟩
  cases d with
  | func id name span signature body =>
    cases body with
    | none => exact hinside (.pure ⟨trivial, .nil⟩)
    | some body =>
      obtain ⟨_, hbody⟩ := List.append_subset.mp (Node.inside_events hin)
      exact hinside (Decl.checkBody_decides hp hr hbody)
  | var id name span written init =>
    refine hinside ((Decl.checkVariable_decides hp hr hin hmeans hself).mono (fun hwrong => hwrong) ?_)
    rintro _ t₃ _ _ ⟨hvariable, hcovers⟩
    refine ⟨hvariable, ?_⟩
    cases init with
    | none => exact .nil
    | some init =>
      refine hcovers.subset ?_
      intro event hevent
      exact List.mem_cons_of_mem _ (List.mem_append_left _ (List.mem_append_right _ hevent))
  | basic _ _ _ _ | typedef _ _ _ _ => exact hinside (.pure ⟨trivial, .nil⟩)

theorem Decl.checkAll_decides (hp : p.Coherent) (hr : r.Refers p) (ds : List Decl)
    (hds : ∀ d ∈ ds, d ∈ p.file) :
    Decides p r t (ds.forM (Decl.checkGlobal r)) (¬ ∀ d ∈ ds, d.Valid r) fun _ t' =>
      ∀ d ∈ ds, d.Valid r ∧ t'.Records r d := by
  induction ds generalizing t with
  | nil => exact .pure nofun
  | cons d rest ih =>
    refine (Decl.checkGlobal_decides hp hr (hds d List.mem_cons_self)).bind ?_ ?_
    · exact fun hwrong hvalid => hwrong (hvalid d List.mem_cons_self)
    · rintro _ t₁ _ ⟨hvalid, hrecords⟩
      refine (ih fun d hd => hds d (List.mem_cons_of_mem _ hd)).mono ?_ ?_
      · exact fun hwrong hvalid => hwrong fun d hd => hvalid d (List.mem_cons_of_mem _ hd)
      · intro _ t₂ hwithin _ hrest
        exact List.forall_mem_cons.mpr ⟨⟨hvalid, hrecords.mono hwithin⟩, hrest⟩

end

namespace Program

variable {p : Program} {r : Resolution}

private theorem check_run (hp : p.Coherent) (hr : r.Covers p) :
    Run (fun _ => ¬ ∀ d ∈ p.file, d.Valid r) (p.file.forM (Decl.checkGlobal r)) {} fun _ t =>
      t.Exact p r ∧ ∀ d ∈ p.file, d.Valid r ∧ t.Records r d :=
  Run.mono (Decl.checkAll_decides hp hr.refers p.file (fun _ hd => hd) .empty) fun _ _ h => h.2

private theorem check_decided (hp : p.Coherent) (hr : r.Covers p) {t : TypeTable}
    (h : p.check r = .ok t) : t.Exact p r ∧ ∀ d ∈ p.file, d.Valid r ∧ t.Records r d := by
  obtain ⟨⟨_, t'⟩, hrun, ht⟩ := Except.bind_eq_ok.mp h
  cases ht
  have hdecided := check_run hp hr
  exact hdecided.of_ok hrun

/-- The types that the checker finds are those that the rules give. -/
theorem check_exact (hp : p.Coherent) (hr : r.Covers p) {t : TypeTable} (h : p.check r = .ok t) :
    t.Exact p r :=
  (check_decided hp hr h).1

/-- An accepted program is valid, and its types are in the table. -/
theorem check_records (hp : p.Coherent) (hr : r.Covers p) {t : TypeTable} (h : p.check r = .ok t) :
    ∀ d ∈ p.file, d.Valid r ∧ t.Records r d :=
  (check_decided hp hr h).2

/-- A valid program is accepted. -/
theorem exists_check (hp : p.Coherent) (hr : r.Covers p) (hvalid : ∀ d ∈ p.file, d.Valid r) :
    ∃ t, p.check r = .ok t := by
  obtain ⟨_, t, hrun, _⟩ := Run.exists_ok (Run.weaken (check_run hp hr) fun _ hwrong => hwrong hvalid)
  exact ⟨t, Except.bind_eq_ok.mpr ⟨((), t), hrun, rfl⟩⟩

/-- The checker accepts a program if and only if every declaration at file level is valid. Then it
has the one type of each of them, of each parameter, and of each declaration and expression in a
function body or in the initial value of a variable. -/
theorem check_agrees_with_rules (p : Program) (hp : p.Coherent) (r : Resolution) (hr : p.resolve = .ok r) :
    ((∃ t, p.check r = .ok t) ↔ ∀ d ∈ p.file, d.Valid r) ∧
    ∀ t, p.check r = .ok t → ∀ d ∈ p.file,
      (∀ d', d' ∈ d :: d.paramDecls ∨ .enter (.decl d') ∈ d.contents →
        ∃ type, t.decl? d' = some type ∧ ∀ type', d'.Means r type' ↔ type' = type) ∧
      ∀ e, .enter (.expr e) ∈ d.contents →
        ∃ type, t.expr? e = some type ∧ ∀ type', e.OfType r type' ↔ type' = type := by
  have hcovers := resolve_covers hr
  refine ⟨⟨?_, exists_check hp hcovers⟩, ?_⟩
  · rintro ⟨t, ht⟩ d hd
    exact (check_records hp hcovers ht d hd).1
  · intro t ht d hd
    obtain ⟨_, hrecords⟩ := check_records hp hcovers ht d hd
    constructor
    · intro d' hd'
      obtain ⟨type, hknown, hmeans⟩ := hd'.elim (hrecords.knows d') (hrecords.covers.decls d')
      exact ⟨type, hknown, fun type' => ⟨fun h => h.unique hmeans, fun h => h ▸ hmeans⟩⟩
    · intro e he
      obtain ⟨type, hknown, hof⟩ := hrecords.covers.exprs e he
      exact ⟨type, hknown, fun type' => ⟨fun h => h.unique hof, fun h => h ▸ hof⟩⟩

/-- A function with a loop over an array that is passed to it. -/
theorem check_agrees_with_rules_arraySum : ∃ r, Samples.arraySum.resolve = .ok r ∧
    ∀ d ∈ Samples.arraySum.file, d.Valid r := by
  obtain ⟨r, hr, hchecks⟩ : ∃ r, Samples.arraySum.resolve = .ok r ∧
      (Samples.arraySum.check r).toOption.any fun _ => true :=
    Except.exists_of_any (by decide +kernel)
  obtain ⟨t, ht, _⟩ := Except.exists_of_any hchecks
  have hagrees := check_agrees_with_rules Samples.arraySum (by decide +kernel) r hr
  exact ⟨r, hr, hagrees.1.mp ⟨t, ht⟩⟩

end Program

end MicroC
