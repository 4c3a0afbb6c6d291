import MicroC.Proofs.Typing.Table

/-!
The expressions in a table of types. The checker enters the type of an expression only when it
meets the expression, so a table has entries for no other numbers than those of the expressions
that the program reaches.
-/

namespace MicroC

/-- Only expressions of the program have entries. -/
def TypeTable.Reached (p : Program) (t : TypeTable) : Prop :=
  ∀ id type, t.exprs[id]? = some type → ∃ e, .enter (.expr e) ∈ p.events ∧ e.id = id

theorem TypeTable.Reached.setExpr {p : Program} {t : TypeTable} (h : t.Reached p) {e : Expr}
    (he : .enter (.expr e) ∈ p.events) (type : Ty) : (t.setExpr e.id type).Reached p := by
  intro id type' hentry
  by_cases hid : e.id = id
  · exact ⟨e, he, hid⟩
  · simp only [TypeTable.setExpr, Std.TreeMap.getElem?_insert, Nat.compare_eq_eq, hid, if_false]
      at hentry
    exact h id type' hentry

/-- An entry for an expression that the program holds is that of an expression it reaches. -/
theorem TypeTable.Reached.enter_mem {p : Program} {t : TypeTable} (h : t.Reached p)
    (hp : p.Coherent) {e : Expr} (he : p.Holds (.expr e)) {type : Ty}
    (htype : t.expr? e = some type) : .enter (.expr e) ∈ p.events := by
  obtain ⟨e', he', hid⟩ := h e.id type htype
  have hheld : p.exprs[e.id]? = some e := he
  have hheld' : p.exprs[e'.id]? = some e' := hp.reached _ he'
  rw [hid, hheld] at hheld'
  exact Option.some.inj hheld' ▸ he'

/-- A step of the checker makes entries for no other expressions. -/
def CheckM.Stays {α : Type} (p : Program) (m : CheckM α) : Prop :=
  ∀ t : TypeTable, t.Reached p → Run (fun _ => True) m t fun _ t' => t'.Reached p

namespace CheckM.Stays

variable {α β : Type} {p : Program}

theorem pure {x : α} : CheckM.Stays p (Pure.pure x) := fun _ ht => ht

theorem throw {e : TypeError} : CheckM.Stays (α := α) p (MonadExcept.throw e) := fun _ _ => trivial

theorem bind {m : CheckM α} {f : α → CheckM β} (hm : CheckM.Stays p m)
    (hf : ∀ x, CheckM.Stays p (f x)) : CheckM.Stays p (m >>= f) := by
  intro t ht
  exact Run.bind_iff.mpr (Run.mono (hm t ht) fun x t' ht' => hf x t' ht')

theorem discard {m : CheckM α} (hm : CheckM.Stays p m) : CheckM.Stays p (discard m) :=
  fun t ht => Run.discard_iff.mpr (hm t ht)

theorem memoDecl {id : DeclId} {compute : CheckM Ty} (h : CheckM.Stays p compute) :
    CheckM.Stays p (CheckM.memoDecl id compute) := by
  intro t ht
  unfold CheckM.memoDecl
  simp only [Run.bind_iff, Run.get_iff]
  split
  · exact ht
  · exact Run.bind_iff.mpr (Run.mono (h t ht) fun type t' ht' => ht')

theorem memoExpr {e : Expr} (he : .enter (.expr e) ∈ p.events) {compute : CheckM Ty}
    (h : CheckM.Stays p compute) : CheckM.Stays p (CheckM.memoExpr e.id compute) := by
  intro t ht
  unfold CheckM.memoExpr
  simp only [Run.bind_iff, Run.get_iff]
  split
  · exact ht
  · exact Run.bind_iff.mpr (Run.mono (h t ht) fun type t' ht' => ht'.setExpr he type)

end CheckM.Stays

open CheckM

section

variable {p : Program} {r : Resolution} {named : List DeclId → Ident → CheckM Ty}

/-! Types of declarations. -/

mutual

theorem TypeExpr.denote_stays (hnamed : ∀ expanding ident, Stays p (named expanding ident))
    (expanding : List DeclId) : (written : TypeExpr) → Stays p (written.denote .refuse named expanding)
  | .named _ ident => hnamed expanding ident
  | .array _ elem _ _ _ => by
    refine (elem.denote_stays hnamed expanding).bind ?_
    intro type
    split
    · exact .pure
    · exact .throw
  | .func _ result _ params _ => by
    refine (result.denote_stays hnamed expanding).bind ?_
    intro type
    exact (Decl.paramTypes_stays hnamed expanding params).bind fun _ => .pure

theorem Decl.typeWith_stays (hnamed : ∀ expanding ident, Stays p (named expanding ident))
    (expanding : List DeclId) : (d : Decl) → Stays p (d.typeWith .refuse named expanding)
  | .func _ _ _ signature _ => by
    refine .memoDecl ((signature.denote_stays hnamed expanding).bind ?_)
    intro type
    split
    · split
      · exact .pure
      · exact .throw
    · exact .pure
  | .var _ _ _ type _ => .memoDecl (type.denote_stays hnamed expanding)
  | .basic .. => .memoDecl .pure
  | .typedef id _ _ target => by
    refine .memoDecl ?_
    split
    · exact .throw
    · exact target.denote_stays hnamed (id :: expanding)

theorem Decl.paramTypes_stays (hnamed : ∀ expanding ident, Stays p (named expanding ident))
    (expanding : List DeclId) : (ds : List Decl) → Stays p (Decl.paramTypes .refuse named expanding ds)
  | [] => .pure
  | d :: rest => by
    refine (d.typeWith_stays hnamed expanding).bind ?_
    intro type
    split
    · exact (Decl.paramTypes_stays hnamed expanding rest).bind fun _ => .pure
    · exact .throw

end

theorem Resolution.declOf_stays (ident : Ident) : Stays p (r.declOf ident) := by
  unfold Resolution.declOf
  split
  · exact .pure
  · exact .throw

theorem Resolution.namedType_stays (depth : Nat) :
    ∀ expanding ident, Stays p (r.namedType .refuse depth expanding ident) := by
  induction depth with
  | zero => exact fun _ _ => .throw
  | succ depth ih =>
    intro expanding ident
    refine (Resolution.declOf_stays ident).bind ?_
    intro d
    split
    · exact d.typeWith_stays ih expanding
    · exact .throw

theorem Decl.typeOf_stays (d : Decl) : Stays p (d.typeOf r) :=
  d.typeWith_stays (Resolution.namedType_stays _) []

theorem Ident.typeOf_stays (ident : Ident) : Stays p (ident.typeOf r) := by
  refine (Resolution.declOf_stays ident).bind ?_
  intro d
  split
  · exact .throw
  · exact d.typeOf_stays

/-! Expressions. -/

theorem BinaryOp.resultType_stays (op : BinaryOp) (opSpan : Span) (assignable : Bool)
    (lhs rhs : Ty) : Stays p (op.resultType opSpan assignable lhs rhs) := by
  unfold BinaryOp.resultType
  split
  · exact .throw
  · split
    · exact .throw
    · split
      · exact .throw
      · exact .pure

mutual

theorem Expr.typeOf_stays : (e : Expr) → e.events ⊆ p.events → Stays p (e.typeOf r)
  | .literal _ (.int _) _, he => by
    refine .memoExpr (he (Expr.enter_mem_events _)) ?_
    split
    · exact .pure
    · exact .throw
  | .literal _ (.char _) _, he => .memoExpr (he (Expr.enter_mem_events _)) .pure
  | .name _ ident, he => .memoExpr (he (Expr.enter_mem_events _)) ident.typeOf_stays
  | .paren _ _ inner _, he =>
    .memoExpr (he (Expr.enter_mem_events _)) (inner.typeOf_stays (Node.inside_events he))
  | .unary _ op _ operand, he => by
    refine .memoExpr (he (Expr.enter_mem_events _))
      ((operand.typeOf_stays (Node.inside_events he)).bind ?_)
    intro type
    split
    · exact .throw
    · cases op <;> exact .pure
  | .binary _ op opSpan lhs rhs, he => by
    obtain ⟨hlhs, hrhs⟩ := List.append_subset.mp (Node.inside_events he)
    refine .memoExpr (he (Expr.enter_mem_events _)) ((lhs.typeOf_stays hlhs).bind ?_)
    intro left
    exact (rhs.typeOf_stays hrhs).bind fun right => op.resultType_stays opSpan _ left right
  | .call _ callee _ args _, he => by
    obtain ⟨_, hargs⟩ := List.append_subset.mp (Node.inside_events he)
    refine .memoExpr (he (Expr.enter_mem_events _)) (callee.typeOf_stays.bind ?_)
    intro type
    split
    next result params =>
      split
      · exact .throw
      · exact (Expr.checkArgs_stays params args hargs).bind fun _ => .pure
    · exact .throw
  | .index _ array _ position _, he => by
    obtain ⟨_, hposition⟩ := List.append_subset.mp (Node.inside_events he)
    refine .memoExpr (he (Expr.enter_mem_events _)) (array.typeOf_stays.bind ?_)
    intro type
    split
    · exact .throw
    · refine (position.typeOf_stays hposition).bind ?_
      intro place
      split
      · exact .pure
      · exact .throw

theorem Expr.checkArgs_stays : (params : List Ty) → (args : List Expr) →
    Expr.eventsAll args ⊆ p.events → Stays p (Expr.checkArgs r params args)
  | [], [], _ | [], _ :: _, _ | _ :: _, [], _ => .pure
  | param :: params, arg :: args, hargs => by
    obtain ⟨harg, hrest⟩ := List.append_subset.mp hargs
    refine (arg.typeOf_stays harg).bind ?_
    intro type
    split
    · exact Expr.checkArgs_stays params args hrest
    · exact .throw

end

/-! Statements and declarations. -/

theorem Decl.checkVariable_stays (d : Decl) (type : Ty) (init : Option Expr)
    (hinit : ∀ e ∈ init, e.events ⊆ p.events) : Stays p (d.checkVariable r type init) := by
  unfold Decl.checkVariable
  split
  · exact .throw
  · cases init with
    | none => exact .pure
    | some init =>
      refine (init.typeOf_stays (hinit init rfl)).bind ?_
      intro found
      split
      · exact .pure
      · exact .throw

theorem Decl.init_events {id : DeclId} {name : String} {span : Span} {written : TypeExpr}
    {init : Option Expr} (h : (Decl.var id name span written init).events ⊆ p.events) :
    ∀ e ∈ init, e.events ⊆ p.events := by
  rintro e rfl
  exact (List.append_subset.mp (Node.inside_events h)).2

theorem Decl.checkLocal_stays (d : Decl) (hd : d.events ⊆ p.events) : Stays p (d.checkLocal r) := by
  cases d with
  | var id name span written init =>
    refine (Decl.typeOf_stays _).bind ?_
    intro type
    exact Decl.checkVariable_stays _ type init (Decl.init_events hd)
  | func _ _ _ _ _ | basic _ _ _ _ | typedef _ _ _ _ => exact .throw

theorem Expr.checkCondition_stays (cond : Expr) (hcond : cond.events ⊆ p.events) :
    Stays p (cond.checkCondition r) := by
  refine (cond.typeOf_stays hcond).bind ?_
  intro type
  split
  · exact .pure
  · exact .throw

mutual

theorem Stmt.check_stays (result : Ty) :
    (s : Stmt) → s.events ⊆ p.events → Stays p (s.check r result)
  | .block _ _ items _, hs => Item.checkAll_stays result items (Node.inside_events hs)
  | .empty .., _ => .pure
  | .expr _ value, hs => (value.typeOf_stays (Node.inside_events hs)).discard
  | .branch _ _ cond onTrue none, hs => by
    obtain ⟨hcond, honTrue⟩ := List.append_subset.mp (Node.inside_events hs)
    exact (cond.checkCondition_stays hcond).bind fun _ => onTrue.check_stays result honTrue
  | .branch _ _ cond onTrue (some onFalse), hs => by
    obtain ⟨hfirst, honFalse⟩ := List.append_subset.mp (Node.inside_events hs)
    obtain ⟨hcond, honTrue⟩ := List.append_subset.mp hfirst
    refine (cond.checkCondition_stays hcond).bind fun _ => ?_
    exact (onTrue.check_stays result honTrue).bind fun _ => onFalse.check_stays result honFalse
  | .ret _ _ none, _ => by
    rw [Stmt.check, Stmt.checkReturn]
    split
    · exact .pure
    · exact .throw
  | .ret _ _ (some value), hs => by
    refine (value.typeOf_stays (Node.inside_events hs)).bind ?_
    intro found
    split
    · exact .pure
    · exact .throw
  | .loop _ _ cond body, hs => by
    obtain ⟨hcond, hbody⟩ := List.append_subset.mp (Node.inside_events hs)
    exact (cond.checkCondition_stays hcond).bind fun _ => body.check_stays result hbody

theorem Item.check_stays (result : Ty) :
    (item : Item) → item.events ⊆ p.events → Stays p (item.check r result)
  | .decl d, hd => d.checkLocal_stays hd
  | .stmt s, hs => s.check_stays result hs

theorem Item.checkAll_stays (result : Ty) : (items : List Item) →
    Item.eventsAll items ⊆ p.events → Stays p (Item.checkAll r result items)
  | [], _ => .pure
  | item :: rest, hitems => by
    obtain ⟨hitem, hrest⟩ := List.append_subset.mp hitems
    exact (item.check_stays result hitem).bind fun _ => Item.checkAll_stays result rest hrest

end

theorem Decl.checkBinding_stays (d : Decl) (type : Ty) : Stays p (d.checkBinding r type) := by
  unfold Decl.checkBinding
  split
  · exact .pure
  · split
    · exact .pure
    · refine (Decl.typeOf_stays _).bind ?_
      intro bound
      split
      · exact .pure
      · exact .throw

theorem Decl.checkGlobal_stays (d : Decl) (hd : d.events ⊆ p.events) :
    Stays p (d.checkGlobal r) := by
  refine d.typeOf_stays.bind ?_
  intro type
  refine (d.checkBinding_stays type).bind fun _ => ?_
  cases d with
  | var id name span written init =>
    exact Decl.checkVariable_stays _ type init (Decl.init_events hd)
  | func id name span signature body =>
    cases body with
    | none => exact .pure
    | some body =>
      obtain ⟨_, hbody⟩ := List.append_subset.mp (Node.inside_events hd)
      cases type with
      | basic _ | array _ _ => exact .throw
      | func result params =>
        refine (body.check_stays result hbody).bind fun _ => ?_
        split
        · exact .throw
        · exact .pure
  | basic _ _ _ _ | typedef _ _ _ _ => exact .pure

end

/-- The table of a checked program has entries for expressions of the program only. -/
theorem Program.check_reached {p : Program} {r : Resolution} {t : TypeTable}
    (h : p.check r = .ok t) : t.Reached p := by
  have hall : ∀ ds : List Decl, (∀ d ∈ ds, d.events ⊆ p.events) →
      Stays p (ds.forM (Decl.checkGlobal r)) := by
    intro ds
    induction ds with
    | nil => exact fun _ => .pure
    | cons d rest ih =>
      intro hds
      refine (d.checkGlobal_stays (hds d List.mem_cons_self)).bind fun _ => ?_
      exact ih fun d hd => hds d (List.mem_cons_of_mem _ hd)
  have hfile := hall p.file fun d hd event hevent => p.mem_events hd hevent
  have hempty : ({} : TypeTable).Reached p := by simp [TypeTable.Reached]
  obtain ⟨⟨_, t'⟩, hrun, ht⟩ := Except.bind_eq_ok.mp h
  cases ht
  have hreached := hfile {} hempty
  exact hreached.of_ok hrun

end MicroC
