import MicroC.Proofs.Scope.Repetition
import MicroC.Proofs.Typing.Completeness
import MicroC.Proofs.Typing.Recall

/-!
A declaration that is checked once more. What names stand for is all that the checker asks a
resolution for, so a resolution that says the same about them gives the same types and the same
errors. After a first check all types that a second one asks for are in the table; it finds no
error and changes nothing.
-/

namespace MicroC

open CheckM

/-! What the checker asks for. -/

section

variable {r r' : Resolution}

namespace Resolution.SameNames

theorem declOf_eq (h : r.SameNames r') : r'.declOf = r.declOf := by
  funext ident
  unfold Resolution.declOf Resolution.declOf?
  rw [h.idents]

theorem nameDepth_eq (h : r.SameNames r') : r'.nameDepth = r.nameDepth := by
  have hequiv : r'.idents.Equiv r.idents := .of_forall_constGet?_eq h.idents
  unfold Resolution.nameDepth
  rw [hequiv.size_eq]

theorem namedType_eq (h : r.SameNames r') (depth : Nat) :
    r'.namedType .refuse depth = r.namedType .refuse depth := by
  induction depth with
  | zero => rfl
  | succ depth ih =>
    funext expanding ident
    simp only [Resolution.namedType, h.declOf_eq, ih]

end Resolution.SameNames

theorem Decl.typeOf_same (h : r.SameNames r') : Decl.typeOf r' = Decl.typeOf r := by
  funext d
  rw [Decl.typeOf, Decl.typeOf, Decl.expand, Decl.expand, h.nameDepth_eq, h.namedType_eq]

theorem Ident.typeOf_same (h : r.SameNames r') : Ident.typeOf r' = Ident.typeOf r := by
  funext ident
  rw [Ident.typeOf, Ident.typeOf, h.declOf_eq, Decl.typeOf_same h]

mutual

theorem Expr.typeOf_same (h : r.SameNames r') : (e : Expr) → e.typeOf r' = e.typeOf r
  | .literal _ (.int _) _ | .literal _ (.char _) _ => rfl
  | .name _ _ => by simp only [Expr.typeOf, Ident.typeOf_same h]
  | .paren _ _ inner _ => by simp only [Expr.typeOf, inner.typeOf_same h]
  | .unary _ _ _ operand => by simp only [Expr.typeOf, operand.typeOf_same h]
  | .binary _ _ _ lhs rhs => by simp only [Expr.typeOf, lhs.typeOf_same h, rhs.typeOf_same h]
  | .call _ _ _ args _ => by
    simp only [Expr.typeOf, Ident.typeOf_same h, Expr.checkArgs_same h args]
  | .index _ _ _ position _ => by
    simp only [Expr.typeOf, Ident.typeOf_same h, position.typeOf_same h]

theorem Expr.checkArgs_same (h : r.SameNames r') : (args : List Expr) → (params : List Ty) →
    Expr.checkArgs r' params args = Expr.checkArgs r params args
  | [], params => by cases params <;> rfl
  | _ :: _, [] => rfl
  | arg :: args, _ :: params => by
    simp only [Expr.checkArgs, arg.typeOf_same h, Expr.checkArgs_same h args params]

end

theorem Decl.checkVariable_same (h : r.SameNames r') (d : Decl) (type : Ty) (init : Option Expr) :
    d.checkVariable r' type init = d.checkVariable r type init := by
  cases init <;> simp only [Decl.checkVariable, Expr.typeOf_same h]

theorem Decl.checkLocal_same (h : r.SameNames r') (d : Decl) :
    d.checkLocal r' = d.checkLocal r := by
  cases d <;> simp only [Decl.checkLocal, Decl.typeOf_same h, Decl.checkVariable_same h]

theorem Expr.checkCondition_same (h : r.SameNames r') (cond : Expr) :
    cond.checkCondition r' = cond.checkCondition r := by
  rw [Expr.checkCondition, Expr.checkCondition, cond.typeOf_same h]

theorem Stmt.checkReturn_same (h : r.SameNames r') (result : Option Ty) (span : Span)
    (value : Option Expr) :
    Stmt.checkReturn r' result span value = Stmt.checkReturn r result span value := by
  cases result <;> cases value <;> simp only [Stmt.checkReturn, Expr.typeOf_same h]

mutual

theorem Stmt.check_same (h : r.SameNames r') (result : Ty) : (s : Stmt) →
    s.check r' result = s.check r result
  | .block _ _ items _ => Item.checkAll_same h result items
  | .empty .. => rfl
  | .expr _ value => by simp only [Stmt.check, value.typeOf_same h]
  | .branch _ _ cond onTrue none => by
    simp only [Stmt.check, cond.checkCondition_same h, onTrue.check_same h result]
  | .branch _ _ cond onTrue (some onFalse) => by
    simp only [Stmt.check, cond.checkCondition_same h, onTrue.check_same h result,
      onFalse.check_same h result]
  | .ret _ span value => Stmt.checkReturn_same h (some result) span value
  | .loop _ _ cond body => by
    simp only [Stmt.check, cond.checkCondition_same h, body.check_same h result]

theorem Item.check_same (h : r.SameNames r') (result : Ty) : (item : Item) →
    item.check r' result = item.check r result
  | .decl d => d.checkLocal_same h
  | .stmt s => s.check_same h result

theorem Item.checkAll_same (h : r.SameNames r') (result : Ty) : (items : List Item) →
    Item.checkAll r' result items = Item.checkAll r result items
  | [] => rfl
  | item :: rest => by
    simp only [Item.checkAll, item.check_same h result, Item.checkAll_same h result rest]

end

theorem Decl.checkBody_same (h : r.SameNames r') (d : Decl) (type : Ty) (body : Stmt) :
    d.checkBody r' type body = d.checkBody r type body := by
  cases type <;> simp only [Decl.checkBody, Stmt.check_same h]

theorem Decl.checkBinding_same (h : r.SameNames r') (d : Decl) (type : Ty) :
    d.checkBinding r' type = d.checkBinding r type := by
  simp only [Decl.checkBinding, h.bindings, Decl.typeOf_same h]

theorem Decl.checkGlobal_same (h : r.SameNames r') : Decl.checkGlobal r' = Decl.checkGlobal r := by
  funext d
  cases d with
  | func id name span signature body =>
    cases body <;> simp only [Decl.checkGlobal, Decl.typeOf_same h, Decl.checkBinding_same h,
      Decl.checkBody_same h]
  | var _ _ _ _ _ | basic _ _ _ _ | typedef _ _ _ _ =>
    simp only [Decl.checkGlobal, Decl.typeOf_same h, Decl.checkBinding_same h,
      Decl.checkVariable_same h]

end

/-! A check of what is known. -/

/-- The check leaves the table as it is. -/
def CheckM.Quiet {α : Type} (t : TypeTable) (m : CheckM α) : Prop :=
  Run (fun _ => True) m t fun _ t' => t' = t

namespace CheckM.Quiet

variable {α β : Type} {t : TypeTable}

theorem pure (x : α) : Quiet t (pure x) := rfl

theorem throw (e : TypeError) : Quiet t (throw e : CheckM α) := trivial

theorem bind {m : CheckM α} {f : α → CheckM β} (hm : Quiet t m) (hf : ∀ x, Quiet t (f x)) :
    Quiet t (m >>= f) := by
  refine Run.bind_iff.mpr (Run.mono hm ?_)
  rintro x t' rfl
  exact hf x

theorem ite {c : Prop} [Decidable c] {m n : CheckM α} (hm : Quiet t m) (hn : Quiet t n) :
    Quiet t (if c then m else n) := by
  split
  · exact hm
  · exact hn

theorem of_eq_ok {m : CheckM α} {x : α} (h : m t = .ok (x, t)) : Quiet t m := by
  unfold Quiet Run
  rw [h]

end CheckM.Quiet

section

variable {p : Program} {r : Resolution} {t : TypeTable} {events : List Event}

theorem TypeTable.HasDecl.quiet {d : Decl} (h : t.HasDecl r d) : Quiet t (d.typeOf r) := by
  obtain ⟨type, hknown, _⟩ := h
  cases d <;> exact .of_eq_ok (memoDecl_of_some _ hknown)

theorem TypeTable.HasExpr.quiet {e : Expr} (h : t.HasExpr r e) : Quiet t (e.typeOf r) := by
  obtain ⟨type, hknown, _⟩ := h
  cases e with
  | literal id value span => cases value <;> exact .of_eq_ok (memoExpr_of_some _ hknown)
  | name _ _ | paren _ _ _ _ | unary _ _ _ _ | binary _ _ _ _ _ | call _ _ _ _ _
  | index _ _ _ _ _ =>
    exact .of_eq_ok (memoExpr_of_some _ hknown)

theorem TypeTable.Covers.quiet (h : t.Covers r events) {e : Expr} (hin : e.events ⊆ events) :
    Quiet t (e.typeOf r) :=
  (h.exprs e (hin e.enter_mem_events)).quiet

theorem Decl.checkVariable_quiet {d : Decl} {type : Ty} {init : Option Expr}
    (h : ∀ e ∈ init, Quiet t (e.typeOf r)) : Quiet t (d.checkVariable r type init) := by
  refine .ite (.throw _) ?_
  cases init with
  | none => exact .pure _
  | some init => exact (h init rfl).bind fun _ => .ite (.pure _) (.throw _)

theorem Decl.checkLocal_quiet (h : t.Covers r events) {d : Decl} (hin : d.events ⊆ events) :
    Quiet t (d.checkLocal r) := by
  have hknown := (h.decls d (hin d.enter_mem_events)).quiet
  cases d with
  | var id name span written init =>
    refine hknown.bind fun type => checkVariable_quiet ?_
    rintro e rfl
    exact h.quiet (List.append_subset.mp (Node.inside_events hin)).2
  | func _ _ _ _ _ | basic _ _ _ _ | typedef _ _ _ _ => exact .throw _

theorem Expr.checkCondition_quiet {cond : Expr} (h : Quiet t (cond.typeOf r)) :
    Quiet t (cond.checkCondition r) :=
  h.bind fun _ => .ite (.pure _) (.throw _)

mutual

theorem Stmt.check_quiet (h : t.Covers r events) (result : Ty) : (s : Stmt) → s.events ⊆ events →
    Quiet t (s.check r result)
  | .block _ _ items _, hin => Item.checkAll_quiet h result items (Node.inside_events hin)
  | .empty .., _ => .pure _
  | .expr _ value, hin => (h.quiet (Node.inside_events hin)).bind fun _ => .pure _
  | .branch _ _ cond onTrue none, hin => by
    obtain ⟨hcond, honTrue⟩ := List.append_subset.mp (Node.inside_events hin)
    refine (Expr.checkCondition_quiet (h.quiet hcond)).bind fun _ => ?_
    exact onTrue.check_quiet h result honTrue
  | .branch _ _ cond onTrue (some onFalse), hin => by
    obtain ⟨hboth, honFalse⟩ := List.append_subset.mp (Node.inside_events hin)
    obtain ⟨hcond, honTrue⟩ := List.append_subset.mp hboth
    refine (Expr.checkCondition_quiet (h.quiet hcond)).bind fun _ => ?_
    exact (onTrue.check_quiet h result honTrue).bind fun _ => onFalse.check_quiet h result honFalse
  | .ret _ span none, _ => .ite (.pure _) (.throw _)
  | .ret _ span (some value), hin =>
    (h.quiet (Node.inside_events hin)).bind fun _ => .ite (.pure _) (.throw _)
  | .loop _ _ cond body, hin => by
    obtain ⟨hcond, hbody⟩ := List.append_subset.mp (Node.inside_events hin)
    refine (Expr.checkCondition_quiet (h.quiet hcond)).bind fun _ => ?_
    exact body.check_quiet h result hbody

theorem Item.check_quiet (h : t.Covers r events) (result : Ty) : (item : Item) →
    item.events ⊆ events → Quiet t (item.check r result)
  | .decl _, hin => Decl.checkLocal_quiet h hin
  | .stmt s, hin => s.check_quiet h result hin

theorem Item.checkAll_quiet (h : t.Covers r events) (result : Ty) : (items : List Item) →
    Item.eventsAll items ⊆ events → Quiet t (Item.checkAll r result items)
  | [], _ => .pure _
  | item :: rest, hin => by
    obtain ⟨hitem, hrest⟩ := List.append_subset.mp hin
    exact (item.check_quiet h result hitem).bind fun _ => Item.checkAll_quiet h result rest hrest

end

theorem Decl.checkBinding_quiet {d : Decl} {type : Ty}
    (h : ∀ b, r.fileBinding? d.name = some b → t.HasDecl r b) :
    Quiet t (d.checkBinding r type) := by
  unfold Decl.checkBinding
  cases hbinding : r.fileBinding? d.name with
  | none => exact .pure _
  | some b =>
    exact .ite (.pure _) ((h b hbinding).quiet.bind fun _ => .ite (.pure _) (.throw _))

theorem Decl.checkGlobal_quiet {d : Decl} (h : t.Records r d)
    (hbound : ∀ b, r.fileBinding? d.name = some b → t.HasDecl r b) : Quiet t (d.checkGlobal r) := by
  refine (h.knows d List.mem_cons_self).quiet.bind fun type => (checkBinding_quiet hbound).bind
    fun _ => ?_
  cases d with
  | func id name span signature body =>
    cases body with
    | none => exact .pure _
    | some body =>
      cases type with
      | func result params =>
        exact (body.check_quiet h.covers result fun _ hevent => hevent).bind fun _ =>
          .ite (.throw _) (.pure _)
      | basic _ | array _ _ => exact .throw _
  | var id name span written init =>
    refine checkVariable_quiet ?_
    rintro e rfl
    exact h.covers.quiet fun _ hevent => hevent
  | basic _ _ _ _ | typedef _ _ _ _ => exact .pure _

end

/-! Programs. -/

namespace Program

variable {p : Program} {d : Decl} {r r' : Resolution}

/-- A declaration that has been checked passes another check, which changes nothing. -/
theorem checkGlobal_again (hp : p.Coherent) (hr : r.Covers p) {t : TypeTable}
    (ht : p.check r = .ok t) (hd : d ∈ p.file) : d.checkGlobal r t = .ok ((), t) := by
  have hrecords := check_records hp hr ht
  have hdecides := Decl.checkGlobal_decides hp hr.refers hd (check_exact hp hr ht)
  obtain ⟨_, t', hrun, _⟩ :=
    Run.exists_ok (Run.weaken hdecides fun _ hwrong => hwrong (hrecords d hd).1)
  have hquiet : Quiet t (d.checkGlobal r) := by
    refine Decl.checkGlobal_quiet (hrecords d hd).2 fun b hb => ?_
    obtain ⟨hmem, _⟩ := hr.binding_mem d.name b hb
    exact (hrecords b hmem).2.knows b List.mem_cons_self
  obtain rfl : t' = t := Run.of_ok (Q := fun _ t' => t' = t) hquiet hrun
  exact hrun

/-- A declaration that is listed once more changes neither types nor errors. -/
theorem check_again (hp : p.Coherent) (hr : r.Covers p) (hd : d ∈ p.file)
    (hsame : r.SameNames r') : (p.again d).check r' = p.check r := by
  have hfold : ∀ t, (p.again d).file.forM (Decl.checkGlobal r') t =
      p.file.forM (Decl.checkGlobal r) t >>= fun out => d.checkGlobal r out.2 := by
    intro t
    rw [Decl.checkGlobal_same hsame]
    change (forM (p.file ++ [d]) (Decl.checkGlobal r) : CheckM PUnit) t = _
    rw [List.forM_append, List.forM_cons, List.forM_nil, bind_pure]
    rfl
  cases hrun : p.file.forM (Decl.checkGlobal r) {} with
  | error e =>
    simp only [check, StateT.run, hfold, hrun]
    rfl
  | ok out =>
    have ht : p.check r = .ok out.2 := by
      simp only [check, StateT.run, hrun]
      rfl
    rw [ht]
    simp only [check, StateT.run, hfold, hrun]
    show (d.checkGlobal r out.2 >>= _) = _
    rw [checkGlobal_again hp hr ht hd]
    rfl

end Program

end MicroC
