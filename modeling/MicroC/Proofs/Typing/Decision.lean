import MicroC.Proofs.Typing.Declarative
import MicroC.Proofs.Typing.Table

/-!
The checker decides the typing rules. Each of its steps ends with an error only if the rules give
no type to what is checked; otherwise the table holds the types that the rules give, and it holds
them for everything that has been looked at.
-/

namespace MicroC

/-! What a table knows. -/

mutual

/-- The parameters of the functions in a written type. -/
def TypeExpr.paramDecls : TypeExpr → List Decl
  | .named .. => []
  | .array _ elem _ _ _ => elem.paramDecls
  | .func _ result _ params _ => result.paramDecls ++ Decl.withParamDecls params

def Decl.paramDecls : Decl → List Decl
  | .func _ _ _ signature _ => signature.paramDecls
  | .var _ _ _ type _ => type.paramDecls
  | .basic .. => []
  | .typedef _ _ _ target => target.paramDecls

def Decl.withParamDecls : List Decl → List Decl
  | [] => []
  | d :: rest => d :: d.paramDecls ++ Decl.withParamDecls rest

end

namespace TypeTable

/-- The table has the type that the rules give to a declaration. -/
def HasDecl (r : Resolution) (t : TypeTable) (d : Decl) : Prop :=
  ∃ type, t.decl? d = some type ∧ d.Means r type

/-- The table has the type that the rules give to an expression. -/
def HasExpr (r : Resolution) (t : TypeTable) (e : Expr) : Prop :=
  ∃ type, t.expr? e = some type ∧ e.OfType r type

def Knows (r : Resolution) (t : TypeTable) (ds : List Decl) : Prop := ∀ d ∈ ds, t.HasDecl r d

/-- The table has the types of all declarations and expressions that are visited. -/
structure Covers (r : Resolution) (t : TypeTable) (events : List Event) : Prop where
  decls : ∀ d, .enter (.decl d) ∈ events → t.HasDecl r d
  exprs : ∀ e, .enter (.expr e) ∈ events → t.HasExpr r e

/-- The entries of a table are those that the rules give, and the table has the types of all
parameters and subexpressions of what it has a type for. -/
structure Exact (p : Program) (r : Resolution) (t : TypeTable) : Prop where
  decls : ∀ d type, p.Declares d → t.decl? d = some type → d.Means r type ∧ t.Knows r d.paramDecls
  exprs : ∀ e type, .enter (.expr e) ∈ p.events → t.expr? e = some type →
    e.OfType r type ∧ t.Covers r e.events

variable {p : Program} {r : Resolution} {t t' : TypeTable}

theorem HasDecl.mono {d : Decl} (h : t.HasDecl r d) (ht : t.Within t') : t'.HasDecl r d := by
  obtain ⟨type, htype, hmeans⟩ := h
  exact ⟨type, ht.decl? htype, hmeans⟩

theorem HasExpr.mono {e : Expr} (h : t.HasExpr r e) (ht : t.Within t') : t'.HasExpr r e := by
  obtain ⟨type, htype, hof⟩ := h
  exact ⟨type, ht.exprs e.id type htype, hof⟩

theorem Knows.mono {ds : List Decl} (h : t.Knows r ds) (ht : t.Within t') : t'.Knows r ds :=
  fun d hd => (h d hd).mono ht

theorem Knows.append {ds ds' : List Decl} (h : t.Knows r ds) (h' : t.Knows r ds') :
    t.Knows r (ds ++ ds') := by
  intro d hd
  exact (List.mem_append.mp hd).elim (h d) (h' d)

namespace Covers

variable {events events' children : List Event}

theorem mono (h : t.Covers r events) (ht : t.Within t') : t'.Covers r events :=
  ⟨fun d hd => (h.decls d hd).mono ht, fun e he => (h.exprs e he).mono ht⟩

theorem subset (h : t.Covers r events) (hsub : events' ⊆ events) : t.Covers r events' :=
  ⟨fun d hd => h.decls d (hsub hd), fun e he => h.exprs e (hsub he)⟩

theorem nil : t.Covers r [] := by constructor <;> simp

theorem append (h : t.Covers r events) (h' : t.Covers r events') : t.Covers r (events ++ events') := by
  constructor
  · intro d hd
    exact (List.mem_append.mp hd).elim (h.decls d) (h'.decls d)
  · intro e he
    exact (List.mem_append.mp he).elim (h.exprs e) (h'.exprs e)

theorem around {n : Node} (h : t.Covers r children) (hdecl : ∀ d, n = .decl d → t.HasDecl r d)
    (hexpr : ∀ e, n = .expr e → t.HasExpr r e) : t.Covers r (n.around children) := by
  constructor
  · intro d hd
    exact (Node.enter_mem_around.mp hd).elim (fun hn => hdecl d hn.symm) (h.decls d)
  · intro e he
    exact (Node.enter_mem_around.mp he).elim (fun hn => hexpr e hn.symm) (h.exprs e)

/-- Identifiers, written types and statements have no entries of their own. -/
theorem ident (i : Ident) : t.Covers r i.events := nil.around nofun nofun

theorem type {written : TypeExpr} (h : t.Covers r children) :
    t.Covers r ((Node.type written).around children) := h.around nofun nofun

theorem stmt {s : Stmt} (h : t.Covers r children) : t.Covers r ((Node.stmt s).around children) :=
  h.around nofun nofun

theorem expr {e : Expr} (h : t.Covers r children) (he : t.HasExpr r e) :
    t.Covers r ((Node.expr e).around children) := by
  refine h.around nofun ?_
  rintro _ ⟨⟩
  exact he

theorem decl {d : Decl} (h : t.Covers r children) (hd : t.HasDecl r d) :
    t.Covers r ((Node.decl d).around children) := by
  refine h.around ?_ nofun
  rintro _ ⟨⟩
  exact hd

end Covers

namespace Exact

theorem empty : Exact p r {} := by
  constructor <;> simp [decl?, expr?]

theorem within_setDecl (h : t.Exact p r) {d : Decl} {type : Ty} (hd : p.Declares d)
    (htype : d.Means r type) : t.Within (t.setDecl d.id type) :=
  TypeTable.within_setDecl fun type' hid => (h.decls d type' hd hid).1.unique htype

theorem setDecl (h : t.Exact p r) (hp : p.Coherent) {d : Decl} {type : Ty} (hd : p.Declares d)
    (htype : d.Means r type) (hparams : t.Knows r d.paramDecls) : (t.setDecl d.id type).Exact p r := by
  have hwithin := h.within_setDecl hd htype
  constructor
  · intro d' type' hd' htype'
    rw [decl?_setDecl] at htype'
    split at htype'
    next hid =>
      obtain rfl := hp.decl_eq hd hd' hid
      cases htype'
      exact ⟨htype, hparams.mono hwithin⟩
    next =>
      obtain ⟨hmeans, hknows⟩ := h.decls d' type' hd' htype'
      exact ⟨hmeans, hknows.mono hwithin⟩
  · intro e type' he htype'
    obtain ⟨hof, hcovers⟩ := h.exprs e type' he htype'
    exact ⟨hof, hcovers.mono hwithin⟩

theorem within_setExpr (h : t.Exact p r) {e : Expr} {type : Ty} (he : .enter (.expr e) ∈ p.events)
    (htype : e.OfType r type) : t.Within (t.setExpr e.id type) :=
  TypeTable.within_setExpr fun type' hid => (h.exprs e type' he hid).1.unique htype

theorem setExpr (h : t.Exact p r) (hp : p.Coherent) {e : Expr} {type : Ty} {children : List Event}
    (he : .enter (.expr e) ∈ p.events) (hevents : e.events = (Node.expr e).around children)
    (htype : e.OfType r type) (hchildren : t.Covers r children) : (t.setExpr e.id type).Exact p r := by
  have hwithin := h.within_setExpr he htype
  constructor
  · intro d type' hd htype'
    obtain ⟨hmeans, hknows⟩ := h.decls d type' hd htype'
    exact ⟨hmeans, hknows.mono hwithin⟩
  · intro e' type' he' htype'
    rw [expr?_setExpr] at htype'
    split at htype'
    next hid =>
      obtain rfl := hp.expr_eq he he' hid
      cases htype'
      refine ⟨htype, ?_⟩
      rw [hevents]
      exact (hchildren.mono hwithin).expr ⟨type, by simp [expr?_setExpr], htype⟩
    next =>
      obtain ⟨hof, hcovers⟩ := h.exprs e' type' he' htype'
      exact ⟨hof, hcovers.mono hwithin⟩

end Exact

end TypeTable

/-! Steps of the checker. -/

/-- What a step of the checker does from an exact table: it fails only if `Wrong`; otherwise the
table grows and stays exact, and the result obeys `Q`. -/
def CheckM.Decides {α : Type} (p : Program) (r : Resolution) (t : TypeTable) (m : CheckM α)
    (Wrong : Prop) (Q : α → TypeTable → Prop) : Prop :=
  t.Exact p r → Run (fun _ => Wrong) m t fun x t' => t.Within t' ∧ t'.Exact p r ∧ Q x t'

namespace CheckM.Decides

variable {α β : Type} {p : Program} {r : Resolution} {t : TypeTable} {Wrong Wrong' : Prop}

theorem pure {x : α} {Q : α → TypeTable → Prop} (h : Q x t) :
    CheckM.Decides p r t (Pure.pure x) Wrong Q :=
  fun ht => ⟨.refl t, ht, h⟩

theorem throw {e : TypeError} {Q : α → TypeTable → Prop} (h : Wrong) :
    CheckM.Decides p r t (MonadExcept.throw e) Wrong Q :=
  fun _ => h

theorem bind {m : CheckM α} {f : α → CheckM β} {Q : α → TypeTable → Prop}
    {R : β → TypeTable → Prop} (hm : CheckM.Decides p r t m Wrong Q) (hwrong : Wrong → Wrong')
    (hf : ∀ x t', t.Within t' → Q x t' → CheckM.Decides p r t' (f x) Wrong' R) :
    CheckM.Decides p r t (m >>= f) Wrong' R := by
  intro ht
  refine Run.bind_iff.mpr (Run.mono (Run.weaken (hm ht) fun _ => hwrong) ?_)
  rintro x t' ⟨hwithin, ht', hx⟩
  refine Run.mono (hf x t' hwithin hx ht') ?_
  rintro y t'' ⟨hwithin', ht'', hy⟩
  exact ⟨hwithin.trans hwithin', ht'', hy⟩

theorem mono {m : CheckM α} {Q Q' : α → TypeTable → Prop} (h : CheckM.Decides p r t m Wrong Q)
    (hwrong : Wrong → Wrong') (hmono : ∀ x t', t.Within t' → t'.Exact p r → Q x t' → Q' x t') :
    CheckM.Decides p r t m Wrong' Q' := by
  intro ht
  refine Run.mono (Run.weaken (h ht) fun _ => hwrong) ?_
  rintro x t' ⟨hwithin, ht', hx⟩
  exact ⟨hwithin, ht', hmono x t' hwithin ht' hx⟩

theorem discard {m : CheckM α} {Q : α → TypeTable → Prop} {R : TypeTable → Prop}
    (h : CheckM.Decides p r t m Wrong Q) (hwrong : Wrong → Wrong')
    (hR : ∀ x t', Q x t' → R t') : CheckM.Decides p r t (discard m) Wrong' fun _ => R := by
  intro ht
  refine Run.discard_iff.mpr (Run.mono (Run.weaken (h ht) fun _ => hwrong) ?_)
  rintro x t' ⟨hwithin, ht', hx⟩
  exact ⟨hwithin, ht', hR x t' hx⟩

/-- A declaration whose type may be known already. -/
theorem memoDecl (hp : p.Coherent) {d : Decl} (hd : p.Declares d) {compute : CheckM Ty}
    (hcompute : CheckM.Decides p r t compute (∀ type, ¬ d.Means r type) fun type t' =>
      d.Means r type ∧ t'.Knows r d.paramDecls) :
    CheckM.Decides p r t (CheckM.memoDecl d.id compute) (∀ type, ¬ d.Means r type) fun type t' =>
      d.Means r type ∧ t'.decl? d = some type ∧ t'.Knows r d.paramDecls := by
  intro ht
  unfold CheckM.memoDecl
  simp only [Run.bind_iff, Run.get_iff]
  split
  next type htype =>
    obtain ⟨hmeans, hknows⟩ := ht.decls d type hd htype
    exact ⟨.refl t, ht, hmeans, htype, hknows⟩
  next =>
    refine (Run.bind_iff.mpr (Run.mono (hcompute ht) ?_))
    rintro type t' ⟨hwithin, ht', hmeans, hknows⟩
    have hgrown := ht'.within_setDecl hd hmeans
    refine ⟨hwithin.trans hgrown, ht'.setDecl hp hd hmeans hknows, hmeans, ?_, hknows.mono hgrown⟩
    rw [TypeTable.decl?_setDecl, if_pos rfl]

/-- An expression whose type may be known already. -/
theorem memoExpr (hp : p.Coherent) {e : Expr} (he : e.events ⊆ p.events) {children : List Event}
    (hevents : e.events = (Node.expr e).around children) {compute : CheckM Ty}
    (hcompute : CheckM.Decides p r t compute (∀ type, ¬ e.OfType r type) fun type t' =>
      e.OfType r type ∧ t'.Covers r children) :
    CheckM.Decides p r t (CheckM.memoExpr e.id compute) (∀ type, ¬ e.OfType r type) fun type t' =>
      e.OfType r type ∧ t'.Covers r e.events := by
  intro ht
  have hin := he e.enter_mem_events
  unfold CheckM.memoExpr
  simp only [Run.bind_iff, Run.get_iff]
  split
  next type htype => exact ⟨.refl t, ht, ht.exprs e type hin htype⟩
  next =>
    refine (Run.bind_iff.mpr (Run.mono (hcompute ht) ?_))
    rintro type t' ⟨hwithin, ht', htype, hchildren⟩
    have hgrown := ht'.setExpr hp hin hevents htype hchildren
    refine ⟨hwithin.trans (ht'.within_setExpr hin htype), hgrown, htype, ?_⟩
    refine (hgrown.exprs e type hin ?_).2
    rw [TypeTable.expr?_setExpr, if_pos rfl]

end CheckM.Decides

end MicroC
