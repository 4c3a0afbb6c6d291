import MicroC.Proofs.Run
import MicroC.Proofs.Scope.Coverage
import MicroC.Proofs.Typing.Rules

/-!
Soundness of the checker. While a program is checked its table only grows, and every entry
obeys the typing rules over the table itself; what has been checked is well typed over the
final table. An identifier without a declaration is never met.
-/

namespace MicroC

/-- Every entry obeys the rules. -/
structure TypeTable.Sound (p : Program) (r : Resolution) (t : TypeTable) : Prop where
  decls : ∀ d type, p.Declares d → t.decl? d = some type → d.Denotes ⟨r, t⟩ type
  exprs : ∀ e type, .enter (.expr e) ∈ p.events → t.expr? e = some type → e.HasType ⟨r, t⟩ type

namespace TypeTable

variable {p : Program} {r : Resolution} {t : TypeTable}

theorem decl?_setDecl (d d' : Decl) (type : Ty) :
    (t.setDecl d.id type).decl? d' = if d.id = d'.id then some type else t.decl? d' := by
  simp [setDecl, decl?, Std.TreeMap.getElem?_insert]

theorem expr?_setExpr (e e' : Expr) (type : Ty) :
    (t.setExpr e.id type).expr? e' = if e.id = e'.id then some type else t.expr? e' := by
  simp [setExpr, expr?, Std.TreeMap.getElem?_insert]

/-- An entry can replace only itself. -/
theorem within_setDecl {id : DeclId} {type : Ty}
    (h : ∀ type', t.decls[id]? = some type' → type' = type) : t.Within (t.setDecl id type) := by
  refine ⟨?_, fun _ _ hid => hid⟩
  intro id' type' hid
  simp only [setDecl, Std.TreeMap.getElem?_insert, Nat.compare_eq_eq]
  split
  next heq =>
    subst heq
    rw [h type' hid]
  next => exact hid

theorem within_setExpr {id : ExprId} {type : Ty}
    (h : ∀ type', t.exprs[id]? = some type' → type' = type) : t.Within (t.setExpr id type) := by
  refine ⟨fun _ _ hid => hid, ?_⟩
  intro id' type' hid
  simp only [setExpr, Std.TreeMap.getElem?_insert, Nat.compare_eq_eq]
  split
  next heq =>
    subst heq
    rw [h type' hid]
  next => exact hid

theorem Sound.empty : TypeTable.Sound p r {} := by
  constructor <;> simp [decl?, expr?]

theorem Sound.within_setDecl (h : t.Sound p r) {d : Decl} {type : Ty} (hd : p.Declares d)
    (htype : d.Denotes ⟨r, t⟩ type) : t.Within (t.setDecl d.id type) :=
  TypeTable.within_setDecl fun type' hid => (h.decls d type' hd hid).unique htype

theorem Sound.setDecl (h : t.Sound p r) (hp : p.Coherent) {d : Decl} {type : Ty}
    (hd : p.Declares d) (htype : d.Denotes ⟨r, t⟩ type) : (t.setDecl d.id type).Sound p r := by
  have hwithin := h.within_setDecl hd htype
  constructor
  · intro d' type' hd' htype'
    rw [decl?_setDecl] at htype'
    split at htype'
    next hid =>
      obtain rfl := hp.decl_eq hd hd' hid
      cases htype'
      exact htype.mono hwithin
    next => exact (h.decls d' type' hd' htype').mono hwithin
  · intro e type' he htype'
    exact (h.exprs e type' he htype').mono hwithin

theorem Sound.within_setExpr (h : t.Sound p r) {e : Expr} {type : Ty}
    (he : .enter (.expr e) ∈ p.events) (htype : e.HasType ⟨r, t⟩ type) :
    t.Within (t.setExpr e.id type) :=
  TypeTable.within_setExpr fun type' hid => (h.exprs e type' he hid).unique htype

theorem Sound.setExpr (h : t.Sound p r) (hp : p.Coherent) {e : Expr} {type : Ty}
    (he : .enter (.expr e) ∈ p.events) (htype : e.HasType ⟨r, t⟩ type) :
    (t.setExpr e.id type).Sound p r := by
  have hwithin := h.within_setExpr he htype
  constructor
  · intro d type' hd htype'
    exact (h.decls d type' hd htype').mono hwithin
  · intro e' type' he' htype'
    rw [expr?_setExpr] at htype'
    split at htype'
    next hid =>
      obtain rfl := hp.expr_eq he he' hid
      cases htype'
      exact htype.mono hwithin
    next => exact (h.exprs e' type' he' htype').mono hwithin

end TypeTable

/-- What a step of the checker does from a table: the table grows and stays sound, the result
obeys `Q`, and an error is not a missing declaration. -/
def CheckM.Meets {α : Type} (p : Program) (r : Resolution) (t : TypeTable) (m : CheckM α)
    (Q : α → TypeTable → Prop) : Prop :=
  Run (fun e => ∀ span, e ≠ .unresolved span) m t fun x t' => t.Within t' ∧ t'.Sound p r ∧ Q x t'

namespace CheckM.Meets

variable {α β : Type} {p : Program} {r : Resolution} {t : TypeTable}

theorem pure {x : α} {Q : α → TypeTable → Prop} (ht : t.Sound p r) (h : Q x t) :
    CheckM.Meets p r t (Pure.pure x) Q :=
  ⟨.refl t, ht, h⟩

theorem throw {e : TypeError} {Q : α → TypeTable → Prop} (h : ∀ span, e ≠ .unresolved span) :
    CheckM.Meets p r t (MonadExcept.throw e) Q :=
  h

theorem bind {m : CheckM α} {f : α → CheckM β} {Q : α → TypeTable → Prop}
    {R : β → TypeTable → Prop} (hm : CheckM.Meets p r t m Q)
    (hf : ∀ x t', t.Within t' → t'.Sound p r → Q x t' → CheckM.Meets p r t' (f x) R) :
    CheckM.Meets p r t (m >>= f) R := by
  refine Run.bind_iff.mpr (Run.mono hm ?_)
  intro x t' ⟨hwithin, hsound, hx⟩
  refine Run.mono (hf x t' hwithin hsound hx) ?_
  intro y t'' ⟨hwithin', hsound', hy⟩
  exact ⟨hwithin.trans hwithin', hsound', hy⟩

theorem mono {m : CheckM α} {Q Q' : α → TypeTable → Prop} (h : CheckM.Meets p r t m Q)
    (hmono : ∀ x t', t.Within t' → t'.Sound p r → Q x t' → Q' x t') :
    CheckM.Meets p r t m Q' :=
  Run.mono h fun x t' ⟨hwithin, hsound, hx⟩ => ⟨hwithin, hsound, hmono x t' hwithin hsound hx⟩

/-- A declaration whose type may be known already. -/
theorem memoDecl (hp : p.Coherent) {d : Decl} (hd : p.Declares d) (ht : t.Sound p r)
    {compute : CheckM Ty}
    (hcompute : CheckM.Meets p r t compute fun type t' => d.Denotes ⟨r, t'⟩ type) :
    CheckM.Meets p r t (CheckM.memoDecl d.id compute) fun type t' => t'.decl? d = some type := by
  unfold CheckM.memoDecl CheckM.Meets
  simp only [Run.bind_iff, Run.get_iff]
  split
  next type htype => exact ⟨.refl t, ht, htype⟩
  next =>
    refine (Run.bind_iff.mpr (Run.mono hcompute ?_))
    rintro type t' ⟨hwithin, hsound, hdenotes⟩
    refine ⟨hwithin.trans (hsound.within_setDecl hd hdenotes), hsound.setDecl hp hd hdenotes, ?_⟩
    rw [TypeTable.decl?_setDecl, if_pos rfl]

/-- An expression whose type may be known already. -/
theorem memoExpr (hp : p.Coherent) {e : Expr} (he : .enter (.expr e) ∈ p.events)
    (ht : t.Sound p r) {compute : CheckM Ty}
    (hcompute : CheckM.Meets p r t compute fun type t' => e.HasType ⟨r, t'⟩ type) :
    CheckM.Meets p r t (CheckM.memoExpr e.id compute) fun type t' => e.HasType ⟨r, t'⟩ type := by
  unfold CheckM.memoExpr CheckM.Meets
  simp only [Run.bind_iff, Run.get_iff]
  split
  next type htype => exact ⟨.refl t, ht, ht.exprs e type he htype⟩
  next =>
    refine (Run.bind_iff.mpr (Run.mono hcompute ?_))
    rintro type t' ⟨hwithin, hsound, htype⟩
    have hgrown := hsound.within_setExpr he htype
    exact ⟨hwithin.trans hgrown, hsound.setExpr hp he htype, htype.mono hgrown⟩

end CheckM.Meets

/-- What reading a type name has to guarantee. -/
def CheckM.ReadsNames (p : Program) (r : Resolution) (named : List DeclId → Ident → CheckM Ty) :
    Prop :=
  ∀ expanding ident t, .enter (.ident ident) ∈ p.events → t.Sound p r →
    CheckM.Meets p r t (named expanding ident) fun type t' =>
      ∃ d, r.declOf? ident = some d ∧ d.isType ∧ t'.decl? d = some type

section

variable {p : Program} {r : Resolution} {named : List DeclId → Ident → CheckM Ty}

open CheckM

mutual

theorem TypeExpr.denote_meets (hp : p.Coherent) (hnamed : ReadsNames p r named) :
    (written : TypeExpr) → .enter (.type written) ∈ p.events → ∀ expanding t, t.Sound p r →
    Meets p r t (written.denote .refuse named expanding) fun type t' => written.Denotes ⟨r, t'⟩ type
  | .named id ident, hin, expanding, t, ht => by
    have hident : .enter (.ident ident) ∈ p.events :=
      p.events_subset hin (by simp [Node.events, TypeExpr.events])
    refine (hnamed expanding ident t hident ht).mono ?_
    intro type t' _ _ ⟨d, hd, htype, hknown⟩
    exact .named hd htype hknown
  | .array id elem lbracket len rbracket, hin, expanding, t, ht => by
    have helem : .enter (.type elem) ∈ p.events :=
      p.events_subset hin (by simp [Node.events, TypeExpr.events, elem.enter_mem_events])
    refine (elem.denote_meets hp hnamed helem expanding t ht).bind ?_
    intro type t' _ ht' helemType
    split
    next hscalar => exact .pure ht' (.array helemType hscalar)
    next => exact .throw (by simp [TypeError.notScalar])
  | .func id result lparen params rparen, hin, expanding, t, ht => by
    have hresult : .enter (.type result) ∈ p.events :=
      p.events_subset hin (by simp [Node.events, TypeExpr.events, result.enter_mem_events])
    have hparams : ∀ d ∈ params, p.Declares d := by
      intro d hd
      refine .inr (p.events_subset hin ?_)
      simp [Node.events, TypeExpr.events, Decl.mem_eventsAll hd d.enter_mem_events]
    refine (result.denote_meets hp hnamed hresult expanding t ht).bind ?_
    intro type t₁ _ ht₁ hresultType
    refine (Decl.paramTypes_meets hp hnamed params hparams expanding t₁ ht₁).bind ?_
    intro types t₂ hwithin ht₂ ⟨htypes, hisParam⟩
    exact .pure ht₂ (.func (hresultType.mono hwithin) htypes hisParam)

theorem Decl.typeWith_meets (hp : p.Coherent) (hnamed : ReadsNames p r named) :
    (d : Decl) → p.Declares d → ∀ expanding t, t.Sound p r →
    Meets p r t (d.typeWith .refuse named expanding) fun type t' => t'.decl? d = some type
  | .func id name span signature body, hd, expanding, t, ht => by
    have hin : .enter (.type signature) ∈ p.events := by
      refine p.events_subset (hd.entered (by simp [Decl.builtins])) ?_
      cases body <;> simp [Node.events, Decl.events, signature.enter_mem_events]
    refine .memoDecl hp hd ht ((signature.denote_meets hp hnamed hin expanding t ht).bind ?_)
    intro type t' _ ht' hsig
    split
    · split
      next hresult =>
        refine .pure ht' (.func hsig ?_)
        intro result params heq
        cases heq
        exact hresult
      next => exact .throw (by simp [TypeError.invalidObject])
    next hother =>
      refine .pure ht' (.func hsig ?_)
      intro result params heq
      exact absurd heq (hother result params)
  | .var id name span written init, hd, expanding, t, ht => by
    have hin : .enter (.type written) ∈ p.events := by
      refine p.events_subset (hd.entered (by simp [Decl.builtins])) ?_
      cases init <;> simp [Node.events, Decl.events, written.enter_mem_events]
    refine .memoDecl hp hd ht ((written.denote_meets hp hnamed hin expanding t ht).mono ?_)
    intro type t' _ _ hwritten
    exact .var hwritten
  | .basic id name span kind, hd, expanding, t, ht =>
    .memoDecl hp hd ht (.pure ht .basic)
  | .typedef id name span target, hd, expanding, t, ht => by
    have hin : .enter (.type target) ∈ p.events := by
      refine p.events_subset (hd.entered (by simp [Decl.builtins])) ?_
      simp [Node.events, Decl.events, target.enter_mem_events]
    refine .memoDecl hp hd ht ?_
    split
    · exact .throw (by simp)
    · refine (target.denote_meets hp hnamed hin (id :: expanding) t ht).mono ?_
      intro type t' _ _ htarget
      exact .typedef htarget

theorem Decl.paramTypes_meets (hp : p.Coherent) (hnamed : ReadsNames p r named) :
    (ds : List Decl) → (∀ d ∈ ds, p.Declares d) → ∀ expanding t, t.Sound p r →
    Meets p r t (Decl.paramTypes .refuse named expanding ds) fun types t' =>
      ds.map t'.decl? = types.map some ∧ ∀ type ∈ types, type.isParam
  | [], _, expanding, t, ht => .pure ht (by simp)
  | d :: rest, hds, expanding, t, ht => by
    refine (d.typeWith_meets hp hnamed (hds d List.mem_cons_self) expanding t ht).bind ?_
    intro type t₁ _ ht₁ hd
    split
    next hparam =>
      have hrest : ∀ d ∈ rest, p.Declares d := fun d hd => hds d (List.mem_cons_of_mem _ hd)
      refine (Decl.paramTypes_meets hp hnamed rest hrest expanding t₁ ht₁).bind ?_
      intro types t₂ hwithin ht₂ ⟨htypes, hisParam⟩
      refine .pure ht₂ ⟨?_, ?_⟩
      · simp [hwithin.decl? hd, htypes]
      · simpa [hparam] using hisParam
    next => exact .throw (by simp [TypeError.invalidObject])

end

variable {t : TypeTable}

theorem Resolution.declOf_meets (hr : r.Covers p) {ident : Ident}
    (hident : .enter (.ident ident) ∈ p.events) (ht : t.Sound p r) :
    Meets p r t (r.declOf ident) fun d _ => r.declOf? ident = some d ∧ p.Declares d := by
  obtain ⟨d, hd⟩ := hr.covers ident hident
  simp only [Resolution.declOf, hd]
  exact .pure ht ⟨rfl, hr.declares ident d hd⟩

theorem Resolution.namedType_readsNames (hp : p.Coherent) (hr : r.Covers p) (depth : Nat) :
    ReadsNames p r (r.namedType .refuse depth) := by
  induction depth with
  | zero =>
    intro expanding ident t _ _
    exact .throw (by simp)
  | succ depth ih =>
    intro expanding ident t hident ht
    refine (Resolution.declOf_meets hr hident ht).bind ?_
    intro d t₁ _ ht₁ ⟨hd, hdeclares⟩
    split
    next htype =>
      refine (d.typeWith_meets hp ih hdeclares expanding t₁ ht₁).mono ?_
      intro type t₂ _ _ hknown
      exact ⟨d, hd, htype, hknown⟩
    next => exact .throw (by simp)

theorem Decl.typeOf_meets (hp : p.Coherent) (hr : r.Covers p) {d : Decl} (hd : p.Declares d)
    (ht : t.Sound p r) : Meets p r t (d.typeOf r) fun type t' => t'.decl? d = some type :=
  d.typeWith_meets hp (Resolution.namedType_readsNames hp hr _) hd [] t ht

theorem Ident.typeOf_meets (hp : p.Coherent) (hr : r.Covers p) {ident : Ident}
    (hident : .enter (.ident ident) ∈ p.events) (ht : t.Sound p r) :
    Meets p r t (ident.typeOf r) fun type t' => ∃ d, ident.HasType ⟨r, t'⟩ d type := by
  refine (Resolution.declOf_meets hr hident ht).bind ?_
  intro d t₁ _ ht₁ ⟨hd, hdeclares⟩
  split
  · exact .throw (by simp)
  next hvalue =>
    refine (Decl.typeOf_meets hp hr hdeclares ht₁).mono ?_
    intro type t₂ _ _ hknown
    exact ⟨d, hd, by simpa using hvalue, hknown⟩

/-- Operands of one scalar type. -/
theorem BinaryOp.resultType_meets {op : BinaryOp} {opSpan : Span} {assignable : Bool}
    {left right : Ty} (ht : t.Sound p r) :
    Meets p r t (op.resultType opSpan assignable left right) fun type t' =>
      t' = t ∧ type = left ∧ right = left ∧ left.isScalar ∧ (op = .assign → assignable) := by
  unfold BinaryOp.resultType
  split
  · exact .throw (by simp)
  next hassign =>
    split
    · exact .throw (by simp)
    next hcompatible =>
      split
      · exact .throw (by simp [TypeError.notScalar])
      next hscalar =>
        have hscalar' : left.isScalar = true := by simpa using hscalar
        have hcompatible' : left.compatible right = true := by simpa using hcompatible
        refine .pure ht ⟨rfl, rfl, Ty.eq_of_compatible_of_isScalar hcompatible' hscalar', hscalar', ?_⟩
        intro hop
        simpa [hop] using hassign

mutual

theorem Expr.typeOf_meets (hp : p.Coherent) (hr : r.Covers p) :
    (e : Expr) → .enter (.expr e) ∈ p.events → ∀ t, t.Sound p r →
    Meets p r t (e.typeOf r) fun type t' => e.HasType ⟨r, t'⟩ type
  | .literal id (.int value) span, he, t, ht => by
    refine .memoExpr hp he ht ?_
    split
    next hfits => exact .pure ht (.int hfits)
    next => exact .throw (by simp)
  | .literal id (.char byte) span, he, t, ht => .memoExpr hp he ht (.pure ht .char)
  | .name id ident, he, t, ht => by
    have hident : .enter (.ident ident) ∈ p.events :=
      p.events_subset he (by simp [Node.events, Expr.events])
    refine .memoExpr hp he ht ((Ident.typeOf_meets hp hr hident ht).mono ?_)
    intro type t' _ _ ⟨d, hd⟩
    exact .name hd
  | .paren id lparen inner rparen, he, t, ht => by
    have hinner : .enter (.expr inner) ∈ p.events :=
      p.events_subset he (by simp [Node.events, Expr.events, inner.enter_mem_events])
    refine .memoExpr hp he ht ((inner.typeOf_meets hp hr hinner t ht).mono ?_)
    intro type t' _ _ htype
    exact .paren htype
  | .unary id op opSpan operand, he, t, ht => by
    have hoperand : .enter (.expr operand) ∈ p.events :=
      p.events_subset he (by simp [Node.events, Expr.events, operand.enter_mem_events])
    refine .memoExpr hp he ht ((operand.typeOf_meets hp hr hoperand t ht).bind ?_)
    intro type t' _ ht' htype
    split
    · exact .throw (by simp [TypeError.notScalar])
    next hscalar =>
      have hscalar' : type.isScalar = true := by simpa using hscalar
      cases op with
      | neg => exact .pure ht' (.neg htype hscalar')
      | not => exact .pure ht' (.not htype hscalar')
  | .binary id op opSpan lhs rhs, he, t, ht => by
    have hlhs : .enter (.expr lhs) ∈ p.events :=
      p.events_subset he (by simp [Node.events, Expr.events, lhs.enter_mem_events])
    have hrhs : .enter (.expr rhs) ∈ p.events :=
      p.events_subset he (by simp [Node.events, Expr.events, rhs.enter_mem_events])
    refine .memoExpr hp he ht ((lhs.typeOf_meets hp hr hlhs t ht).bind ?_)
    intro left t₁ _ ht₁ hleft
    refine (rhs.typeOf_meets hp hr hrhs t₁ ht₁).bind ?_
    intro right t₂ hwithin ht₂ hright
    refine (BinaryOp.resultType_meets ht₂).mono ?_
    rintro type t₃ _ _ ⟨rfl, rfl, rfl, hscalar, hassign⟩
    exact .binary (hleft.mono hwithin) hright hscalar hassign
  | .call id callee lparen args rparen, he, t, ht => by
    have hcallee : .enter (.ident callee) ∈ p.events :=
      p.events_subset he (by simp [Node.events, Expr.events])
    have hargs : ∀ arg ∈ args, .enter (.expr arg) ∈ p.events := by
      intro arg harg
      refine p.events_subset he ?_
      simp [Node.events, Expr.events, Expr.mem_eventsAll harg arg.enter_mem_events]
    refine .memoExpr hp he ht ((Ident.typeOf_meets hp hr hcallee ht).bind ?_)
    intro type t₁ _ ht₁ ⟨d, hd⟩
    split
    next result params =>
      split
      · exact .throw (by simp)
      next hlength =>
        have hlength' : params.length = args.length := by simpa using hlength
        refine (Expr.checkArgs_meets hp hr params args hlength' hargs t₁ ht₁).bind ?_
        intro _ t₂ hwithin ht₂ hfit
        exact .pure ht₂ (.call (hd.mono hwithin) hfit)
    next => exact .throw (by simp)
  | .index id array lbracket position rbracket, he, t, ht => by
    have harray : .enter (.ident array) ∈ p.events :=
      p.events_subset he (by simp [Node.events, Expr.events])
    have hposition : .enter (.expr position) ∈ p.events :=
      p.events_subset he (by simp [Node.events, Expr.events, position.enter_mem_events])
    refine .memoExpr hp he ht ((Ident.typeOf_meets hp hr harray ht).bind ?_)
    intro type t₁ _ ht₁ ⟨d, hd⟩
    cases type with
    | basic _ | func _ _ => exact .throw (by simp)
    | array elem len =>
      refine (position.typeOf_meets hp hr hposition t₁ ht₁).bind ?_
      intro place t₂ hwithin ht₂ hplace
      split
      next hscalar => exact .pure ht₂ (.index (hd.mono hwithin) hplace hscalar)
      next => exact .throw (by simp [TypeError.notScalar])

theorem Expr.checkArgs_meets (hp : p.Coherent) (hr : r.Covers p) :
    (params : List Ty) → (args : List Expr) → params.length = args.length →
    (∀ arg ∈ args, .enter (.expr arg) ∈ p.events) → ∀ t, t.Sound p r →
    Meets p r t (Expr.checkArgs r params args) fun _ t' => Expr.ArgsFit ⟨r, t'⟩ params args
  | [], [], _, _, t, ht => .pure ht .nil
  | [], _ :: _, hlength, _, _, _ | _ :: _, [], hlength, _, _, _ => by simp at hlength
  | param :: params, arg :: args, hlength, hargs, t, ht => by
    refine (arg.typeOf_meets hp hr (hargs arg List.mem_cons_self) t ht).bind ?_
    intro type t₁ _ ht₁ htype
    split
    next hcompatible =>
      have hrest : ∀ arg ∈ args, .enter (.expr arg) ∈ p.events :=
        fun arg harg => hargs arg (List.mem_cons_of_mem _ harg)
      refine (Expr.checkArgs_meets hp hr params args (by simpa using hlength) hrest t₁ ht₁).mono ?_
      intro _ t₂ hwithin _ hfit
      exact .cons (htype.mono hwithin) hcompatible hfit
    next => exact .throw (by simp)

end

/-- A variable whose type is in the table. -/
theorem Decl.checkVariable_meets (hp : p.Coherent) (hr : r.Covers p) {id : DeclId} {name : String}
    {span : Span} {written : TypeExpr} {init : Option Expr} {type : Ty}
    (hd : .enter (.decl (.var id name span written init)) ∈ p.events) (ht : t.Sound p r)
    (hknown : t.decl? (.var id name span written init) = some type) :
    Meets p r t ((Decl.var id name span written init).checkVariable r type init) fun _ t' =>
      (Decl.var id name span written init).IsVariable ⟨r, t'⟩ := by
  unfold Decl.checkVariable
  split
  · exact .throw (by simp [TypeError.invalidObject])
  next hcomplete =>
    have hcomplete' : type.isComplete = true := by simpa using hcomplete
    cases init with
    | none => exact .pure ht (.plain hknown hcomplete')
    | some init =>
      have hinit : .enter (.expr init) ∈ p.events :=
        p.events_subset hd (by simp [Node.events, Decl.events, init.enter_mem_events])
      refine (init.typeOf_meets hp hr hinit t ht).bind ?_
      intro found t' hwithin ht' hfound
      split
      next hfits =>
        simp only [Bool.and_eq_true] at hfits
        obtain rfl := Ty.eq_of_compatible_of_isScalar hfits.2 hfits.1
        exact .pure ht' (.initialized (hwithin.decl? hknown) hfits.1 hfound)
      next => exact .throw (by simp)

theorem Decl.checkLocal_meets (hp : p.Coherent) (hr : r.Covers p) {d : Decl}
    (hd : .enter (.decl d) ∈ p.events) (ht : t.Sound p r) :
    Meets p r t (d.checkLocal r) fun _ t' => d.IsVariable ⟨r, t'⟩ := by
  cases d with
  | var id name span written init =>
    refine (Decl.typeOf_meets hp hr (.inr hd) ht).bind ?_
    intro type t' _ ht' hknown
    exact Decl.checkVariable_meets hp hr hd ht' hknown
  | func _ _ _ _ _ | basic _ _ _ _ | typedef _ _ _ _ => exact .throw (by simp)

theorem Expr.checkCondition_meets (hp : p.Coherent) (hr : r.Covers p) {cond : Expr}
    (hcond : .enter (.expr cond) ∈ p.events) (ht : t.Sound p r) :
    Meets p r t (cond.checkCondition r) fun _ t' =>
      ∃ type, cond.HasType ⟨r, t'⟩ type ∧ type.isScalar := by
  refine (cond.typeOf_meets hp hr hcond t ht).bind ?_
  intro type t' _ ht' htype
  split
  next hscalar => exact .pure ht' ⟨type, htype, hscalar⟩
  next => exact .throw (by simp [TypeError.notScalar])

mutual

theorem Stmt.check_meets (hp : p.Coherent) (hr : r.Covers p) (result : Ty) :
    (s : Stmt) → .enter (.stmt s) ∈ p.events → ∀ t, t.Sound p r →
    Meets p r t (s.check r result) fun _ t' => s.WellTyped ⟨r, t'⟩ result
  | .block id lbrace items rbrace, hs, t, ht => by
    have hitems : ∀ item ∈ items, item.events ⊆ p.events := by
      intro item hitem event hevent
      refine p.events_subset hs ?_
      simp [Node.events, Stmt.events, Node.around, Item.mem_eventsAll hitem hevent]
    refine (Item.checkAll_meets hp hr result items hitems t ht).mono ?_
    intro _ t' _ _ htyped
    exact .block htyped
  | .empty id span, hs, t, ht => .pure ht .empty
  | .expr id value, hs, t, ht => by
    have hvalue : .enter (.expr value) ∈ p.events :=
      p.events_subset hs (by simp [Node.events, Stmt.events, value.enter_mem_events])
    refine Run.discard_iff.mpr (Run.mono (value.typeOf_meets hp hr hvalue t ht) ?_)
    intro type t' ⟨hwithin, ht', htype⟩
    exact ⟨hwithin, ht', .expr htype⟩
  | .branch id span cond onTrue none, hs, t, ht => by
    have hcond : .enter (.expr cond) ∈ p.events :=
      p.events_subset hs (by simp [Node.events, Stmt.events, cond.enter_mem_events])
    have honTrue : .enter (.stmt onTrue) ∈ p.events :=
      p.events_subset hs (by simp [Node.events, Stmt.events, onTrue.enter_mem_events])
    refine (Expr.checkCondition_meets hp hr hcond ht).bind ?_
    intro _ t₁ _ ht₁ ⟨type, htype, hscalar⟩
    refine (onTrue.check_meets hp hr result honTrue t₁ ht₁).mono ?_
    intro _ t₂ hwithin _ htyped
    exact .branch (htype.mono hwithin) hscalar htyped
  | .branch id span cond onTrue (some onFalse), hs, t, ht => by
    have hcond : .enter (.expr cond) ∈ p.events :=
      p.events_subset hs (by simp [Node.events, Stmt.events, cond.enter_mem_events])
    have honTrue : .enter (.stmt onTrue) ∈ p.events :=
      p.events_subset hs (by simp [Node.events, Stmt.events, onTrue.enter_mem_events])
    have honFalse : .enter (.stmt onFalse) ∈ p.events :=
      p.events_subset hs (by simp [Node.events, Stmt.events, onFalse.enter_mem_events])
    refine (Expr.checkCondition_meets hp hr hcond ht).bind ?_
    intro _ t₁ _ ht₁ ⟨type, htype, hscalar⟩
    refine (onTrue.check_meets hp hr result honTrue t₁ ht₁).bind ?_
    intro _ t₂ hwithin ht₂ honTrueTyped
    refine (onFalse.check_meets hp hr result honFalse t₂ ht₂).mono ?_
    intro _ t₃ hwithin' _ honFalseTyped
    exact .branchElse (htype.mono (hwithin.trans hwithin')) hscalar (honTrueTyped.mono hwithin')
      honFalseTyped
  | .ret id span none, hs, t, ht => by
    rw [Stmt.check, Stmt.checkReturn]
    split
    next hvoid => exact .pure ht (.ret hvoid)
    next => exact .throw (by simp)
  | .ret id span (some value), hs, t, ht => by
    have hvalue : .enter (.expr value) ∈ p.events :=
      p.events_subset hs (by simp [Node.events, Stmt.events, value.enter_mem_events])
    refine (value.typeOf_meets hp hr hvalue t ht).bind ?_
    intro found t' _ ht' hfound
    split
    next hfits =>
      simp only [Bool.and_eq_true, Bool.not_eq_true'] at hfits
      exact .pure ht' (.retValue hfound hfits.1 hfits.2)
    next => exact .throw (by simp)
  | .loop id span cond body, hs, t, ht => by
    have hcond : .enter (.expr cond) ∈ p.events :=
      p.events_subset hs (by simp [Node.events, Stmt.events, cond.enter_mem_events])
    have hbody : .enter (.stmt body) ∈ p.events :=
      p.events_subset hs (by simp [Node.events, Stmt.events, body.enter_mem_events])
    refine (Expr.checkCondition_meets hp hr hcond ht).bind ?_
    intro _ t₁ _ ht₁ ⟨type, htype, hscalar⟩
    refine (body.check_meets hp hr result hbody t₁ ht₁).mono ?_
    intro _ t₂ hwithin _ htyped
    exact .loop (htype.mono hwithin) hscalar htyped

theorem Item.check_meets (hp : p.Coherent) (hr : r.Covers p) (result : Ty) :
    (item : Item) → item.events ⊆ p.events → ∀ t, t.Sound p r →
    Meets p r t (item.check r result) fun _ t' => item.Typed ⟨r, t'⟩ result
  | .decl d, hd, t, ht => by
    refine (Decl.checkLocal_meets hp hr (hd d.enter_mem_events) ht).mono ?_
    intro _ t' _ _ hvar
    exact .decl hvar
  | .stmt s, hs, t, ht => by
    refine (s.check_meets hp hr result (hs s.enter_mem_events) t ht).mono ?_
    intro _ t' _ _ htyped
    exact .stmt htyped

theorem Item.checkAll_meets (hp : p.Coherent) (hr : r.Covers p) (result : Ty) :
    (items : List Item) → (∀ item ∈ items, item.events ⊆ p.events) → ∀ t, t.Sound p r →
    Meets p r t (Item.checkAll r result items) fun _ t' => Item.AllTyped ⟨r, t'⟩ result items
  | [], _, t, ht => .pure ht .nil
  | item :: rest, hitems, t, ht => by
    refine (item.check_meets hp hr result (hitems item List.mem_cons_self) t ht).bind ?_
    intro _ t₁ _ ht₁ hitem
    have hrest : ∀ item ∈ rest, item.events ⊆ p.events :=
      fun item hitem => hitems item (List.mem_cons_of_mem _ hitem)
    refine (Item.checkAll_meets hp hr result rest hrest t₁ ht₁).mono ?_
    intro _ t₂ hwithin _ htyped
    exact .cons (hitem.mono hwithin) htyped

end

theorem Decl.checkBody_meets (hp : p.Coherent) (hr : r.Covers p) {d : Decl} {type : Ty}
    {body : Stmt} (hbody : .enter (.stmt body) ∈ p.events) (ht : t.Sound p r) :
    Meets p r t (d.checkBody r type body) fun _ t' =>
      ∃ result params, body.IsBody ⟨r, t'⟩ type result params := by
  cases type with
  | basic _ | array _ _ => exact .throw (by simp)
  | func result params =>
    refine (body.check_meets hp hr result hbody t ht).bind ?_
    intro _ t' _ ht' htyped
    split
    · exact .throw (by simp)
    next hreturns =>
      refine .pure ht' ⟨result, params, rfl, htyped, ?_⟩
      simp only [Bool.and_eq_true, Bool.not_eq_true', not_and, Bool.not_eq_false] at hreturns
      cases hvoid : result.isVoid with
      | true => exact .inl rfl
      | false => exact .inr (hreturns hvoid)

theorem Decl.checkBinding_meets (hp : p.Coherent) (hr : r.Covers p) {d : Decl} {type : Ty}
    (ht : t.Sound p r) :
    Meets p r t (d.checkBinding r type) fun _ t' => ∀ b, r.fileBinding? d.name = some b →
      b.id = d.id ∨ ∃ bound, t'.decl? b = some bound ∧ bound.sameDecl type := by
  unfold Decl.checkBinding
  split
  next hnone => exact .pure ht (by simp [hnone])
  next b hb =>
    split
    next hid =>
      refine .pure ht ?_
      intro b' hb'
      obtain rfl := Option.some.inj (hb.symm.trans hb')
      exact .inl hid
    next =>
      have hdeclares : p.Declares b := p.declares_of_mem_file (hr.binding_mem d.name b hb).1
      refine (Decl.typeOf_meets hp hr hdeclares ht).bind ?_
      intro bound t' _ ht' hbound
      split
      next hsame =>
        refine .pure ht' ?_
        intro b' hb'
        obtain rfl := Option.some.inj (hb.symm.trans hb')
        exact .inr ⟨bound, hbound, hsame⟩
      next => exact .throw (by simp)

theorem Decl.checkGlobal_meets (hp : p.Coherent) (hr : r.Covers p) {d : Decl} (hd : d ∈ p.file)
    (ht : t.Sound p r) : Meets p r t (d.checkGlobal r) fun _ t' => d.WellTyped ⟨r, t'⟩ := by
  have hin := p.enter_mem_of_mem_file hd
  refine (Decl.typeOf_meets hp hr (.inr hin) ht).bind ?_
  intro type t₁ _ ht₁ hknown
  refine (Decl.checkBinding_meets hp hr ht₁).bind ?_
  intro _ t₂ hwithin ht₂ _
  have hknown₂ := hwithin.decl? hknown
  cases d with
  | func id name span signature body =>
    cases body with
    | none => exact .pure ht₂ (.prototype hknown₂)
    | some body =>
      have hbody : .enter (.stmt body) ∈ p.events :=
        p.events_subset hin (by simp [Node.events, Decl.events, body.enter_mem_events])
      refine (Decl.checkBody_meets hp hr hbody ht₂).mono ?_
      intro _ t₃ hwithin' _ ⟨result, params, hisBody⟩
      exact .definition (hwithin'.decl? hknown₂) hisBody
  | var id name span written init =>
    refine (Decl.checkVariable_meets hp hr hin ht₂ hknown₂).mono ?_
    intro _ t₃ _ _ hvar
    exact .var hvar
  | basic _ _ _ _ | typedef _ _ _ _ => exact .pure ht₂ (.typeName rfl hknown₂)

/-- All declarations of the file are well typed over the table that the check ends with. -/
theorem Decl.checkAll_meets (hp : p.Coherent) (hr : r.Covers p) (ds : List Decl)
    (hds : ∀ d ∈ ds, d ∈ p.file) (ht : t.Sound p r) :
    Meets p r t (ds.forM (Decl.checkGlobal r)) fun _ t' => ∀ d ∈ ds, d.WellTyped ⟨r, t'⟩ := by
  induction ds generalizing t with
  | nil => exact .pure ht (by simp)
  | cons d rest ih =>
    refine (Decl.checkGlobal_meets hp hr (hds d List.mem_cons_self) ht).bind ?_
    intro _ t₁ _ ht₁ hd
    refine (ih (fun d hd => hds d (List.mem_cons_of_mem _ hd)) ht₁).mono ?_
    intro _ t₂ hwithin _ hrest
    simpa using ⟨hd.mono hwithin, hrest⟩

end

namespace Program

variable {p : Program} {r : Resolution}

private theorem check_meets (hp : p.Coherent) (hr : r.Covers p) :
    CheckM.Meets p r {} (p.file.forM (Decl.checkGlobal r)) fun _ t' =>
      ∀ d ∈ p.file, d.WellTyped ⟨r, t'⟩ :=
  Decl.checkAll_meets hp hr p.file (fun _ hd => hd) .empty

/-- A table that the checker accepts obeys the rules, and the file is well typed over it. -/
theorem check_sound (hp : p.Coherent) (hr : r.Covers p) {t : TypeTable} (h : p.check r = .ok t) :
    t.Sound p r ∧ ∀ d ∈ p.file, d.WellTyped ⟨r, t⟩ := by
  obtain ⟨⟨_, t'⟩, hrun, ht⟩ := Except.bind_eq_ok.mp h
  cases ht
  exact (Run.of_ok (check_meets hp hr) hrun).2

/-- The checker never meets a name without a declaration. -/
theorem check_ne_unresolved (hp : p.Coherent) (hr : r.Covers p) (span : Span) :
    p.check r ≠ .error (.unresolved span) := by
  intro h
  unfold Program.check at h
  cases hrun : (p.file.forM (Decl.checkGlobal r)).run {} with
  | ok out =>
    rw [hrun] at h
    cases h
  | error e =>
    rw [hrun] at h
    cases h
    exact Run.of_error (check_meets hp hr) hrun span rfl

end Program

end MicroC
