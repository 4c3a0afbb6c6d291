import MicroC.Proofs.Typing.Table

/-!
Types that are known. An expression that has a type by the rules over a table is given that type
by the checker, whether or not the table has entries for the expression and its parts: what is
missing is computed again, and no declaration gets a type by it.
-/

namespace MicroC

/-- The declarations have the same types. -/
def TypeTable.SameDecls (t t' : TypeTable) : Prop := t.decls = t'.decls

open CheckM TypeTable

theorem TypeTable.SameDecls.decl?_eq {t t' : TypeTable} (h : t.SameDecls t') {d d' : Decl}
    (hid : d.id = d'.id) : t.decl? d = t'.decl? d' := by
  rw [TypeTable.decl?, TypeTable.decl?, hid, h]

theorem TypeTable.SameDecls.setDecl {t t' : TypeTable} (h : t.SameDecls t') (id : DeclId)
    (type : Ty) : (t.setDecl id type).SameDecls (t'.setDecl id type) := by
  unfold SameDecls TypeTable.setDecl at *
  rw [h]

section

variable {p : Program} {r : Resolution} {t : TypeTable}

theorem CheckM.memoDecl_of_some {id : DeclId} {type : Ty} (compute : CheckM Ty)
    (h : t.decls[id]? = some type) : memoDecl id compute t = .ok (type, t) := by
  simp only [memoDecl, bind, StateT.bind, get, getThe, MonadStateOf.get, StateT.get, Except.bind,
    pure, Except.pure, h]
  rfl

theorem CheckM.memoDecl_of_none {id : DeclId} (compute : CheckM Ty) (h : t.decls[id]? = none) :
    memoDecl id compute t = (compute t >>= fun out => .ok (out.1, out.2.setDecl id out.1)) := by
  simp only [memoDecl, bind, StateT.bind, get, getThe, MonadStateOf.get, StateT.get, Except.bind,
    pure, Except.pure, h]
  rfl

theorem CheckM.memoExpr_of_some {id : ExprId} {type : Ty} (compute : CheckM Ty)
    (h : t.exprs[id]? = some type) : memoExpr id compute t = .ok (type, t) := by
  simp only [memoExpr, bind, StateT.bind, get, getThe, MonadStateOf.get, StateT.get, Except.bind,
    pure, Except.pure, h]
  rfl

theorem CheckM.memoExpr_of_none {id : ExprId} (compute : CheckM Ty) (h : t.exprs[id]? = none) :
    memoExpr id compute t = (compute t >>= fun out => .ok (out.1, out.2.setExpr id out.1)) := by
  simp only [memoExpr, bind, StateT.bind, get, getThe, MonadStateOf.get, StateT.get, Except.bind,
    pure, Except.pure, h]
  rfl

/-- The check gives the type and leaves the types of declarations alone. -/
def CheckM.Recalls (t : TypeTable) (m : CheckM Ty) (type : Ty) : Prop :=
  Run (fun _ => False) m t fun found t' => found = type ∧ t.SameDecls t'

/-- An entry that is there is right, so it does not matter whether there is one. -/
theorem CheckM.Recalls.memoExpr {id : ExprId} {compute : CheckM Ty} {type : Ty}
    (hentry : ∀ found, t.exprs[id]? = some found → found = type) (h : Recalls t compute type) :
    Recalls t (memoExpr id compute) type := by
  unfold CheckM.memoExpr Recalls
  simp only [Run.bind_iff, Run.get_iff]
  split
  next found hfound => exact ⟨hentry found hfound, rfl⟩
  next => exact Run.bind_iff.mpr (Run.mono h fun found t' ht' => ht')

/-- A known type first, with what the check for it guarantees anyway. -/
theorem CheckM.Recalls.bind {α : Type} {m : CheckM Ty} {type : Ty} {f : Ty → CheckM α}
    {Q : Ty → TypeTable → Prop} {R : α → TypeTable → Prop} (h : Recalls t m type)
    (hm : Meets p r t m Q)
    (hf : ∀ t', t.SameDecls t' → t.Within t' → t'.Sound p r →
      Run (fun _ => False) (f type) t' R) : Run (fun _ => False) (m >>= f) t R := by
  obtain ⟨found, t', hrun, rfl, hsame⟩ := Run.exists_ok h
  obtain ⟨hwithin, hsound, _⟩ := Run.of_ok hm hrun
  have hrest := hf t' hsame hwithin hsound
  rw [Run.bind_iff]
  unfold Run
  rw [hrun]
  exact hrest

theorem Ident.HasType.recalls {ident : Ident} {d : Decl} {type : Ty}
    (h : ident.HasType ⟨r, t⟩ d type) : Recalls t (ident.typeOf r) type := by
  have hknown : t.decls[d.id]? = some type := h.typeOf
  have hread : d.typeOf r t = .ok (type, t) := by
    cases d <;> exact CheckM.memoDecl_of_some _ hknown
  unfold Ident.typeOf Resolution.declOf
  rw [h.declOf]
  change Run _ (if d.isType then throw _ else d.typeOf r) t _
  rw [h.isValue, if_neg Bool.false_ne_true]
  unfold Run
  rw [hread]
  exact ⟨rfl, rfl⟩

theorem Expr.ArgsFit.length_eq {a : Analysis} {params : List Ty} {args : List Expr} :
    Expr.ArgsFit a params args → params.length = args.length
  | .nil => rfl
  | .cons _ _ hrest => congrArg Nat.succ hrest.length_eq

theorem TypeTable.Sound.entry (ht : t.Sound p r) {e : Expr} (hin : e.events ⊆ p.events) {type : Ty}
    (h : e.HasType ⟨r, t⟩ type) : ∀ found, t.exprs[e.id]? = some found → found = type :=
  fun found hfound => (ht.exprs e found (hin e.enter_mem_events) hfound).unique h

mutual

theorem Expr.recalls (hp : p.Coherent) (hr : r.Covers p) : (e : Expr) → e.events ⊆ p.events →
    ∀ {t : TypeTable} {type : Ty}, t.Sound p r → e.HasType ⟨r, t⟩ type →
    Recalls t (e.typeOf r) type
  | .literal id (.int value) span, hin, t, type, ht, h => by
    refine .memoExpr (ht.entry hin h) ?_
    cases h with
    | int hfits =>
      rw [if_pos hfits]
      exact ⟨rfl, rfl⟩
  | .literal id (.char byte) span, hin, t, type, ht, h => by
    refine .memoExpr (ht.entry hin h) ?_
    cases h with
    | char => exact ⟨rfl, rfl⟩
  | .name id ident, hin, t, type, ht, h => by
    refine .memoExpr (ht.entry hin h) ?_
    cases h with
    | name hident => exact hident.recalls
  | .paren id lparen inner rparen, hin, t, type, ht, h => by
    refine .memoExpr (ht.entry hin h) ?_
    cases h with
    | paren hinner => exact inner.recalls hp hr (Node.inside_events hin) ht hinner
  | .unary id op opSpan operand, hin, t, type, ht, h => by
    have hoperandIn := Node.inside_events hin
    have hmeets := operand.typeOf_meets hp hr (hoperandIn operand.enter_mem_events) t ht
    refine .memoExpr (ht.entry hin h) ?_
    cases h with
    | neg hoperand hscalar | not hoperand hscalar =>
      refine (operand.recalls hp hr hoperandIn ht hoperand).bind hmeets fun t' hsame _ _ => ?_
      rw [hscalar]
      exact ⟨rfl, hsame⟩
  | .binary id op opSpan lhs rhs, hin, t, type, ht, h => by
    obtain ⟨hlhsIn, hrhsIn⟩ := List.append_subset.mp (Node.inside_events hin)
    have hmeets := lhs.typeOf_meets hp hr (hlhsIn lhs.enter_mem_events) t ht
    refine .memoExpr (ht.entry hin h) ?_
    cases h with
    | binary hlhs hrhs hscalar hassign =>
      refine (lhs.recalls hp hr hlhsIn ht hlhs).bind hmeets fun t₁ hsame₁ hwithin ht₁ => ?_
      have hmeets' := rhs.typeOf_meets hp hr (hrhsIn rhs.enter_mem_events) t₁ ht₁
      refine (rhs.recalls hp hr hrhsIn ht₁ (hrhs.mono hwithin)).bind hmeets'
        fun t₂ hsame₂ _ _ => ?_
      unfold BinaryOp.resultType
      rw [if_neg, if_neg, if_neg]
      · exact ⟨rfl, hsame₁.trans hsame₂⟩
      · simp [hscalar]
      · simp [Ty.compatible_self_of_isScalar hscalar]
      · rintro ⟨hop, hnot⟩
        simp [hassign hop] at hnot
  | .call id callee lparen args rparen, hin, t, type, ht, h => by
    obtain ⟨hcalleeIn, hargsIn⟩ := List.append_subset.mp (Node.inside_events hin)
    have hmeets := Ident.typeOf_meets hp hr (hcalleeIn (Ident.enter_mem_events.mpr rfl)) ht
    refine .memoExpr (ht.entry hin h) ?_
    cases h with
    | call hcallee hargs =>
      refine hcallee.recalls.bind hmeets fun t₁ hsame₁ hwithin ht₁ => ?_
      have hrecalls := Expr.recallsArgs hp hr args hargsIn ht₁ (hargs.mono hwithin)
      dsimp only
      rw [if_neg (not_not_intro hargs.length_eq)]
      refine Run.bind_iff.mpr (Run.mono hrecalls fun _ t₂ hsame₂ => ?_)
      exact ⟨rfl, hsame₁.trans hsame₂⟩
  | .index id array lbracket position rbracket, hin, t, type, ht, h => by
    obtain ⟨harrayIn, hpositionIn⟩ := List.append_subset.mp (Node.inside_events hin)
    have hmeets := Ident.typeOf_meets hp hr (harrayIn (Ident.enter_mem_events.mpr rfl)) ht
    refine .memoExpr (ht.entry hin h) ?_
    cases h with
    | index harray hposition hscalar =>
      refine harray.recalls.bind hmeets fun t₁ hsame₁ hwithin ht₁ => ?_
      have hmeets' := position.typeOf_meets hp hr (hpositionIn position.enter_mem_events) t₁ ht₁
      refine (position.recalls hp hr hpositionIn ht₁ (hposition.mono hwithin)).bind hmeets'
        fun t₂ hsame₂ _ _ => ?_
      rw [if_pos hscalar]
      exact ⟨rfl, hsame₁.trans hsame₂⟩

theorem Expr.recallsArgs (hp : p.Coherent) (hr : r.Covers p) : (args : List Expr) →
    Expr.eventsAll args ⊆ p.events → ∀ {t : TypeTable} {params : List Ty}, t.Sound p r →
    Expr.ArgsFit ⟨r, t⟩ params args →
    Run (fun _ => False) (Expr.checkArgs r params args) t fun _ t' => t.SameDecls t'
  | [], _, t, params, _, h => by
    cases h with
    | nil => exact rfl
  | arg :: args, hin, t, params, ht, h => by
    obtain ⟨hargIn, hargsIn⟩ := List.append_subset.mp hin
    have hmeets := arg.typeOf_meets hp hr (hargIn arg.enter_mem_events) t ht
    cases h with
    | cons harg hparam hrest =>
      refine (arg.recalls hp hr hargIn ht harg).bind hmeets fun t₁ hsame₁ hwithin ht₁ => ?_
      rw [if_pos hparam]
      refine Run.mono (Expr.recallsArgs hp hr args hargsIn ht₁ (hrest.mono hwithin)) ?_
      intro _ t₂ hsame₂
      exact hsame₁.trans hsame₂

end

end

end MicroC
