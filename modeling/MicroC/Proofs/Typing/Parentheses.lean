import MicroC.Proofs.Pair
import MicroC.Proofs.Scope.Parentheses
import MicroC.Proofs.Typing.Recall

/-!
Types of programs that differ in parentheses. The two checks are gone through side by side. They
enter the same types of declarations, but not the same types of expressions: parentheses have
entries of their own, and what is found in the table of one check may have to be computed in the
other. It is computed to the same type then, and no declaration gets a type by it.
-/

namespace MicroC

/-- The error without its position. -/
def TypeError.unplaced : TypeError → TypeError
  | .mismatch expected found _ => .mismatch expected found Span.builtin
  | .notAssignable type _ => .notAssignable type Span.builtin
  | .notCallable name type _ => .notCallable name type Span.builtin
  | .notIndexable name type _ => .notIndexable name type Span.builtin
  | .argumentCount name expected found _ => .argumentCount name expected found Span.builtin
  | .literalOutOfRange value _ => .literalOutOfRange value Span.builtin
  | .missingReturn name _ => .missingReturn name Span.builtin
  | .notAType name _ => .notAType name Span.builtin
  | .notAValue name _ => .notAValue name Span.builtin
  | .invalidObjectType name type _ => .invalidObjectType name type Span.builtin
  | .unresolved _ => .unresolved Span.builtin
  | .unsupported construct _ => .unsupported construct Span.builtin

/-- Two checks agree from two tables. -/
abbrev CheckM.Paired {α : Type} (I : TypeTable → TypeTable → Prop) (m m' : CheckM α)
    (t t' : TypeTable) : Prop :=
  Pair (fun e e' => e.unplaced = e'.unplaced) I m m' t t'

open CheckM TypeTable

/-! Declarations. -/

/-- Two checks that read and write types of declarations only. -/
def CheckM.Matched {α : Type} (m m' : CheckM α) : Prop :=
  ∀ t t', t.SameDecls t' → Paired SameDecls m m' t t'

namespace CheckM.Matched

variable {α β : Type} {m m' : CheckM α}

theorem pure (x : α) : Matched (pure x) (pure x) := fun _ _ ht => .pure x ht

theorem throw {e e' : TypeError} (h : e.unplaced = e'.unplaced) :
    Matched (throw e : CheckM α) (throw e') :=
  fun _ _ _ => .throw h

theorem bind {f f' : α → CheckM β} (hm : Matched m m') (hf : ∀ x, Matched (f x) (f' x)) :
    Matched (m >>= f) (m' >>= f') :=
  fun t t' ht => Pair.bind (hm t t' ht) (hf ·)

theorem ite {c : Prop} [Decidable c] {n n' : CheckM α} (hm : Matched m m') (hn : Matched n n') :
    Matched (if c then m else n) (if c then m' else n') :=
  fun t t' ht => .ite (hm t t' ht) (hn t t' ht)

theorem memoDecl {compute compute' : CheckM Ty} (id : DeclId) (h : Matched compute compute') :
    Matched (memoDecl id compute) (memoDecl id compute') := by
  intro t t' ht
  unfold Paired Pair
  cases hentry : t.decls[id]? with
  | some type =>
    rw [memoDecl_of_some compute hentry, memoDecl_of_some compute' (ht ▸ hentry)]
    exact .ok ⟨rfl, ht⟩
  | none =>
    rw [memoDecl_of_none compute hentry, memoDecl_of_none compute' (ht ▸ hentry)]
    refine Except.Rel.bind (h t t' ht) ?_
    rintro ⟨type, u⟩ ⟨_, u'⟩ ⟨rfl, hu⟩
    exact .ok ⟨rfl, hu.setDecl id type⟩

/-- What two names stand for. -/
theorem declOf {r r' : Resolution} (hr : r.Matches r') {ident ident' : Ident}
    (hident : ident.Alike ident') {f f' : Decl → CheckM β}
    (hf : ∀ d d', d.Alike d' → Matched (f d) (f' d')) :
    Matched (r.declOf ident >>= f) (r'.declOf ident' >>= f') := by
  unfold Resolution.declOf
  rcases Option.rel_cases (hr.declOf? hident) with ⟨hnone, hnone'⟩ | ⟨d, d', hd, hd', halike⟩
  · rw [hnone, hnone']
    exact throw rfl
  · rw [hd, hd']
    exact hf d d' halike

end CheckM.Matched

section

variable {named named' : List DeclId → Ident → CheckM Ty}

theorem TypeError.invalidObject_unplaced {d d' : Decl} (h : d.Alike d') (type : Ty) :
    (TypeError.invalidObject d type).unplaced = (TypeError.invalidObject d' type).unplaced := by
  simp only [TypeError.invalidObject, TypeError.unplaced, h.name_eq]

mutual

theorem TypeExpr.Alike.denote
    (hnamed : ∀ expanding ident ident', Ident.Alike ident ident' →
      Matched (named expanding ident) (named' expanding ident'))
    {written written' : TypeExpr} : written.Alike written' → ∀ expanding,
    Matched (written.denote .refuse named expanding) (written'.denote .refuse named' expanding)
  | .named hident, expanding => hnamed expanding _ _ hident
  | .array helem, expanding =>
    (helem.denote hnamed expanding).bind fun _ => .ite (.pure _) (.throw rfl)
  | .func hresult hparams, expanding =>
    (hresult.denote hnamed expanding).bind fun _ =>
      (hparams.paramTypes hnamed expanding).bind fun _ => .pure _

theorem Decl.Alike.typeWith
    (hnamed : ∀ expanding ident ident', Ident.Alike ident ident' →
      Matched (named expanding ident) (named' expanding ident'))
    {d d' : Decl} : d.Alike d' → ∀ expanding,
    Matched (d.typeWith .refuse named expanding) (d'.typeWith .refuse named' expanding)
  | .prototype hsignature, expanding => by
    refine .memoDecl _ ((hsignature.denote hnamed expanding).bind fun type => ?_)
    cases type with
    | func result params => exact .ite (.pure _) (.throw rfl)
    | basic _ | array _ _ => exact .pure _
  | .definition hsignature _, expanding => by
    refine .memoDecl _ ((hsignature.denote hnamed expanding).bind fun type => ?_)
    cases type with
    | func result params => exact .ite (.pure _) (.throw rfl)
    | basic _ | array _ _ => exact .pure _
  | .plain htype, expanding | .initialized htype _, expanding =>
    .memoDecl _ (htype.denote hnamed expanding)
  | .basic, _ => .memoDecl _ (.pure _)
  | .typedef htarget, expanding =>
    .memoDecl _ (.ite (.throw rfl) (htarget.denote hnamed _))

theorem Decl.AllAlike.paramTypes
    (hnamed : ∀ expanding ident ident', Ident.Alike ident ident' →
      Matched (named expanding ident) (named' expanding ident'))
    {ds ds' : List Decl} : Decl.AllAlike ds ds' → ∀ expanding,
    Matched (Decl.paramTypes .refuse named expanding ds) (Decl.paramTypes .refuse named' expanding ds')
  | .nil, _ => .pure _
  | .cons hd hrest, expanding =>
    (hd.typeWith hnamed expanding).bind fun type =>
      .ite ((hrest.paramTypes hnamed expanding).bind fun _ => .pure _)
        (.throw (TypeError.invalidObject_unplaced hd type))

end

end

section

variable {r r' : Resolution}

theorem Ident.Alike.notAType {ident ident' : Ident} (h : ident.Alike ident') :
    Matched (throw (.notAType ident.name ident.span) : CheckM Ty)
      (throw (.notAType ident'.name ident'.span)) := by
  apply Matched.throw
  simp only [TypeError.unplaced, h.name_eq]

theorem Resolution.Matches.namedType (hr : r.Matches r') (depth : Nat) (expanding : List DeclId)
    {ident ident' : Ident} (hident : ident.Alike ident') :
    Matched (r.namedType .refuse depth expanding ident) (r'.namedType .refuse depth expanding ident') := by
  induction depth generalizing expanding ident ident' with
  | zero => exact hident.notAType
  | succ depth ih =>
    refine .declOf hr hident fun d d' hd => ?_
    rw [hd.isType_eq]
    exact .ite (hd.typeWith (fun expanding _ _ => ih expanding) expanding) hident.notAType

theorem Decl.Alike.typeOf (hr : r.Matches r') {d d' : Decl} (hd : d.Alike d') :
    Matched (d.typeOf r) (d'.typeOf r') := by
  have hdepth : r.nameDepth = r'.nameDepth := congrArg Nat.succ hr.size
  unfold Decl.typeOf
  rw [hdepth]
  exact hd.typeWith (fun expanding _ _ hident => hr.namedType _ expanding hident) []

theorem Ident.Alike.typeOf (hr : r.Matches r') {ident ident' : Ident} (hident : ident.Alike ident') :
    Matched (ident.typeOf r) (ident'.typeOf r') := by
  refine .declOf hr hident fun d d' hd => ?_
  rw [hd.isType_eq]
  refine .ite (.throw ?_) (hd.typeOf hr)
  simp only [TypeError.unplaced, hident.name_eq]

end

/-! Types of expressions that are alike. -/

section

variable {r r' : Resolution} {t t' : TypeTable}

/-- Names stand for declarations of the same number and sort. This is all that the rules look at,
and it can be turned around. -/
def Resolution.SameIdents (r r' : Resolution) : Prop :=
  ∀ id : IdentId, Option.Rel (fun d d' => d.id = d'.id ∧ d.isType = d'.isType) r.idents[id]?
    r'.idents[id]?

theorem Resolution.Matches.sameIdents (h : r.Matches r') : r.SameIdents r' := by
  intro id
  rcases Option.rel_cases (h.idents id) with ⟨hnone, hnone'⟩ | ⟨d, d', hd, hd', halike⟩
  · rw [hnone, hnone']
    exact .none
  · rw [hd, hd']
    exact .some ⟨halike.id_eq, halike.isType_eq⟩

theorem Resolution.SameIdents.symm (h : r.SameIdents r') : r'.SameIdents r := by
  intro id
  rcases Option.rel_cases (h id) with ⟨hnone, hnone'⟩ | ⟨d, d', hd, hd', hid, htype⟩
  · rw [hnone, hnone']
    exact .none
  · rw [hd, hd']
    exact .some ⟨hid.symm, htype.symm⟩

theorem Ident.HasType.alike (hr : r.SameIdents r') (ht : t.SameDecls t') {ident ident' : Ident}
    (hident : ident.Alike ident') {d : Decl} {type : Ty} (h : ident.HasType ⟨r, t⟩ d type) :
    ∃ d', ident'.HasType ⟨r', t'⟩ d' type := by
  have hdecl : r.idents[ident'.id]? = some d := hident.id_eq ▸ h.declOf
  rcases Option.rel_cases (hr ident'.id) with ⟨hnone, _⟩ | ⟨d₁, d', hd, hd', hid, htype⟩
  · rw [hnone] at hdecl
    cases hdecl
  · obtain rfl := Option.some.inj (hd.symm.trans hdecl)
    refine ⟨d', hd', htype ▸ h.isValue, ?_⟩
    rw [← h.typeOf]
    exact (ht.decl?_eq hid).symm

mutual

theorem Expr.HasType.alike (hr : r.SameIdents r') (ht : t.SameDecls t') {type : Ty} :
    {e e' : Expr} → e.Alike e' → e.HasType ⟨r, t⟩ type → e'.HasType ⟨r', t'⟩ type
  | _, _, .literal, .int hfits => .int hfits
  | _, _, .literal, .char => .char
  | _, _, .binary hlhs hrhs, .binary hleft hright hscalar hassign =>
    .binary (hleft.alike hr ht hlhs) (hright.alike hr ht hrhs) hscalar
      (hlhs.isAssignable_eq ▸ hassign)
  | _, _, .call hcallee hargs, .call htype hfit => by
    obtain ⟨d', htype'⟩ := htype.alike hr ht hcallee
    exact .call htype' (hfit.alike hr ht hargs)
  | _, _, .name hident, .name htype => by
    obtain ⟨d', htype'⟩ := htype.alike hr ht hident
    exact .name htype'
  | _, _, .index harray hposition, .index htype hplace hscalar => by
    obtain ⟨d', htype'⟩ := htype.alike hr ht harray
    exact .index htype' (hplace.alike hr ht hposition) hscalar
  | _, _, .unary hoperand, .neg htype hscalar => .neg (htype.alike hr ht hoperand) hscalar
  | _, _, .unary hoperand, .not htype hscalar => .not (htype.alike hr ht hoperand) hscalar
  | _, _, .opened hinner, .paren htype => htype.alike hr ht hinner
  | _, _, .wrapped hinner, htype => .paren (htype.alike hr ht hinner)

theorem Expr.ArgsFit.alike (hr : r.SameIdents r') (ht : t.SameDecls t') :
    {params : List Ty} → {args args' : List Expr} → Expr.AllAlike args args' →
    Expr.ArgsFit ⟨r, t⟩ params args → Expr.ArgsFit ⟨r', t'⟩ params args'
  | _, _, _, .nil, .nil => .nil
  | _, _, _, .cons harg hargs, .cons htype hparam hrest =>
    .cons (htype.alike hr ht harg) hparam (hrest.alike hr ht hargs)

end

end

/-- Two programs whose names are resolved alike. -/
structure Program.Counterparts (p p' : Program) (r r' : Resolution) : Prop where
  coherent : p.Coherent
  coherent' : p'.Coherent
  covers : r.Covers p
  covers' : r'.Covers p'
  alike : r.Matches r'

/-- Two tables in which declarations have the same types and every entry is right. -/
structure TypeTable.InStep (p p' : Program) (r r' : Resolution) (t t' : TypeTable) : Prop where
  decls : t.SameDecls t'
  sound : t.Sound p r
  sound' : t'.Sound p' r'

section

variable {p p' : Program} {r r' : Resolution} {t t' : TypeTable}

/-- A check never makes a table wrong. -/
theorem CheckM.Paired.inStep {α : Type} {m m' : CheckM α} {Q Q' : α → TypeTable → Prop}
    (h : Paired SameDecls m m' t t') (hm : Meets p r t m Q) (hm' : Meets p' r' t' m' Q') :
    Paired (InStep p p' r r') m m' t t' := by
  unfold Paired Pair at h ⊢
  generalize hrun : m t = out at h ⊢
  generalize hrun' : m' t' = out' at h ⊢
  cases h with
  | error he => exact .error he
  | ok hout =>
    obtain ⟨_, hsound, _⟩ := Run.of_ok hm hrun
    obtain ⟨_, hsound', _⟩ := Run.of_ok hm' hrun'
    exact .ok ⟨hout.1, hout.2, hsound, hsound'⟩

/-! An entry that is missing is computed, which the other check need not do. -/

theorem CheckM.Paired.memoExpr_left {id : ExprId} {compute m' : CheckM Ty}
    (hmissing : t.exprs[id]? = none) (h : Paired SameDecls compute m' t t') :
    Paired SameDecls (memoExpr id compute) m' t t' := by
  unfold Paired Pair at h ⊢
  rw [memoExpr_of_none compute hmissing]
  exact h.bind_left fun _ _ hout => .ok hout

theorem CheckM.Paired.memoExpr_right {id : ExprId} {compute m : CheckM Ty}
    (hmissing : t'.exprs[id]? = none) (h : Paired SameDecls m compute t t') :
    Paired SameDecls m (memoExpr id compute) t t' := by
  unfold Paired Pair at h ⊢
  rw [memoExpr_of_none compute hmissing]
  exact h.bind_right fun _ _ hout => .ok hout

theorem CheckM.Paired.memoExpr {id id' : ExprId} {compute compute' : CheckM Ty}
    (hmissing : t.exprs[id]? = none) (hmissing' : t'.exprs[id']? = none)
    (h : Paired SameDecls compute compute' t t') :
    Paired SameDecls (memoExpr id compute) (memoExpr id' compute') t t' :=
  (h.memoExpr_right hmissing').memoExpr_left hmissing

/-- Two expressions that are alike. If one has a type by the entries for declarations, so has the
other, whatever entries there are for expressions; otherwise neither has an entry of its own. -/
theorem Expr.Alike.typeOf_of_missing (hc : p.Counterparts p' r r') {e e' : Expr} (h : e.Alike e')
    (hin : e.events ⊆ p.events) (hin' : e'.events ⊆ p'.events) (ht : InStep p p' r r' t t')
    (hmissing : t.exprs[e.id]? = none → t'.exprs[e'.id]? = none →
      Paired SameDecls (e.typeOf r) (e'.typeOf r') t t') :
    Paired (InStep p p' r r') (e.typeOf r) (e'.typeOf r') t t' := by
  have hmeets := e.typeOf_meets hc.coherent hc.covers (hin e.enter_mem_events) t ht.sound
  have hmeets' := e'.typeOf_meets hc.coherent' hc.covers' (hin' e'.enter_mem_events) t' ht.sound'
  refine CheckM.Paired.inStep ?_ hmeets hmeets'
  have hsame := hc.alike.sameIdents
  by_cases hknown : ∃ type, e.HasType ⟨r, t⟩ type
  · obtain ⟨type, htype⟩ := hknown
    have htype' := htype.alike hsame ht.decls h
    obtain ⟨found, u, hrun, rfl, hu⟩ :=
      Run.exists_ok (e.recalls hc.coherent hc.covers hin ht.sound htype)
    obtain ⟨found', u', hrun', rfl, hu'⟩ :=
      Run.exists_ok (e'.recalls hc.coherent' hc.covers' hin' ht.sound' htype')
    unfold Paired Pair
    rw [hrun, hrun']
    exact .ok ⟨rfl, hu.symm.trans (ht.decls.trans hu')⟩
  · refine hmissing ?_ ?_
    · apply Option.eq_none_iff_forall_ne_some.mpr
      intro type hentry
      exact hknown ⟨type, ht.sound.exprs e type (hin e.enter_mem_events) hentry⟩
    · apply Option.eq_none_iff_forall_ne_some.mpr
      intro type hentry
      have htype' := ht.sound'.exprs e' type (hin' e'.enter_mem_events) hentry
      exact hknown ⟨type, htype'.alike hsame.symm ht.decls.symm h.symm⟩

theorem Ident.Alike.typeOf_inStep (hc : p.Counterparts p' r r') {ident ident' : Ident}
    (h : ident.Alike ident') (hin : ident.events ⊆ p.events) (hin' : ident'.events ⊆ p'.events)
    (ht : InStep p p' r r' t t') :
    Paired (InStep p p' r r') (ident.typeOf r) (ident'.typeOf r') t t' :=
  CheckM.Paired.inStep (h.typeOf hc.alike t t' ht.decls)
    (Ident.typeOf_meets hc.coherent hc.covers (hin (Ident.enter_mem_events.mpr rfl)) ht.sound)
    (Ident.typeOf_meets hc.coherent' hc.covers' (hin' (Ident.enter_mem_events.mpr rfl)) ht.sound')

theorem Decl.Alike.typeOf_inStep (hc : p.Counterparts p' r r') {d d' : Decl} (h : d.Alike d')
    (hd : p.Declares d) (hd' : p'.Declares d') (ht : InStep p p' r r' t t') :
    Paired (InStep p p' r r') (d.typeOf r) (d'.typeOf r') t t' :=
  CheckM.Paired.inStep (h.typeOf hc.alike t t' ht.decls)
    (Decl.typeOf_meets hc.coherent hc.covers hd ht.sound)
    (Decl.typeOf_meets hc.coherent' hc.covers' hd' ht.sound')

theorem BinaryOp.resultType_matched (op : BinaryOp) (span span' : Span) (assignable : Bool)
    (lhs rhs : Ty) :
    Matched (op.resultType span assignable lhs rhs) (op.resultType span' assignable lhs rhs) :=
  .ite (.throw rfl) (.ite (.throw rfl) (.ite (.throw rfl) (.pure _)))

mutual

theorem Expr.Alike.typeOf (hc : p.Counterparts p' r r') : {e e' : Expr} → e.Alike e' →
    e.events ⊆ p.events → e'.events ⊆ p'.events → ∀ {t t' : TypeTable}, InStep p p' r r' t t' →
    Paired (InStep p p' r r') (e.typeOf r) (e'.typeOf r') t t'
  | .literal _ (.int _) _, _, h@.literal, hin, hin', t, t', ht => by
    refine h.typeOf_of_missing hc hin hin' ht fun hmissing hmissing' => ?_
    refine .memoExpr hmissing hmissing' ?_
    exact .ite (.pure _ ht.decls) (.throw rfl)
  | .literal _ (.char _) _, _, h@.literal, hin, hin', t, t', ht => by
    refine h.typeOf_of_missing hc hin hin' ht fun hmissing hmissing' => ?_
    exact .memoExpr hmissing hmissing' (.pure _ ht.decls)
  | _, _, h@(.name hident), hin, hin', t, t', ht => by
    refine h.typeOf_of_missing hc hin hin' ht fun hmissing hmissing' => ?_
    exact .memoExpr hmissing hmissing' (hident.typeOf hc.alike t t' ht.decls)
  | _, _, h@(.opened hinner), hin, hin', t, t', ht => by
    refine h.typeOf_of_missing hc hin hin' ht fun hmissing _ => ?_
    have hagree := hinner.typeOf hc (Node.inside_events hin) hin' ht
    exact CheckM.Paired.memoExpr_left hmissing (hagree.mono fun _ _ hu => hu.decls)
  | _, _, h@(.wrapped hinner), hin, hin', t, t', ht => by
    refine h.typeOf_of_missing hc hin hin' ht fun _ hmissing' => ?_
    have hagree := hinner.typeOf hc hin (Node.inside_events hin') ht
    exact CheckM.Paired.memoExpr_right hmissing' (hagree.mono fun _ _ hu => hu.decls)
  | .unary _ op _ _, _, h@(.unary hoperand), hin, hin', t, t', ht => by
    refine h.typeOf_of_missing hc hin hin' ht fun hmissing hmissing' => ?_
    refine .memoExpr hmissing hmissing' ?_
    refine (hoperand.typeOf hc (Node.inside_events hin) (Node.inside_events hin') ht).bind
      fun type u u' hu => ?_
    refine .ite (.throw rfl) ?_
    cases op with
    | neg | not => exact .pure _ hu.decls
  | .binary _ op _ _ _, _, h@(.binary hlhs hrhs), hin, hin', t, t', ht => by
    obtain ⟨hlhsIn, hrhsIn⟩ := List.append_subset.mp (Node.inside_events hin)
    obtain ⟨hlhsIn', hrhsIn'⟩ := List.append_subset.mp (Node.inside_events hin')
    refine h.typeOf_of_missing hc hin hin' ht fun hmissing hmissing' => ?_
    refine .memoExpr hmissing hmissing' ?_
    refine (hlhs.typeOf hc hlhsIn hlhsIn' ht).bind fun left u u' hu => ?_
    refine (hrhs.typeOf hc hrhsIn hrhsIn' hu).bind fun right v v' hv => ?_
    rw [hlhs.isAssignable_eq]
    exact op.resultType_matched _ _ _ left right v v' hv.decls
  | _, _, h@(.call hcallee hargs), hin, hin', t, t', ht => by
    obtain ⟨hcalleeIn, hargsIn⟩ := List.append_subset.mp (Node.inside_events hin)
    obtain ⟨hcalleeIn', hargsIn'⟩ := List.append_subset.mp (Node.inside_events hin')
    refine h.typeOf_of_missing hc hin hin' ht fun hmissing hmissing' => ?_
    refine .memoExpr hmissing hmissing' ?_
    refine (hcallee.typeOf_inStep hc hcalleeIn hcalleeIn' ht).bind fun type u u' hu => ?_
    rw [hcallee.name_eq, hargs.length_eq]
    cases type with
    | func result params =>
      dsimp only
      split
      · exact .throw rfl
      · refine (hargs.checkArgs hc params hargsIn hargsIn' hu).bind fun _ v v' hv => ?_
        exact .pure _ hv.decls
    | basic _ | array _ _ => exact .throw rfl
  | _, _, h@(.index harray hposition), hin, hin', t, t', ht => by
    obtain ⟨harrayIn, hpositionIn⟩ := List.append_subset.mp (Node.inside_events hin)
    obtain ⟨harrayIn', hpositionIn'⟩ := List.append_subset.mp (Node.inside_events hin')
    refine h.typeOf_of_missing hc hin hin' ht fun hmissing hmissing' => ?_
    refine .memoExpr hmissing hmissing' ?_
    refine (harray.typeOf_inStep hc harrayIn harrayIn' ht).bind fun type u u' hu => ?_
    rw [harray.name_eq]
    cases type.element? with
    | none => exact .throw rfl
    | some elem =>
      refine (hposition.typeOf hc hpositionIn hpositionIn' hu).bind fun place v v' hv => ?_
      exact .ite (.pure _ hv.decls) (.throw rfl)

theorem Expr.AllAlike.checkArgs (hc : p.Counterparts p' r r') : (params : List Ty) →
    {args args' : List Expr} → Expr.AllAlike args args' → Expr.eventsAll args ⊆ p.events →
    Expr.eventsAll args' ⊆ p'.events → ∀ {t t' : TypeTable}, InStep p p' r r' t t' →
    Paired (InStep p p' r r') (Expr.checkArgs r params args) (Expr.checkArgs r' params args') t t'
  | [], _, _, .nil, _, _, _, _, ht | [], _, _, .cons _ _, _, _, _, _, ht
  | _ :: _, _, _, .nil, _, _, _, _, ht => .pure _ ht
  | param :: params, _, _, .cons harg hargs, hin, hin', t, t', ht => by
    obtain ⟨hargIn, hargsIn⟩ := List.append_subset.mp hin
    obtain ⟨hargIn', hargsIn'⟩ := List.append_subset.mp hin'
    refine (harg.typeOf hc hargIn hargIn' ht).bind fun type u u' hu => ?_
    exact .ite (hargs.checkArgs hc params hargsIn hargsIn' hu) (.throw rfl)

end

theorem Decl.Alike.checkVariable (hc : p.Counterparts p' r r') {d d' : Decl} (h : d.Alike d')
    (type : Ty) {init init' : Option Expr}
    (hinit : Option.Rel (fun e e' => e.Alike e' ∧ e.events ⊆ p.events ∧ e'.events ⊆ p'.events)
      init init')
    (ht : InStep p p' r r' t t') :
    Paired (InStep p p' r r') (d.checkVariable r type init) (d'.checkVariable r' type init') t t' := by
  refine .ite (.throw (TypeError.invalidObject_unplaced h type)) ?_
  cases hinit with
  | none => exact .pure _ ht
  | some hinit =>
    obtain ⟨halike, hin, hin'⟩ := hinit
    refine (halike.typeOf hc hin hin' ht).bind fun found u u' hu => ?_
    exact .ite (.pure _ hu) (.throw rfl)

theorem Decl.Alike.checkLocal (hc : p.Counterparts p' r r') {d d' : Decl} (h : d.Alike d')
    (hin : d.events ⊆ p.events) (hin' : d'.events ⊆ p'.events) (ht : InStep p p' r r' t t') :
    Paired (InStep p p' r r') (d.checkLocal r) (d'.checkLocal r') t t' := by
  have htype := h.typeOf_inStep hc (.inr (hin d.enter_mem_events))
    (.inr (hin' d'.enter_mem_events)) ht
  cases h with
  | prototype _ | definition _ _ | basic | typedef _ => exact .throw rfl
  | plain hwritten =>
    refine htype.bind fun type u u' hu => ?_
    exact (Decl.Alike.plain hwritten).checkVariable hc type .none hu
  | initialized hwritten hinit =>
    refine htype.bind fun type u u' hu => ?_
    have hinitIn := (List.append_subset.mp (Node.inside_events hin)).2
    have hinitIn' := (List.append_subset.mp (Node.inside_events hin')).2
    exact (Decl.Alike.initialized hwritten hinit).checkVariable hc type
      (.some ⟨hinit, hinitIn, hinitIn'⟩) hu

theorem Expr.Alike.checkCondition (hc : p.Counterparts p' r r') {cond cond' : Expr}
    (h : cond.Alike cond') (hin : cond.events ⊆ p.events) (hin' : cond'.events ⊆ p'.events)
    (ht : InStep p p' r r' t t') :
    Paired (InStep p p' r r') (cond.checkCondition r) (cond'.checkCondition r') t t' :=
  (h.typeOf hc hin hin' ht).bind fun _ _ _ hu => .ite (.pure _ hu) (.throw rfl)

mutual

theorem Stmt.Alike.check (hc : p.Counterparts p' r r') (result : Ty) : {s s' : Stmt} →
    s.Alike s' → s.events ⊆ p.events → s'.events ⊆ p'.events →
    ∀ {t t' : TypeTable}, InStep p p' r r' t t' →
    Paired (InStep p p' r r') (s.check r result) (s'.check r' result) t t'
  | _, _, .block hitems, hin, hin', _, _, ht =>
    hitems.checkAll hc result (Node.inside_events hin) (Node.inside_events hin') ht
  | _, _, .empty, _, _, _, _, ht => .pure _ ht
  | _, _, .expr hvalue, hin, hin', _, _, ht =>
    (hvalue.typeOf hc (Node.inside_events hin) (Node.inside_events hin') ht).discard
  | _, _, .branch hcond honTrue, hin, hin', _, _, ht => by
    obtain ⟨hcondIn, honTrueIn⟩ := List.append_subset.mp (Node.inside_events hin)
    obtain ⟨hcondIn', honTrueIn'⟩ := List.append_subset.mp (Node.inside_events hin')
    refine (hcond.checkCondition hc hcondIn hcondIn' ht).bind fun _ u u' hu => ?_
    exact honTrue.check hc result honTrueIn honTrueIn' hu
  | _, _, .branchElse hcond honTrue honFalse, hin, hin', _, _, ht => by
    obtain ⟨hbeforeIn, honFalseIn⟩ := List.append_subset.mp (Node.inside_events hin)
    obtain ⟨hcondIn, honTrueIn⟩ := List.append_subset.mp hbeforeIn
    obtain ⟨hbeforeIn', honFalseIn'⟩ := List.append_subset.mp (Node.inside_events hin')
    obtain ⟨hcondIn', honTrueIn'⟩ := List.append_subset.mp hbeforeIn'
    refine (hcond.checkCondition hc hcondIn hcondIn' ht).bind fun _ u u' hu => ?_
    refine (honTrue.check hc result honTrueIn honTrueIn' hu).bind fun _ v v' hv => ?_
    exact honFalse.check hc result honFalseIn honFalseIn' hv
  | _, _, .ret, _, _, _, _, ht => .ite (.pure _ ht) (.throw rfl)
  | _, _, .retValue hvalue, hin, hin', _, _, ht => by
    refine (hvalue.typeOf hc (Node.inside_events hin) (Node.inside_events hin') ht).bind
      fun found u u' hu => ?_
    exact .ite (.pure _ hu) (.throw rfl)
  | _, _, .loop hcond hbody, hin, hin', _, _, ht => by
    obtain ⟨hcondIn, hbodyIn⟩ := List.append_subset.mp (Node.inside_events hin)
    obtain ⟨hcondIn', hbodyIn'⟩ := List.append_subset.mp (Node.inside_events hin')
    refine (hcond.checkCondition hc hcondIn hcondIn' ht).bind fun _ u u' hu => ?_
    exact hbody.check hc result hbodyIn hbodyIn' hu

theorem Item.Alike.check (hc : p.Counterparts p' r r') (result : Ty) : {item item' : Item} →
    item.Alike item' → item.events ⊆ p.events → item'.events ⊆ p'.events →
    ∀ {t t' : TypeTable}, InStep p p' r r' t t' →
    Paired (InStep p p' r r') (item.check r result) (item'.check r' result) t t'
  | _, _, .decl hd, hin, hin', _, _, ht => hd.checkLocal hc hin hin' ht
  | _, _, .stmt hs, hin, hin', _, _, ht => hs.check hc result hin hin' ht

theorem Item.AllAlike.checkAll (hc : p.Counterparts p' r r') (result : Ty) :
    {items items' : List Item} → Item.AllAlike items items' →
    Item.eventsAll items ⊆ p.events → Item.eventsAll items' ⊆ p'.events →
    ∀ {t t' : TypeTable}, InStep p p' r r' t t' →
    Paired (InStep p p' r r') (Item.checkAll r result items) (Item.checkAll r' result items') t t'
  | _, _, .nil, _, _, _, _, ht => .pure _ ht
  | _, _, .cons hitem hrest, hin, hin', _, _, ht => by
    obtain ⟨hitemIn, hrestIn⟩ := List.append_subset.mp hin
    obtain ⟨hitemIn', hrestIn'⟩ := List.append_subset.mp hin'
    refine (hitem.check hc result hitemIn hitemIn' ht).bind fun _ u u' hu => ?_
    exact hrest.checkAll hc result hrestIn hrestIn' hu

end

theorem Decl.Alike.checkBody (hc : p.Counterparts p' r r') {d d' : Decl} (h : d.Alike d')
    (type : Ty) {body body' : Stmt} (hbody : body.Alike body') (hin : body.events ⊆ p.events)
    (hin' : body'.events ⊆ p'.events) (ht : InStep p p' r r' t t') :
    Paired (InStep p p' r r') (d.checkBody r type body) (d'.checkBody r' type body') t t' := by
  cases type with
  | basic _ | array _ _ => exact .throw rfl
  | func result params =>
    refine (hbody.check hc result hin hin' ht).bind fun _ u u' hu => ?_
    rw [hbody.alwaysReturns_eq, h.name_eq]
    exact .ite (.throw rfl) (.pure _ hu)

theorem Decl.Alike.checkBinding (hc : p.Counterparts p' r r') {d d' : Decl} (h : d.Alike d')
    (type : Ty) (ht : InStep p p' r r' t t') :
    Paired (InStep p p' r r') (d.checkBinding r type) (d'.checkBinding r' type) t t' := by
  unfold Decl.checkBinding
  rw [h.name_eq]
  rcases Option.rel_cases (hc.alike.fileBinding? d'.name) with
    ⟨hnone, hnone'⟩ | ⟨b, b', hb, hb', halike⟩
  · rw [hnone, hnone']
    exact .pure _ ht
  · have hdeclares := p.declares_of_mem_file (hc.covers.binding_mem d'.name b hb).1
    have hdeclares' := p'.declares_of_mem_file (hc.covers'.binding_mem d'.name b' hb').1
    rw [hb, hb']
    dsimp only
    rw [halike.id_eq, h.id_eq]
    refine .ite (.pure _ ht) ?_
    refine (halike.typeOf_inStep hc hdeclares hdeclares' ht).bind fun bound u u' hu => ?_
    exact .ite (.pure _ hu) (.throw rfl)

theorem Decl.Alike.checkGlobal (hc : p.Counterparts p' r r') {d d' : Decl} (h : d.Alike d')
    (hd : d ∈ p.file) (hd' : d' ∈ p'.file) (ht : InStep p p' r r' t t') :
    Paired (InStep p p' r r') (d.checkGlobal r) (d'.checkGlobal r') t t' := by
  have hin : d.events ⊆ p.events := fun _ => p.mem_events hd
  have hin' : d'.events ⊆ p'.events := fun _ => p'.mem_events hd'
  refine (h.typeOf_inStep hc (p.declares_of_mem_file hd) (p'.declares_of_mem_file hd') ht).bind
    fun type u u' hu => ?_
  refine (h.checkBinding hc type hu).bind fun _ v v' hv => ?_
  cases h with
  | prototype _ | basic | typedef _ => exact .pure _ hv
  | definition hsignature hbody =>
    have hbodyIn := (List.append_subset.mp (Node.inside_events hin)).2
    have hbodyIn' := (List.append_subset.mp (Node.inside_events hin')).2
    exact (Decl.Alike.definition hsignature hbody).checkBody hc type hbody hbodyIn hbodyIn' hv
  | plain hwritten => exact (Decl.Alike.plain hwritten).checkVariable hc type .none hv
  | initialized hwritten hinit =>
    have hinitIn := (List.append_subset.mp (Node.inside_events hin)).2
    have hinitIn' := (List.append_subset.mp (Node.inside_events hin')).2
    exact (Decl.Alike.initialized hwritten hinit).checkVariable hc type
      (.some ⟨hinit, hinitIn, hinitIn'⟩) hv

theorem Decl.AllAlike.checkAll (hc : p.Counterparts p' r r') {ds ds' : List Decl}
    (h : Decl.AllAlike ds ds') (hds : ∀ d ∈ ds, d ∈ p.file) (hds' : ∀ d ∈ ds', d ∈ p'.file)
    (ht : InStep p p' r r' t t') :
    Paired (InStep p p' r r') (ds.forM (Decl.checkGlobal r)) (ds'.forM (Decl.checkGlobal r')) t t' := by
  induction ds generalizing ds' t t' with
  | nil =>
    cases h with
    | nil => exact .pure _ ht
  | cons d rest ih =>
    cases h with
    | cons hd hrest =>
      refine (hd.checkGlobal hc (hds _ List.mem_cons_self) (hds' _ List.mem_cons_self) ht).bind
        fun _ u u' hu => ?_
      exact ih hrest (fun d hd => hds d (List.mem_cons_of_mem _ hd))
        (fun d hd => hds' d (List.mem_cons_of_mem _ hd)) hu

/-- Both programs pass the check, with the same types of declarations, or both fail alike. -/
theorem Program.check_alike (hc : p.Counterparts p' r r') (h : Decl.AllAlike p.file p'.file) :
    Except.Rel (fun e e' => e.unplaced = e'.unplaced) SameDecls (p.check r) (p'.check r') := by
  have hagree := h.checkAll hc (fun _ hd => hd) (fun _ hd => hd) ⟨rfl, .empty, .empty⟩
  exact Except.Rel.bind hagree fun _ _ hout => .ok hout.2.decls

end

end MicroC
