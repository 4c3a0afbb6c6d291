import MicroC.Compilation
import MicroC.Proofs.Syntax.Equality
import MicroC.Proofs.Typing.Parentheses

/-!
Programs that differ in parentheses. From names that are resolved alike and the same types of
declarations the lowering makes the same code, since an expression in parentheses is lowered as
the expression inside. So parentheses change nothing about a whole compilation: both programs
have the same module, or both fail with the same error up to its position.
-/

namespace MicroC

open LowerM

/-- The error without its position. -/
def LowerError.unplaced : LowerError → LowerError
  | .const error => .const error.unplaced
  | .unsupported construct _ => .unsupported construct Span.builtin
  | .unresolved _ => .unresolved Span.builtin
  | .missingType node _ => .missingType node Span.builtin
  | .unexpectedDecl name expected _ => .unexpectedDecl name expected Span.builtin
  | .notAnLvalue _ => .notAnLvalue Span.builtin
  | .unexpectedOperator op _ => .unexpectedOperator op Span.builtin
  | .ir error => .ir error

/-- The error without its position. -/
def CompileError.unplaced : CompileError → CompileError
  | .resolve error => .resolve error.unplaced
  | .type error => .type error.unplaced
  | .lower error => .lower error.unplaced

/-- Two results of the lowering that are related, or two errors that differ in their positions. -/
abbrev LowersAlike {α β : Type} (Q : α → β → Prop) : Except LowerError α → Except LowerError β → Prop :=
  Except.Rel (fun e e' => e.unplaced = e'.unplaced) Q

/-- Two results of a compilation that are related, or two errors that differ in their positions. -/
abbrev CompilesAlike {α β : Type} (Q : α → β → Prop) :
    Except CompileError α → Except CompileError β → Prop :=
  Except.Rel (fun e e' => e.unplaced = e'.unplaced) Q

/-- Two computations come to the same from every builder. -/
def LowerM.Paired {α : Type} (m m' : LowerM α) : Prop :=
  ∀ b, Pair (fun e e' => e.unplaced = e'.unplaced) Eq m m' b b

namespace LowerM.Paired

variable {α β γ : Type} {m m' : LowerM α}

theorem refl (m : LowerM α) : Paired m m := by
  intro b
  unfold Pair
  cases m b with
  | ok out => exact .ok ⟨rfl, rfl⟩
  | error e => exact .error rfl

theorem throw {e e' : LowerError} (h : e.unplaced = e'.unplaced) :
    Paired (throw e : LowerM α) (throw e') :=
  fun _ => .throw h

theorem bind {f f' : α → LowerM β} (hm : Paired m m') (hf : ∀ x, Paired (f x) (f' x)) :
    Paired (m >>= f) (m' >>= f') := by
  refine fun b => (hm b).bind ?_
  rintro x b' _ rfl
  exact hf x b'

/-- The first step is the same. -/
theorem after {f f' : α → LowerM β} (hf : ∀ x, Paired (f x) (f' x)) : Paired (m >>= f) (m >>= f') :=
  (refl m).bind hf

theorem discard (h : Paired m m') : Paired (discard m) (discard m') :=
  h.bind fun _ => refl (pure ())

theorem ite {c : Prop} [Decidable c] {n n' : LowerM α} (hm : Paired m m') (hn : Paired n n') :
    Paired (if c then m else n) (if c then m' else n') :=
  fun b => .ite (hm b) (hn b)

theorem liftBind {Q : α → β → Prop} {x : Except LowerError α} {y : Except LowerError β}
    {f : α → LowerM γ} {g : β → LowerM γ} (h : LowersAlike Q x y)
    (hf : ∀ u v, Q u v → Paired (f u) (g v)) : Paired (liftM x >>= f) (liftM y >>= g) :=
  fun b => Pair.liftBind h fun u v huv => hf u v huv b

end LowerM.Paired

/-- Two analyses that the lowering cannot tell apart. -/
structure Analysis.Alike (a a' : Analysis) : Prop where
  resolution : a.resolution.Matches a'.resolution
  types : a.types.SameDecls a'.types

section

variable {a a' : Analysis} {d d' : Decl} {ident ident' : Ident}

/-! Names. -/

theorem Analysis.Alike.declOf (ha : a.Alike a') (h : ident.Alike ident') :
    LowersAlike Decl.Alike (a.declOf ident) (a'.declOf ident') := by
  unfold Analysis.declOf
  rcases Option.rel_cases (ha.resolution.declOf? h) with ⟨hnone, hnone'⟩ | ⟨d, d', hd, hd', halike⟩
  · rw [hnone, hnone']
    exact .error rfl
  · rw [hd, hd']
    exact .ok halike

theorem Analysis.Alike.typeOf (ha : a.Alike a') (h : d.Alike d') :
    LowersAlike Eq (a.typeOf d) (a'.typeOf d') := by
  unfold Analysis.typeOf
  rw [ha.types.decl?_eq h.id_eq]
  cases a'.types.decl? d' with
  | none => exact .error rfl
  | some type => exact .ok rfl

theorem LowerError.unexpected_unplaced (h : d.Alike d') (expected : String) (span span' : Span) :
    (LowerError.unexpected d expected span).unplaced =
      (LowerError.unexpected d' expected span').unplaced := by
  simp only [LowerError.unexpected, LowerError.unplaced, h.name_eq]

theorem Decl.Alike.address (ha : a.Alike a') (h : d.Alike d') (span span' : Span) :
    Paired (d.address a span) (d'.address a' span') := by
  refine .after fun b => ?_
  rw [h.id_eq]
  cases b.binding? d'.id with
  | some value => exact .refl _
  | none =>
    have hunexpected := LowerError.unexpected_unplaced h "variable" span span'
    have htype := ha.typeOf h
    cases h with
    | plain _ | initialized _ _ =>
      refine .liftBind htype ?_
      rintro type _ rfl
      exact .refl _
    | prototype _ | definition _ _ | basic | typedef _ => exact .throw hunexpected

theorem Decl.Alike.functionValue (ha : a.Alike a') (h : d.Alike d') (span span' : Span) :
    LowersAlike Eq (d.functionValue a span) (d'.functionValue a' span') := by
  have hunexpected := LowerError.unexpected_unplaced h "function" span span'
  refine Except.Rel.bind (ha.typeOf h) ?_
  rintro type _ rfl
  cases h with
  | prototype _ | definition _ _ =>
    cases type with
    | func result params => exact .ok rfl
    | basic _ | array _ _ => exact .error hunexpected
  | plain _ | initialized _ _ | basic | typedef _ => exact .error hunexpected

theorem Ident.Alike.read (ha : a.Alike a') (h : ident.Alike ident') :
    Paired (ident.read a) (ident'.read a') := by
  refine .liftBind (ha.declOf h) fun d d' hd => ?_
  refine .liftBind (ha.typeOf hd) ?_
  rintro type _ rfl
  cases type with
  | func result params =>
    refine .liftBind (hd.functionValue ha _ _) ?_
    rintro value _ rfl
    exact .refl _
  | array elem len =>
    cases len with
    | some n => exact (hd.address ha _ _).bind fun _ => .refl _
    | none => exact hd.address ha _ _
  | basic kind => exact (hd.address ha _ _).bind fun _ => .refl _

theorem Ident.Alike.elementAddress (ha : a.Alike a') (h : ident.Alike ident')
    {position position' : LowerM Ir.Value} (hposition : Paired position position') :
    Paired (ident.elementAddress a position) (ident'.elementAddress a' position') := by
  refine .liftBind (ha.declOf h) fun d d' hd => ?_
  refine .liftBind (ha.typeOf hd) ?_
  rintro type _ rfl
  cases type with
  | array elem len =>
    exact (hd.address ha _ _).bind fun _ => hposition.bind fun _ => .refl _
  | basic _ | func _ _ => exact .throw (LowerError.unexpected_unplaced hd _ _ _)

/-! Expressions. -/

theorem BinaryOp.emit_paired (op : BinaryOp) (span span' : Span) (lhs rhs : Ir.Value) :
    Paired (op.emit span lhs rhs) (op.emit span' lhs rhs) := by
  cases op with
  | assign | and => exact .throw rfl
  | add | sub | mul | div | eq | ne | lt | gt | le | ge => exact .refl _

theorem Expr.emitAnd_paired {lhs lhs' rhs rhs' : LowerM Ir.Value} (hlhs : Paired lhs lhs')
    (hrhs : Paired rhs rhs') : Paired (Expr.emitAnd lhs rhs) (Expr.emitAnd lhs' rhs') := by
  refine hlhs.bind fun left => ?_
  refine .after fun slot => .after fun holds => .after fun _ => .after fun rhsBlock => ?_
  refine .after fun endBlock => .after fun _ => .after fun _ => ?_
  exact hrhs.bind fun _ => .refl _

mutual

theorem Expr.Alike.lower (ha : a.Alike a') : {e e' : Expr} → e.Alike e' →
    Paired (e.lower a) (e'.lower a')
  | .literal _ (.int _) _, _, .literal | .literal _ (.char _) _, _, .literal => .refl _
  | _, _, .name hident => hident.read ha
  | _, _, .opened hinner => hinner.lower ha
  | _, _, .wrapped hinner => hinner.lower ha
  | _, _, .index harray hposition =>
    (harray.elementAddress ha (hposition.lower ha)).bind fun _ => .refl _
  | _, _, .call hcallee hargs => by
    refine .liftBind (ha.declOf hcallee) fun d d' hd => ?_
    refine .liftBind (hd.functionValue ha _ _) ?_
    rintro value _ rfl
    exact (hargs.lowerAll ha).bind fun _ => .refl _
  | _, _, .unary hoperand => (hoperand.lower ha).bind fun _ => .refl _
  | .binary _ op _ _ _, _, .binary hlhs hrhs => by
    cases op with
    | assign =>
      exact (hrhs.lower ha).bind fun _ => (hlhs.lowerPlace ha).bind fun _ => .refl _
    | and => exact Expr.emitAnd_paired (hlhs.lower ha) (hrhs.lower ha)
    | add | sub | mul | div | eq | ne | lt | gt | le | ge =>
      exact (hlhs.lower ha).bind fun _ => (hrhs.lower ha).bind fun _ =>
        BinaryOp.emit_paired _ _ _ _ _

theorem Expr.Alike.lowerPlace (ha : a.Alike a') : {e e' : Expr} → e.Alike e' →
    Paired (e.lowerPlace a) (e'.lowerPlace a')
  | _, _, .name hident =>
    .liftBind (ha.declOf hident) fun _ _ hd => hd.address ha _ _
  | _, _, .index harray hposition =>
    (harray.elementAddress ha (hposition.lower ha)).bind fun _ => .refl _
  | _, _, .opened hinner => hinner.lowerPlace ha
  | _, _, .wrapped hinner => hinner.lowerPlace ha
  | _, _, .literal | _, _, .binary _ _ | _, _, .call _ _ | _, _, .unary _ => .throw rfl

theorem Expr.AllAlike.lowerAll (ha : a.Alike a') : {es es' : List Expr} → Expr.AllAlike es es' →
    Paired (Expr.lowerAll a es) (Expr.lowerAll a' es')
  | _, _, .nil => .refl _
  | _, _, .cons he hrest => (he.lower ha).bind fun _ => (hrest.lowerAll ha).bind fun _ => .refl _

end

/-! Statements. -/

theorem Decl.Alike.lowerLocal (ha : a.Alike a') (h : d.Alike d') :
    Paired (d.lowerLocal a) (d'.lowerLocal a') := by
  have htype := ha.typeOf h
  cases h with
  | prototype _ | definition _ _ | basic | typedef _ => exact .throw rfl
  | plain _ =>
    refine .liftBind htype ?_
    rintro type _ rfl
    exact .refl _
  | initialized _ hinit =>
    refine .liftBind htype ?_
    rintro type _ rfl
    exact .after fun _ => (hinit.lower ha).bind fun _ => .refl _

mutual

theorem Stmt.Alike.lower (ha : a.Alike a') : {s s' : Stmt} → s.Alike s' →
    Paired (s.lower a) (s'.lower a')
  | _, _, .block hitems => hitems.lowerAll ha
  | _, _, .empty | _, _, .ret => .refl _
  | _, _, .expr hvalue => (hvalue.lower ha).discard
  | _, _, .branch hcond honTrue => by
    refine (hcond.lower ha).bind fun _ => .after fun _ => .after fun _ => .after fun _ => ?_
    exact .after fun _ => (honTrue.lower ha).bind fun _ => .refl _
  | _, _, .branchElse hcond honTrue honFalse => by
    refine (hcond.lower ha).bind fun _ => .after fun _ => .after fun _ => .after fun _ => ?_
    refine .after fun _ => (honTrue.lower ha).bind fun _ => .after fun _ => .after fun _ => ?_
    exact (honFalse.lower ha).bind fun _ => .refl _
  | _, _, .retValue hvalue => (hvalue.lower ha).bind fun _ => .refl _
  | _, _, .loop hcond hbody => by
    refine .after fun _ => .after fun _ => .after fun _ => (hcond.lower ha).bind fun _ => ?_
    refine .after fun _ => .after fun _ => .after fun _ => .after fun _ => ?_
    exact (hbody.lower ha).bind fun _ => .refl _

theorem Item.Alike.lower (ha : a.Alike a') : {item item' : Item} → item.Alike item' →
    Paired (item.lower a) (item'.lower a')
  | _, _, .decl hd => hd.lowerLocal ha
  | _, _, .stmt hs => hs.lower ha

theorem Item.AllAlike.lowerAll (ha : a.Alike a') : {items items' : List Item} →
    Item.AllAlike items items' → Paired (Item.lowerAll a items) (Item.lowerAll a' items')
  | _, _, .nil => .refl _
  | _, _, .cons hitem hrest =>
    .after fun _ => .ite ((hitem.lower ha).bind fun _ => hrest.lowerAll ha) (.refl _)

end

/-! Functions and globals. -/

theorem Decl.AllAlike.spillParams {ds ds' : List Decl} (h : Decl.AllAlike ds ds') (index : Nat)
    (types : List Ty) :
    Decl.spillParams index (ds.zip types) = Decl.spillParams index (ds'.zip types) := by
  induction ds generalizing ds' index types with
  | nil =>
    cases h with
    | nil => rfl
  | cons d rest ih =>
    cases h with
    | cons hd hrest =>
      cases types with
      | nil => rfl
      | cons type types =>
        simp only [List.zip_cons_cons, Decl.spillParams, hd.id_eq, hd.name_eq,
          ih hrest (index + 1) types]

theorem Decl.AllAlike.params {ds ds' : List Decl} (h : Decl.AllAlike ds ds') (types : List Ty) :
    ((ds.zip types).map fun param => (⟨param.1.name, param.2.machineParam⟩ : Ir.Param)) =
      (ds'.zip types).map fun param => ⟨param.1.name, param.2.machineParam⟩ := by
  induction ds generalizing ds' types with
  | nil =>
    cases h with
    | nil => rfl
  | cons d rest ih =>
    cases h with
    | cons hd hrest =>
      cases types with
      | nil => rfl
      | cons type types => simp only [List.zip_cons_cons, List.map_cons, hd.name_eq, ih hrest types]

theorem Decl.AllAlike.lowerBody (ha : a.Alike a') {ds ds' : List Decl} (h : Decl.AllAlike ds ds')
    (types : List Ty) {body body' : Stmt} (hbody : body.Alike body') :
    Paired (body.lowerBody a (ds.zip types)) (body'.lowerBody a' (ds'.zip types)) := by
  unfold Stmt.lowerBody
  rw [h.spillParams]
  exact .after fun _ => .after fun _ => (hbody.lower ha).bind fun _ => .refl _

theorem Decl.Alike.lowerFunction (ha : a.Alike a') (h : d.Alike d') :
    LowersAlike Eq (d.lowerFunction a) (d'.lowerFunction a') := by
  have hunexpected := LowerError.unexpected_unplaced h "function" d.span d'.span
  have htype := ha.typeOf h
  cases h with
  | plain _ | initialized _ _ | basic | typedef _ => exact .error hunexpected
  | prototype hsignature =>
    refine htype.bind ?_
    rintro type _ rfl
    cases type with
    | basic _ | array _ _ => exact .error hunexpected
    | func result types =>
      cases hsignature with
      | named _ | array _ => exact .error hunexpected
      | func _ hparams =>
        dsimp only
        rw [hparams.params]
        exact .ok rfl
  | definition hsignature hbody =>
    refine htype.bind ?_
    rintro type _ rfl
    cases type with
    | basic _ | array _ _ => exact .error hunexpected
    | func result types =>
      cases hsignature with
      | named _ | array _ => exact .error hunexpected
      | func _ hparams =>
        dsimp only
        rw [hparams.params]
        refine Except.Rel.bind (hparams.lowerBody ha types hbody _) ?_
        rintro ⟨_, final⟩ ⟨_, _⟩ ⟨_, rfl⟩
        exact .ok rfl

theorem Decl.Alike.lowerGlobal (ha : a.Alike a') (h : d.Alike d') :
    LowersAlike Eq (d.lowerGlobal a) (d'.lowerGlobal a') := by
  refine Except.Rel.bind (ha.typeOf h) ?_
  rintro type _ rfl
  cases h with
  | plain _ | prototype _ | definition _ _ | basic | typedef _ => exact .ok rfl
  | initialized _ hinit =>
    dsimp only
    rcases hinit.fold.eq_cases with ⟨v, _, hv, hv', rfl⟩ | ⟨e, e', he, he', herror⟩
    · rw [hv, hv']
      exact .ok rfl
    · rw [he, he']
      exact .error (congrArg LowerError.const herror)

theorem Analysis.Alike.binding (ha : a.Alike a') (h : d.Alike d') :
    ((a.resolution.fileBinding? d.name).getD d).Alike
      ((a'.resolution.fileBinding? d'.name).getD d') := by
  rw [h.name_eq]
  rcases Option.rel_cases (ha.resolution.fileBinding? d'.name) with
    ⟨hnone, hnone'⟩ | ⟨b, b', hb, hb', halike⟩
  · rw [hnone, hnone']
    exact h
  · rw [hb, hb']
    exact halike

theorem Decl.Alike.lowerInto (ha : a.Alike a') (h : d.Alike d') (m : Ir.Module) :
    LowersAlike Eq (d.lowerInto a m) (d'.lowerInto a' m) := by
  have hbinding := ha.binding h
  have hlower := h.lowerFunction ha
  have hplaced : (m.global? d.name).isSome ↔ (m.global? d'.name).isSome := by rw [h.name_eq]
  have hbound : ((a.resolution.fileBinding? d.name).getD d).id = d.id ↔
      ((a'.resolution.fileBinding? d'.name).getD d').id = d'.id := by
    rw [hbinding.id_eq, h.id_eq]
  cases h with
  | basic | typedef _ => exact .ok rfl
  | plain _ | initialized _ _ =>
    refine .ite hplaced (.ok rfl) ((hbinding.lowerGlobal ha).bind ?_)
    rintro g _ rfl
    exact .ok rfl
  | prototype _ | definition _ _ =>
    refine .ite hbound (hlower.bind ?_) (.ok rfl)
    rintro f _ rfl
    exact .ok rfl

theorem Decl.AllAlike.lowerInto (ha : a.Alike a') {ds ds' : List Decl} (h : Decl.AllAlike ds ds')
    (m : Ir.Module) :
    LowersAlike Eq (ds.foldlM (Decl.lowerInto a) m) (ds'.foldlM (Decl.lowerInto a') m) := by
  induction ds generalizing ds' m with
  | nil =>
    cases h with
    | nil => exact .ok rfl
  | cons d rest ih =>
    cases h with
    | cons hd hrest =>
      refine (hd.lowerInto ha m).bind ?_
      rintro next _ rfl
      exact ih hrest next

end

/-! Compilations. -/

/-- Parentheses are transparent. If two files differ only in parentheses around expressions, in
the numbers of expressions, statements and types, and in positions, then both programs compile to
the same module or both fail with the same error up to its position. -/
theorem Program.compile_alike (p p' : Program) (hp : p.Coherent) (hp' : p'.Coherent)
    (h : Decl.AllAlike p.file p'.file) (settings : Settings) :
    CompilesAlike (fun c c' => c.module = c'.module) (p.compile settings) (p'.compile settings) := by
  unfold Program.compile Program.resolveNames
  rcases (Program.resolve_alike h).eq_cases with ⟨r, r', hr, hr', halike⟩ | ⟨e, e', he, he', herror⟩
  · have hc : p.Counterparts p' r r' :=
      ⟨hp, hp', p.resolve_covers hr, p'.resolve_covers hr', halike⟩
    have htypes : CompilesAlike TypeTable.SameDecls (p.checkTypes r) (p'.checkTypes r') :=
      (Program.check_alike hc h).mapError fun _ _ => congrArg CompileError.type
    rw [hr, hr']
    change CompilesAlike _ (p.checkTypes r >>= _) (p'.checkTypes r' >>= _)
    refine htypes.bind fun t t' ht => ?_
    have hmodule : CompilesAlike Eq (p.lowerModule ⟨r, t⟩ settings.moduleName)
        (p'.lowerModule ⟨r', t'⟩ settings.moduleName) :=
      (h.lowerInto ⟨halike, ht⟩ _).mapError fun _ _ => congrArg CompileError.lower
    refine hmodule.bind ?_
    rintro module _ rfl
    exact .ok rfl
  · rw [he, he']
    exact .error (congrArg CompileError.resolve herror)

/-- A program with something put around expressions in each place where one can stand:
`int limit = 2; int cells[2]; int keep(int n) { if (n < limit) cells[n] = -n; return keep(n); }`. -/
def Program.keptCells (enclose : Expr → Build Expr) : Program := Build.finish do
  let intType ← Build.namedType "int"
  let two ← enclose (← Build.int 2)
  Build.push (← Build.var intType "limit" (some two))
  let intType ← Build.namedType "int"
  Build.push (← Build.var (← Build.arrayType intType (some 2)) "cells" none)
  let intType ← Build.namedType "int"
  let n ← Build.param intType "n"
  let limit ← enclose (← Build.name "limit")
  let cond ← enclose (← Build.binary .lt (← Build.name "n") limit)
  let position ← enclose (← Build.name "n")
  let target ← enclose (← Build.index "cells" position)
  let value ← Build.unary .neg (← enclose (← Build.name "n"))
  let store ← Build.exprStmt (← enclose (← Build.assign target value))
  let test ← Build.branch cond store none
  let arg ← enclose (← Build.name "n")
  let again ← enclose (← Build.call "keep" [arg])
  let result ← Build.ret (some again)
  let body ← Build.block [.stmt test, .stmt result]
  let intType ← Build.namedType "int"
  Build.push (← Build.func "keep" intType [n] (some body))

theorem Program.keptCells_alike :
    Decl.AllAlike (keptCells pure).file (keptCells Build.paren).file := by
  refine .cons (.initialized (.named ⟨rfl, rfl⟩) (.wrapped .literal)) ?_
  refine .cons (.plain (.array (.named ⟨rfl, rfl⟩))) (.cons (.definition ?_ ?_) .nil)
  · exact .func (.named ⟨rfl, rfl⟩) (.cons (.plain (.named ⟨rfl, rfl⟩)) .nil)
  · refine .block (.cons (.stmt (.branch ?_ (.expr ?_))) (.cons (.stmt (.retValue ?_)) .nil))
    · exact .wrapped (.binary (.name ⟨rfl, rfl⟩) (.wrapped (.name ⟨rfl, rfl⟩)))
    · refine .wrapped (.binary ?_ ?_)
      · exact .wrapped (.index ⟨rfl, rfl⟩ (.wrapped (.name ⟨rfl, rfl⟩)))
      · exact .unary (.wrapped (.name ⟨rfl, rfl⟩))
    · exact .wrapped (.call ⟨rfl, rfl⟩ (.cons (.wrapped (.name ⟨rfl, rfl⟩)) .nil))

/-- Nine parentheses more, and the same module. -/
theorem Program.compile_alike_keptCells :
    (keptCells Build.paren).exprs.size = (keptCells pure).exprs.size + 9 ∧
      ∃ c c', (keptCells pure).compile {} = .ok c ∧ (keptCells Build.paren).compile {} = .ok c' ∧
        c.module = c'.module := by
  refine ⟨by decide +kernel, ?_⟩
  obtain ⟨c, hc, _⟩ : ∃ c, (keptCells pure).compile {} = .ok c ∧ true :=
    Except.exists_of_any (by decide +kernel)
  have halike := compile_alike (keptCells pure) (keptCells Build.paren) (by decide +kernel)
    (by decide +kernel) keptCells_alike {}
  rcases halike.eq_cases with ⟨found, c', hfound, hc', hmodule⟩ | ⟨e, e', herror, _⟩
  · exact ⟨found, c', hfound, hc', hmodule⟩
  · rw [hc] at herror
    cases herror

end MicroC
