import MicroC.Proofs.Constant.Exactness
import MicroC.Proofs.Syntax.Equality
import MicroC.Proofs.Typing.Entries

/-!
Constants in checked programs. An expression that the checker has given a type can still fail to
be constant, but the value that it has is of that type, its operands never have different types,
and no literal is out of range.
-/

namespace MicroC

/-- An expression with an operator. -/
def Expr.isOperation : Expr → Bool
  | unary .. | binary .. => true
  | literal .. | paren .. | call .. | name .. | index .. => false

/-- What can be wrong with an expression whose operands have the types they should have. -/
def Expr.MayReport (e : Expr) : ConstError → Prop
  | .notConstant _ | .divisionByZero _ => True
  | .overflow .. => e.isOperation
  | .mixedOperands _ => False

/-- The first expression that something is wrong with. -/
def Expr.culprit? (e : Expr) : Option Expr := e.evaluated.find? (·.obstacle?.isSome)

theorem Scalar.basicKind_injective {k l : Scalar} (h : k.basicKind = l.basicKind) : k = l := by
  cases k <;> cases l <;> first | rfl | cases h

theorem Scalar.obstacle?_eq_some {kind : Scalar} {number : Int} {span : Span} {error : ConstError}
    (h : kind.obstacle? number span = some error) : error = .overflow kind.text span := by
  unfold Scalar.obstacle? at h
  split at h
  · cases h
  · exact (Option.some.inj h).symm

/-- Two operands of one type can be too large for it, or cannot be divided. -/
theorem Expr.binary_mayReport {id : ExprId} {op : BinaryOp} {span : Span} {lhs rhs : Expr}
    {error : ConstError} (hkinds : op ≠ .assign → ¬ Skips op lhs → lhs.kind = rhs.kind)
    (h : (binary id op span lhs rhs).obstacle? = some error) :
    (binary id op span lhs rhs).MayReport error := by
  simp only [obstacle?] at h
  split at h
  · cases h
    trivial
  next hop =>
    split at h
    · cases h
    next hskips =>
      rw [if_neg (not_not_intro (hkinds hop hskips)), BinaryOp.obstacle?] at h
      split at h
      · cases h
        trivial
      · rw [Scalar.obstacle?_eq_some h]
        rfl

namespace Expr

theorem firstObstacle?_eq (e : Expr) : e.firstObstacle? = e.culprit?.bind obstacle? := by
  unfold firstObstacle? culprit?
  induction e.evaluated with
  | nil => rfl
  | cons first rest ih =>
    cases h : first.obstacle? with
    | some error => simp [h]
    | none => simpa [h] using ih

theorem firstObstacle?_of_culprit? {e : Expr} (h : e.culprit? = none) : e.firstObstacle? = none := by
  rw [firstObstacle?_eq, h]
  rfl

/-- The culprit is among the operands, or it is the expression itself and the operands are in
order. -/
theorem find?_concat {operands : List Expr} {e inner : Expr} {p : Expr → Bool}
    (h : (operands ++ [e]).find? p = some inner) :
    operands.find? p = some inner ∨ operands.find? p = none ∧ inner = e := by
  rw [List.find?_append] at h
  cases hoperands : operands.find? p with
  | some found =>
    rw [hoperands] at h
    exact .inl h
  | none =>
    rw [hoperands, Option.none_or] at h
    exact .inr ⟨rfl, List.mem_singleton.mp (List.mem_of_find?_eq_some h)⟩

theorem literal_culprit {id : ExprId} {value : Literal} {span : Span} {inner : Expr}
    {error : ConstError} (h : (literal id value span).culprit? = some inner)
    (herror : inner.obstacle? = some error) (hfits : value.kind.Fits value.number) :
    inner.MayReport error := by
  obtain rfl := List.mem_singleton.mp (List.mem_of_find?_eq_some h)
  rw [obstacle?, Scalar.obstacle?, if_pos hfits] at herror
  cases herror

/-- The culprit of an operation is that of an operand, or the operation on operands of one type. -/
theorem binary_culprit {id : ExprId} {op : BinaryOp} {span : Span} {lhs rhs inner : Expr}
    {error : ConstError} (herror : inner.obstacle? = some error)
    (hkinds : lhs.culprit? = none → rhs.culprit? = none → lhs.kind = rhs.kind)
    (hlhs : lhs.culprit? = some inner → inner.MayReport error)
    (hrhs : rhs.culprit? = some inner → inner.MayReport error)
    (h : (binary id op span lhs rhs).culprit? = some inner) : inner.MayReport error := by
  rw [culprit?, evaluated] at h
  by_cases hop : op = .assign
  · rw [if_pos hop] at h
    obtain rfl := List.mem_singleton.mp (List.mem_of_find?_eq_some h)
    exact binary_mayReport (fun hne => absurd hop hne) herror
  · rw [if_neg hop] at h
    by_cases hskips : Skips op lhs
    · rw [if_pos hskips] at h
      rcases find?_concat h with hfound | ⟨_, rfl⟩
      · exact hlhs hfound
      · exact binary_mayReport (fun _ hnot => absurd hskips hnot) herror
    · rw [if_neg hskips] at h
      rcases find?_concat h with hfound | ⟨hnone, rfl⟩
      · rw [List.find?_append] at hfound
        rcases Option.or_eq_some_iff.mp hfound with hleft | ⟨_, hright⟩
        · exact hlhs hleft
        · exact hrhs hright
      · rw [List.find?_append, Option.or_eq_none_iff] at hnone
        exact binary_mayReport (fun _ _ => hkinds hnone.1 hnone.2) herror

end Expr

section

variable {a : Analysis}

/-- A value is of the type that the rules give to its expression. -/
theorem Expr.HasType.eq_kind : {e : Expr} → {type : Ty} → e.HasType a type →
    e.firstObstacle? = none → type = .basic e.kind.basicKind
  | .literal _ (.int _) _, _, htype, _ | .literal _ (.char _) _, _, htype, _
  | .unary _ .not _ _, _, htype, _ => by
    cases htype
    rfl
  | .name .., _, _, h | .call .., _, _, h | .index .., _, _, h => by
    rw [Expr.firstObstacle?, Expr.evaluated, List.findSome?_singleton, Expr.obstacle?] at h
    cases h
  | .paren .., _, htype, h => by
    cases htype with
    | paren hinner =>
      rw [Expr.firstObstacle?_paren, Option.or_none] at h
      exact hinner.eq_kind h
  | .unary _ .neg _ _, _, htype, h => by
    cases htype with
    | neg hoperand _ =>
      rw [Expr.firstObstacle?_unary, Option.or_eq_none_iff] at h
      exact hoperand.eq_kind h.1
  | .binary id op span lhs rhs, _, htype, h => by
    cases htype with
    | binary hlhs _ _ _ =>
      by_cases hop : op = .assign
      · rw [Expr.firstObstacle?, Expr.evaluated, if_pos hop, List.findSome?_singleton,
          Expr.obstacle?, if_pos hop] at h
        cases h
      · rw [Expr.firstObstacle?_binary id hop, Option.or_eq_none_iff] at h
        exact hlhs.eq_kind h.1

/-- Operands that are in order have one type, and so have their values. -/
theorem Expr.HasType.kinds_eq {lhs rhs : Expr} {type : Ty} (hlhs : lhs.HasType a type)
    (hrhs : rhs.HasType a type) (h : lhs.culprit? = none) (h' : rhs.culprit? = none) :
    lhs.kind = rhs.kind := by
  have hleft := hlhs.eq_kind (firstObstacle?_of_culprit? h)
  have hright := hrhs.eq_kind (firstObstacle?_of_culprit? h')
  rw [hleft] at hright
  exact Scalar.basicKind_injective (Ty.basic.inj hright)

theorem Expr.HasType.mayReport {inner : Expr} {error : ConstError}
    (herror : inner.obstacle? = some error) : {e : Expr} → {type : Ty} → e.HasType a type →
    e.culprit? = some inner → inner.MayReport error
  | _, _, .int hfits, h => Expr.literal_culprit h herror hfits
  | _, _, .char, h => Expr.literal_culprit h herror (Literal.char_fits _)
  | _, _, .name _, h | _, _, .call _ _, h | _, _, .index _ _ _, h => by
    obtain rfl := List.mem_singleton.mp (List.mem_of_find?_eq_some h)
    cases herror
    trivial
  | _, _, .paren hinner, h => by
    rcases Expr.find?_concat h with hfound | ⟨_, rfl⟩
    · exact hinner.mayReport herror hfound
    · cases herror
  | _, _, .neg hoperand _, h => by
    rcases Expr.find?_concat h with hfound | ⟨_, rfl⟩
    · exact hoperand.mayReport herror hfound
    · rw [Scalar.obstacle?_eq_some herror]
      rfl
  | _, _, .not hoperand _, h => by
    rcases Expr.find?_concat h with hfound | ⟨_, rfl⟩
    · exact hoperand.mayReport herror hfound
    · cases herror
  | _, _, .binary hlhs hrhs _ _, h =>
    Expr.binary_culprit herror (hlhs.kinds_eq hrhs) (fun hfound => hlhs.mayReport herror hfound)
      (fun hfound => hrhs.mayReport herror hfound) h

end

namespace Program

/-- The constant value of an expression in the table of types is of the type recorded there. If it
has none, then it is not constant, divides by zero, or an operator in it gives a result out of
range. -/
theorem fold_agrees_with_types (p : Program) (hp : p.Coherent) (r : Resolution)
    (hr : p.resolve = .ok r) (t : TypeTable) (ht : p.check r = .ok t) (e : Expr)
    (he : p.Holds (.expr e)) (type : Ty) (htype : t.expr? e = some type) :
    (∀ v, e.fold = .ok v → type = .basic v.kind.basicKind) ∧
    ∀ error, e.fold = .error error →
      ∃ inner, e.culprit? = some inner ∧ inner.obstacle? = some error ∧ inner.MayReport error := by
  have hin := (check_reached ht).enter_mem hp he htype
  have hrules : e.HasType ⟨r, t⟩ type := (check_sound hp (resolve_covers hr) ht).1.exprs e type hin htype
  constructor
  · intro v hv
    rw [(e.fold_comes.of_ok hv).1]
    exact hrules.eq_kind (e.fold_comes.ok_iff.mp ⟨v, hv⟩)
  · intro error herror
    have hfirst := e.fold_comes.error_iff.mp herror
    rw [Expr.firstObstacle?_eq] at hfirst
    obtain ⟨inner, hinner, hobstacle⟩ := Option.bind_eq_some_iff.mp hfirst
    exact ⟨inner, hinner, hobstacle, hrules.mayReport hobstacle hinner⟩

/-- A constant and an overflow that the types allow:
`char step = 'b' - 'a'; int beyond(void) { return 2147483647 + 1; }`. -/
def constants : Program := Build.finish do
  let charType ← Build.namedType "char"
  let step ← Build.binary .sub (← Build.char 98) (← Build.char 97)
  Build.push (← Build.var charType "step" (some step))
  let sum ← Build.binary .add (← Build.int 2147483647) (← Build.int 1)
  let result ← Build.ret (some sum)
  let body ← Build.block [.stmt result]
  let intType ← Build.namedType "int"
  Build.push (← Build.func "beyond" intType [] (some body))

/-- The initial value of `step`. -/
def constants.difference : Expr :=
  .binary 2 .sub ⟨13, 14⟩ (.literal 0 (.char 98) ⟨5, 8⟩) (.literal 1 (.char 97) ⟨9, 12⟩)

/-- The result of `beyond`. -/
def constants.sum : Expr :=
  .binary 5 .add ⟨33, 34⟩ (.literal 3 (.int 2147483647) ⟨20, 30⟩) (.literal 4 (.int 1) ⟨31, 32⟩)

/-- The difference of the two letters is a `char`, and the sum is what overflows. -/
theorem fold_agrees_with_types_constants : ∃ r t, constants.Coherent ∧ constants.resolve = .ok r ∧
    constants.check r = .ok t ∧
    (constants.Holds (.expr constants.difference) ∧ ∃ v, constants.difference.fold = .ok v ∧
      t.expr? constants.difference = some (.basic v.kind.basicKind)) ∧
    constants.Holds (.expr constants.sum) ∧
      constants.sum.fold = .error (.overflow "int" ⟨33, 34⟩) ∧
      ∃ inner, constants.sum.culprit? = some inner ∧ inner.isOperation := by
  have hp : constants.Coherent := by decide +kernel
  have hdifference : constants.Holds (.expr constants.difference) := by decide +kernel
  have hsum : constants.Holds (.expr constants.sum) := by decide +kernel
  obtain ⟨r, hr, hchecks⟩ : ∃ r, constants.resolve = .ok r ∧ (constants.check r).toOption.any
      fun t => (t.expr? constants.difference).isSome && (t.expr? constants.sum).isSome :=
    Except.exists_of_any (by decide +kernel)
  obtain ⟨t, ht, hentries⟩ : ∃ t, constants.check r = .ok t ∧
      ((t.expr? constants.difference).isSome && (t.expr? constants.sum).isSome) :=
    Except.exists_of_any hchecks
  obtain ⟨htype, htype'⟩ := Bool.and_eq_true_iff.mp hentries
  obtain ⟨type, htype⟩ := Option.isSome_iff_exists.mp htype
  obtain ⟨type', htype'⟩ := Option.isSome_iff_exists.mp htype'
  have hvalue : constants.difference.fold = .ok ⟨.char, 1, by decide⟩ := rfl
  have herror : constants.sum.fold = .error (.overflow "int" ⟨33, 34⟩) := rfl
  refine ⟨r, t, hp, hr, ht, ⟨hdifference, _, hvalue, ?_⟩, hsum, herror, ?_⟩
  · rw [htype, (fold_agrees_with_types constants hp r hr t ht _ hdifference type htype).1 _ hvalue]
  · obtain ⟨inner, hinner, _, hmay⟩ :=
      (fold_agrees_with_types constants hp r hr t ht _ hsum type' htype').2 _ herror
    exact ⟨inner, hinner, hmay⟩

end Program

end MicroC
