import MicroC.Lowering.Module
import MicroC.Proofs.Ir.Cursor
import MicroC.Proofs.Run
import MicroC.Proofs.Typing.Objects

/-!
Lowering succeeds on checked programs. Code is emitted only while the cursor is ready;
an expression leaves it ready, and a statement closes it just when all its paths return.
Blocks that are made for later stay pending until they are selected, so that all of
them are finished at the end of a body. Only a name whose declaration does not go with its
type can be refused, and it is refused wherever it is reached.
-/

namespace MicroC

open LowerM

/-- The run succeeds and ends as `Q` says. -/
abbrev LowerM.Yields {α : Type} (m : LowerM α) (b : Ir.Builder) (Q : α → Ir.Builder → Prop) : Prop :=
  Run (fun _ => False) m b Q

namespace LowerM.Yields

variable {α β : Type} {m : LowerM α} {b : Ir.Builder} {Q : α → Ir.Builder → Prop}

theorem bind {f : α → LowerM β} {R : β → Ir.Builder → Prop} (hm : m.Yields b Q)
    (hf : ∀ x b', Q x b' → (f x).Yields b' R) : (m >>= f).Yields b R :=
  Run.bind_iff.mpr (Run.mono hm hf)

theorem lift {x : Except LowerError α} {v : α} (hx : x = .ok v) (h : Q v b) :
    LowerM.Yields (liftM x) b Q :=
  (Run.lift_ok_iff hx).mpr h

theorem build {op : Ir.Builder → Ir.Outcome α} {v : α} {b' : Ir.Builder} (h : op b = (.ok v, b'))
    (hQ : Q v b') : (LowerM.build op).Yields b Q := by
  unfold LowerM.Yields Run LowerM.build
  rw [h]
  exact hQ

end LowerM.Yields

/-- A step that may refuse a declaration, and does so just when something is wrong. -/
def LowerM.Settles {α : Type} (wrong : Prop) (m : LowerM α) (b : Ir.Builder)
    (Q : α → Ir.Builder → Prop) : Prop :=
  Run (fun e => wrong ∧ ∃ d expected span, e = .unexpected d expected span) m b fun x b' =>
    ¬ wrong ∧ Q x b'

namespace LowerM

variable {α β : Type} {wrong wrong' : Prop} {m : LowerM α} {b : Ir.Builder}
  {Q : α → Ir.Builder → Prop} {f : α → LowerM β} {R : β → Ir.Builder → Prop}

theorem Settles.bind (hm : m.Settles wrong b Q)
    (hf : ∀ x b', Q x b' → (f x).Settles wrong' b' R) : (m >>= f).Settles (wrong ∨ wrong') b R := by
  refine Run.bind_iff.mpr (Run.mono (Run.weaken hm fun e he => ⟨.inl he.1, he.2⟩) ?_)
  rintro x b' ⟨hright, hx⟩
  refine Run.mono (Run.weaken (hf x b' hx) fun e he => ⟨.inr he.1, he.2⟩) ?_
  rintro y b'' ⟨hright', hy⟩
  exact ⟨not_or.mpr ⟨hright, hright'⟩, hy⟩

theorem Settles.congr (h : m.Settles wrong b Q) (hiff : wrong ↔ wrong') : m.Settles wrong' b Q := by
  rwa [← propext hiff]

theorem Settles.mono {Q' : α → Ir.Builder → Prop} (h : m.Settles wrong b Q)
    (hQ : ∀ x b', Q x b' → Q' x b') : m.Settles wrong b Q' :=
  Run.mono h fun x b' hx => ⟨hx.1, hQ x b' hx.2⟩

theorem Settles.discard (h : m.Settles wrong b Q) :
    LowerM.Settles wrong (discard m) b fun _ b' => ∃ x, Q x b' :=
  Run.discard_iff.mpr (Run.mono h fun x _ hx => ⟨hx.1, x, hx.2⟩)

theorem Yields.settles (h : m.Yields b Q) (hright : ¬ wrong) : m.Settles wrong b Q :=
  Run.mono (Run.weaken h fun _ he => he.elim) fun _ _ hx => ⟨hright, hx⟩

/-- Without anything wrong there is a result. -/
theorem Settles.yields (h : m.Settles wrong b Q) (hright : ¬ wrong) : m.Yields b Q :=
  Run.mono (Run.weaken h fun _ he => hright he.1) fun _ _ hx => hx.2

theorem Yields.bindSettles (hm : m.Yields b Q) (hf : ∀ x b', Q x b' → (f x).Settles wrong b' R) :
    (m >>= f).Settles wrong b R :=
  ((hm.settles not_false).bind hf).congr (by simp)

theorem Settles.bindYields (hm : m.Settles wrong b Q) (hf : ∀ x b', Q x b' → (f x).Yields b' R) :
    (m >>= f).Settles wrong b R :=
  (hm.bind fun x b' hx => (hf x b' hx).settles not_false).congr (by simp)

theorem Settles.liftBind {x : Except LowerError α} {v : α} (hx : x = .ok v)
    (hf : (f v).Settles wrong b R) : LowerM.Settles wrong (liftM x >>= f) b R := by
  subst hx
  exact hf

end LowerM

/-! The names that are used. -/

mutual

/-- The names that an expression uses. -/
def Expr.usedNames : Expr → List Ident
  | .literal .. => []
  | .name _ ident => [ident]
  | .paren _ _ inner _ => inner.usedNames
  | .unary _ _ _ operand => operand.usedNames
  | .binary _ _ _ lhs rhs => lhs.usedNames ++ rhs.usedNames
  | .call _ callee _ args _ => callee :: Expr.usedNamesAll args
  | .index _ array _ position _ => array :: position.usedNames

def Expr.usedNamesAll : List Expr → List Ident
  | [] => []
  | e :: rest => e.usedNames ++ Expr.usedNamesAll rest

end

/-- The names that the initial value of a variable uses. -/
def Decl.usedNames : Decl → List Ident
  | .var _ _ _ _ (some init) => init.usedNames
  | _ => []

mutual

/-- The names that are used in the parts of a statement that are reached. -/
def Stmt.usedNames : Stmt → List Ident
  | .block _ _ items _ => Item.usedNamesAll items
  | .empty .. => []
  | .expr _ value => value.usedNames
  | .branch _ _ cond onTrue none => cond.usedNames ++ onTrue.usedNames
  | .branch _ _ cond onTrue (some onFalse) =>
    cond.usedNames ++ (onTrue.usedNames ++ onFalse.usedNames)
  | .ret _ _ none => []
  | .ret _ _ (some value) => value.usedNames
  | .loop _ _ cond body => cond.usedNames ++ body.usedNames

def Item.usedNames : Item → List Ident
  | .decl d => d.usedNames
  | .stmt s => s.usedNames

/-- Behind an item that always returns nothing is reached. -/
def Item.usedNamesAll : List Item → List Ident
  | [] => []
  | item :: rest => item.usedNames ++ if item.alwaysReturns then [] else Item.usedNamesAll rest

end

section

variable {b : Ir.Builder}

theorem LowerM.selectBlock_yields {i : Ir.BlockId} {Q : Unit → Ir.Builder → Prop}
    (hi : b.Unfinished i) (h : Q () (b.withCurrent (some i))) : (selectBlock i).Yields b Q :=
  .build (Ir.Builder.selectBlock_eq hi) h

theorem LowerM.emit_yields {operation : Ir.Operation} {type : Ir.Ty} {id : Ir.BlockId}
    {Q : Ir.Value → Ir.Builder → Prop} (hid : b.current = some id)
    (h : Q (.inst b.nextInst type) (b.withInst id operation type none)) :
    (emit operation type).Yields b Q :=
  .build (Ir.Builder.append_eq hid) h

theorem LowerM.terminate_yields {terminator : Ir.Terminator} {id : Ir.BlockId}
    {Q : Unit → Ir.Builder → Prop} (hid : b.current = some id) (hopen : b.Unfinished id)
    (h : Q () (b.withTerminator id terminator)) : (terminate terminator).Yields b Q :=
  .build (Ir.Builder.terminate_eq hid hopen) h

theorem LowerM.allocate_none_yields {type : Ir.Ty} {Q : Ir.Value → Ir.Builder → Prop}
    (hb : b.blocks ≠ []) (h : Q (.inst b.nextInst (.ptr type)) (b.withSlot type none)) :
    (allocate none type).Yields b Q :=
  .build (Ir.Builder.emitAlloca_none_eq hb) h

theorem LowerM.allocate_some_yields {type : Ir.Ty} {decl : DeclId} {name : String}
    {Q : Ir.Value → Ir.Builder → Prop} (hb : b.blocks ≠ [])
    (h : Q (.inst b.nextInst (.ptr type)) (b.withLocal decl name type)) :
    (allocate (some (decl, name)) type).Yields b Q :=
  .build (Ir.Builder.emitAlloca_some_eq hb) h

end

/-! What these steps do to the cursor. The bindings stay as they are, and so does what is known
of them. -/

namespace Ir.Builder

/-- Something that is known of the bindings only. -/
def OfBindings (I : Builder → Prop) : Prop := ∀ b b' : Builder, b'.bindings = b.bindings → I b → I b'

/-- The cursor is ready, and the bindings are as is known. -/
structure OpenIn (I : Builder → Prop) (b : Builder) (result : Ty) (P : BlockId → Prop) : Prop where
  isOpen : b.Open result P
  known : I b

structure ClosedIn (I : Builder → Prop) (b : Builder) (result : Ty) (P : BlockId → Prop) : Prop where
  isClosed : b.Closed result P
  known : I b

/-- The cursor after some code, which may have closed it. -/
structure EndsIn (I : Builder → Prop) (b : Builder) (closed : Bool) (result : Ty)
    (P : BlockId → Prop) : Prop where
  ends : b.Ends closed result P
  known : I b

variable {I : Builder → Prop} {b : Builder} {closed : Bool} {result : Ty} {P P' : BlockId → Prop}

theorem OpenIn.congr (h : b.OpenIn I result P) (hP : ∀ i, P i ↔ P' i) : b.OpenIn I result P' :=
  ⟨h.isOpen.congr hP, h.known⟩

theorem ClosedIn.congr (h : b.ClosedIn I result P) (hP : ∀ i, P i ↔ P' i) : b.ClosedIn I result P' :=
  ⟨h.isClosed.congr hP, h.known⟩

theorem OpenIn.endsIn (h : b.OpenIn I result P) : b.EndsIn I false result P := ⟨h.isOpen, h.known⟩

theorem ClosedIn.endsIn (h : b.ClosedIn I result P) : b.EndsIn I true result P := ⟨h.isClosed, h.known⟩

theorem EndsIn.openIn (h : b.EndsIn I false result P) : b.OpenIn I result P := ⟨h.ends, h.known⟩

theorem EndsIn.closedIn (h : b.EndsIn I true result P) : b.ClosedIn I result P := ⟨h.ends, h.known⟩

end Ir.Builder

section

variable {I : Ir.Builder → Prop} {b : Ir.Builder} {result : Ir.Ty} {P : Ir.BlockId → Prop}

theorem LowerM.isOpen_bind_iff {α : Type} {f : Bool → LowerM α} {E : LowerError → Prop}
    {Q : α → Ir.Builder → Prop} :
    Run E (isOpen >>= f) b Q ↔ Run E (f b.current.isSome) b Q := Iff.rfl

theorem LowerM.isOpen_bind {α : Type} {f : Bool → LowerM α} {E : LowerError → Prop}
    {Q : α → Ir.Builder → Prop} {closed : Bool} (h : b.EndsIn I closed result P)
    (hf : Run E (f !closed) b Q) : Run E (isOpen >>= f) b Q := by
  rw [← h.ends.isSome] at hf
  exact isOpen_bind_iff.mpr hf

theorem LowerM.emit_open (hI : Ir.Builder.OfBindings I) (operation : Ir.Operation) (type : Ir.Ty)
    (h : b.OpenIn I result P) : (emit operation type).Yields b fun _ b' => b'.OpenIn I result P := by
  obtain ⟨i, hi, _⟩ := h.isOpen.ready
  exact emit_yields hi ⟨h.isOpen.of_same rfl (by simp) rfl, hI b _ rfl h.known⟩

theorem LowerM.store_open (hI : Ir.Builder.OfBindings I) (value pointer : Ir.Value)
    (h : b.OpenIn I result P) : (store value pointer).Yields b fun _ b' => b'.OpenIn I result P :=
  Run.discard_iff.mpr (emit_open hI _ _ h)

theorem LowerM.allocate_open (hI : Ir.Builder.OfBindings I) (type : Ir.Ty) (h : b.OpenIn I result P) :
    (allocate none type).Yields b fun _ b' => b'.OpenIn I result P :=
  allocate_none_yields h.isOpen.ready.blocks_ne_nil
    ⟨h.isOpen.of_same rfl (by simp) rfl, hI b _ rfl h.known⟩

/-- The slot of a variable, which is bound to it. -/
theorem LowerM.allocate_local_open {decl : DeclId} {name : String} {type : Ir.Ty}
    (h : b.OpenIn I result P) (hlocal : I (b.withLocal decl name type)) :
    (allocate (some (decl, name)) type).Yields b fun _ b' => b'.OpenIn I result P :=
  allocate_some_yields h.isOpen.ready.blocks_ne_nil ⟨h.isOpen.of_same rfl (by simp) rfl, hlocal⟩

theorem LowerM.newBlock_open (hI : Ir.Builder.OfBindings I) (label : String)
    (h : b.OpenIn I result P) :
    (newBlock label).Yields b fun n b' => ¬ P n ∧ b'.OpenIn I result fun i => P i ∨ i = n :=
  ⟨h.isOpen.not_length, h.isOpen.withBlock label, hI b _ rfl h.known⟩

theorem LowerM.terminate_closed (hI : Ir.Builder.OfBindings I) (terminator : Ir.Terminator)
    (h : b.OpenIn I result P) :
    (terminate terminator).Yields b fun _ b' => b'.ClosedIn I result P := by
  obtain ⟨id, hid, hopen⟩ := h.isOpen.ready
  exact terminate_yields hid hopen ⟨h.isOpen.withTerminator hid, hI b _ rfl h.known⟩

theorem LowerM.selectBlock_open (hI : Ir.Builder.OfBindings I) {id : Ir.BlockId}
    (h : b.ClosedIn I result P) (hid : P id) :
    (selectBlock id).Yields b fun _ b' => b'.OpenIn I result fun i => P i ∧ i ≠ id :=
  selectBlock_yields ((h.isClosed.unfinished id).mpr hid)
    ⟨h.isClosed.withCurrent hid, hI b _ rfl h.known⟩

/-- A condition that chooses between two new blocks. The first is selected, and the second is
left open. -/
theorem LowerM.test_settles {α : Type} (hI : Ir.Builder.OfBindings I) {wrong : Prop} {cond : Ir.Value}
    (trueLabel falseLabel : String) {k : Ir.BlockId → Ir.BlockId → LowerM α}
    {Q : α → Ir.Builder → Prop} (h : b.OpenIn I result P)
    (hk : ∀ (onTrue onFalse : Ir.BlockId) (b' : Ir.Builder), ¬ P onFalse →
      (b'.OpenIn I result fun i => P i ∨ i = onFalse) → (k onTrue onFalse).Settles wrong b' Q) :
    LowerM.Settles wrong (do
      let onTrue ← newBlock trueLabel
      let onFalse ← newBlock falseLabel
      terminate (.condBr cond onTrue onFalse)
      selectBlock onTrue
      k onTrue onFalse) b Q := by
  refine (newBlock_open hI _ h).bindSettles fun onTrue b₁ ⟨htrue, h₁⟩ => ?_
  refine (newBlock_open hI _ h₁).bindSettles fun onFalse b₂ ⟨hfalse, h₂⟩ => ?_
  refine (terminate_closed hI _ h₂).bindSettles fun _ b₃ h₃ => ?_
  refine (selectBlock_open hI h₃ (.inl (.inr rfl))).bindSettles fun _ b₄ h₄ => ?_
  exact hk onTrue onFalse b₄ (fun hold => hfalse (.inl hold)) (h₄.congr (by grind))

end

namespace Analysis.Consistent

variable {p : Program} {a : Analysis} {b : Ir.Builder} {ident : Ident} {d : Decl} {type : Ty}

theorem declOf_eq (h : ident.HasType a d type) : a.declOf ident = .ok d := by
  simp [Analysis.declOf, h.declOf]

theorem typeOf_eq (h : a.types.decl? d = some type) : a.typeOf d = .ok type := by
  simp [Analysis.typeOf, h]

/-- A variable has an address, which does not change the builder. -/
theorem address_yields {span : Span} (hd : d.isVar) (hknown : a.types.decl? d = some type)
    {Q : Ir.Value → Ir.Builder → Prop}
    (h : ∀ v, b.binding? d.id = some v ∨
      (b.binding? d.id = none ∧ v = .global d.name (.ptr type.machine)) → Q v b) :
    (d.address a span).Yields b Q := by
  cases d with
  | func _ _ _ _ _ | basic _ _ _ _ | typedef _ _ _ _ => simp [Decl.isVar] at hd
  | var id name nameSpan written init =>
    unfold Decl.address
    simp only [LowerM.Yields, Run.bind_iff, Run.get_iff]
    split
    next v hv => exact h v (.inl hv)
    next hnone =>
      simp only [Run.bind_iff]
      exact LowerM.Yields.lift (typeOf_eq hknown) (h _ (.inr ⟨hnone, rfl⟩))

theorem functionValue_eq {id : DeclId} {name : String} {span nameSpan : Span}
    {signature : TypeExpr} {body : Option Stmt} {result : Ty} {params : List Ty}
    (hknown : a.types.decl? (.func id name nameSpan signature body) = some (.func result params)) :
    (Decl.func id name nameSpan signature body).functionValue a span =
      .ok (.function name (Ty.func result params).machine, result.machine) := by
  simp [Decl.functionValue, typeOf_eq hknown, bind, Except.bind, pure, Except.pure]

end Analysis.Consistent

/-- Which names are used wrongly, as far as it is known what is bound: a name of a function type
that does not declare a function, and one of another type that neither declares a variable nor is
bound. -/
structure Analysis.Judges (a : Analysis) (I : Ir.Builder → Prop) (wrong : Ident → Prop) : Prop where
  ofBindings : Ir.Builder.OfBindings I
  called : ∀ {ident d result params}, ident.HasType a d (.func result params) →
    (wrong ident ↔ d.isFunc = false)
  read : ∀ {b ident d type}, I b → ident.HasType a d type →
    (∀ result params, type ≠ .func result params) →
    (wrong ident ↔ d.isVar = false ∧ b.binding? d.id = none)

section

variable {a : Analysis} {I : Ir.Builder → Prop} {wrong : Ident → Prop} {b : Ir.Builder} {ret : Ir.Ty}
  {P : Ir.BlockId → Prop}

/-- `&&` makes two blocks, and ends in the second. -/
theorem Expr.emitAnd_settles (hI : Ir.Builder.OfBindings I) {lhs rhs : LowerM Ir.Value}
    {left right : Prop} (hlhs : lhs.Settles left b fun _ b' => b'.OpenIn I ret P)
    (hrhs : ∀ (b : Ir.Builder) P, b.OpenIn I ret P →
      rhs.Settles right b fun _ b' => b'.OpenIn I ret P) :
    (Expr.emitAnd lhs rhs).Settles (left ∨ right) b fun _ b' => b'.OpenIn I ret P := by
  refine hlhs.bind fun left b₁ h₁ => ?_
  refine (allocate_open hI _ h₁).bindSettles fun slot b₂ h₂ => ?_
  refine (emit_open hI _ _ h₂).bindSettles fun holds b₃ h₃ => ?_
  refine (store_open hI _ _ h₃).bindSettles fun _ b₄ h₄ => ?_
  refine test_settles hI _ _ h₄ fun rhsBlock endBlock b₅ hend h₅ => ?_
  refine (hrhs b₅ _ h₅).bindYields fun right b₆ h₆ => ?_
  refine (emit_open hI _ _ h₆).bind fun holds b₇ h₇ => ?_
  refine (store_open hI _ _ h₇).bind fun _ b₈ h₈ => ?_
  refine (terminate_closed hI _ h₈).bind fun _ b₉ h₉ => ?_
  refine (selectBlock_open hI h₉ (.inr rfl)).bind fun _ b₁₀ h₁₀ => ?_
  have hP : ∀ i, ((P i ∨ i = endBlock) ∧ i ≠ endBlock) ↔ P i := by grind
  exact emit_open hI _ _ (h₁₀.congr hP)

/-- Storage is found without emitting anything. -/
theorem Ident.address_settles {ident : Ident} {d : Decl} {type : Ty} {span : Span}
    (ha : a.Judges I wrong) (h : ident.HasType a d type)
    (hne : ∀ result params, type ≠ .func result params) (hb : b.OpenIn I ret P) :
    (d.address a span).Settles (wrong ident) b fun _ b' => b'.OpenIn I ret P := by
  have hwrong := ha.read hb.known h hne
  cases hvar : d.isVar with
  | true =>
    refine (Analysis.Consistent.address_yields hvar h.typeOf fun _ _ => hb).settles ?_
    rw [hwrong, hvar]
    exact fun hno => nomatch hno.1
  | false =>
    unfold Decl.address
    refine Run.bind_iff.mpr (Run.get_iff.mpr ?_)
    split
    next v hv =>
      refine ⟨?_, hb⟩
      rw [hwrong, hv]
      exact fun hno => nomatch hno.2
    next hnone =>
      have hno : wrong ident := hwrong.mpr ⟨hvar, hnone⟩
      cases d with
      | var _ _ _ _ _ => cases hvar
      | func _ _ _ _ _ | basic _ _ _ _ | typedef _ _ _ _ => exact ⟨hno, _, _, _, rfl⟩

theorem Decl.functionValue_eq_error {d : Decl} {type : Ty} {span : Span}
    (hknown : a.types.decl? d = some type) (hd : d.isFunc = false) :
    d.functionValue a span = .error (.unexpected d "function" span) := by
  unfold Decl.functionValue
  simp only [Analysis.Consistent.typeOf_eq hknown]
  cases d with
  | func _ _ _ _ _ => cases hd
  | var _ _ _ _ _ | basic _ _ _ _ | typedef _ _ _ _ => rfl

/-- A function that is named. -/
theorem Ident.function_settles {ident : Ident} {d : Decl} {result : Ty} {params : List Ty}
    {span : Span} (ha : a.Judges I wrong) (h : ident.HasType a d (.func result params))
    (hb : b.OpenIn I ret P) :
    LowerM.Settles (wrong ident) (liftM (d.functionValue a span)) b fun _ b' => b'.OpenIn I ret P := by
  have hwrong := ha.called h
  cases hfunc : d.isFunc with
  | true =>
    cases d with
    | var _ _ _ _ _ | basic _ _ _ _ | typedef _ _ _ _ => cases hfunc
    | func id name nameSpan signature body =>
      refine (LowerM.Yields.lift (Analysis.Consistent.functionValue_eq h.typeOf) hb).settles ?_
      rw [hwrong]
      exact nofun
  | false =>
    refine Run.lift_iff.mpr ?_
    rw [Decl.functionValue_eq_error h.typeOf hfunc]
    refine ⟨nofun, ?_⟩
    rintro _ ⟨⟩
    exact ⟨hwrong.mpr hfunc, _, _, _, rfl⟩

theorem Ident.read_settles {ident : Ident} {d : Decl} {type : Ty} (ha : a.Judges I wrong)
    (h : ident.HasType a d type) (hb : b.OpenIn I ret P) :
    (ident.read a).Settles (wrong ident) b fun _ b' => b'.OpenIn I ret P := by
  refine .liftBind (Analysis.Consistent.declOf_eq h) ?_
  refine .liftBind (Analysis.Consistent.typeOf_eq h.typeOf) ?_
  cases type with
  | basic kind =>
    refine (Ident.address_settles ha h (by simp) hb).bindYields fun address b₁ h₁ => ?_
    exact emit_open ha.ofBindings _ _ h₁
  | array elem len =>
    cases len with
    | none => exact Ident.address_settles ha h (by simp) hb
    | some len =>
      refine (Ident.address_settles ha h (by simp) hb).bindYields fun base b₁ h₁ => ?_
      exact emit_open ha.ofBindings _ _ h₁
  | func result params => exact (Ident.function_settles ha h hb).bindYields fun _ _ h₁ => h₁

theorem Ident.elementAddress_settles {array : Ident} {d : Decl} {elem : Ty} {len : Option Nat}
    {index : LowerM Ir.Value} {inner : Prop} (ha : a.Judges I wrong)
    (h : array.HasType a d (.array elem len))
    (hindex : ∀ b : Ir.Builder, b.OpenIn I ret P →
      index.Settles inner b fun _ b' => b'.OpenIn I ret P) (hb : b.OpenIn I ret P) :
    (array.elementAddress a index).Settles (wrong array ∨ inner) b
      fun _ b' => b'.OpenIn I ret P := by
  refine .liftBind (Analysis.Consistent.declOf_eq h) ?_
  refine .liftBind (Analysis.Consistent.typeOf_eq h.typeOf) ?_
  refine (Ident.address_settles ha h (by simp) hb).bind fun base b₁ h₁ => ?_
  refine (hindex b₁ h₁).bindYields fun position b₂ h₂ => ?_
  refine (emit_open ha.ofBindings _ _ h₂).bind fun address b₃ h₃ => ?_
  exact h₃

/-- Operators other than `=` and `&&` have an instruction. -/
theorem BinaryOp.emit_open {op : BinaryOp} {span : Span} {lhs rhs : Ir.Value}
    (hI : Ir.Builder.OfBindings I) (hassign : op ≠ .assign) (hand : op ≠ .and)
    (hb : b.OpenIn I ret P) : (op.emit span lhs rhs).Yields b fun _ b' => b'.OpenIn I ret P := by
  cases op with
  | assign => exact absurd rfl hassign
  | and => exact absurd rfl hand
  | add | sub | mul | div | lt | gt | le | ge | eq | ne => exact LowerM.emit_open hI _ _ hb

/-- The operators that evaluate both operands. -/
theorem Expr.lower_strict {g : Guide} {id : ExprId} {op : BinaryOp} {span : Span} {lhs rhs : Expr}
    (hassign : op ≠ .assign) (hand : op ≠ .and) :
    (Expr.binary id op span lhs rhs).lower g = g.operand (.binary id op span lhs rhs) (do
      let left ← lhs.lower g
      let right ← rhs.lower g
      op.emit span left right) := by
  cases op with
  | assign => exact absurd rfl hassign
  | and => exact absurd rfl hand
  | add | sub | mul | div | lt | gt | le | ge | eq | ne => rfl

theorem Ident.exists_mem_append {q : Ident → Prop} {names names' : List Ident} :
    ((∃ ident ∈ names, q ident) ∨ ∃ ident ∈ names', q ident) ↔ ∃ ident ∈ names ++ names', q ident := by
  simp [or_and_right, exists_or]

theorem Ident.exists_mem_cons {q : Ident → Prop} {ident : Ident} {names : List Ident} :
    (q ident ∨ ∃ ident ∈ names, q ident) ↔ ∃ ident' ∈ ident :: names, q ident' := by
  simp

mutual

theorem Expr.lower_settles (ha : a.Judges I wrong) : {e : Expr} → {type : Ty} → e.HasType a type →
    ∀ {b : Ir.Builder} {P : Ir.BlockId → Prop}, b.OpenIn I ret P →
    (e.lower a).Settles (∃ ident ∈ e.usedNames, wrong ident) b fun _ b' => b'.OpenIn I ret P
  | .literal _ (.int _) _, _, _, _, _, hb | .literal _ (.char _) _, _, _, _, _, hb =>
    LowerM.Yields.settles hb nofun
  | .paren .., _, .paren hinner, _, _, hb => Expr.lower_settles ha hinner hb
  | .name .., _, .name hident, _, _, hb =>
    (Ident.read_settles ha hident hb).congr (by simp [Expr.usedNames])
  | .index .., _, .index harray hposition _, _, _, hb => by
    refine ((Ident.elementAddress_settles ha harray
      (fun _ hb => Expr.lower_settles ha hposition hb) hb).bindYields fun address b₁ h₁ => ?_).congr
        Ident.exists_mem_cons
    exact emit_open ha.ofBindings _ _ h₁
  | .call .., _, .call hcallee hargs, _, _, hb => by
    refine LowerM.Settles.congr ?_ Ident.exists_mem_cons
    refine .liftBind (Analysis.Consistent.declOf_eq hcallee) ?_
    refine (Ident.function_settles ha hcallee hb).bind fun target b₁ h₁ => ?_
    refine (Expr.lowerAll_settles ha hargs h₁).bindYields fun args b₂ h₂ => ?_
    exact emit_open ha.ofBindings _ _ h₂
  | .unary .., _, .neg hoperand _, _, _, hb | .unary .., _, .not hoperand _, _, _, hb => by
    refine (Expr.lower_settles ha hoperand hb).bindYields fun operand b₁ h₁ => ?_
    exact emit_open ha.ofBindings _ _ h₁
  | .binary _ op _ lhs rhs, _, .binary hlhs hrhs hscalar hassign, _, _, hb => by
    refine LowerM.Settles.congr ?_ Ident.exists_mem_append
    by_cases hopAssign : op = .assign
    · subst hopAssign
      refine LowerM.Settles.congr ?_ or_comm
      refine (Expr.lower_settles ha hrhs hb).bind fun value b₁ h₁ => ?_
      refine (Expr.lowerPlace_settles ha hlhs hscalar (hassign rfl) h₁).bindYields
        fun pointer b₂ h₂ => ?_
      refine (store_open ha.ofBindings _ _ h₂).bind fun _ b₃ h₃ => ?_
      exact h₃
    · by_cases hopAnd : op = .and
      · subst hopAnd
        exact Expr.emitAnd_settles ha.ofBindings (Expr.lower_settles ha hlhs hb)
          fun _ _ hb => Expr.lower_settles ha hrhs hb
      · rw [Expr.lower_strict hopAssign hopAnd]
        refine (Expr.lower_settles ha hlhs hb).bind fun left b₁ h₁ => ?_
        refine (Expr.lower_settles ha hrhs h₁).bindYields fun right b₂ h₂ => ?_
        exact BinaryOp.emit_open ha.ofBindings hopAssign hopAnd h₂

theorem Expr.lowerPlace_settles (ha : a.Judges I wrong) : {e : Expr} → {type : Ty} →
    e.HasType a type → type.isScalar → e.isAssignable →
    ∀ {b : Ir.Builder} {P : Ir.BlockId → Prop}, b.OpenIn I ret P →
    (e.lowerPlace a).Settles (∃ ident ∈ e.usedNames, wrong ident) b fun _ b' => b'.OpenIn I ret P
  | .name .., type, .name hident, hscalar, _, _, _, hb => by
    have hnotFunc : ∀ result params, type ≠ .func result params := by
      rintro _ _ rfl
      simp [Ty.isScalar] at hscalar
    exact LowerM.Settles.congr (.liftBind (Analysis.Consistent.declOf_eq hident)
      (Ident.address_settles ha hident hnotFunc hb)) (by simp [Expr.usedNames])
  | .index .., _, .index harray hposition _, _, _, _, _, hb => by
    refine ((Ident.elementAddress_settles ha harray
      (fun _ hb => Expr.lower_settles ha hposition hb) hb).bindYields fun address b₁ h₁ => ?_).congr
        Ident.exists_mem_cons
    exact h₁
  | .paren .., _, .paren hinner, hscalar, hassignable, _, _, hb =>
    Expr.lowerPlace_settles ha hinner hscalar hassignable hb
  | .literal .., _, _, _, hassignable, _, _, _ | .binary .., _, _, _, hassignable, _, _, _
  | .call .., _, _, _, hassignable, _, _, _ | .unary .., _, _, _, hassignable, _, _, _ => by
    simp [Expr.isAssignable] at hassignable

theorem Expr.lowerAll_settles (ha : a.Judges I wrong) : {args : List Expr} → {params : List Ty} →
    Expr.ArgsFit a params args → ∀ {b : Ir.Builder} {P : Ir.BlockId → Prop}, b.OpenIn I ret P →
    (Expr.lowerAll a args).Settles (∃ ident ∈ Expr.usedNamesAll args, wrong ident) b
      fun _ b' => b'.OpenIn I ret P
  | [], _, _, _, _, hb => LowerM.Yields.settles hb nofun
  | _ :: _, _, .cons harg _ hrest, _, _, hb => by
    refine LowerM.Settles.congr ?_ Ident.exists_mem_append
    refine (Expr.lower_settles ha harg hb).bind fun value b₁ h₁ => ?_
    refine (Expr.lowerAll_settles ha hrest h₁).bindYields fun values b₂ h₂ => ?_
    exact h₂

end

/-- What is known of the bindings stays when a variable gets its slot. -/
def Decl.Respects (I : Ir.Builder → Prop) (d : Decl) : Prop :=
  ∀ (b : Ir.Builder) name type, I b → I (b.withLocal d.id name type)

/-- A variable gets a slot and its initial value. -/
theorem Decl.lowerLocal_settles {d : Decl} (ha : a.Judges I wrong) (h : d.IsVariable a)
    (hlocal : d.isVar → d.Respects I) (hb : b.OpenIn I ret P) :
    (d.lowerLocal a).Settles (∃ ident ∈ d.usedNames, wrong ident) b
      fun _ b' => b'.OpenIn I ret P := by
  cases h with
  | plain hknown _ =>
    refine .liftBind (Analysis.Consistent.typeOf_eq hknown) ?_
    refine LowerM.Yields.settles ?_ nofun
    exact (allocate_local_open hb (hlocal rfl _ _ _ hb.known)).bind fun _ _ h₁ => h₁
  | initialized hknown _ hinit =>
    refine .liftBind (Analysis.Consistent.typeOf_eq hknown) ?_
    refine (allocate_local_open hb (hlocal rfl _ _ _ hb.known)).bindSettles fun slot b₁ h₁ => ?_
    refine (Expr.lower_settles ha hinit h₁).bindYields fun value b₂ h₂ => ?_
    exact store_open ha.ofBindings _ _ h₂

/-- The first branch of two that goes on makes the block after them. -/
theorem Stmt.joinBranch_none (hI : Ir.Builder.OfBindings I) {closed : Bool}
    (hb : b.EndsIn I closed ret P) :
    (Stmt.joinBranch none).Yields b fun merge b' =>
      (closed = true ∧ merge = none ∧ b'.ClosedIn I ret P) ∨
      (closed = false ∧ ∃ target, merge = some target ∧ ¬ P target ∧
        b'.ClosedIn I ret fun i => P i ∨ i = target) := by
  refine isOpen_bind hb ?_
  cases closed with
  | true => exact .inl ⟨rfl, rfl, hb.closedIn⟩
  | false =>
    refine LowerM.Yields.bind (newBlock_open hI _ hb.openIn) fun target b₁ ⟨htarget, h₁⟩ => ?_
    refine (terminate_closed hI _ h₁).bind fun _ b₂ h₂ => ?_
    exact .inr ⟨rfl, target, rfl, htarget, h₂⟩

/-- A branch that goes on ends in a jump. -/
theorem Stmt.joinBranch_some (hI : Ir.Builder.OfBindings I) {closed : Bool} {target : Ir.BlockId}
    (hb : b.EndsIn I closed ret P) :
    (Stmt.joinBranch (some target)).Yields b fun merge b' =>
      merge = some target ∧ b'.ClosedIn I ret P := by
  refine isOpen_bind hb ?_
  cases closed with
  | true => exact ⟨rfl, hb.closedIn⟩
  | false =>
    change (terminate (.br target) >>= fun _ => pure (some target)).Yields _ _
    exact (terminate_closed hI _ hb.openIn).bind fun _ b₁ h₁ => ⟨rfl, h₁⟩

/-- What cannot be reached emits nothing. -/
theorem Item.lowerAll_closed {items : List Item} (hb : b.ClosedIn I ret P) :
    (Item.lowerAll a items).Yields b fun _ b' => b'.ClosedIn I ret P := by
  cases items with
  | nil => exact hb
  | cons item rest =>
    refine isOpen_bind hb.endsIn ?_
    exact hb

mutual

/-- A statement closes the cursor just when all its paths return. -/
theorem Stmt.lower_settles (ha : a.Judges I wrong) {result : Ty} : {s : Stmt} →
    s.WellTyped a result → (∀ d, .enter (.decl d) ∈ s.events → d.isVar → d.Respects I) →
    ∀ {b : Ir.Builder} {P : Ir.BlockId → Prop}, b.OpenIn I ret P →
    (s.lower a).Settles (∃ ident ∈ s.usedNames, wrong ident) b
      fun _ b' => b'.EndsIn I s.alwaysReturns ret P
  | .block .., .block hitems, hlocals, _, _, hb =>
    Item.lowerAll_settles ha hitems (fun d hd => hlocals d (by simp [Stmt.events, hd])) hb
  | .empty .., _, _, _, _, hb => LowerM.Yields.settles hb.endsIn nofun
  | .expr .., .expr hvalue, _, _, _, hb =>
    (Expr.lower_settles ha hvalue hb).discard.mono fun _ _ ⟨_, h⟩ => h.endsIn
  | .branch _ _ _ _ none, .branch hcond _ honTrue, hlocals, b, P, hb => by
    have hI := ha.ofBindings
    refine LowerM.Settles.congr ?_ Ident.exists_mem_append
    refine (Expr.lower_settles ha hcond hb).bind fun cond b₁ h₁ => ?_
    refine test_settles hI _ _ h₁ fun thenBlock endBlock b₂ hend h₂ => ?_
    refine (Stmt.lower_settles ha honTrue (fun d hd => hlocals d (by simp [Stmt.events, hd]))
      h₂).bindYields fun _ b₃ h₃ => ?_
    refine (Stmt.joinBranch_some hI h₃).bind fun _ b₄ ⟨_, h₄⟩ => ?_
    refine Run.mono (selectBlock_open hI h₄ (.inr rfl)) fun _ b₅ h₅ => ?_
    exact (h₅.congr (by grind)).endsIn
  | .branch _ _ _ onTrue (some onFalse), .branchElse hcond _ honTrue honFalse, hlocals, b, P, hb => by
    have hI := ha.ofBindings
    refine LowerM.Settles.congr ?_ Ident.exists_mem_append
    refine (Expr.lower_settles ha hcond hb).bind fun cond b₁ h₁ => ?_
    refine LowerM.Settles.congr ?_ Ident.exists_mem_append
    refine test_settles hI _ _ h₁ fun thenBlock elseBlock b₂ helse h₂ => ?_
    refine (Stmt.lower_settles ha honTrue (fun d hd => hlocals d (by simp [Stmt.events, hd]))
      h₂).bind fun _ b₃ h₃ => ?_
    have honFalse' : ∀ {b : Ir.Builder} {P : Ir.BlockId → Prop}, b.OpenIn I ret P →
        (onFalse.lower a).Settles (∃ ident ∈ onFalse.usedNames, wrong ident) b
          fun _ b' => b'.EndsIn I onFalse.alwaysReturns ret P :=
      Stmt.lower_settles ha honFalse fun d hd => hlocals d (by simp [Stmt.events, hd])
    refine (Stmt.joinBranch_none hI h₃).bindSettles fun merge b₄ h₄ => ?_
    rcases h₄ with ⟨hclosed, rfl, h₄⟩ | ⟨hclosed, target, rfl, htarget, h₄⟩
    · refine (selectBlock_open hI h₄ (.inr rfl)).bindSettles fun _ b₅ h₅ => ?_
      refine (honFalse' h₅).bindYields fun _ b₆ h₆ => ?_
      refine (Stmt.joinBranch_none hI h₆).bind fun merge b₇ h₇ => ?_
      rcases h₇ with ⟨hclosed', rfl, h₇⟩ | ⟨hclosed', target, rfl, htarget, h₇⟩
      · rw [Stmt.alwaysReturns, hclosed, hclosed']
        exact (h₇.congr (by grind)).endsIn
      · rw [Stmt.alwaysReturns, hclosed, hclosed']
        refine Run.mono (selectBlock_open hI h₇ (.inr rfl)) fun _ b₈ h₈ => ?_
        exact (h₈.congr (by grind)).endsIn
    · refine (selectBlock_open hI h₄ (.inl (.inr rfl))).bindSettles fun _ b₅ h₅ => ?_
      refine (honFalse' h₅).bindYields fun _ b₆ h₆ => ?_
      refine (Stmt.joinBranch_some hI h₆).bind fun merge b₇ ⟨hmerge, h₇⟩ => ?_
      subst hmerge
      have hne : target ≠ elseBlock := fun heq => htarget (.inr heq)
      rw [Stmt.alwaysReturns, hclosed]
      refine Run.mono (selectBlock_open hI h₇ ⟨.inr rfl, hne⟩) fun _ b₈ h₈ => ?_
      exact (h₈.congr (by grind)).endsIn
  | .ret _ _ none, _, _, _, _, hb =>
    LowerM.Yields.settles
      (Run.mono (terminate_closed ha.ofBindings _ hb) fun _ _ h => h.endsIn) nofun
  | .ret _ _ (some _), .retValue hvalue _ _, _, _, _, hb => by
    refine (Expr.lower_settles ha hvalue hb).bindYields fun value b₁ h₁ => ?_
    exact Run.mono (terminate_closed ha.ofBindings _ h₁) fun _ _ h => h.endsIn
  | .loop _ _ _ body, .loop hcond _ hbody, hlocals, b, P, hb => by
    have hI := ha.ofBindings
    refine LowerM.Settles.congr ?_ Ident.exists_mem_append
    refine (newBlock_open hI _ hb).bindSettles fun header b₁ ⟨hheader, h₁⟩ => ?_
    refine (terminate_closed hI _ h₁).bindSettles fun _ b₂ h₂ => ?_
    refine (selectBlock_open hI h₂ (.inr rfl)).bindSettles fun _ b₃ h₃ => ?_
    refine (Expr.lower_settles ha hcond h₃).bind fun cond b₄ h₄ => ?_
    refine test_settles hI _ _ h₄ fun bodyBlock endBlock b₅ hend h₅ => ?_
    refine (Stmt.lower_settles ha hbody (fun d hd => hlocals d (by simp [Stmt.events, hd]))
      h₅).bindYields fun _ b₆ h₆ => ?_
    refine isOpen_bind h₆ ?_
    cases hreturns : body.alwaysReturns with
    | true =>
      rw [hreturns] at h₆
      refine Run.mono (selectBlock_open hI h₆.closedIn (.inr rfl)) fun _ b₇ h₇ => ?_
      exact (h₇.congr (by grind)).endsIn
    | false =>
      rw [hreturns] at h₆
      refine LowerM.Yields.bind (terminate_closed hI _ h₆.openIn) fun _ b₇ h₇ => ?_
      refine Run.mono (selectBlock_open hI h₇ (.inr rfl)) fun _ b₈ h₈ => ?_
      exact (h₈.congr (by grind)).endsIn

theorem Item.lower_settles (ha : a.Judges I wrong) {result : Ty} : {item : Item} →
    item.Typed a result → (∀ d, .enter (.decl d) ∈ item.events → d.isVar → d.Respects I) →
    ∀ {b : Ir.Builder} {P : Ir.BlockId → Prop}, b.OpenIn I ret P →
    (item.lower a).Settles (∃ ident ∈ item.usedNames, wrong ident) b
      fun _ b' => b'.EndsIn I item.alwaysReturns ret P
  | .decl d, .decl hd, hlocals, _, _, hb =>
    (Decl.lowerLocal_settles ha hd (hlocals d d.enter_mem_events) hb).mono fun _ _ h => h.endsIn
  | .stmt _, .stmt hs, hlocals, _, _, hb => Stmt.lower_settles ha hs hlocals hb

theorem Item.lowerAll_settles (ha : a.Judges I wrong) {result : Ty} : {items : List Item} →
    Item.AllTyped a result items →
    (∀ d, .enter (.decl d) ∈ Item.eventsAll items → d.isVar → d.Respects I) →
    ∀ {b : Ir.Builder} {P : Ir.BlockId → Prop}, b.OpenIn I ret P →
    (Item.lowerAll a items).Settles (∃ ident ∈ Item.usedNamesAll items, wrong ident) b
      fun _ b' => b'.EndsIn I (Item.anyReturns items) ret P
  | [], _, _, _, _, hb => LowerM.Yields.settles hb.endsIn nofun
  | item :: rest, .cons hitem hrest, hlocals, b, P, hb => by
    refine isOpen_bind hb.endsIn ?_
    refine LowerM.Settles.congr ?_ Ident.exists_mem_append
    refine LowerM.Settles.bind (Item.lower_settles ha hitem
      (fun d hd => hlocals d (List.mem_append_left _ hd)) hb) fun _ b₁ h₁ => ?_
    rw [Item.anyReturns]
    cases hreturns : item.alwaysReturns with
    | true =>
      rw [hreturns] at h₁
      exact LowerM.Yields.settles
        (Run.mono (Item.lowerAll_closed h₁.closedIn) fun _ _ h => h.endsIn) nofun
    | false =>
      rw [hreturns] at h₁
      exact Item.lowerAll_settles ha hrest (fun d hd => hlocals d (List.mem_append_right _ hd))
        h₁.openIn

end

end

end MicroC
