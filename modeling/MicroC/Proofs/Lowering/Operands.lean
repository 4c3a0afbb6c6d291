import MicroC.Proofs.Ir.WellTyped
import MicroC.Proofs.Lowering.Handover
import MicroC.Proofs.Scope.Visible

/-!
Operands and their machine types. The operand of an expression has the machine type of the type of
the expression, with an array as the address of its first element; the operand bound to a variable
is a pointer to its machine type or, for an array parameter, to the elements. Instructions on such
operands are well typed. What the single steps of a lowering do is stated for runs that succeed.
-/

namespace MicroC

open LowerM

namespace Ty

variable {t param : Ty}

theorem machineParam_of_isScalar (h : t.isScalar) : t.machineParam = t.machine := by
  cases t with
  | basic kind => cases kind <;> rfl
  | array _ _ | func _ _ => simp [isScalar] at h

theorem isInteger_machine (h : t.isScalar) : t.machine.isInteger := by
  cases t with
  | basic kind =>
    cases kind with
    | char | int => rfl
    | void => simp [isScalar] at h
  | array _ _ | func _ _ => simp [isScalar] at h

theorem machineParam_of_isVoid (h : t.isVoid) : t.machineParam = t.machine := by
  rw [machineParam, machine_of_isVoid h]
  rfl

theorem machineParam_array (elem : Ty) (len : Option Nat) :
    (array elem len).machineParam = .ptr elem.machine := by
  cases len <;> rfl

/-- What can be passed for a parameter has its machine type. -/
theorem machineParam_eq_of_compatible (h : param.compatible t) (hparam : param.isParam) :
    t.machineParam = param.machineParam := by
  cases param with
  | basic kind => rw [eq_of_compatible_of_isScalar h hparam]
  | array elem len =>
    cases t with
    | array elem' len' =>
      have helem : elem' = elem := eq_of_compatible_of_isScalar h hparam
      rw [helem, machineParam_array, machineParam_array]
    | basic _ | func _ _ => simp [compatible] at h
  | func _ _ => simp [isParam, isScalar] at hparam

end Ty

namespace Ir.Value

variable {v : Value} {type : MicroC.Ty}

/-- An operand holds a value of a type. -/
structure Carries (v : Value) (type : MicroC.Ty) : Prop where
  type_eq : v.type = type.machineParam
  inRange : ∀ c, v = .const c → c.InRange

theorem Carries.type_of_isScalar (h : v.Carries type) (hs : type.isScalar) :
    v.type = type.machine :=
  h.type_eq.trans (Ty.machineParam_of_isScalar hs)

theorem Carries.isInteger (h : v.Carries type) (hs : type.isScalar) : v.type.isInteger :=
  h.type_of_isScalar hs ▸ Ty.isInteger_machine hs

theorem Carries.isOperand_of_isParam (h : v.Carries type) (hp : type.isParam) : v.IsOperand := by
  refine ⟨?_, h.inRange⟩
  rw [h.type_eq]
  cases type with
  | basic kind =>
    rw [Ty.machineParam_of_isScalar hp]
    intro hvoid
    have hinteger := Ty.isInteger_machine hp
    rw [hvoid] at hinteger
    cases hinteger
  | array elem len => simp [Ty.machineParam_array]
  | func _ _ => simp [Ty.isParam, Ty.isScalar] at hp

theorem Carries.isOperand (h : v.Carries type) (hs : type.isScalar) : v.IsOperand :=
  h.isOperand_of_isParam (Ty.isParam_of_isScalar hs)

/-- The result of an instruction. -/
theorem carries_inst {id : InstId} {t : Ir.Ty} (h : t = type.machineParam) :
    (Value.inst id t).Carries type :=
  ⟨h, by simp⟩

/-- An operand is the storage of a variable of a type: a pointer to all of it, or for an array
that is passed a pointer to its elements. -/
structure Stores (v : Value) (type : MicroC.Ty) : Prop where
  not_const : ∀ c, v ≠ .const c
  type_eq : (type.isComplete ∧ v.type = .ptr type.machine) ∨
    ∃ elem len, type = .array elem len ∧ v.type = .ptr elem.machine

theorem Stores.isOperand (h : v.Stores type) : v.IsOperand := by
  refine ⟨?_, fun c hc => absurd hc (h.not_const c)⟩
  rcases h.type_eq with ⟨_, heq⟩ | ⟨_, _, _, heq⟩ <;> simp [heq]

theorem Stores.of_isScalar (h : v.Stores type) (hs : type.isScalar) :
    v.type = .ptr type.machine := by
  rcases h.type_eq with ⟨_, heq⟩ | ⟨_, _, rfl, _⟩
  · exact heq
  · simp [Ty.isScalar] at hs

/-- The result of an instruction that has one. -/
theorem isOperand_inst {id : InstId} {t : Ir.Ty} (h : t ≠ .void) : (Value.inst id t).IsOperand :=
  ⟨h, by simp⟩

/-- What is compared with, and the first index of an array. -/
theorem isOperand_zero {t : Ir.Ty} (h : t.isInteger) : (Value.int t 0).IsOperand := by
  refine ⟨?_, ?_⟩
  · intro hvoid
    have htype : t = .void := hvoid
    rw [htype] at h
    cases h
  · rintro c hc
    cases hc
    cases t with
    | i8 | i32 => exact ⟨by decide, by decide⟩
    | void | array _ _ | ptr _ | func _ _ => cases h

end Ir.Value

/-! Instructions on operands of the right types. -/

namespace Ir.Instruction

variable {id : InstId} {value pointer lhs rhs : Value} {type : MicroC.Ty}

theorem wellTyped_load {machine : Ty} (htype : pointer.type = .ptr machine)
    (hpointer : pointer.IsOperand) : WellTyped ⟨id, .load pointer, machine, none⟩ :=
  ⟨htype, by simpa [Operation.operands] using hpointer⟩

theorem wellTyped_store (htype : pointer.type = .ptr value.type) (hvalue : value.IsOperand)
    (hpointer : pointer.IsOperand) : WellTyped ⟨id, .store value pointer, .void, none⟩ :=
  ⟨⟨htype, rfl⟩, by simp [Operation.operands, hvalue, hpointer]⟩

theorem wellTyped_isNonzero (hvalue : value.Carries type) (hs : type.isScalar) :
    WellTyped ⟨id, .cmp .ne value (.int value.type 0), value.type, none⟩ := by
  have hinteger := hvalue.isInteger hs
  refine ⟨⟨hinteger, rfl, rfl⟩, ?_⟩
  simp [Operation.operands, hvalue.isOperand hs, Value.isOperand_zero hinteger]

/-- An instruction with two operands of one type. -/
theorem wellTyped_pair {operation : Operation} (hlhs : lhs.Carries type) (hrhs : rhs.Carries type)
    (hs : type.isScalar) (hoperands : operation.operands = [lhs, rhs])
    (hgives : lhs.type.isInteger → rhs.type = lhs.type → operation.Gives lhs.type) :
    WellTyped ⟨id, operation, lhs.type, none⟩ := by
  refine ⟨hgives (hlhs.isInteger hs) (hrhs.type_eq.trans hlhs.type_eq.symm), ?_⟩
  simp [hoperands, hlhs.isOperand hs, hrhs.isOperand hs]

/-- A function is called with operands of the types of its parameters. -/
theorem wellTyped_call {name : String} {args : List Value} {result : MicroC.Ty}
    {params : List MicroC.Ty} (htypes : args.map Value.type = params.map MicroC.Ty.machineParam)
    (hargs : ∀ v ∈ args, v.IsOperand) :
    WellTyped ⟨id, .call (.function name (MicroC.Ty.func result params).machine) args,
      result.machine, none⟩ := by
  refine ⟨?_, List.forall_mem_cons.mpr ⟨⟨by simp [Value.type, MicroC.Ty.machine], by simp⟩, hargs⟩⟩
  change Ty.func _ (MicroC.Ty.machineParams _) = _
  rw [MicroC.Ty.machineParams_eq_map, htypes]

/-- An element of stored arrays can be addressed. -/
theorem wellTyped_elementAddr {base index : Value} {elem : MicroC.Ty} {len : Option Nat}
    (hbase : base.Stores (.array elem len)) (hindex : index.type.isInteger)
    (hoperand : index.IsOperand) :
    WellTyped ⟨id, .elementAddr base index, .ptr elem.machine, none⟩ := by
  refine ⟨⟨hindex, elem.machine, rfl, ?_⟩, by simp [Operation.operands, hbase.isOperand, hoperand]⟩
  rcases hbase.type_eq with ⟨hcomplete, heq⟩ | ⟨_, _, harray, heq⟩
  · cases len with
    | none => simp [Ty.isComplete] at hcomplete
    | some len => exact .inr ⟨len, heq⟩
  · cases harray
    exact .inl heq

end Ir.Instruction

/-- If the run succeeds, it ends as `Q` says. -/
abbrev LowerM.Ensures {α : Type} (m : LowerM α) (b : Ir.Builder) (Q : α → Ir.Builder → Prop) :
    Prop :=
  Run (fun _ => True) m b Q

section

variable {b : Ir.Builder}

namespace LowerM.Ensures

variable {α β : Type} {m : LowerM α} {Q : α → Ir.Builder → Prop}

theorem bind {f : α → LowerM β} {R : β → Ir.Builder → Prop} (hm : m.Ensures b Q)
    (hf : ∀ x b', Q x b' → (f x).Ensures b' R) : (m >>= f).Ensures b R :=
  Run.bind_iff.mpr (Run.mono hm hf)

/-- A step that only reads the tables. -/
theorem liftBind {x : Except LowerError α} {f : α → LowerM β} {R : β → Ir.Builder → Prop}
    (hf : ∀ v, x = .ok v → (f v).Ensures b R) : LowerM.Ensures (liftM x >>= f) b R :=
  Run.bind_iff.mpr (Run.lift_iff.mpr ⟨hf, fun _ _ => trivial⟩)

theorem build {op : Ir.Builder → Ir.Outcome α} (h : ∀ v b', op b = (.ok v, b') → Q v b') :
    (LowerM.build op).Ensures b Q := by
  unfold LowerM.Ensures Run LowerM.build
  rcases hop : op b with ⟨_ | v, b'⟩
  · trivial
  · exact h v b' hop

end LowerM.Ensures

/-- Steps that do the same, and after them steps that do the same from where they end. -/
theorem LowerM.bind_congr {α β : Type} {m m' : LowerM α} {f f' : α → LowerM β} {b : Ir.Builder}
    {Q : α → Ir.Builder → Prop} (hm : m' b = m b) (hensures : m.Ensures b Q)
    (hf : ∀ x b', Q x b' → f' x b' = f x b') : (m' >>= f') b = (m >>= f) b := by
  change (m' b >>= fun out => f' out.1 out.2) = (m b >>= fun out => f out.1 out.2)
  rw [hm]
  cases hrun : m b with
  | error e => rfl
  | ok out => exact hf out.1 out.2 (hensures.of_ok hrun)

/-- Steps that do the same before the same steps. -/
theorem LowerM.bind_congr_left {α β : Type} {m m' : LowerM α} (f : α → LowerM β) (h : m' b = m b) :
    (m' >>= f) b = (m >>= f) b := by
  change (m' b >>= fun out => f out.1 out.2) = (m b >>= fun out => f out.1 out.2)
  rw [h]

/-- The same step before steps that do the same. -/
theorem LowerM.bind_congr_right {α β : Type} {m : LowerM α} {f f' : α → LowerM β}
    (h : ∀ x b', f' x b' = f x b') : (m >>= f') b = (m >>= f) b := by
  have hf : f' = f := funext fun x => funext (h x)
  rw [hf]

theorem LowerM.emit_ensures {operation : Ir.Operation} {type : Ir.Ty}
    {Q : Ir.Value → Ir.Builder → Prop}
    (h : ∀ id, b.current = some id →
      Q (.inst b.nextInst type) (b.withInst id operation type none)) :
    (emit operation type).Ensures b Q := by
  refine .build fun v b' hop => ?_
  cases hcurrent : b.current with
  | none => simp [Ir.Builder.emit, Ir.Builder.append, hcurrent] at hop
  | some id =>
    rw [Ir.Builder.emit, Ir.Builder.append_eq hcurrent] at hop
    cases hop
    exact h id hcurrent

theorem LowerM.startBody_ensures (hblocks : b.blocks = []) :
    (discard (build (·.startBody)) : LowerM Unit).Ensures b
      fun _ b' => b' = (b.withBlock "entry").withCurrent (some 0) := by
  refine Run.discard_iff.mpr (LowerM.Ensures.build fun id b' hop => ?_)
  rw [Ir.Builder.startBody_eq hblocks] at hop
  cases hop
  rfl

theorem LowerM.newBlock_ensures {label : String} {Q : Ir.BlockId → Ir.Builder → Prop}
    (h : Q b.blocks.length (b.withBlock label)) : (newBlock label).Ensures b Q :=
  Run.modifyGet_iff.mpr h

theorem LowerM.terminate_ensures {terminator : Ir.Terminator} {Q : Unit → Ir.Builder → Prop}
    (h : ∀ id, b.current = some id → b.Unfinished id → Q () (b.withTerminator id terminator)) :
    (terminate terminator).Ensures b Q := by
  refine .build fun v b' hop => ?_
  obtain ⟨id, hid, hopen, rfl⟩ := Ir.Builder.terminate_cases hop
  exact h id hid hopen

theorem LowerM.selectBlock_ensures {i : Ir.BlockId} {Q : Unit → Ir.Builder → Prop}
    (h : b.Unfinished i → Q () (b.withCurrent (some i))) : (selectBlock i).Ensures b Q := by
  refine .build fun v b' hop => ?_
  obtain ⟨hopen, rfl⟩ := Ir.Builder.selectBlock_cases hop
  exact h hopen

theorem LowerM.allocate_none_ensures {type : Ir.Ty} {Q : Ir.Value → Ir.Builder → Prop}
    (h : Q (.inst b.nextInst (.ptr type)) (b.withSlot type none)) :
    (allocate none type).Ensures b Q := by
  refine .build fun v b' hop => ?_
  by_cases hblocks : b.blocks = []
  · simp [Ir.Builder.emitAlloca, hblocks] at hop
  · rw [Ir.Builder.emitAlloca_none_eq hblocks] at hop
    cases hop
    exact h

theorem LowerM.allocate_some_ensures {type : Ir.Ty} {decl : DeclId} {name : String}
    {Q : Ir.Value → Ir.Builder → Prop}
    (h : Q (.inst b.nextInst (.ptr type)) (b.withLocal decl name type)) :
    (allocate (some (decl, name)) type).Ensures b Q := by
  refine .build fun v b' hop => ?_
  by_cases hblocks : b.blocks = []
  · simp [Ir.Builder.emitAlloca, hblocks] at hop
  · rw [Ir.Builder.emitAlloca_some_eq hblocks] at hop
    cases hop
    exact h

end

/-- All visible variables are bound. -/
def Ir.Builder.Binds (b : Ir.Builder) (visible : List Decl) : Prop :=
  ∀ d ∈ visible, (b.binding? d.id).isSome

namespace Ir.Builder.Binds

variable {b b' : Builder} {visible : List Decl}

theorem congr (h : b.Binds visible) (hbindings : b'.bindings = b.bindings) : b'.Binds visible := by
  unfold Binds binding?
  rw [hbindings]
  exact h

/-- A variable becomes visible when it is bound. -/
theorem bind (h : b.Binds visible) (d : Decl) (v : Value) :
    (b.bind d.id v).Binds (d :: visible) := by
  intro d' hd'
  rw [isSome_binding?_bind]
  rcases List.mem_cons.mp hd' with rfl | hmem
  · exact .inr rfl
  · exact .inl (h d' hmem)

end Ir.Builder.Binds

end MicroC
