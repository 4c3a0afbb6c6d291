import MicroC.Proofs.Lowering.Setting

/-!
Expressions as a construction. Whatever an analysis says about names and types, a lowering that
succeeds takes the steps of a construction from any state with a selected block. The operand of an
expression can be used from then on in the code of the same expression, and the stack slots that
are made are those that can be read off the syntax. If the expression has a type, then the operand
has its machine type. Another guide that comes to the same about each part of an expression gives
the same code.
-/

namespace MicroC

open LowerM

section

variable {F : Setting} {visible : List Decl} {s s' : Ir.Sketch}
  {requests requests' : List (Option Decl)}

/-! Single operations. -/

theorem LowerM.emit_draws {operation : Ir.Operation} {type : Ir.Ty}
    (hop : operation.isAlloca = false)
    (hoperands : ∀ v ∈ operation.operands, F.R.operand v ∧ s.Usable v)
    (htyped : F.R.typed → ∀ id, Ir.Instruction.WellTyped ⟨id, operation, type, none⟩) :
    (emit operation type).Draws s fun v s' => s.Gives F.R [] v s' ∧ ∃ id, v = .inst id type := by
  refine emit_ensures fun i hi => ?_
  have hstep := Ir.Sketch.Step.inst hi hop hoperands fun ht => htyped ht _
  refine ⟨_, rfl, ⟨⟨⟨hstep.steps, rfl, (List.append_nil _).symm⟩, ?_, List.subset_cons_self _ _⟩,
    F.permits.isLocal _ rfl, .inr (.inr List.mem_cons_self)⟩, _, rfl⟩
  simp [hi]

theorem LowerM.load_draws {pointer : Ir.Value} {type : Ir.Ty}
    (hpointer : F.R.operand pointer ∧ s.Usable pointer)
    (htyped : F.R.typed → pointer.type = .ptr type ∧ pointer.IsOperand) :
    (load pointer type).Draws s fun v s' => s.Gives F.R [] v s' ∧ ∃ id, v = .inst id type :=
  emit_draws rfl (by simpa [Ir.Operation.operands] using hpointer) fun ht _ =>
    Ir.Instruction.wellTyped_load (htyped ht).1 (htyped ht).2

theorem LowerM.store_draws {value pointer : Ir.Value} (hvalue : F.R.operand value ∧ s.Usable value)
    (hpointer : F.R.operand pointer ∧ s.Usable pointer)
    (htyped : F.R.typed → pointer.type = .ptr value.type ∧ value.IsOperand ∧ pointer.IsOperand) :
    (store value pointer).Draws s fun _ s' => Ir.Sketch.Continues F.R [] s s' := by
  refine .discard ((emit_draws rfl ?_ fun ht _ => ?_).mono fun _ _ h => h.1.toContinues)
  · intro v hv
    rcases List.mem_cons.mp hv with rfl | hv
    · exact hvalue
    · exact List.mem_singleton.mp hv ▸ hpointer
  · obtain ⟨htype, hoperand, hplace⟩ := htyped ht
    exact Ir.Instruction.wellTyped_store htype hoperand hplace

theorem LowerM.isNonzero_draws {value : Ir.Value} (hvalue : F.R.operand value ∧ s.Usable value)
    (htyped : F.R.typed → ∃ type : Ty, type.isScalar ∧ value.Carries type) :
    (isNonzero value).Draws s fun v s' =>
      s.Gives F.R [] v s' ∧ ∃ id, v = .inst id value.type := by
  refine emit_draws rfl ?_ fun ht _ => ?_
  · intro v hv
    rcases List.mem_cons.mp hv with rfl | hv
    · exact hvalue
    · obtain rfl := List.mem_singleton.mp hv
      exact ⟨F.permits.const _, .inr trivial⟩
  · obtain ⟨type, hs, hcarries⟩ := htyped ht
    exact Ir.Instruction.wellTyped_isNonzero hcarries hs

theorem LowerM.allocate_none_draws (hopen : s.builder.current.isSome) (type : Ir.Ty) :
    (allocate none type).Draws s fun v s' =>
      s.Gives F.R [none] v s' ∧ ∃ id, v = .inst id (.ptr type) := by
  refine allocate_none_ensures ⟨_, rfl, ⟨⟨⟨(Ir.Sketch.Step.slot).steps, rfl, rfl⟩, hopen,
    List.Subset.refl _⟩, F.permits.isLocal _ rfl, .inr (.inl ?_)⟩, _, rfl⟩
  rw [Ir.Builder.withSlot_slots, List.map_append]
  exact List.mem_append_right _ List.mem_cons_self

/-- A block that has been made can be selected. -/
theorem LowerM.selectBlock_draws {i : Ir.BlockId} {results : List (Ir.InstId × Ir.Ty)}
    (hi : s.Notes F.R i results) :
    (selectBlock i).Draws s fun _ s' => Ir.Sketch.Selects F.R results s s' :=
  selectBlock_ensures fun hopen => ⟨_, rfl, ⟨(Ir.Sketch.Step.select hopen hi.first).steps, rfl,
    (List.append_nil _).symm⟩, rfl, hi.known⟩

/-- A jump to a block of which all that is noted can be used. -/
theorem LowerM.jump_draws {target : Ir.BlockId} {results : List (Ir.InstId × Ir.Ty)}
    (htarget : s.Notes F.R target results) (hresults : ∀ x ∈ results, s.Usable (.inst x.1 x.2)) :
    (terminate (.br target)).Draws s fun _ s' =>
      Ir.Sketch.Extends F.R [] s s' ∧ s'.builder.current = none :=
  terminate_ensures fun _ hi hopen =>
    ⟨_, rfl, ⟨(Ir.Sketch.Step.jump hi hopen htarget.first htarget.lt
      (htarget.known ▸ hresults)).steps, rfl, (List.append_nil _).symm⟩, rfl⟩

theorem LowerM.newBlock_draws (label : String) : (newBlock label).Draws s fun i s' =>
    i = s.builder.blocks.length ∧ s' = { s with builder := s.builder.withBlock label } := by
  unfold Draws
  exact newBlock_ensures ⟨_, rfl, rfl, rfl⟩

/-- A branch to two new blocks. -/
theorem LowerM.fork_follows {β : Type} {onTrue onFalse : String} {cond : Ir.Value}
    {f f' : Ir.BlockId → Ir.BlockId → LowerM β} {Q : β → Ir.Sketch → Prop}
    (results : List (Ir.InstId × Ir.Ty)) (hfirst : F.R.first ≤ s.builder.blocks.length)
    (hTrue : onTrue ∈ Ir.Builder.blockLabels) (hFalse : onFalse ∈ Ir.Builder.blockLabels)
    (hcond : F.R.operand cond ∧ s.Usable cond)
    (htyped : F.R.typed → ∃ type : Ty, type.isScalar ∧ cond.Carries type)
    (hresults : ∀ x ∈ results, s.Usable (.inst x.1 x.2))
    (hf : ∀ i j s', Ir.Sketch.Extends F.R [] s s' → s'.Notes F.R i results →
      s'.Notes F.R j results → (f' i j).Follows (f i j) s' Q) :
    (newBlock onTrue >>= fun i => newBlock onFalse >>= fun j =>
      terminate (.condBr cond i j) >>= fun _ => f' i j).Follows
    (newBlock onTrue >>= fun i => newBlock onFalse >>= fun j =>
      terminate (.condBr cond i j) >>= fun _ => f i j) s Q := by
  refine (newBlock_draws onTrue).follows.bind ?_
  rintro _ _ ⟨rfl, rfl⟩
  refine (newBlock_draws onFalse).follows.bind ?_
  rintro _ _ ⟨rfl, rfl⟩
  simp only [Ir.Builder.withBlock_length]
  have htypes : F.R.typed → cond.type.isInteger ∧ cond.IsOperand := by
    intro ht
    obtain ⟨type, hs, hcarries⟩ := htyped ht
    exact ⟨hcarries.isInteger hs, hcarries.isOperand hs⟩
  have hdraws :
      (terminate (.condBr cond s.builder.blocks.length (s.builder.blocks.length + 1))).Draws
        { s with builder := (s.builder.withBlock onTrue).withBlock onFalse } fun _ s' =>
          Ir.Sketch.Extends F.R [] s s' ∧ s'.Notes F.R s.builder.blocks.length results ∧
            s'.Notes F.R (s.builder.blocks.length + 1) results := by
    refine terminate_ensures fun i hi hopen => ?_
    have hstep : Ir.Sketch.Step F.R s _ :=
      .fork hi hopen hTrue hFalse hcond.1 hcond.2 hresults htypes
    refine ⟨_, rfl, ⟨hstep.steps, rfl, (List.append_nil _).symm⟩, ⟨?_, hfirst, ?_⟩,
      ⟨by simp, Nat.le_succ_of_le hfirst, ?_⟩⟩
    · rw [Ir.Builder.withTerminator_length, Ir.Builder.withBlock_length,
        Ir.Builder.withBlock_length]
      exact Nat.lt_succ_of_lt (Nat.lt_succ_self _)
    · exact if_neg (Nat.lt_irrefl _)
    · exact if_neg (Nat.not_lt.mpr (Nat.le_succ _))
  refine hdraws.follows.bind ?_
  rintro _ s' ⟨hextends, hi, hj⟩
  exact hf _ _ s' hextends hi hj

/-- A jump to a new block, for which nothing is noted. -/
theorem LowerM.enter_follows {β : Type} {label : String} {f f' : Ir.BlockId → LowerM β}
    {Q : β → Ir.Sketch → Prop} (hfirst : F.R.first ≤ s.builder.blocks.length)
    (hlabel : label ∈ Ir.Builder.blockLabels)
    (hf : ∀ i s', Ir.Sketch.Extends F.R [] s s' → s'.builder.current = none → s'.Notes F.R i [] →
      (f' i).Follows (f i) s' Q) :
    (newBlock label >>= fun i => terminate (.br i) >>= fun _ => f' i).Follows
      (newBlock label >>= fun i => terminate (.br i) >>= fun _ => f i) s Q := by
  refine (newBlock_draws label).follows.bind ?_
  rintro _ _ ⟨rfl, rfl⟩
  have hdraws : (terminate (.br s.builder.blocks.length)).Draws
      { s with builder := s.builder.withBlock label } fun _ s' => Ir.Sketch.Extends F.R [] s s' ∧
        s'.builder.current = none ∧ s'.Notes F.R s.builder.blocks.length [] := by
    refine terminate_ensures fun i hi hopen => ?_
    have hstep : Ir.Sketch.Step F.R s _ := .enter hi hopen hlabel (List.forall_mem_nil _)
    refine ⟨_, rfl, ⟨hstep.steps, rfl, (List.append_nil _).symm⟩, rfl, ⟨by simp, hfirst, ?_⟩⟩
    exact if_neg (Nat.lt_irrefl _)
  refine hdraws.follows.bind ?_
  rintro _ s' ⟨hextends, hclosed, hi⟩
  exact hf _ s' hextends hclosed hi

/-! Names. -/

/-- A name that is unbound, or that does not stand for a variable, is known at file level. -/
theorem Ident.atFile {a : Analysis} {ident : Ident} {d : Decl} (hd : a.declOf ident = .ok d)
    (hsees : ident.Sees a.resolution visible) (hnot : d ∉ visible) : d.AtFile a := by
  obtain ⟨d', hd', hcases⟩ := hsees
  obtain rfl := Option.some.inj (hd'.symm.trans (Analysis.declOf?_of_ok hd))
  exact hcases.resolve_left hnot

/-- The storage of a variable can be used where its name is seen. -/
theorem Decl.address_draws (hs : F.Ready visible s) {ident : Ident} {d : Decl} (span : Span)
    (hd : F.a.declOf ident = .ok d) (hsees : F.lexical → ident.Sees F.a.resolution visible) :
    (d.address F.a span).Draws s fun v s' => s' = s ∧ (F.R.operand v ∧ s.Usable v) ∧
      (F.R.typed → ∀ type, F.a.types.decl? d = some type → v.Stores type ∧ type.isParam) := by
  unfold Decl.address
  refine Run.bind_iff.mpr (Run.get_iff.mpr ?_)
  cases hbinding : s.builder.binding? d.id with
  | some v =>
    exact ⟨s, rfl, rfl, ⟨F.bound hs.holds hbinding, .inl ⟨d.id, hbinding⟩⟩, fun ht type htype =>
      (F.firm ht).stores hs.holds htype hbinding⟩
  | none =>
    have hnot : d ∉ visible := by
      intro hmem
      have hbound := hs.bound d hmem
      rw [hbinding] at hbound
      cases hbound
    cases d with
    | func _ _ _ _ _ | basic _ _ _ _ | typedef _ _ _ _ => trivial
    | var id name nameSpan written init =>
      refine LowerM.Ensures.liftBind fun type htype => ?_
      have hknown := Analysis.decl?_of_ok htype
      have hfile := fun h => Ident.atFile hd (hsees h) hnot
      refine ⟨s, rfl, rfl, ⟨F.permits.global _ type hfile rfl hknown, .inr trivial⟩, ?_⟩
      intro ht type' htype'
      obtain rfl := Option.some.inj (hknown.symm.trans htype')
      have hcomplete := (F.firm ht).complete (hfile (F.firm ht).isLexical) rfl hknown
      exact ⟨⟨by simp, .inl ⟨hcomplete, rfl⟩⟩, Ty.isParam_of_isComplete hcomplete⟩

/-- A function as an operand, and what it returns. -/
theorem Decl.functionValue_cases {a : Analysis} {d : Decl} {span : Span} {out : Ir.Value × Ir.Ty}
    (h : d.functionValue a span = .ok out) :
    ∃ result params, d.isFunc ∧ a.types.decl? d = some (.func result params) ∧
      out = (.function d.name (Ty.func result params).machine, result.machine) := by
  obtain ⟨type, htype, h⟩ := Except.bind_eq_ok.mp h
  cases d with
  | var _ _ _ _ _ | basic _ _ _ _ | typedef _ _ _ _ => cases h
  | func id name nameSpan signature body =>
    cases type with
    | basic _ | array _ _ => cases h
    | func result params =>
      cases h
      exact ⟨result, params, rfl, Analysis.decl?_of_ok htype, rfl⟩

/-- A function can be named where its name is seen. -/
theorem Decl.function_allowed (hs : F.Ready visible s) {ident : Ident} {d : Decl} {result : Ty}
    {params : List Ty} (hd : F.a.declOf ident = .ok d)
    (hsees : F.lexical → ident.Sees F.a.resolution visible) (hfunc : d.isFunc)
    (htype : F.a.types.decl? d = some (.func result params)) :
    F.R.operand (.function d.name (Ty.func result params).machine) ∧
      s.Usable (.function d.name (Ty.func result params).machine) := by
  refine ⟨F.permits.function d result params (fun hlexical => ?_) hfunc htype, .inr trivial⟩
  refine Ident.atFile hd (hsees hlexical) fun hmem => ?_
  have hvar := hs.isVar hlexical d hmem
  cases d <;> simp_all [Decl.isVar, Decl.isFunc]

theorem Ident.read_draws (hs : F.Ready visible s) {ident : Ident}
    (hsees : F.lexical → ident.Sees F.a.resolution visible) :
    (ident.read F.a).Draws s fun v s' => s.Gives F.R [] v s' ∧
      (F.R.typed → ∀ d type, ident.HasType F.a d type → v.Carries type) := by
  refine .liftBind fun d hd => .liftBind fun type htype => ?_
  have hknown := Analysis.decl?_of_ok htype
  have haddress := d.address_draws hs ident.span hd hsees
  -- What the tables say is what the type of the name is.
  have hread : ∀ {v : Ir.Value}, (F.R.typed → v.Carries type) →
      F.R.typed → ∀ d type, ident.HasType F.a d type → v.Carries type := by
    intro v hv ht d' type' h
    obtain rfl := Option.some.inj (h.declOf.symm.trans (Analysis.declOf?_of_ok hd))
    obtain rfl := Option.some.inj (h.typeOf.symm.trans hknown)
    exact hv ht
  cases type with
  | func result params =>
    refine .liftBind fun out hout => .pure ?_
    obtain ⟨result', params', hfunc, hknown', rfl⟩ := Decl.functionValue_cases hout
    cases hknown.symm.trans hknown'
    obtain ⟨hallowed, husable⟩ := Decl.function_allowed hs hd hsees hfunc hknown
    exact ⟨⟨.refl hs.isOpen, hallowed, husable⟩, hread fun _ => ⟨rfl, by simp⟩⟩
  | array elem len =>
    cases len with
    | none =>
      refine haddress.mono ?_
      rintro v s' ⟨rfl, ⟨hallowed, husable⟩, hstores⟩
      refine ⟨⟨.refl hs.isOpen, hallowed, husable⟩, hread fun ht => ?_⟩
      obtain ⟨hv, _⟩ := hstores ht _ hknown
      refine ⟨?_, fun c hc => absurd hc (hv.not_const c)⟩
      rcases hv.type_eq with ⟨hcomplete, _⟩ | ⟨_, _, harray, heq⟩
      · simp [Ty.isComplete] at hcomplete
      · cases harray
        rw [heq, Ty.machineParam_array]
    | some len =>
      refine haddress.bind ?_
      rintro base s' ⟨rfl, hbase, hstores⟩
      refine (emit_draws (F := F) rfl ?_ fun ht _ => ?_).mono ?_
      · intro v hv
        rcases List.mem_cons.mp hv with rfl | hv
        · exact hbase
        · obtain rfl := List.mem_singleton.mp hv
          exact ⟨F.permits.const _, .inr trivial⟩
      · exact Ir.Instruction.wellTyped_elementAddr (hstores ht _ hknown).1 rfl
          (Ir.Value.isOperand_zero rfl)
      · rintro v s' ⟨hv, id, rfl⟩
        exact ⟨hv, hread fun _ => Ir.Value.carries_inst (Ty.machineParam_array elem _).symm⟩
  | basic kind =>
    refine haddress.bind ?_
    rintro address s' ⟨rfl, haddress, hstores⟩
    refine (load_draws haddress fun ht => ?_).mono ?_
    · obtain ⟨hv, hscalar⟩ := hstores ht _ hknown
      exact ⟨hv.of_isScalar hscalar, hv.isOperand⟩
    · rintro v s'' ⟨hv, id, rfl⟩
      refine ⟨hv, hread fun ht => Ir.Value.carries_inst ?_⟩
      obtain ⟨_, hscalar⟩ := hstores ht _ hknown
      exact (Ty.machineParam_of_isScalar hscalar).symm

/-- The address of an element, after the code of the index. -/
theorem Ident.elementAddress_draws (hs : F.Ready visible s) {array : Ident}
    {index : LowerM Ir.Value} {P : Ir.Value → Prop}
    (hsees : F.lexical → array.Sees F.a.resolution visible)
    (hindex : index.Draws s fun v s' => s.Gives F.R requests v s' ∧ P v)
    (htyped : F.R.typed → ∃ type : Ty, type.isScalar ∧ ∀ v, P v → v.Carries type) :
    (array.elementAddress F.a index).Draws s fun out s' => s.Gives F.R requests out.1 s' ∧
      (F.R.typed → ∀ d elem len, array.HasType F.a d (.array elem len) →
        elem.isScalar ∧ ∃ id, out = (.inst id (.ptr elem.machine), elem.machine)) := by
  refine .liftBind fun d hd => .liftBind fun type htype => ?_
  cases type with
  | basic _ | func _ _ => trivial
  | array elem len =>
    have hknown := Analysis.decl?_of_ok htype
    refine (d.address_draws hs _ hd hsees).bind ?_
    rintro base s' ⟨rfl, hbase, hstores⟩
    refine hindex.bind ?_
    rintro position s₁ ⟨hposition, hP⟩
    refine (emit_draws (F := F) rfl ?_ fun ht _ => ?_).bind ?_
    · intro v hv
      rcases List.mem_cons.mp hv with rfl | hv
      · exact hposition.keepsOperand hbase
      · exact List.mem_singleton.mp hv ▸ hposition.operand
    · obtain ⟨place, hscalar, hcarries⟩ := htyped ht
      have hplace := hcarries position hP
      exact Ir.Instruction.wellTyped_elementAddr (hstores ht _ hknown).1 (hplace.isInteger hscalar)
        (hplace.isOperand hscalar)
    · rintro _ s₂ ⟨haddress, id, rfl⟩
      refine .pure ⟨hposition.toContinues.thenGives haddress, fun ht d' elem' len' h => ?_⟩
      obtain rfl := Option.some.inj (h.declOf.symm.trans (Analysis.declOf?_of_ok hd))
      cases h.typeOf.symm.trans hknown
      exact ⟨(hstores ht _ hknown).2, id, rfl⟩

theorem BinaryOp.emit_draws {op : BinaryOp} {span : Span} {lhs rhs : Ir.Value}
    (hlhs : F.R.operand lhs ∧ s.Usable lhs) (hrhs : F.R.operand rhs ∧ s.Usable rhs)
    (htyped : F.R.typed → ∃ type : Ty, type.isScalar ∧ lhs.Carries type ∧ rhs.Carries type) :
    (op.emit span lhs rhs).Draws s fun v s' =>
      s.Gives F.R [] v s' ∧ ∃ id, v = .inst id lhs.type := by
  have hemit : ∀ operation : Ir.Operation, operation.isAlloca = false →
      operation.operands = [lhs, rhs] →
      (lhs.type.isInteger → rhs.type = lhs.type → operation.Gives lhs.type) →
      (LowerM.emit operation lhs.type).Draws s fun v s' =>
        s.Gives F.R [] v s' ∧ ∃ id, v = .inst id lhs.type := by
    intro operation halloca hoperands hgives
    refine LowerM.emit_draws halloca ?_ fun ht _ => ?_
    · rw [hoperands]
      intro v hv
      rcases List.mem_cons.mp hv with rfl | hv
      · exact hlhs
      · exact List.mem_singleton.mp hv ▸ hrhs
    · obtain ⟨type, hs, hleft, hright⟩ := htyped ht
      exact Ir.Instruction.wellTyped_pair hleft hright hs hoperands hgives
  unfold BinaryOp.emit
  split
  · exact hemit _ rfl rfl fun hinteger heq => ⟨hinteger, rfl, heq⟩
  · exact hemit _ rfl rfl fun hinteger heq => ⟨hinteger, rfl, heq⟩
  · trivial

/-! Expressions. -/

/-- The two ways to the end of `&&` know all that was known at the fork. -/
theorem Expr.emitAnd_follows {lhs lhs' rhs rhs' : LowerM Ir.Value} {P P' : Ir.Value → Prop}
    (hfirst : F.R.first ≤ s.builder.blocks.length)
    (hlhs : lhs'.Follows lhs s fun v s' => s.Gives F.R requests v s' ∧ P v)
    (hrhs : ∀ s' requests, Ir.Sketch.Continues F.R requests s s' →
      rhs'.Follows rhs s' fun v s'' => s'.Gives F.R requests' v s'' ∧ P' v)
    (htyped : F.R.typed → ∃ type : Ty, type.isScalar ∧ (∀ v, P v → v.Carries type) ∧
      ∀ v, P' v → v.Carries type) :
    (Expr.emitAnd lhs' rhs').Follows (Expr.emitAnd lhs rhs) s fun v s' =>
      s.Gives F.R (requests ++ none :: requests') v s' ∧
        ∃ left id, P left ∧ v = .inst id left.type := by
  refine hlhs.bind ?_
  rintro left s₁ ⟨hleft, hP⟩
  have hleftTyped : F.R.typed → ∃ type : Ty, type.isScalar ∧ left.Carries type := by
    intro ht
    obtain ⟨type, hs, hcarries, _⟩ := htyped ht
    exact ⟨type, hs, hcarries left hP⟩
  -- The slot and the results that are stored in it have the type of the left operand.
  have hslotTyped : ∀ {id id' : Ir.InstId} {machine : Ir.Ty}, (F.R.typed → machine = left.type) →
      F.R.typed → (Ir.Value.inst id (.ptr left.type)).type =
          .ptr (Ir.Value.inst id' machine).type ∧ (Ir.Value.inst id' machine).IsOperand ∧
        (Ir.Value.inst id (.ptr left.type)).IsOperand := by
    intro id id' machine hmachine ht
    obtain ⟨type, hs, hcarries⟩ := hleftTyped ht
    obtain rfl := hmachine ht
    exact ⟨rfl, Ir.Value.isOperand_inst (hcarries.isOperand hs).ne_void,
      Ir.Value.isOperand_inst (by simp)⟩
  refine (allocate_none_draws (F := F) hleft.isOpen left.type).follows.bind ?_
  rintro _ s₂ ⟨hslot, slot, rfl⟩
  refine (isNonzero_draws (hslot.keepsOperand hleft.operand) hleftTyped).follows.bind ?_
  rintro _ s₃ ⟨hholds, holds, rfl⟩
  refine (store_draws hholds.operand (hholds.keepsOperand hslot.operand)
    (hslotTyped fun _ => rfl)).follows.bind fun _ s₄ hstored => ?_
  have h₄ : Ir.Sketch.Continues F.R (requests ++ [none]) s s₄ :=
    hleft.toContinues.trans (hslot.toContinues.andThen (hholds.toContinues.andThen hstored))
  have hslot₄ := hstored.keepsOperand (hholds.keepsOperand hslot.operand)
  have hholdsTyped : F.R.typed → ∃ type : Ty, type.isScalar ∧
      (Ir.Value.inst holds left.type).Carries type := by
    intro ht
    obtain ⟨type, hs, hcarries⟩ := hleftTyped ht
    exact ⟨type, hs, Ir.Value.carries_inst hcarries.type_eq⟩
  refine fork_follows s₄.here (Nat.le_trans hfirst h₄.steps.kept.length) (by decide) (by decide)
    (hstored.keepsOperand hholds.operand) hholdsTyped (fun x hx => .inr (.inr hx))
    fun rhsBlock endBlock s₅ hfork hrhsBlock hendBlock => ?_
  refine (selectBlock_draws hrhsBlock).follows.bind fun _ s₆ hselect => ?_
  have h₆ : Ir.Sketch.Continues F.R [] s₄ s₆ := hselect.continues hfork
  refine (hrhs s₆ _ (h₄.trans h₆)).bind ?_
  rintro right s₇ ⟨hright, hP'⟩
  have hrightTyped : F.R.typed → ∃ type : Ty, type.isScalar ∧ right.Carries type := by
    intro ht
    obtain ⟨type, hs, _, hcarries⟩ := htyped ht
    exact ⟨type, hs, hcarries right hP'⟩
  have hsame : F.R.typed → right.type = left.type := by
    intro ht
    obtain ⟨type, _, hcarries, hcarries'⟩ := htyped ht
    exact (hcarries' right hP').type_eq.trans (hcarries left hP).type_eq.symm
  refine (isNonzero_draws hright.operand hrightTyped).follows.bind ?_
  rintro _ s₈ ⟨hholds', holds', rfl⟩
  have h₈ : Ir.Sketch.Continues F.R requests' s₄ s₈ :=
    h₆.trans (hright.toContinues.andThen hholds'.toContinues)
  refine (store_draws hholds'.operand (h₈.keepsOperand hslot₄) (hslotTyped hsame)).follows.bind
    fun _ s₉ hstored' => ?_
  have h₉ : Ir.Sketch.Continues F.R requests' s₄ s₉ := h₈.andThen hstored'
  have hendBlock₉ : s₉.Notes F.R endBlock s₄.here :=
    (hselect.steps.trans (hright.steps.trans (hholds'.steps.trans hstored'.steps))).notes hendBlock
  refine (jump_draws hendBlock₉ fun x hx => h₉.keeps (.inr (.inr hx))).follows.bind ?_
  rintro _ s₁₀ ⟨hjump, _⟩
  refine (selectBlock_draws (hjump.steps.notes hendBlock₉)).follows.bind fun _ s₁₁ hselect' => ?_
  have h₁₁ : Ir.Sketch.Continues F.R requests' s₄ s₁₁ :=
    hselect'.continues (h₉.toExtends.andThen hjump)
  refine (load_draws (h₁₁.keepsOperand hslot₄) fun _ =>
    ⟨rfl, Ir.Value.isOperand_inst (by simp)⟩).follows.mono ?_
  rintro v s' ⟨hv, id, rfl⟩
  have hall := (h₄.trans h₁₁).thenGives hv
  rw [List.append_assoc] at hall
  exact ⟨hall, left, id, hP, rfl⟩

/-! The types of operands. -/

theorem Expr.suits_int {a : Analysis} {typed : Prop} (id : ExprId) (value : Int) (span : Span) :
    (Expr.literal id (.int value) span).Suits a typed (.int .i32 value) := by
  intro _ type htype
  cases htype with
  | int hfits =>
    refine ⟨rfl, ?_⟩
    rintro c hc
    cases hc
    exact hfits

theorem Expr.suits_char {a : Analysis} {typed : Prop} (id : ExprId) (byte : UInt8) (span : Span) :
    (Expr.literal id (.char byte) span).Suits a typed
      (.int .i8 (ScalarValue.ofByte byte).value) := by
  intro _ type htype
  cases htype with
  | char =>
    refine ⟨rfl, ?_⟩
    rintro c hc
    cases hc
    exact (ScalarValue.ofByte byte).fits

/-- The operands of an operator are of one scalar type. -/
theorem Setting.Admits.sides {id : ExprId} {op : BinaryOp} {span : Span} {lhs rhs : Expr}
    (h : F.Admits visible (.binary id op span lhs rhs)) (ht : F.R.typed) :
    ∃ type : Ty, type.isScalar ∧ (∀ v, lhs.Suits F.a F.R.typed v → v.Carries type) ∧
      (∀ v, rhs.Suits F.a F.R.typed v → v.Carries type) ∧
      ∀ v, lhs.Locates F.a F.R.typed v → v.type = .ptr type.machine ∧ v.IsOperand := by
  obtain ⟨type, htype⟩ := h.hasType ht
  cases htype with
  | binary hlhs hrhs hs _ =>
    exact ⟨type, hs, fun v hv => hv ht type hlhs, fun v hv => hv ht type hrhs,
      fun v hv => hv ht type hlhs hs⟩

/-- The result of an operator has the type of its left operand. -/
theorem Expr.Suits.binary {a : Analysis} {typed : Prop} {id : ExprId} {op : BinaryOp} {span : Span}
    {lhs rhs : Expr} {left : Ir.Value} (h : lhs.Suits a typed left) (inst : Ir.InstId) :
    (Expr.binary id op span lhs rhs).Suits a typed (.inst inst left.type) := by
  intro ht type htype
  cases htype with
  | binary hlhs _ _ _ => exact Ir.Value.carries_inst (h ht type hlhs).type_eq

/-- The guide comes to the code of an expression if it comes to that of its parts. -/
theorem Setting.operand_follows {e : Expr} (h : F.Admits visible e) {code : LowerM Ir.Value}
    {Q : Ir.Value → Ir.Sketch → Prop}
    (hcode : code.Follows (e.lower F.a) s fun v s' => Q v s' ∧ e.Suits F.a F.R.typed v) :
    (F.g.operand e code).Follows (e.lower F.a) s fun v s' => Q v s' ∧ e.Suits F.a F.R.typed v := by
  refine ⟨F.mimics.operand (h.inside e.enter_mem_events) hcode.same (Run.mono hcode.draws ?_),
    hcode.draws⟩
  rintro v _ ⟨_, _, _, hsuits⟩
  exact hsuits

theorem Ident.elementAddress_follows (hs : F.Ready visible s) {id : ExprId} {array : Ident}
    {lbracket rbracket : Span} {position : Expr}
    (h : F.Admits visible (.index id array lbracket position rbracket))
    (hindex : (position.lower F.g).Follows (position.lower F.a) s fun v s' =>
      s.Gives F.R requests v s' ∧ position.Suits F.a F.R.typed v) :
    (array.elementAddress F.g (position.lower F.g)).Follows
      (array.elementAddress F.a (position.lower F.a)) s fun out s' =>
        s.Gives F.R requests out.1 s' ∧ (F.R.typed → ∀ type,
          (Expr.index id array lbracket position rbracket).HasType F.a type →
            type.isScalar ∧ ∃ id, out = (.inst id (.ptr type.machine), type.machine)) := by
  refine ⟨F.mimics.element hs.holds (h.inside (Expr.enter_mem_events _)) hindex.same, ?_⟩
  refine (array.elementAddress_draws hs (fun hlexical => (h.inScope hlexical).1) hindex.draws
    fun ht => ?_).mono ?_
  · obtain ⟨_, htype⟩ := h.hasType ht
    cases htype with
    | index _ hposition hplace => exact ⟨_, hplace, fun v hv => hv ht _ hposition⟩
  · rintro out s' ⟨haddress, hout⟩
    refine ⟨haddress, fun ht type htype => ?_⟩
    cases htype with
    | index harray _ _ => exact hout ht _ type _ harray

/-- What is called is what the tables say. -/
theorem Setting.called (F : Setting) (ht : F.R.typed) {id : ExprId} {callee : Ident}
    {lparen rparen : Span} {args : List Expr} {d : Decl} {type result : Ty} {params : List Ty}
    (hd : F.a.declOf callee = .ok d) (hknown : F.a.types.decl? d = some (.func result params))
    (htype : (Expr.call id callee lparen args rparen).HasType F.a type) :
    type = result ∧ Expr.ArgsFit F.a params args ∧ (∀ param ∈ params, param.isParam) ∧
      (result.isScalar ∨ result.isVoid) := by
  cases htype with
  | call hident hfit =>
    obtain rfl := Option.some.inj (hident.declOf.symm.trans (Analysis.declOf?_of_ok hd))
    cases hident.typeOf.symm.trans hknown
    obtain ⟨hparams, hresult⟩ := (F.firm ht).signature hident
    exact ⟨rfl, hfit, hparams, hresult⟩

mutual

/-- The code of an expression takes the steps of a construction, whichever guide it goes by, and
the operand has the machine type of the expression. -/
theorem Expr.lower_follows (F : Setting) : (e : Expr) → F.Admits visible e → ∀ {s : Ir.Sketch},
    F.Ready visible s → (e.lower F.g).Follows (e.lower F.a) s fun v s' =>
      s.Gives F.R e.requests v s' ∧ e.Suits F.a F.R.typed v
  | .literal id (.int value) span, h, s, hs =>
    F.operand_follows h
      (.pure ⟨⟨.refl hs.isOpen, F.permits.const _, .inr trivial⟩, Expr.suits_int id value span⟩)
  | .literal id (.char byte) span, h, s, hs =>
    F.operand_follows h
      (.pure ⟨⟨.refl hs.isOpen, F.permits.const _, .inr trivial⟩, Expr.suits_char id byte span⟩)
  | .paren _ _ inner _, h, _, hs => by
    refine F.operand_follows h ((inner.lower_follows F h.paren hs).mono ?_)
    rintro v s' ⟨hv, hsuits⟩
    refine ⟨hv, fun ht type htype => ?_⟩
    cases htype with
    | paren hinner => exact hsuits ht type hinner
  | .name _ ident, h, _, hs => by
    refine F.operand_follows h ⟨F.mimics.read hs.holds (h.inside (Expr.enter_mem_events _)),
      (ident.read_draws hs h.inScope).mono ?_⟩
    rintro v s' ⟨hv, hcarries⟩
    refine ⟨hv, fun ht type htype => ?_⟩
    cases htype with
    | name hident => exact hcarries ht _ type hident
  | .index _ array _ position _, h, _, hs => by
    refine F.operand_follows h ?_
    have hindex := position.lower_follows F h.position hs
    refine (Ident.elementAddress_follows hs h hindex).bind ?_
    rintro out s₁ ⟨haddress, hout⟩
    refine (load_draws haddress.operand fun ht => ?_).follows.mono ?_
    · obtain ⟨type, htype⟩ := h.hasType ht
      obtain ⟨_, id, rfl⟩ := hout ht type htype
      exact ⟨rfl, Ir.Value.isOperand_inst (by simp)⟩
    · rintro v s' ⟨hv, id, rfl⟩
      refine ⟨haddress.toContinues.thenGives hv, fun ht type htype => ?_⟩
      obtain ⟨hscalar, _, rfl⟩ := hout ht type htype
      exact Ir.Value.carries_inst (Ty.machineParam_of_isScalar hscalar).symm
  | .call id callee lparen args rparen, h, _, hs => by
    refine F.operand_follows h ?_
    have hin := h.inside (Expr.enter_mem_events _)
    refine .liftBind₂ (F.mimics.function hin) fun d out hd hout => ?_
    obtain ⟨result, params, hfunc, hknown, rfl⟩ := Decl.functionValue_cases hout
    have hsees : F.lexical → callee.Sees F.a.resolution _ := fun hlexical => (h.inScope hlexical).1
    have hcallee := Decl.function_allowed hs hd hsees hfunc hknown
    refine (Expr.lowerAll_follows F args h.args hs).bind ?_
    rintro values s₁ ⟨hargs, hvalues, hsuit⟩
    refine (emit_draws (F := F) rfl ?_ fun ht _ => ?_).follows.mono ?_
    · intro v hv
      rcases List.mem_cons.mp hv with rfl | hv
      · exact hargs.keepsOperand hcallee
      · exact hvalues v hv
    · obtain ⟨type, htype⟩ := h.hasType ht
      obtain ⟨_, hfit, hparams, _⟩ := F.called ht hd hknown htype
      obtain ⟨htypes, hoperands⟩ := hsuit ht params hfit hparams
      exact Ir.Instruction.wellTyped_call htypes hoperands
    · rintro v s' ⟨hv, id, rfl⟩
      refine ⟨hargs.thenGives hv, fun ht type htype => Ir.Value.carries_inst ?_⟩
      obtain ⟨rfl, _, _, hscalar | hvoid⟩ := F.called ht hd hknown htype
      · exact (Ty.machineParam_of_isScalar hscalar).symm
      · exact (Ty.machineParam_of_isVoid hvoid).symm
  | .unary _ op _ operand, h, _, hs => by
    refine F.operand_follows h ?_
    refine (operand.lower_follows F h.operand hs).bind ?_
    rintro value s₁ ⟨hvalue, hsuits⟩
    refine (emit_draws (F := F) rfl ?_ fun ht _ => ?_).follows.mono ?_
    · intro v hv
      exact List.mem_singleton.mp hv ▸ hvalue.operand
    · obtain ⟨type, htype⟩ := h.hasType ht
      cases htype with
      | neg hoperand hscalar | not hoperand hscalar =>
        have hcarries := hsuits ht _ hoperand
        refine ⟨⟨hcarries.isInteger hscalar, rfl⟩, ?_⟩
        simp [Ir.Operation.operands, hcarries.isOperand hscalar]
    · rintro v s' ⟨hv, id, rfl⟩
      refine ⟨hvalue.toContinues.thenGives hv, fun ht type htype => Ir.Value.carries_inst ?_⟩
      cases htype with
      | neg hoperand _ => exact (hsuits ht _ hoperand).type_eq
      | not _ _ => rfl
  | .binary _ op _ lhs rhs, h, s, hs => by
    by_cases hopAssign : op = .assign
    · subst hopAssign
      rw [Expr.requests_assign]
      refine F.operand_follows h ?_
      refine (rhs.lower_follows F h.right hs).bind ?_
      rintro value s₁ ⟨hvalue, hsuits⟩
      refine (lhs.lowerPlace_follows F h.left (hs.continue hvalue.toContinues)).bind ?_
      rintro pointer s₂ ⟨hpointer, hlocates⟩
      refine (store_draws (hpointer.keepsOperand hvalue.operand) hpointer.operand
        fun ht => ?_).follows.bind fun _ s₃ hstored => ?_
      · obtain ⟨type, hscalar, _, hright, hplace⟩ := h.sides ht
        obtain ⟨htype, hoperand⟩ := hplace pointer hlocates
        have hcarries := hright value hsuits
        refine ⟨?_, hcarries.isOperand hscalar, hoperand⟩
        rw [htype, hcarries.type_of_isScalar hscalar]
      · have hrest := hpointer.toContinues.andThen hstored
        refine .pure ⟨⟨hvalue.toContinues.trans hrest, hvalue.allowed, hrest.keeps hvalue.usable⟩,
          fun ht type htype => ?_⟩
        cases htype with
        | binary _ hrhs _ _ => exact hsuits ht type hrhs
    · by_cases hopAnd : op = .and
      · subst hopAnd
        rw [Expr.requests_and]
        refine F.operand_follows h ((Expr.emitAnd_follows hs.first (lhs.lower_follows F h.left hs)
          (fun s' _ hcontinues => rhs.lower_follows F h.right (hs.continue hcontinues))
          fun ht => ?_).mono ?_)
        · obtain ⟨type, hscalar, hleft, hright, _⟩ := h.sides ht
          exact ⟨type, hscalar, hleft, hright⟩
        · rintro _ s' ⟨hv, left, id, hsuits, rfl⟩
          exact ⟨hv, hsuits.binary id⟩
      · rw [Expr.requests_strict hopAnd, Expr.lower_strict hopAssign hopAnd]
        refine F.operand_follows h ?_
        rw [Expr.lower_strict hopAssign hopAnd]
        refine (lhs.lower_follows F h.left hs).bind ?_
        rintro left s₁ ⟨hleft, hsuits⟩
        refine (rhs.lower_follows F h.right (hs.continue hleft.toContinues)).bind ?_
        rintro right s₂ ⟨hright, hsuits'⟩
        refine (BinaryOp.emit_draws (hright.keepsOperand hleft.operand) hright.operand
          fun ht => ?_).follows.mono ?_
        · obtain ⟨type, hscalar, hcarries, hcarries', _⟩ := h.sides ht
          exact ⟨type, hscalar, hcarries left hsuits, hcarries' right hsuits'⟩
        · rintro _ s' ⟨hv, id, rfl⟩
          exact ⟨(hleft.toContinues.trans hright.toContinues).thenGives hv, hsuits.binary id⟩

theorem Expr.lowerPlace_follows (F : Setting) : (e : Expr) → F.Admits visible e →
    ∀ {s : Ir.Sketch}, F.Ready visible s →
    (e.lowerPlace F.g).Follows (e.lowerPlace F.a) s fun v s' =>
      s.Gives F.R e.requests v s' ∧ e.Locates F.a F.R.typed v
  | .name _ ident, h, s, hs => by
    refine ⟨F.mimics.place hs.holds (h.inside (Expr.enter_mem_events _)), .liftBind fun d hd => ?_⟩
    refine (d.address_draws hs _ hd h.inScope).mono ?_
    rintro v s' ⟨rfl, ⟨hallowed, husable⟩, hstores⟩
    refine ⟨⟨.refl hs.isOpen, hallowed, husable⟩, fun ht type htype hscalar => ?_⟩
    cases htype with
    | name hident =>
      obtain rfl := Option.some.inj (hident.declOf.symm.trans (Analysis.declOf?_of_ok hd))
      obtain ⟨hv, _⟩ := hstores ht type hident.typeOf
      exact ⟨hv.of_isScalar hscalar, hv.isOperand⟩
  | .index _ array _ position _, h, _, hs => by
    have hindex := position.lower_follows F h.position hs
    refine (Ident.elementAddress_follows hs h hindex).bind ?_
    rintro out s₁ ⟨haddress, hout⟩
    refine .pure ⟨haddress, fun ht type htype _ => ?_⟩
    obtain ⟨_, id, rfl⟩ := hout ht type htype
    exact ⟨rfl, Ir.Value.isOperand_inst (by simp)⟩
  | .paren _ _ inner _, h, _, hs => by
    refine (inner.lowerPlace_follows F h.paren hs).mono ?_
    rintro v s' ⟨hv, hlocates⟩
    refine ⟨hv, fun ht type htype => ?_⟩
    cases htype with
    | paren hinner => exact hlocates ht type hinner
  | .literal .., _, _, _ | .binary .., _, _, _ | .call .., _, _, _ | .unary .., _, _, _ => .throw

theorem Expr.lowerAll_follows (F : Setting) : (es : List Expr) → F.AdmitsAll visible es →
    ∀ {s : Ir.Sketch}, F.Ready visible s →
    (Expr.lowerAll F.g es).Follows (Expr.lowerAll F.a es) s fun vs s' =>
      Ir.Sketch.Continues F.R (List.replicate (Expr.conjunctionsAll es) none) s s' ∧
        (∀ v ∈ vs, F.R.operand v ∧ s'.Usable v) ∧ Expr.AllSuit F.a F.R.typed es vs
  | [], _, s, hs => by
    refine .pure ⟨.refl hs.isOpen, List.forall_mem_nil _, fun _ params hfit _ => ?_⟩
    cases hfit with
    | nil => exact ⟨rfl, List.forall_mem_nil _⟩
  | e :: rest, h, s, hs => by
    rw [Expr.conjunctionsAll, ← List.replicate_append_replicate]
    refine (e.lower_follows F h.head hs).bind ?_
    rintro value s₁ ⟨hvalue, hsuits⟩
    refine (Expr.lowerAll_follows F rest h.tail (hs.continue hvalue.toContinues)).bind ?_
    rintro values s₂ ⟨hrest, hvalues, hsuit⟩
    refine .pure ⟨hvalue.toContinues.trans hrest,
      List.forall_mem_cons.mpr ⟨hrest.keepsOperand hvalue.operand, hvalues⟩, ?_⟩
    intro ht params hfit hparams
    cases hfit with
    | @cons param type params _ _ harg hcompatible hfit =>
      obtain ⟨hparam, hparams⟩ := List.forall_mem_cons.mp hparams
      obtain ⟨htypes, hoperands⟩ := hsuit ht params hfit hparams
      have hcarries := hsuits ht type harg
      have htype := hcarries.type_eq.trans (Ty.machineParam_eq_of_compatible hcompatible hparam)
      have hvalue : value.Carries param := ⟨htype, hcarries.inRange⟩
      refine ⟨by simp [htypes, htype], ?_⟩
      exact List.forall_mem_cons.mpr ⟨hvalue.isOperand_of_isParam hparam, hoperands⟩

end

end

end MicroC
