import MicroC.Proofs.Lowering.Construction

/-!
Statements and bodies as constructions. A statement notes nothing for the blocks it makes, since
what one statement computes is not used by another; only variables are, and what is bound to them
can be used everywhere. Behind a statement the cursor is closed exactly if the statement always
returns. A body that has been lowered is a sound sketch without unfinished blocks.
-/

namespace MicroC

open LowerM

/-- More of a function, with slots for some requests. -/
structure Ir.Sketch.Ends (R : Ir.Sketch.Rules) (requests : List (Option Decl)) (closed : Bool)
    (s s' : Ir.Sketch) : Prop where
  steps : Ir.Sketch.Steps R s s'
  served : s'.served = s.served ++ requests
  isOpen : s'.builder.current.isSome = !closed

/-- A local variable as the setting asks for it: its initial value is in the scope of the variable
and fits its type, and the traversal comes to it. -/
structure Setting.AdmitsDecl (F : Setting) (visible : List Decl) (d : Decl) : Prop where
  inScope : F.lexical → ∀ init ∈ d.init?, init.Scoped F.a.resolution (d :: visible)
  isVariable : F.R.typed → d.IsVariable F.a
  inside : d.events ⊆ F.events

/-- A statement as the setting asks for it: names are used where they are visible, it is well typed,
and the traversal comes to it. -/
structure Setting.AdmitsStmt (F : Setting) (visible : List Decl) (stmt : Stmt) : Prop where
  inScope : F.lexical → stmt.Scoped F.a.resolution visible
  wellTyped : F.R.typed → stmt.WellTyped F.a F.result
  inside : stmt.events ⊆ F.events

/-- A condition is a scalar. -/
structure Setting.AdmitsCond (F : Setting) (visible : List Decl) (cond : Expr) : Prop where
  inScope : F.lexical → cond.Scoped F.a.resolution visible
  isScalar : F.R.typed → ∃ type, cond.HasType F.a type ∧ type.isScalar
  inside : cond.events ⊆ F.events

structure Setting.AdmitsItems (F : Setting) (visible : List Decl) (items : List Item) : Prop where
  inScope : F.lexical → Item.AllScoped F.a.resolution visible items
  wellTyped : F.R.typed → Item.AllTyped F.a F.result items
  inside : Item.eventsAll items ⊆ F.events

section

variable {F : Setting} {visible : List Decl} {s s' s'' : Ir.Sketch}
  {requests requests' : List (Option Decl)} {closed closed' : Bool}

/-! The parts of a statement. -/

theorem Setting.AdmitsCond.admits {cond : Expr} (h : F.AdmitsCond visible cond) :
    F.Admits visible cond := by
  refine ⟨h.inScope, fun ht => ?_, h.inside⟩
  obtain ⟨type, htype, _⟩ := h.isScalar ht
  exact ⟨type, htype⟩

theorem Decl.IsVariable.isComplete {a : Analysis} {d : Decl} {type : Ty} (h : d.IsVariable a)
    (htype : a.types.decl? d = some type) : type.isComplete := by
  cases h with
  | plain hknown hcomplete => exact Option.some.inj (hknown.symm.trans htype) ▸ hcomplete
  | initialized hknown hscalar _ =>
    exact Option.some.inj (hknown.symm.trans htype) ▸ Ty.isComplete_of_isScalar hscalar

theorem Setting.AdmitsDecl.init {id : DeclId} {name : String} {span : Span} {written : TypeExpr}
    {init : Expr} (h : F.AdmitsDecl visible (.var id name span written (some init))) :
    F.Admits (.var id name span written (some init) :: visible) init := by
  obtain ⟨_, hinside⟩ := List.append_subset.mp (Node.inside_events h.inside)
  refine ⟨fun hlexical => h.inScope hlexical init rfl, fun ht => ?_, hinside⟩
  cases h.isVariable ht with
  | initialized _ _ hinit => exact ⟨_, hinit⟩

namespace Setting.AdmitsStmt

variable {id : StmtId} {span span' : Span} {cond value : Expr} {onTrue onFalse body : Stmt}

theorem items {items : List Item} (h : F.AdmitsStmt visible (.block id span items span')) :
    F.AdmitsItems visible items := by
  refine ⟨h.inScope, fun ht => ?_, Node.inside_events h.inside⟩
  cases h.wellTyped ht with
  | block hitems => exact hitems

theorem discarded (h : F.AdmitsStmt visible (.expr id value)) : F.Admits visible value := by
  refine ⟨h.inScope, fun ht => ?_, Node.inside_events h.inside⟩
  cases h.wellTyped ht with
  | expr hvalue => exact ⟨_, hvalue⟩

theorem returned (h : F.AdmitsStmt visible (.ret id span (some value))) :
    F.Admits visible value := by
  refine ⟨h.inScope, fun ht => ?_, Node.inside_events h.inside⟩
  cases h.wellTyped ht with
  | retValue hvalue _ _ => exact ⟨_, hvalue⟩

theorem branch (h : F.AdmitsStmt visible (.branch id span cond onTrue none)) :
    F.AdmitsCond visible cond ∧ F.AdmitsStmt visible onTrue := by
  obtain ⟨hcond, honTrue⟩ := List.append_subset.mp (Node.inside_events h.inside)
  refine ⟨⟨fun hlexical => (h.inScope hlexical).1, fun ht => ?_, hcond⟩,
    fun hlexical => (h.inScope hlexical).2, fun ht => ?_, honTrue⟩
  · cases h.wellTyped ht with
    | branch hcond hscalar _ => exact ⟨_, hcond, hscalar⟩
  · cases h.wellTyped ht with
    | branch _ _ honTrue => exact honTrue

theorem branchElse (h : F.AdmitsStmt visible (.branch id span cond onTrue (some onFalse))) :
    F.AdmitsCond visible cond ∧ F.AdmitsStmt visible onTrue ∧ F.AdmitsStmt visible onFalse := by
  obtain ⟨hboth, honFalse⟩ := List.append_subset.mp (Node.inside_events h.inside)
  obtain ⟨hcond, honTrue⟩ := List.append_subset.mp hboth
  refine ⟨⟨fun hlexical => (h.inScope hlexical).1, fun ht => ?_, hcond⟩,
    ⟨fun hlexical => (h.inScope hlexical).2.1, fun ht => ?_, honTrue⟩,
    fun hlexical => (h.inScope hlexical).2.2, fun ht => ?_, honFalse⟩
  · cases h.wellTyped ht with
    | branchElse hcond hscalar _ _ => exact ⟨_, hcond, hscalar⟩
  · cases h.wellTyped ht with
    | branchElse _ _ honTrue _ => exact honTrue
  · cases h.wellTyped ht with
    | branchElse _ _ _ honFalse => exact honFalse

theorem loop (h : F.AdmitsStmt visible (.loop id span cond body)) :
    F.AdmitsCond visible cond ∧ F.AdmitsStmt visible body := by
  obtain ⟨hcond, hbody⟩ := List.append_subset.mp (Node.inside_events h.inside)
  refine ⟨⟨fun hlexical => (h.inScope hlexical).1, fun ht => ?_, hcond⟩,
    fun hlexical => (h.inScope hlexical).2, fun ht => ?_, hbody⟩
  · cases h.wellTyped ht with
    | loop hcond hscalar _ => exact ⟨_, hcond, hscalar⟩
  · cases h.wellTyped ht with
    | loop _ _ hbody => exact hbody

end Setting.AdmitsStmt

theorem Setting.AdmitsItems.decl {d : Decl} {rest : List Item}
    (h : F.AdmitsItems visible (.decl d :: rest)) :
    F.AdmitsDecl visible d ∧ F.AdmitsItems (d :: visible) rest := by
  obtain ⟨hdecl, hrest⟩ := List.append_subset.mp h.inside
  refine ⟨⟨fun hlexical => (h.inScope hlexical).1, fun ht => ?_, hdecl⟩,
    fun hlexical => (h.inScope hlexical).2, fun ht => ?_, hrest⟩
  · cases h.wellTyped ht with
    | cons hitem _ => cases hitem with
      | decl hd => exact hd
  · cases h.wellTyped ht with
    | cons _ hrest => exact hrest

theorem Setting.AdmitsItems.stmt {stmt : Stmt} {rest : List Item}
    (h : F.AdmitsItems visible (.stmt stmt :: rest)) :
    F.AdmitsStmt visible stmt ∧ F.AdmitsItems visible rest := by
  obtain ⟨hstmt, hrest⟩ := List.append_subset.mp h.inside
  refine ⟨⟨fun hlexical => (h.inScope hlexical).1, fun ht => ?_, hstmt⟩,
    fun hlexical => (h.inScope hlexical).2, fun ht => ?_, hrest⟩
  · cases h.wellTyped ht with
    | cons hitem _ => cases hitem with
      | stmt hs => exact hs
  · cases h.wellTyped ht with
    | cons _ hrest => exact hrest

/-! Single statements. -/

namespace Ir.Sketch

theorem Continues.ends {R : Rules} (h : Continues R requests s s') : Ends R requests false s s' :=
  ⟨h.steps, h.served, h.isOpen⟩

theorem Ends.trans {R : Rules} (h : Ends R requests closed s s')
    (h' : Ends R requests' closed' s' s'') : Ends R (requests ++ requests') closed' s s'' :=
  ⟨h.steps.trans h'.steps, by simp [h.served, h'.served], h'.isOpen⟩

/-- What follows makes no slot. -/
theorem Ends.andThen {R : Rules} (h : Ends R requests closed s s') (h' : Extends R [] s' s'')
    (hopen : s''.builder.current.isSome = !closed') : Ends R requests closed' s s'' :=
  ⟨h.steps.trans h'.steps, by simp [h.served, h'.served], hopen⟩

theorem Ends.thenOpens {R : Rules} (h : Ends R requests closed s s') (h' : Extends R [] s' s'')
    (hopen : s''.builder.current.isSome) : Ends R requests false s s'' :=
  h.andThen h' hopen

theorem Ends.thenCloses {R : Rules} (h : Ends R requests closed s s') (h' : Extends R [] s' s'')
    (hclosed : s''.builder.current = none) : Ends R requests true s s'' :=
  h.andThen h' (by simp [hclosed])

theorem Step.returnNone {R : Rules} {i : BlockId} (hi : s.builder.current = some i)
    (hopen : s.builder.Unfinished i) (hvoid : R.typed → s.builder.result = .void) :
    Step R s { s with builder := s.builder.withTerminator i (.ret none) } :=
  .ret hi hopen (by simp) hvoid

end Ir.Sketch

theorem LowerM.isOpen_bind_apply {α : Type} {f : Bool → LowerM α} {b : Ir.Builder} :
    (isOpen >>= f) b = f b.current.isSome b := rfl

theorem LowerM.isOpen_follows {β : Type} {f f' : Bool → LowerM β} {Q : β → Ir.Sketch → Prop}
    (hf : (f' s.builder.current.isSome).Follows (f s.builder.current.isSome) s Q) :
    (isOpen >>= f').Follows (isOpen >>= f) s Q :=
  ⟨hf.same, isOpen_bind_iff.mpr hf.draws⟩

/-- The slot of a variable is bound to it. -/
theorem LowerM.allocate_some_draws (hs : F.Ready visible s) {d : Decl} {type : Ir.Ty}
    (hd : F.R.declares d type) (hvar : F.lexical → d.isVar) :
    (allocate (some (d.id, d.name)) type).Draws s fun v s' =>
      Ir.Sketch.Ends F.R [some d] false s s' ∧ F.Ready (d :: visible) s' ∧
        (F.R.operand v ∧ s'.Usable v) ∧ ∃ id, v = .inst id (.ptr type) := by
  refine allocate_some_ensures ?_
  have hsteps := (Ir.Sketch.Step.declare (s := s) hd).steps
  have hbound : (s.builder.withLocal d.id d.name type).binding? d.id =
      some (.inst s.builder.nextInst (.ptr type)) := by
    rw [Ir.Builder.withLocal_binding?, if_pos rfl]
  have hready := hs.of_steps hsteps hs.isOpen
  refine ⟨_, rfl, ⟨hsteps, rfl, hs.isOpen⟩, ⟨hready.isOpen, hready.first, ?_, ?_, hready.holds,
    hready.result_eq⟩, ⟨F.permits.isLocal _ rfl, .inl ⟨d.id, hbound⟩⟩, _, rfl⟩
  · exact List.forall_mem_cons.mpr ⟨Option.isSome_of_eq_some hbound, hready.bound⟩
  · exact fun hlexical => List.forall_mem_cons.mpr ⟨hvar hlexical, hs.isVar hlexical⟩

/-- A variable is bound from its own initial value on. -/
theorem Decl.lowerLocal_follows (hs : F.Ready visible s) {d : Decl} (h : F.AdmitsDecl visible d) :
    (d.lowerLocal F.g).Follows (d.lowerLocal F.a) s fun _ s' =>
      Ir.Sketch.Ends F.R d.requests false s s' ∧ F.Ready (d :: visible) s' := by
  cases d with
  | func _ _ _ _ _ | basic _ _ _ _ | typedef _ _ _ _ => exact .throw
  | var id name span written init =>
    have hmem := h.inside (Decl.enter_mem_events _)
    refine .liftBind (F.mimics.type hmem rfl) fun type htype => ?_
    have hknown := Analysis.decl?_of_ok htype
    have hdeclares := F.declares hmem rfl hknown fun ht => (h.isVariable ht).isComplete hknown
    refine (allocate_some_draws hs hdeclares fun _ => rfl).follows.bind ?_
    rintro _ s₁ ⟨hslot, hs₁, hoperand, slot, rfl⟩
    cases init with
    | none => exact .pure ⟨hslot, hs₁⟩
    | some init =>
      refine (init.lower_follows F h.init hs₁).bind ?_
      rintro value s₂ ⟨hvalue, hsuits⟩
      refine (store_draws hvalue.operand (hvalue.keepsOperand hoperand) fun ht => ?_).follows.mono
        fun _ s₃ hstored => ?_
      · cases h.isVariable ht with
        | initialized hknown' hscalar hinit =>
          cases hknown.symm.trans hknown'
          have hcarries := hsuits ht type hinit
          refine ⟨?_, hcarries.isOperand hscalar, Ir.Value.isOperand_inst (by simp)⟩
          rw [hcarries.type_of_isScalar hscalar]
          rfl
      · have hrest := hvalue.toContinues.andThen hstored
        exact ⟨hslot.trans hrest.ends, hs₁.continue hrest⟩

/-- Behind a branch the cursor is closed, and there is a block to go on in if the branch or an
earlier one came to its end. Nothing is noted for that block. -/
theorem Stmt.joinBranch_follows {merge : Option Ir.BlockId}
    (hfirst : F.R.first ≤ s.builder.blocks.length) (hmerge : ∀ i ∈ merge, s.Notes F.R i []) :
    (Stmt.joinBranch merge).Follows (Stmt.joinBranch merge) s fun merge' s' =>
      Ir.Sketch.Extends F.R [] s s' ∧ s'.builder.current = none ∧
        merge'.isSome = (s.builder.current.isSome || merge.isSome) ∧
        ∀ i ∈ merge', s'.Notes F.R i [] := by
  refine isOpen_follows ?_
  cases hcurrent : s.builder.current with
  | none => exact .pure ⟨⟨.refl, rfl, (List.append_nil _).symm⟩, hcurrent, rfl, hmerge⟩
  | some selected =>
    cases merge with
    | some target =>
      have htarget := hmerge target rfl
      refine (LowerM.Follows.pure (Q := fun i s' => i = target ∧ s' = s) ⟨rfl, rfl⟩).bind ?_
      rintro _ _ ⟨rfl, rfl⟩
      refine (jump_draws htarget (List.forall_mem_nil _)).follows.bind ?_
      rintro _ s₁ ⟨hjump, hclosed⟩
      refine .pure ⟨hjump, hclosed, rfl, fun i hi => ?_⟩
      exact Option.some.inj hi ▸ hjump.steps.notes htarget
    | none =>
      refine enter_follows hfirst (by decide) fun i s₁ henter hclosed hi => ?_
      exact .pure ⟨henter, hclosed, rfl, fun j hj => Option.some.inj hj ▸ hi⟩

/-- A condition, and the code in the block that is entered if it holds. Nothing is noted for the
other block. -/
theorem LowerM.guarded_follows {β : Type} {onTrue onFalse : String} {cond : Expr}
    {body body' : LowerM Unit} {f f' : Ir.BlockId → LowerM β} {Q : β → Ir.Sketch → Prop}
    (hTrue : onTrue ∈ Ir.Builder.blockLabels) (hFalse : onFalse ∈ Ir.Builder.blockLabels)
    (hs : F.Ready visible s) (hcond : F.AdmitsCond visible cond)
    (hbody : ∀ {s'}, F.Ready visible s' →
      body'.Follows body s' fun _ s'' => Ir.Sketch.Ends F.R requests closed s' s'')
    (hf : ∀ j s', Ir.Sketch.Ends F.R (cond.requests ++ requests) closed s s' → s'.Notes F.R j [] →
      (f' j).Follows (f j) s' Q) :
    (cond.lower F.g >>= fun value => newBlock onTrue >>= fun i => newBlock onFalse >>= fun j =>
      terminate (.condBr value i j) >>= fun _ => selectBlock i >>= fun _ => body' >>= fun _ =>
        f' j).Follows
    (cond.lower F.a >>= fun value => newBlock onTrue >>= fun i => newBlock onFalse >>= fun j =>
      terminate (.condBr value i j) >>= fun _ => selectBlock i >>= fun _ => body >>= fun _ =>
        f j) s Q := by
  refine (cond.lower_follows F hcond.admits hs).bind ?_
  rintro value s₁ ⟨hvalue, hsuits⟩
  have htyped : F.R.typed → ∃ type : Ty, type.isScalar ∧ value.Carries type := by
    intro ht
    obtain ⟨type, htype, hscalar⟩ := hcond.isScalar ht
    exact ⟨type, hscalar, hsuits ht type htype⟩
  refine fork_follows [] (hs.continue hvalue.toContinues).first hTrue hFalse hvalue.operand htyped
    (List.forall_mem_nil _) fun i j s₂ hfork hi hj => ?_
  refine (selectBlock_draws hi).follows.bind fun _ s₃ hselect => ?_
  have hentered := hfork.andThen hselect.toExtends
  have h₃ := hvalue.toContinues.ends.thenOpens hentered hselect.isOpen
  refine (hbody (hs.of_steps h₃.steps hselect.isOpen)).bind fun _ s₄ hinner => ?_
  exact hf j s₄ (h₃.trans hinner) ((hselect.steps.trans hinner.steps).notes hj)

/-- The block after a statement is selected. -/
theorem LowerM.selectBlock_ends (h : Ir.Sketch.Ends F.R requests closed s s') {i : Ir.BlockId}
    {results : List (Ir.InstId × Ir.Ty)} (hi : s'.Notes F.R i results) :
    (selectBlock i).Follows (selectBlock i) s' fun _ s'' =>
      Ir.Sketch.Ends F.R requests false s s'' :=
  (selectBlock_draws hi).follows.mono fun _ _ hselect =>
    h.thenOpens hselect.toExtends hselect.isOpen

/-- With the cursor closed the items of a block are passed over. -/
theorem Item.lowerAll_of_closed (g : Guide) (items : List Item) {b : Ir.Builder}
    (h : b.current = none) : Item.lowerAll g items b = .ok ((), b) := by
  cases items with
  | nil => rfl
  | cons item rest =>
    rw [Item.lowerAll, isOpen_bind_apply, h]
    rfl

/-- The first item of a block and, if the cursor is open behind it, the rest. -/
theorem Item.lowerAll_cons_follows {item : Item} {rest : List Item} {visible' : List Decl}
    (hs : F.Ready visible s)
    (hitem : (item.lower F.g).Follows (item.lower F.a) s fun _ s' =>
      Ir.Sketch.Ends F.R item.requests item.alwaysReturns s s' ∧
        (s'.builder.current.isSome → F.Ready visible' s'))
    (hrest : ∀ {s'}, F.Ready visible' s' →
      (Item.lowerAll F.g rest).Follows (Item.lowerAll F.a rest) s' fun _ s'' =>
        Ir.Sketch.Ends F.R (Item.requestsAll rest) (Item.anyReturns rest) s' s'') :
    (Item.lowerAll F.g (item :: rest)).Follows (Item.lowerAll F.a (item :: rest)) s fun _ s' =>
      Ir.Sketch.Ends F.R (Item.requestsAll (item :: rest)) (Item.anyReturns (item :: rest)) s
        s' := by
  refine isOpen_follows ?_
  rw [if_pos hs.isOpen, if_pos hs.isOpen, Item.requestsAll, Item.anyReturns]
  refine hitem.bind ?_
  rintro _ s₁ ⟨hends, hready⟩
  cases hreturns : item.alwaysReturns with
  | true =>
    rw [hreturns] at hends
    have hclosed : s₁.builder.current = none := by simpa using hends.isOpen
    refine ⟨?_, ?_⟩
    · rw [Item.lowerAll_of_closed _ rest hclosed, Item.lowerAll_of_closed _ rest hclosed]
    · unfold LowerM.Draws LowerM.Ensures Run
      rw [Item.lowerAll_of_closed _ rest hclosed, if_pos rfl, List.append_nil]
      exact ⟨s₁, rfl, hends⟩
  | false =>
    rw [hreturns] at hends
    refine (hrest (hready hends.isOpen)).mono fun _ s' h => ?_
    rw [if_neg (by simp), Bool.false_or]
    exact hends.trans h

mutual

/-- The code of a statement takes the steps of a construction, whichever guide it goes by. -/
theorem Stmt.lower_follows (F : Setting) : (stmt : Stmt) → ∀ {visible : List Decl},
    F.AdmitsStmt visible stmt → ∀ {s : Ir.Sketch}, F.Ready visible s →
    (stmt.lower F.g).Follows (stmt.lower F.a) s fun _ s' =>
      Ir.Sketch.Ends F.R stmt.requests stmt.alwaysReturns s s'
  | .block _ _ items _, _, h, _, hs => Item.lowerAll_follows F items h.items hs
  | .empty .., _, _, _, hs => .pure (Ir.Sketch.Continues.refl hs.isOpen).ends
  | .expr _ value, _, h, _, hs =>
    .discard ((value.lower_follows F h.discarded hs).mono fun _ _ hv => hv.1.toContinues.ends)
  | .branch _ _ cond onTrue none, _, h, s, hs => by
    obtain ⟨hcond, honTrue⟩ := h.branch
    refine guarded_follows (by decide) (by decide) hs hcond
      (fun hs' => onTrue.lower_follows F honTrue hs') fun endBlock s₁ h₁ hend => ?_
    refine (Stmt.joinBranch_follows (Nat.le_trans hend.first (Nat.le_of_lt hend.lt))
      (by simpa using hend)).bind ?_
    rintro _ s₂ ⟨hjoin, hclosed, _⟩
    exact selectBlock_ends (h₁.thenCloses hjoin hclosed) (hjoin.steps.notes hend)
  | .branch _ _ cond onTrue (some onFalse), _, h, s, hs => by
    obtain ⟨hcond, honTrue, honFalse⟩ := h.branchElse
    rw [Stmt.requests, ← List.append_assoc]
    refine guarded_follows (by decide) (by decide) hs hcond
      (fun hs' => onTrue.lower_follows F honTrue hs') fun elseBlock s₁ h₁ helse => ?_
    refine (Stmt.joinBranch_follows (Nat.le_trans helse.first (Nat.le_of_lt helse.lt))
      (by simp)).bind ?_
    rintro merge s₂ ⟨hjoin, hclosed, hmergeSome, hmerge⟩
    have helse₂ := hjoin.steps.notes helse
    refine (selectBlock_draws helse₂).follows.bind fun _ s₃ hselect => ?_
    have h₃ := h₁.thenOpens (hjoin.andThen hselect.toExtends) hselect.isOpen
    have hs₃ := hs.of_steps h₃.steps hselect.isOpen
    refine (onFalse.lower_follows F honFalse hs₃).bind fun _ s₄ hbehind => ?_
    have h₄ := h₃.trans hbehind
    have hmerge₄ := (hselect.steps.trans hbehind.steps)
    refine (Stmt.joinBranch_follows (Nat.le_trans hs.first h₄.steps.kept.length)
      fun i hi => hmerge₄.notes (hmerge i hi)).bind ?_
    rintro merge' s₅ ⟨hjoin', hclosed', hmergeSome', hmerge'⟩
    -- there is a block behind the statement unless both branches return
    rw [hmergeSome, h₁.isOpen, hbehind.isOpen] at hmergeSome'
    cases merge' with
    | none =>
      refine .pure (h₄.andThen hjoin' ?_)
      rw [hclosed', Stmt.alwaysReturns]
      revert hmergeSome'
      cases onTrue.alwaysReturns <;> cases onFalse.alwaysReturns <;> simp
    | some endBlock =>
      refine (selectBlock_ends (h₄.thenCloses hjoin' hclosed')
        (hmerge' endBlock rfl)).mono fun _ s₆ h₆ => ⟨h₆.steps, h₆.served, ?_⟩
      rw [h₆.isOpen, Stmt.alwaysReturns]
      revert hmergeSome'
      cases onTrue.alwaysReturns <;> cases onFalse.alwaysReturns <;> simp
  | .ret _ _ none, _, h, s, hs => by
    refine LowerM.Draws.follows (terminate_ensures fun i hi hopen => ?_)
    have hvoid : F.R.typed → s.builder.result = .void := by
      intro ht
      cases h.wellTyped ht with
      | ret hvoid => exact (hs.result_eq ht).trans (Ty.machine_of_isVoid hvoid)
    have hstep := Ir.Sketch.Step.returnNone hi hopen hvoid
    exact ⟨_, rfl, hstep.steps, (List.append_nil _).symm, rfl⟩
  | .ret _ _ (some value), _, h, s, hs => by
    refine (value.lower_follows F h.returned hs).bind ?_
    rintro v s₁ ⟨hv, hsuits⟩
    refine LowerM.Draws.follows (terminate_ensures fun i hi hopen => ?_)
    refine ⟨_, rfl, hv.steps.tail (.ret hi hopen ?_ fun ht => ?_), hv.served, rfl⟩
    · intro w hw
      exact Option.some.inj hw ▸ hv.operand
    · cases h.wellTyped ht with
      | retValue hvalue hnotVoid hcompatible =>
        have hscalar : F.result.isScalar := (F.firm ht).returns.resolve_right (by simp [hnotVoid])
        obtain rfl := Ty.eq_of_compatible_of_isScalar hcompatible hscalar
        have hcarries := hsuits ht _ hvalue
        refine ⟨?_, hcarries.isOperand hscalar⟩
        rw [hcarries.type_of_isScalar hscalar, hv.steps.kept.result, hs.result_eq ht]
  | .loop _ _ cond body, _, h, s, hs => by
    obtain ⟨hcond, hbody⟩ := h.loop
    refine enter_follows hs.first (by decide) fun header s₁ henter _ hheader => ?_
    refine (selectBlock_draws hheader).follows.bind fun _ s₂ hselect => ?_
    have h₂ := henter.andThen hselect.toExtends
    have hs₂ := hs.of_steps h₂.steps hselect.isOpen
    refine guarded_follows (by decide) (by decide) hs₂ hcond
      (fun hs' => body.lower_follows F hbody hs') fun endBlock s₃ h₃ hend => ?_
    have hall : Ir.Sketch.Ends F.R (cond.requests ++ body.requests) body.alwaysReturns s s₃ :=
      ⟨h₂.steps.trans h₃.steps, by simp [h₃.served, h₂.served], h₃.isOpen⟩
    refine isOpen_follows ?_
    split
    · have hheader₃ := (hselect.steps.trans h₃.steps).notes hheader
      refine LowerM.Follows.bind (jump_draws hheader₃ (List.forall_mem_nil _)).follows ?_
      rintro _ s₄ ⟨hjump, hclosed⟩
      exact selectBlock_ends (hall.thenCloses hjump hclosed) (hjump.steps.notes hend)
    · exact selectBlock_ends hall hend

theorem Item.lowerAll_follows (F : Setting) : (items : List Item) → ∀ {visible : List Decl},
    F.AdmitsItems visible items → ∀ {s : Ir.Sketch}, F.Ready visible s →
    (Item.lowerAll F.g items).Follows (Item.lowerAll F.a items) s fun _ s' =>
      Ir.Sketch.Ends F.R (Item.requestsAll items) (Item.anyReturns items) s s'
  | [], _, _, _, hs => .pure (Ir.Sketch.Continues.refl hs.isOpen).ends
  | .decl d :: rest, _, h, s, hs => by
    obtain ⟨hdecl, hrest⟩ := h.decl
    refine Item.lowerAll_cons_follows hs ((d.lowerLocal_follows hs hdecl).mono ?_)
      fun hs' => Item.lowerAll_follows F rest hrest hs'
    rintro _ s' ⟨hends, hready⟩
    exact ⟨hends, fun _ => hready⟩
  | .stmt stmt :: rest, _, h, s, hs => by
    obtain ⟨hstmt, hrest⟩ := h.stmt
    refine Item.lowerAll_cons_follows hs ((stmt.lower_follows F hstmt hs).mono ?_)
      fun hs' => Item.lowerAll_follows F rest hrest hs'
    exact fun _ s' hends => ⟨hends, hs.of_steps hends.steps⟩

end

/-! Bodies. -/

/-- A parameter may be bound to what is passed, if it is an array, or get a slot. -/
def Setting.Takes (F : Setting) (d : Decl) : Ty → Prop
  | .array elem _ => F.R.passes d (.ptr elem.machine)
  | type => F.R.declares d type.machine ∧ (F.R.typed → type.isScalar)

theorem Setting.takes_of_untyped {d : Decl} (ht : ¬ F.R.typed)
    (hdeclares : ∀ type, F.R.declares d type) (hpasses : ∀ type, F.R.passes d type) (type : Ty) :
    F.Takes d type := by
  cases type with
  | array _ _ => exact hpasses _
  | basic _ | func _ _ => exact ⟨hdeclares _, fun h => absurd h ht⟩

/-- A parameter is stored in a slot of its own. -/
theorem LowerM.spill_draws {β : Type} {f : LowerM β} {Q : β → Ir.Sketch → Prop}
    (hs : F.Ready visible s) {d : Decl} {index : Nat} {type : Ty}
    (hparam : s.builder.params[index]? = some ⟨d.name, type.machineParam⟩)
    (hdeclares : F.R.declares d type.machine) (hscalar : F.R.typed → type.isScalar)
    (hvar : F.lexical → d.isVar)
    (hf : ∀ s₁, Ir.Sketch.Steps F.R s s₁ → F.Ready (d :: visible) s₁ → f.Draws s₁ Q) :
    (allocate (some (d.id, d.name)) type.machine >>= fun slot =>
      store (.param index type.machineParam) slot >>= fun _ => f).Draws s Q := by
  refine (allocate_some_draws hs hdeclares hvar).bind ?_
  rintro _ s₁ ⟨hslot, hs₁, hoperand, slot, rfl⟩
  have hvalue : s₁.Usable (.param index type.machineParam) :=
    .inr ⟨_, hslot.steps.kept.params ▸ hparam, rfl⟩
  refine (store_draws ⟨F.permits.isLocal _ rfl, hvalue⟩ hoperand fun ht => ?_).bind
    fun _ s₂ hstored => ?_
  · have hcarries : (Ir.Value.param index type.machineParam).Carries type := ⟨rfl, by simp⟩
    refine ⟨?_, hcarries.isOperand (hscalar ht), Ir.Value.isOperand_inst (by simp)⟩
    rw [hcarries.type_of_isScalar (hscalar ht)]
    rfl
  · exact hf s₂ (hslot.steps.trans hstored.steps) (hs₁.continue hstored)

/-- Each parameter gets a slot, or is bound to what is passed. -/
theorem Decl.spillParams_draws (params : List (Decl × Ty)) (index : Nat)
    (hparams : s.builder.params.drop index =
      params.map fun param => ⟨param.1.name, param.2.machineParam⟩)
    (htakes : ∀ param ∈ params, F.Takes param.1 param.2)
    (hvar : F.lexical → ∀ param ∈ params, param.1.isVar) (hs : F.Ready visible s) :
    (Decl.spillParams index params).Draws s fun _ s' =>
      Ir.Sketch.Steps F.R s s' ∧ F.Ready (params.map Prod.fst ++ visible) s' := by
  induction params generalizing index s visible with
  | nil => exact .pure ⟨.refl, hs⟩
  | cons param rest ih =>
    obtain ⟨d, type⟩ := param
    obtain ⟨htake, htakesRest⟩ := List.forall_mem_cons.mp htakes
    have hfirst : s.builder.params[index]? = some ⟨d.name, type.machineParam⟩ := by
      rw [← List.head?_drop, hparams]
      rfl
    have hnext : ∀ s₁, Ir.Sketch.Steps F.R s s₁ → F.Ready (d :: visible) s₁ →
        (Decl.spillParams (index + 1) rest).Draws s₁ fun _ s' => Ir.Sketch.Steps F.R s s' ∧
          F.Ready (d :: rest.map Prod.fst ++ visible) s' := by
      intro s₁ hsteps hs₁
      have hparams₁ : s₁.builder.params.drop (index + 1) =
          rest.map fun param => ⟨param.1.name, param.2.machineParam⟩ := by
        rw [hsteps.kept.params, ← List.tail_drop, hparams]
        rfl
      refine (ih (index + 1) hparams₁ htakesRest
        (fun h param hmem => hvar h param (List.mem_cons_of_mem _ hmem)) hs₁).mono ?_
      rintro _ s' ⟨hrest, hs'⟩
      exact ⟨hsteps.trans hrest, hs'.reorder List.perm_middle.symm.subset⟩
    have hparam : s.builder.param? index = some (.param index type.machineParam) := by
      rw [Ir.Builder.param?, hfirst]
      rfl
    have hisVar : F.lexical → d.isVar := fun h => hvar h _ List.mem_cons_self
    unfold Decl.spillParams
    refine Run.bind_iff.mpr (Run.get_iff.mpr ?_)
    simp only [hparam]
    cases type with
    | array elem len =>
      have hpasses : F.R.passes d (Ty.array elem len).machineParam := by
        rw [Ty.machineParam_array]
        exact htake
      have hsteps := (Ir.Sketch.Step.pass (s := s) hpasses hfirst).steps
      have hready := hs.of_steps hsteps hs.isOpen
      refine hnext _ hsteps ⟨hready.isOpen, hready.first, ?_, ?_, hready.holds, hready.result_eq⟩
      · exact hs.bound.bind d _
      · exact fun h => List.forall_mem_cons.mpr ⟨hisVar h, hs.isVar h⟩
    | basic _ | func _ _ => exact spill_draws hs hfirst htake.1 htake.2 hisVar hnext

/-- A body at its beginning: the entry block alone, with nothing known. -/
def Ir.Sketch.start (name : String) (result : MicroC.Ty) (params : List (Decl × MicroC.Ty)) :
    Ir.Sketch :=
  ⟨((Decl.startBuilder name result params).withBlock "entry").withCurrent (some 0), [], fun _ => [],
    []⟩

/-- A function body that has been lowered, by the steps of a construction. -/
def Ir.Builder.Built (R : Ir.Sketch.Rules) (name : String) (result : MicroC.Ty)
    (params : List (Decl × MicroC.Ty)) (b : Ir.Builder) : Prop :=
  ∃ s : Ir.Sketch, s.builder = b ∧ Ir.Sketch.Steps R (.start name result params) s ∧
    ∀ i, ¬ b.Unfinished i

/-- The code of a function body takes the steps of a construction from its beginning to its end,
whichever guide it goes by. -/
theorem Stmt.lowerBody_follows (name : String) (result : Ty) {params : List (Decl × Ty)}
    {body : Stmt} (hbody : F.AdmitsStmt (params.map Prod.fst) body)
    (htakes : ∀ param ∈ params, F.Takes param.1 param.2)
    (hvar : F.lexical → ∀ param ∈ params, param.1.isVar) (hfirst : F.R.first ≤ 1)
    (hinv : F.inv (Decl.startBuilder name result params))
    (hresult : F.R.typed → result = F.result) :
    body.lowerBody F.g params (Decl.startBuilder name result params) =
        body.lowerBody F.a params (Decl.startBuilder name result params) ∧
      (body.lowerBody F.a params).Ensures (Decl.startBuilder name result params) fun _ b =>
        b.Built F.R name result params := by
  have hs : F.Ready [] (.start name result params) :=
    ⟨rfl, hfirst, by simp [Ir.Builder.Binds], by simp, F.keep.congr hinv rfl, fun ht =>
      congrArg Ty.machine (hresult ht)⟩
  have hspill := Decl.spillParams_draws params 0 rfl htakes hvar hs
  rw [List.append_nil] at hspill
  have hsame : ∀ s₁, Ir.Sketch.Steps F.R (.start name result params) s₁ →
      F.Ready (params.map Prod.fst) s₁ → (body.lower F.g).Follows (body.lower F.a) s₁ fun _ s' =>
        Ir.Sketch.Steps F.R (.start name result params) s' :=
    fun s₁ hsteps hs₁ => (body.lower_follows F hbody hs₁).mono fun _ s' hends =>
      hsteps.trans hends.steps
  constructor
  · refine LowerM.bind_congr rfl (startBody_ensures rfl) ?_
    rintro _ _ rfl
    refine LowerM.bind_congr rfl hspill ?_
    rintro _ _ ⟨s₁, rfl, hsteps, hs₁⟩
    exact LowerM.bind_congr (hsame s₁ hsteps hs₁).same (hsame s₁ hsteps hs₁).draws fun _ _ _ => rfl
  · refine (startBody_ensures rfl).bind ?_
    rintro _ _ rfl
    refine LowerM.Ensures.bind hspill ?_
    rintro _ _ ⟨s₁, rfl, hsteps, hs₁⟩
    refine LowerM.Ensures.bind (hsame s₁ hsteps hs₁).draws ?_
    rintro _ _ ⟨s₂, rfl, hall⟩
    refine .build fun _ b' hop => ?_
    have hfinished := Ir.Builder.endBody_finished hop
    rcases Ir.Builder.endBody_cases hop with ⟨_, rfl⟩ | ⟨id, hid, hopen, hvoid, rfl⟩
    · exact ⟨s₂, rfl, hall, hfinished⟩
    · exact ⟨_, rfl, hall.tail (.returnNone hid hopen fun _ => hvoid), hfinished⟩

/-! What has been built. -/

theorem Decl.startBuilder_binding? (name : String) (result : Ty) (params : List (Decl × Ty))
    (id : DeclId) : (Decl.startBuilder name result params).binding? id = none := by
  simp [Decl.startBuilder, Ir.Builder.new, Ir.Builder.binding?]

/-- The entry block alone. -/
theorem Ir.Sketch.sound_start {P : Ir.Value → Prop} (name : String) (result : MicroC.Ty)
    (params : List (Decl × MicroC.Ty)) : (Ir.Sketch.start name result params).Sound P := by
  let b := Decl.startBuilder name result params
  have hnumbered : b.Numbered := by simp [Ir.Builder.Numbered, b, Decl.startBuilder, Ir.Builder.new]
  have hunique : b.Unique := by
    constructor <;> simp [Ir.Builder.insts, b, Decl.startBuilder, Ir.Builder.new]
  have hlabelled : b.Labelled := by
    constructor <;> simp [b, Decl.startBuilder, Ir.Builder.new]
  have hunique' := hunique.withBlock "entry"
  have hlabelled' : (b.withBlock "entry").Labelled := hlabelled.withBlock (by decide)
  refine ⟨hnumbered.withBlock "entry", ⟨hunique'.below, hunique'.nodup⟩,
    ⟨hlabelled'.made, hlabelled'.nodup⟩, ?_, Nat.one_pos, rfl, ?_, ?_, ?_, ?_⟩
  · intro i hi
    cases hi
    rw [start, Ir.Builder.withCurrent_unfinished, Ir.Builder.withBlock_unfinished]
    exact .inr rfl
  · exact List.forall_mem_nil _
  · intro id v hv
    have hnone : b.binding? id = some v := hv
    rw [Decl.startBuilder_binding?] at hnone
    cases hnone
  · exact fun _ _ _ _ => List.nil_subset _
  · intro i block hblock
    obtain ⟨text, hentry⟩ := b.withBlock_blocks "entry"
    rw [start, Ir.Builder.withCurrent_blocks, hentry] at hblock
    obtain rfl := List.mem_singleton.mp (List.mem_of_getElem? hblock)
    exact ⟨by simp, by simp, by simp⟩

/-- What has been built when a body is lowered. -/
structure Ir.Builder.Completed (P : Ir.Value → Prop) (b start : Ir.Builder) : Prop where
  sound : ∃ s : Ir.Sketch, s.builder = b ∧ s.Sound P
  preceded : b.Preceded
  finished : ∀ i, ¬ b.Unfinished i
  blocks_ne_nil : b.blocks ≠ []
  name : b.name = start.name
  result : b.result = start.result
  params : b.params = start.params

theorem Ir.Builder.Built.completed {R : Ir.Sketch.Rules} {name : String} {result : MicroC.Ty}
    {params : List (Decl × MicroC.Ty)} {b : Ir.Builder} (h : b.Built R name result params) :
    b.Completed R.operand (Decl.startBuilder name result params) := by
  obtain ⟨s, rfl, hsteps, hfinished⟩ := h
  have hstart : (Ir.Sketch.start name result params).Sound R.operand :=
    Ir.Sketch.sound_start name result params
  have hpreceded : (Ir.Sketch.start name result params).builder.Preceded :=
    fun j hpos hlt => absurd hlt (Nat.not_lt.mpr hpos)
  have hsound := hsteps.sound hstart
  have hkept := hsteps.kept
  refine ⟨⟨s, rfl, hsound⟩, hsteps.preceded hstart hpreceded, hfinished, ?_, hkept.name,
    hkept.result, hkept.params⟩
  exact List.ne_nil_of_length_pos hsound.nonempty

end

end MicroC
