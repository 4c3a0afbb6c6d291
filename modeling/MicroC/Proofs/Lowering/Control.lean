import MicroC.Proofs.Lowering.Expressions

/-!
Control flow. The code of a statement binds the variables that are declared in it, and it ends in
an open block or, if a run cannot come to its end, in none. Branches that are left at their ends
meet in one block.
-/

namespace MicroC

open LowerM

namespace Ir.Builder

section

variable (a : Analysis) (f : Decl)

/-- What a variable of a function is bound to: an array parameter to what is passed, any other
variable to a slot of its type, which has a size. -/
def Houses (b : Builder) (d : Decl) (v : Value) : Prop :=
  match f.passed a d.id with
  | some k => ∃ type, v = .param k type
  | none => ∃ k type text, a.types.decl? d = some type ∧ type.isComplete ∧
    v = .inst k (.ptr type.machine) ∧
    ⟨k, .alloca type.machine, .ptr type.machine, some text⟩ ∈ b.slots

/-- Only variables of the function are bound. -/
def Laid (b : Builder) : Prop :=
  ∀ id v, b.binding? id = some v →
    ∃ d, d.id = id ∧ d.isVar ∧ .enter (.decl d) ∈ f.events ∧ b.Houses a f d v

/-- The declarations that a traversal enters are still to come. -/
structure Awaits (events : List Event) (b : Builder) : Prop where
  nodup : (Event.entered events).Nodup
  unbound : ∀ id, (Family.decl, id) ∈ Event.entered events → b.binding? id = none
  not_passed : ∀ id, (Family.decl, id) ∈ Event.entered events → f.passed a id = none
  inside : events ⊆ f.events

/-- The state after code that binds at most the declarations that a traversal enters. -/
structure Advances (events : List Event) (b b' : Builder) : Prop where
  tidy : b'.Tidy
  grows : b.Grows b'
  others : ∀ id, (Family.decl, id) ∉ Event.entered events → b'.binding? id = b.binding? id
  laid : b.Laid a f → b'.Laid a f

end

variable {a : Analysis} {f : Decl} {b b' b'' : Builder} {events events' : List Event}
  {visible : List Decl}

theorem Houses.mono {d : Decl} {v : Value} (h : b.Houses a f d v) (hslots : b.slots ⊆ b'.slots) :
    b'.Houses a f d v := by
  unfold Houses at h ⊢
  split at h
  · exact h
  · obtain ⟨k, type, text, htype, hcomplete, hv, hmem⟩ := h
    exact ⟨k, type, text, htype, hcomplete, hv, hslots hmem⟩

theorem Laid.of_bindings (h : b.Laid a f) (hbindings : b'.bindings = b.bindings)
    (hslots : b.slots ⊆ b'.slots) : b'.Laid a f := by
  intro id v hv
  rw [binding?, hbindings] at hv
  obtain ⟨d, hid, hvar, hin, hhouses⟩ := h id v hv
  exact ⟨d, hid, hvar, hin, hhouses.mono hslots⟩

namespace Advances

theorem trans (h : b.Advances a f events b') (h' : b'.Advances a f events b'') :
    b.Advances a f events b'' :=
  ⟨h'.tidy, h.grows.trans h'.grows, fun id hid => (h'.others id hid).trans (h.others id hid),
    fun hlaid => h'.laid (h.laid hlaid)⟩

theorem mono (h : b.Advances a f events b')
    (hsub : Event.entered events ⊆ Event.entered events') : b.Advances a f events' b' :=
  ⟨h.tidy, h.grows, fun id hid => h.others id fun hmem => hid (hsub hmem), h.laid⟩

/-- Code that binds nothing. -/
theorem of_bindings (htidy : b'.Tidy) (hgrows : b.Grows b') (hbindings : b'.bindings = b.bindings) :
    b.Advances a f events b' := by
  refine ⟨htidy, hgrows, ?_, fun h => h.of_bindings hbindings hgrows.slots_subset⟩
  intro id _
  rw [binding?, hbindings, binding?]

end Advances

theorem Extends.advances (h : b.Extends b') : b.Advances a f events b' :=
  .of_bindings h.active.tidy h.grows h.bindings

theorem Stops.advances (h : b.Stops b') : b.Advances a f events b' :=
  .of_bindings h.tidy h.grows h.bindings

theorem Grows.binds (h : b.Grows b') (hbinds : b.Binds visible) : b'.Binds visible := by
  intro d hd
  obtain ⟨v, hv⟩ := Option.isSome_iff_exists.mp (hbinds d hd)
  rw [h.bindings d.id v hv]
  rfl

/-- A variable of the function is bound and becomes visible. -/
theorem Active.insert (hb : b.Active) {d : Decl} {v : Value} (hvar : d.isVar)
    (hin : .enter (.decl d) ∈ f.events) (hbinds : b.Binds visible) (htidy : b'.Tidy)
    (hgrows : b.Grows b') (hcurrent : b'.current = b.current)
    (hbindings : ∀ id, b'.binding? id = if d.id = id then some v else b.binding? id)
    (hhouses : b'.Houses a f d v) :
    b.Advances a f d.events b' ∧ b'.Active ∧ b'.Binds (d :: visible) := by
  refine ⟨⟨htidy, hgrows, ?_, ?_⟩, ⟨htidy, hcurrent ▸ hb.isOpen⟩, ?_⟩
  · intro id hid
    rw [hbindings, if_neg]
    rintro rfl
    exact hid d.key_mem_entered
  · intro hlaid id w hw
    rw [hbindings] at hw
    split at hw
    next hid =>
      cases hw
      exact ⟨d, hid, hvar, hin, hhouses⟩
    · obtain ⟨d', hid, hvar', hin', hhouses'⟩ := hlaid id w hw
      exact ⟨d', hid, hvar', hin', hhouses'.mono hgrows.slots_subset⟩
  · intro d' hd'
    rcases List.mem_cons.mp hd' with rfl | hold
    · simp [hbindings]
    · exact hgrows.binds hbinds d' hold

/-- A variable gets a slot of its type. -/
theorem Active.withLocal (hb : b.Active) {d : Decl} {type : MicroC.Ty} (name : String)
    (hvar : d.isVar) (hin : .enter (.decl d) ∈ f.events) (hbinds : b.Binds visible)
    (htype : a.types.decl? d = some type) (hcomplete : type.isComplete)
    (hpassed : f.passed a d.id = none) (hnew : b.binding? d.id = none) :
    b.Advances a f d.events (b.withLocal d.id name type.machine) ∧
      (b.withLocal d.id name type.machine).Active ∧
      (b.withLocal d.id name type.machine).Binds (d :: visible) := by
  obtain ⟨text, hslots⟩ := @withLocal_slots b d.id name type.machine
  refine hb.insert hvar hin hbinds (hb.tidy.withLocal hnew name type.machine) (b.grows_withLocal hnew)
    rfl withLocal_binding? ?_
  rw [Houses, hpassed]
  exact ⟨b.nextInst, type, text, htype, hcomplete, rfl, by simp [hslots]⟩

/-- An array parameter is what is passed. -/
theorem Active.bind (hb : b.Active) {d : Decl} {index : Nat} (type : Ty) (hvar : d.isVar)
    (hin : .enter (.decl d) ∈ f.events) (hbinds : b.Binds visible)
    (hpassed : f.passed a d.id = some index) (hnew : b.binding? d.id = none) :
    b.Advances a f d.events (b.bind d.id (.param index type)) ∧
      (b.bind d.id (.param index type)).Active ∧
      (b.bind d.id (.param index type)).Binds (d :: visible) := by
  refine hb.insert hvar hin hbinds (hb.tidy.bind hnew index type) (b.grows_bind hnew) rfl
    (binding?_bind d.id _) ?_
  rw [Houses, hpassed]
  exact ⟨type, rfl⟩

namespace Awaits

theorem around {n : Node} (h : b.Awaits a f (n.around events)) : b.Awaits a f events := by
  obtain ⟨hnodup, hunbound, hpassed, hinside⟩ := h
  rw [Event.entered_around] at hnodup hunbound hpassed
  refine ⟨hnodup.of_cons, fun id hid => hunbound id (List.mem_cons_of_mem _ hid),
    fun id hid => hpassed id (List.mem_cons_of_mem _ hid), fun event hevent => hinside ?_⟩
  simp [Node.around, hevent]

theorem left (h : b.Awaits a f (events ++ events')) : b.Awaits a f events := by
  obtain ⟨hnodup, hunbound, hpassed, hinside⟩ := h
  rw [Event.entered_append] at hnodup hunbound hpassed
  exact ⟨(List.nodup_append.mp hnodup).1, fun id hid => hunbound id (List.mem_append_left _ hid),
    fun id hid => hpassed id (List.mem_append_left _ hid),
    fun event hevent => hinside (List.mem_append_left _ hevent)⟩

/-- After the first part of a traversal the rest of it is to come. -/
theorem after (h : b.Awaits a f (events ++ events')) (hadvances : b.Advances a f events b') :
    b'.Awaits a f events' := by
  obtain ⟨hnodup, hunbound, hpassed, hinside⟩ := h
  rw [Event.entered_append] at hnodup hunbound hpassed
  obtain ⟨_, hnodup', hdisjoint⟩ := List.nodup_append.mp hnodup
  refine ⟨hnodup', ?_, fun id hid => hpassed id (List.mem_append_right _ hid),
    fun event hevent => hinside (List.mem_append_right _ hevent)⟩
  intro id hid
  rw [hadvances.others id fun hmem => hdisjoint _ hmem _ hid rfl]
  exact hunbound id (List.mem_append_right _ hid)

end Awaits

end Ir.Builder

section

variable (final : Ir.Builder) (y : Ir.Activation) (a : Analysis) (f : Decl)

/-- The code between two states has the effect of a statement. If it is left at its end, then the
cursor is open there. -/
structure Ir.Executed (events : List Event) (b : Ir.Builder) (E : Action Exit)
    (b' : Ir.Builder) : Prop where
  advances : b.Advances a f events b'
  translates : b'.Grows final → ∀ R, Ir.Stable b.nextInst R →
    Ir.Translates final y b.place (fun s => b.current.isSome ∧ R s) E b'.place.after
      fun exit s => exit = .next → b'.current.isSome ∧ R s

/-- The code that `m` emits has the effect of a statement. -/
def LowerM.Executes (events : List Event) (m : LowerM Unit) (b : Ir.Builder) (E : Action Exit) :
    Prop :=
  m.Ensures b fun _ b' => Ir.Executed final y a f events b E b'

end

section

variable {final : Ir.Builder} {y : Ir.Activation} {a : Analysis} {f : Decl} {b : Ir.Builder}
  {events events' : List Event} {m m' : LowerM Unit} {E E' : Action Exit}

namespace LowerM.Executes

theorem mono (hm : Executes final y a f events m b E)
    (hsub : Event.entered events ⊆ Event.entered events') : Executes final y a f events' m b E := by
  refine Run.mono hm ?_
  intro _ b' h
  exact ⟨h.advances.mono hsub, h.translates⟩

/-- Statements one after the other. -/
theorem seq {K : Ir.Builder → Prop}
    (hm : m.Ensures b fun _ b' => K b' ∧ Ir.Executed final y a f events b E b')
    (hm' : ∀ b₁, K b₁ → b.Advances a f events b₁ → Executes final y a f events' m' b₁ E') :
    Executes final y a f (events ++ events') (do m; m') b (do
      match ← E with
      | .next => E'
      | .ret value => return .ret value) := by
  refine Ensures.bind hm ?_
  rintro _ b₁ ⟨hb₁, h⟩
  refine Run.mono (hm' b₁ hb₁ h.advances) ?_
  intro _ b₂ h'
  refine ⟨(h.advances.mono (by simp)).trans (h'.advances.mono (by simp)), ?_⟩
  intro hgrows R hR
  refine (h.translates (h'.advances.grows.trans hgrows) R hR).bind fun exit => ?_
  cases exit with
  | next =>
    exact (h'.translates hgrows R (hR.mono h.advances.grows.nextInst)).mono (fun s hs => hs rfl)
      fun _ _ h => h
  | ret value => exact .pure rfl (by simp)

/-- Nothing is emitted at a place that is not reached. -/
theorem ifOpen (hb : b.Tidy) (hm : b.Active → Executes final y a f events m b E) :
    Executes final y a f events (do if ← isOpen then m else return ()) b E := by
  refine isOpen_bind_iff.mpr ?_
  split
  next hopen => exact hm ⟨hb, hopen⟩
  next hclosed =>
    refine ⟨.of_bindings hb (.refl b) rfl, ?_⟩
    intro _ R _
    exact .of_false fun s hs => hclosed hs.1

/-- A statement without code. -/
theorem nothing (hb : b.Tidy) : Executes final y a f events (pure ()) b (pure .next) :=
  ⟨.of_bindings hb (.refl b) rfl, fun _ _ _ => .pure rfl fun _ _ _ hs _ => hs⟩

/-- A computation whose result is not needed. -/
theorem of_computes {α β : Type} {m : LowerM α} {Fits : α → Ir.Builder → Prop}
    {Rep : α → β → Ir.State → Prop} {E : Action β}
    (hm : Computes final y m b (fun _ => True) Fits Rep E) :
    Executes final y a f events (discard m) b (do
      let _ ← E
      return .next) := by
  refine Run.discard_iff.mpr (Run.mono hm ?_)
  rintro v b₁ ⟨_, hext, htranslates⟩
  refine ⟨hext.advances, ?_⟩
  intro hgrows R hR
  refine ((htranslates hgrows R hR).mono (fun s hs => ⟨hs.2, trivial⟩) fun _ _ h => h).bind ?_
  intro r
  exact .pure rfl fun M s _ hs _ => ⟨hext.active.isOpen, hs.1⟩

end LowerM.Executes

/-- A branch whose end, if a run comes to it, leads on to another place. -/
theorem Ir.Executed.rejoin {b' : Ir.Builder} {next : Ir.Place}
    (h : Ir.Executed final y a f events b E b') (hb : b.Active) (hgrows : b'.Grows final)
    {R : Ir.State → Prop} (hR : Ir.Stable b.nextInst R)
    (hstep : b'.current.isSome → b'.place.LeadsTo final y next) :
    Ir.Translates final y b.place R E next.after fun exit s => exit = .next →
      b'.current.isSome ∧ R s :=
  ((h.translates hgrows R hR).mono (fun _ hs => ⟨hb.isOpen, hs⟩) fun _ _ h => h).rejoin
    fun _ hs => ⟨hs, hstep hs.1⟩

/-- A condition that chooses between two new blocks. -/
theorem LowerM.test_ensures {cond : LowerM Ir.Value} {C : Action Datum}
    {Fits : Ir.Value → Ir.Builder → Prop} (trueLabel falseLabel : String)
    {k : Ir.BlockId → Ir.BlockId → LowerM Unit} {Q : Unit → Ir.Builder → Prop}
    (hcond : Computes final y cond b (fun _ => True) Fits (fun v r => v.Holds final y r) C)
    (hk : ∀ onTrue onFalse b', onTrue ≠ 0 → onFalse ≠ 0 → b.Stops b' →
      (b'.Grows final → ∀ R, Ir.Stable b.nextInst R →
        Ir.Translates final y b.place R C.test
          (fun holds => if holds then .before onTrue 0 else .before onFalse 0) fun _ => R) →
      (k onTrue onFalse).Ensures b' Q) :
    Ensures (do
      let cond ← cond
      let onTrue ← newBlock trueLabel
      let onFalse ← newBlock falseLabel
      terminate (.condBr cond onTrue onFalse)
      k onTrue onFalse) b Q := by
  refine Ensures.bind hcond ?_
  rintro v b₁ ⟨_, h₁, t₁⟩
  refine Ensures.bind (newBlock_step trueLabel h₁.active) ?_
  rintro onTrue b₂ ⟨htrue, h₂, hplace₂⟩
  refine Ensures.bind (newBlock_step falseLabel h₂.active) ?_
  rintro onFalse b₃ ⟨hfalse, h₃, hplace₃⟩
  refine Ensures.bind (condBr_step final y v onTrue onFalse h₃.active.tidy) ?_
  rintro _ b₄ ⟨h₄, t₄⟩
  refine hk onTrue onFalse b₄ htrue hfalse ((h₁.trans (h₂.trans h₃)).stops h₄) ?_
  intro hgrows R hR
  have g₁ := (h₂.trans h₃).grows.trans (h₄.grows.trans hgrows)
  refine ((t₁ g₁ R hR).mono (fun s hs => ⟨hs, trivial⟩) fun _ _ h => h).bind fun d => ?_
  rw [← hplace₂, ← hplace₃]
  refine (t₄ htrue hfalse hgrows _ d fun s hs => hs.2.1).bind fun n => ?_
  refine .pure ?_ fun _ _ _ hs => hs.1.1
  by_cases hn : n = 0 <;> simp [hn]

/-- The end of a branch leads to the block where the branches meet, which is there if any of them
needs it. -/
theorem Stmt.joinBranch_step (final : Ir.Builder) (y : Ir.Activation) (merge : Option Ir.BlockId) (hb : b.Tidy)
    (hmerge : ∀ target ∈ merge, target ≠ 0) :
    (Stmt.joinBranch merge).Ensures b fun merge' b' => b.Stops b' ∧ (∀ target ∈ merge', target ≠ 0) ∧
      (∀ target ∈ merge, merge' = some target) ∧ (b.current.isSome → merge'.isSome) ∧
      (b'.Grows final → b.current.isSome → ∀ target ∈ merge',
        b.place.LeadsTo final y (.before target 0)) := by
  have hjump : ∀ target b₁, target ≠ 0 → b.Extends b₁ → b₁.place = b.place →
      (terminate (.br target)).Ensures b₁ fun _ b' => b.Stops b' ∧
        (b'.Grows final → b.place.LeadsTo final y (.before target 0)) := by
    intro target b₁ htarget h₁ hplace
    refine Run.mono (br_step final y target h₁.active.tidy) ?_
    rintro _ b' ⟨hstops, hstep⟩
    exact ⟨h₁.stops hstops, hplace ▸ hstep htarget⟩
  refine isOpen_bind_iff.mpr ?_
  split
  next hopen =>
    cases merge with
    | some target =>
      have hactive : b.Active := ⟨hb, hopen⟩
      refine Run.bind_iff.mpr (Run.pure_iff.mpr ?_)
      refine Ensures.bind (hjump target b (hmerge target rfl) hactive.refl rfl) ?_
      rintro _ b' ⟨hstops, hstep⟩
      exact ⟨hstops, hmerge, fun _ h => h, fun _ => rfl, fun hgrows _ t ht =>
        Option.some.inj ht ▸ hstep hgrows⟩
    | none =>
      refine Ensures.bind (newBlock_step "if.end" ⟨hb, hopen⟩) ?_
      rintro target b₁ ⟨htarget, h₁, hplace⟩
      refine Ensures.bind (hjump target b₁ htarget h₁ hplace) ?_
      rintro _ b' ⟨hstops, hstep⟩
      refine ⟨hstops, ?_, by simp, fun _ => rfl, fun hgrows _ t ht => Option.some.inj ht ▸ hstep hgrows⟩
      intro t ht
      exact Option.some.inj ht ▸ htarget
  next hclosed =>
    have hnone : b.current = none := by simpa using hclosed
    exact ⟨⟨hb, hnone, .refl b, rfl⟩, hmerge, fun _ h => h, by simp [hnone], by simp [hnone]⟩

variable {cond : LowerM Ir.Value} {C : Action Datum} {Fits : Ir.Value → Ir.Builder → Prop}

/-- A branch that may be left out. -/
theorem LowerM.branch_executes
    (hcond : Computes final y cond b (fun _ => True) Fits (fun v r => v.Holds final y r) C)
    (hm : ∀ b₁, b.Extends b₁ → Executes final y a f events m b₁ E) :
    Executes final y a f events (do
      let cond ← cond
      let thenBlock ← newBlock "if.then"
      let endBlock ← newBlock "if.end"
      terminate (.condBr cond thenBlock endBlock)
      selectBlock thenBlock
      m
      let _ ← Stmt.joinBranch (some endBlock)
      selectBlock endBlock) b (do
      if ← C.test then E else return .next) := by
  refine test_ensures "if.then" "if.end" hcond ?_
  intro thenBlock endBlock b₁ _ hend h₁ t₁
  refine Ensures.bind (selectBlock_step thenBlock h₁.tidy h₁.closed) ?_
  rintro _ b₂ ⟨h₂, hplace₂⟩
  have e₂ := h₁.extends h₂
  refine Ensures.bind (hm b₂ e₂) ?_
  intro _ b₃ h₃
  refine Ensures.bind (Stmt.joinBranch_step final y (some endBlock) h₃.advances.tidy (by simp [hend])) ?_
  rintro merge b₄ ⟨h₄, _, hmerge, _, t₄⟩
  obtain rfl := hmerge endBlock rfl
  refine Run.mono (selectBlock_step endBlock h₄.tidy h₄.closed) ?_
  rintro _ b₅ ⟨h₅, hplace₅⟩
  have e₅ := h₄.extends h₅
  refine ⟨(e₂.advances.trans h₃.advances).trans e₅.advances, ?_⟩
  intro hgrows R hR
  have g₄ := h₅.grows.trans hgrows
  have g₃ := h₄.grows.trans g₄
  have g₁ := h₂.grows.trans (h₃.advances.grows.trans g₃)
  refine ((t₁ g₁ R hR).mono (fun s hs => hs.2) fun _ _ h => h).bind fun holds => ?_
  rw [hplace₅]
  cases holds with
  | true =>
    rw [if_pos rfl, if_pos rfl, ← hplace₂]
    exact (h₃.rejoin h₂.active g₃ (hR.mono e₂.grows.nextInst)
      fun hopen => t₄ g₄ hopen endBlock rfl).mono (fun _ hs => hs)
      fun _ _ hs hexit => ⟨h₅.active.isOpen, (hs hexit).2⟩
  | false => exact .pure rfl fun _ _ _ hs _ => ⟨h₅.active.isOpen, hs⟩

/-- Two branches, of which one or both may not be left at their ends. -/
theorem LowerM.branchElse_executes
    (hcond : Computes final y cond b (fun _ => True) Fits (fun v r => v.Holds final y r) C)
    (hm : ∀ b₁, b.Extends b₁ → Executes final y a f events m b₁ E)
    (hm' : ∀ b₁, b.Advances a f events b₁ → b₁.Active → Executes final y a f events' m' b₁ E') :
    Executes final y a f (events ++ events') (do
      let cond ← cond
      let thenBlock ← newBlock "if.then"
      let elseBlock ← newBlock "if.else"
      terminate (.condBr cond thenBlock elseBlock)
      selectBlock thenBlock
      m
      let merge ← Stmt.joinBranch none
      selectBlock elseBlock
      m'
      match ← Stmt.joinBranch merge with
      | some endBlock => selectBlock endBlock
      | none => return ()) b (do
      if ← C.test then E else E') := by
  refine test_ensures "if.then" "if.else" hcond ?_
  intro thenBlock elseBlock b₁ _ _ h₁ t₁
  refine Ensures.bind (selectBlock_step thenBlock h₁.tidy h₁.closed) ?_
  rintro _ b₂ ⟨h₂, hplace₂⟩
  have e₂ := h₁.extends h₂
  refine Ensures.bind (hm b₂ e₂) ?_
  intro _ b₃ h₃
  refine Ensures.bind (Stmt.joinBranch_step final y none h₃.advances.tidy (by simp)) ?_
  rintro merge b₄ ⟨h₄, hmerge₄, _, hopen₄, t₄⟩
  refine Ensures.bind (selectBlock_step elseBlock h₄.tidy h₄.closed) ?_
  rintro _ b₅ ⟨h₅, hplace₅⟩
  have e₅ := h₄.extends h₅
  have a₅ : b.Advances a f events b₅ := (e₂.advances.trans h₃.advances).trans e₅.advances
  refine Ensures.bind (hm' b₅ a₅ h₅.active) ?_
  intro _ b₆ h₆
  refine Ensures.bind (Stmt.joinBranch_step final y merge h₆.advances.tidy hmerge₄) ?_
  rintro merge' b₇ ⟨h₇, _, hmerge₇, hopen₇, t₇⟩
  have a₇ : b.Advances a f (events ++ events') b₇ :=
    ((a₅.mono (by simp)).trans (h₆.advances.mono (by simp))).trans h₇.advances
  -- where the branches meet, if they do
  have hboth : ∀ b', b₇.Grows b' → b.Advances a f (events ++ events') b' →
      (∀ target ∈ merge', b'.current.isSome ∧ b'.place = .before target 0) →
      Ir.Executed final y a f (events ++ events') b (do if ← C.test then E else E') b' := by
    intro b' hgrows' hadvances hmeet
    refine ⟨hadvances, ?_⟩
    intro hgrows R hR
    have g₇ := hgrows'.trans hgrows
    have g₆ := h₇.grows.trans g₇
    have g₄ := h₅.grows.trans (h₆.advances.grows.trans g₆)
    have g₃ := h₄.grows.trans g₄
    have g₁ := h₂.grows.trans (h₃.advances.grows.trans g₃)
    have hmeet₃ : b₃.current.isSome → b'.current.isSome ∧ b₃.place.LeadsTo final y b'.place := by
      intro hopen
      obtain ⟨target, rfl⟩ := Option.isSome_iff_exists.mp (hopen₄ hopen)
      obtain ⟨hcurrent, hplace⟩ := hmeet target (hmerge₇ target rfl)
      exact ⟨hcurrent, hplace ▸ t₄ g₄ hopen target rfl⟩
    have hmeet₆ : b₆.current.isSome → b'.current.isSome ∧ b₆.place.LeadsTo final y b'.place := by
      intro hopen
      obtain ⟨target, htarget⟩ := Option.isSome_iff_exists.mp (hopen₇ hopen)
      obtain ⟨hcurrent, hplace⟩ := hmeet target htarget
      exact ⟨hcurrent, hplace ▸ t₇ g₇ hopen target htarget⟩
    refine ((t₁ g₁ R hR).mono (fun s hs => hs.2) fun _ _ h => h).bind fun holds => ?_
    cases holds with
    | true =>
      rw [if_pos rfl, if_pos rfl, ← hplace₂]
      exact (h₃.rejoin h₂.active g₃ (hR.mono e₂.grows.nextInst) fun hopen => (hmeet₃ hopen).2).mono
        (fun _ hs => hs) fun _ _ hs hexit => ⟨(hmeet₃ (hs hexit).1).1, (hs hexit).2⟩
    | false =>
      rw [if_neg Bool.false_ne_true, if_neg Bool.false_ne_true, ← hplace₅]
      exact (h₆.rejoin h₅.active g₆ (hR.mono a₅.grows.nextInst) fun hopen => (hmeet₆ hopen).2).mono
        (fun _ hs => hs) fun _ _ hs hexit => ⟨(hmeet₆ (hs hexit).1).1, (hs hexit).2⟩
  cases merge' with
  | none => exact hboth b₇ (.refl b₇) a₇ (by simp)
  | some endBlock =>
    refine Run.mono (selectBlock_step endBlock h₇.tidy h₇.closed) ?_
    rintro _ b₈ ⟨h₈, hplace₈⟩
    refine hboth b₈ h₈.grows (a₇.trans h₈.advances) ?_
    intro target htarget
    cases htarget
    exact ⟨h₈.active.isOpen, hplace₈⟩

/-- A return leaves the cursor closed. -/
theorem LowerM.ret_executes (hb : b.Active) :
    Executes final y a f events (terminate (.ret none)) b (pure (.ret none)) := by
  refine Run.mono (terminate_step _ hb.tidy) ?_
  rintro _ b₁ ⟨h₁, id, hid, hopen, rfl⟩
  refine ⟨h₁.advances, ?_⟩
  intro hgrows R hR
  exact .step (Ir.Builder.leadsTo_ret hid hopen hgrows) (.pure rfl (by simp))

theorem LowerM.retValue_executes
    (hvalue : Computes final y cond b (fun _ => True) Fits (fun v r => v.Holds final y r) C) :
    Executes final y a f events (do
      let value ← cond
      terminate (.ret (some value))) b (do
      let value ← C
      return .ret (some (← value.toInt))) := by
  refine Ensures.bind hvalue ?_
  rintro v b₁ ⟨_, h₁, t₁⟩
  refine Run.mono (terminate_step _ h₁.active.tidy) ?_
  rintro _ b₂ ⟨h₂, id, hid, hopen, rfl⟩
  refine ⟨h₁.advances.trans h₂.advances, ?_⟩
  intro hgrows R hR
  refine ((t₁ (h₂.grows.trans hgrows) R hR).mono (fun s hs => ⟨hs.2, trivial⟩)
    fun _ _ h => h).bind fun d => ?_
  refine (Ir.Translates.ret hid hopen hgrows fun s hs => hs.2.1).bind fun n => ?_
  exact .pure rfl (by simp)

/-- A loop. Its code ends in the block after it, also if the body cannot be left at its end. -/
theorem LowerM.loop_executes (hb : b.Active)
    (hcond : ∀ b₁, b.Extends b₁ →
      Computes final y cond b₁ (fun _ => True) Fits (fun v r => v.Holds final y r) C)
    (hm : ∀ b₁, b.Extends b₁ → Executes final y a f events m b₁ E) :
    Executes final y a f events (do
      let header ← newBlock "while.cond"
      terminate (.br header)
      selectBlock header
      let cond ← cond
      let bodyBlock ← newBlock "while.body"
      let endBlock ← newBlock "while.end"
      terminate (.condBr cond bodyBlock endBlock)
      selectBlock bodyBlock
      m
      if ← isOpen then terminate (.br header)
      selectBlock endBlock) b (Action.loop C.test E) := by
  refine Ensures.bind (newBlock_step "while.cond" hb) ?_
  rintro header b₁ ⟨hheader, h₁, hplace₁⟩
  refine Ensures.bind (br_step final y header h₁.active.tidy) ?_
  rintro _ b₂ ⟨h₂, t₂⟩
  refine Ensures.bind (selectBlock_step header h₂.tidy h₂.closed) ?_
  rintro _ b₃ ⟨h₃, hplace₃⟩
  have e₃ : b.Extends b₃ := (h₁.stops h₂).extends h₃
  refine test_ensures "while.body" "while.end" (hcond b₃ e₃) ?_
  intro bodyBlock endBlock b₄ _ _ h₄ t₄
  refine Ensures.bind (selectBlock_step bodyBlock h₄.tidy h₄.closed) ?_
  rintro _ b₅ ⟨h₅, hplace₅⟩
  have e₅ : b.Extends b₅ := e₃.trans (h₄.extends h₅)
  refine Ensures.bind (hm b₅ e₅) ?_
  intro _ b₆ h₆
  -- after the way back to the header
  have hlast : ∀ b₇, b₆.Stops b₇ → (b₇.Grows final → b₆.current.isSome →
      b₆.place.LeadsTo final y (.before header 0)) →
      (selectBlock endBlock).Ensures b₇ fun _ b' =>
        Ir.Executed final y a f events b (Action.loop C.test E) b' := by
    intro b₇ h₇ t₇
    refine Run.mono (selectBlock_step endBlock h₇.tidy h₇.closed) ?_
    rintro _ b₈ ⟨h₈, hplace₈⟩
    refine ⟨(e₅.advances.trans h₆.advances).trans (h₇.extends h₈).advances, ?_⟩
    intro hgrows R hR
    have g₇ := h₈.grows.trans hgrows
    have g₆ := h₇.grows.trans g₇
    have g₄ := h₅.grows.trans (h₆.advances.grows.trans g₆)
    have g₂ := h₃.grows.trans (h₄.grows.trans g₄)
    have htest : Ir.Translates final y (.before header 0) R C.test
        (fun holds => if holds then .before bodyBlock 0 else .before endBlock 0) fun _ => R :=
      hplace₃ ▸ t₄ g₄ R (hR.mono e₃.grows.nextInst)
    have hbody : Ir.Translates final y (.before bodyBlock 0) R E b₆.place.after fun exit s =>
        exit = .next → b₆.current.isSome ∧ R s :=
      hplace₅ ▸ (h₆.translates g₆ R (hR.mono e₅.grows.nextInst)).mono
        (fun s hs => ⟨h₅.active.isOpen, hs⟩) fun _ _ h => h
    rw [hplace₈, ← hplace₁]
    refine .step (t₂ hheader g₂) (.mono (.loop htest hbody ?_) (fun s hs => hs.2)
      fun _ _ hs hexit => ⟨h₈.active.isOpen, hs hexit⟩)
    intro s hs
    exact ⟨(hs rfl).2, t₇ g₇ (hs rfl).1⟩
  refine isOpen_bind_iff.mpr ?_
  split
  · refine Ensures.bind (br_step final y header h₆.advances.tidy) ?_
    rintro _ b₇ ⟨h₇, t₇⟩
    exact hlast b₇ h₇ fun hgrows _ => t₇ hheader hgrows
  next hclosed =>
    have hnone : b₆.current = none := by simpa using hclosed
    exact hlast b₆ ⟨h₆.advances.tidy, hnone, .refl b₆, rfl⟩ (by simp [hnone])

end

end MicroC
