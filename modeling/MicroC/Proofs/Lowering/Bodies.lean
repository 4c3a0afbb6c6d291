import MicroC.Lowering.Module
import MicroC.Proofs.Lowering.Statements

/-!
The code of function bodies. First the arguments for scalar parameters are stored, then the
statements of the body follow, and a function that comes to the end of its body returns.
-/

namespace MicroC

open LowerM

/-- The parameters of a function are variables inside it, each with its type. -/
structure Decl.HasParams (a : Analysis) (f : Decl) : Prop where
  isVar : ∀ param ∈ f.params a, param.1.isVar
  entered : ∀ param ∈ f.params a, .enter (.decl param.1) ∈ f.events
  types : ∀ param ∈ f.params a, a.types.decl? param.1 = some param.2
  isParam : ∀ param ∈ f.params a, param.2.isParam
  nodup : (Event.entered (Decl.eventsAll ((f.params a).map Prod.fst))).Nodup

/-- Just the array parameters are passed as they are. -/
theorem Decl.HasParams.passed_eq {a : Analysis} {f d : Decl} {type : Ty} {k : Nat}
    (h : f.HasParams a) (hk : (f.params a)[k]? = some (d, type)) :
    f.passed a d.id = if type.isArray then some k else none := by
  have hids := Decl.ids_nodup_of_entered h.nodup
  have hsame : ∀ (i : Nat) param, (f.params a)[i]? = some param → param.1.id = d.id → i = k := by
    intro i param hi hid
    refine (List.getElem?_inj ?_ hids).mp ?_
    · simpa using (List.getElem?_eq_some_iff.mp hi).1
    · simp [hi, hk, hid]
  obtain ⟨hlt, hget⟩ := List.getElem?_eq_some_iff.mp hk
  unfold Decl.passed
  split
  next harray =>
    rw [List.findIdx?_eq_some_iff_getElem]
    refine ⟨hlt, by simp [hget, harray], ?_⟩
    intro j hj
    have hne : (f.params a)[j].1.id ≠ d.id := by
      intro hid
      exact Nat.ne_of_lt hj (hsame j _ (List.getElem?_eq_getElem _) hid)
    simp [hne]
  next hscalar =>
    rw [List.findIdx?_eq_none_iff]
    intro param hparam
    obtain ⟨i, hi⟩ := List.mem_iff_getElem?.mp hparam
    by_cases hid : param.1.id = d.id
    · obtain rfl := hsame i param hi hid
      obtain rfl : (d, type) = param := Option.some.inj (hk.symm.trans hi)
      simp [hscalar]
    · simp [hid]

section

variable {p : Program} {x : Activation} {final b : Ir.Builder} {y : Ir.Activation} {f : Decl}
  {visible : List Decl}

theorem LowerM.param_computes (hb : b.Active) {index : Nat} (type : Ir.Ty)
    (hlt : index < y.args.length) :
    Computes final y (pure (.param index type)) b (fun _ => True) (fun _ _ => True)
      (fun (v : Ir.Value) r s => v.eval y s.results = r) (pure y.args[index]) :=
  .pure hb trivial fun _ _ _ _ => by simp [Ir.Value.eval, hlt]

/-- Storing the arguments for scalar parameters, from the one at `index` on. -/
theorem Decl.spillParams_executes (hx : x.Realized p final y) (hf : f.HasParams x.analysis)
    (hlength : y.args.length = (f.params x.analysis).length) (params : List (Decl × Ty))
    (index : Nat) (hdrop : (f.params x.analysis).drop index = params)
    (hparams : b.params = (f.params x.analysis).map fun param => ⟨param.1.name, param.2.machineParam⟩)
    (hnodup : (Event.entered (Decl.eventsAll (params.map Prod.fst))).Nodup)
    (hfree : ∀ id, (Family.decl, id) ∈ Event.entered (Decl.eventsAll (params.map Prod.fst)) →
      b.binding? id = none) (hb : b.Active) (hbinds : b.Binds visible) :
    (Decl.spillParams index params).Ensures b fun _ b' => b'.Active ∧
      b'.Binds (params.map Prod.fst ++ visible) ∧
      b.Advances x.analysis f (Decl.eventsAll (params.map Prod.fst)) b' ∧
      (b'.Grows final → ∀ R, Ir.Stable b.nextInst R → Ir.Translates final y b.place R
        (Decl.receive x (params.zip (y.args.drop index))) (fun _ => b'.place) fun _ => R) := by
  induction params generalizing index b visible with
  | nil => exact ⟨hb, hbinds, hb.refl.advances, fun _ R _ => .pure rfl fun _ _ _ hs => hs⟩
  | cons param rest ih =>
    obtain ⟨d, type⟩ := param
    have hfirst : (f.params x.analysis)[index]? = some (d, type) := by
      have hget := congrArg (·[0]?) hdrop
      simpa using hget
    have hmem := List.mem_of_getElem? hfirst
    have hdrop' : (f.params x.analysis).drop (index + 1) = rest := by
      rw [← List.drop_drop, hdrop]
      rfl
    have hlt : index < y.args.length := hlength ▸ (List.getElem?_eq_some_iff.mp hfirst).1
    have hkey := d.key_mem_entered
    rw [List.map_cons, Decl.eventsAll, Event.entered_append] at hnodup hfree
    obtain ⟨_, hnodup', hdisjoint⟩ := List.nodup_append.mp hnodup
    have hnew : b.binding? d.id = none := hfree d.id (List.mem_append_left _ hkey)
    have hnext : ∀ b₁, b.Advances x.analysis f d.events b₁ ∧ b₁.Active ∧ b₁.Binds (d :: visible) →
        (Decl.spillParams (index + 1) rest).Ensures b₁ fun _ b' => b'.Active ∧
          b'.Binds (d :: rest.map Prod.fst ++ visible) ∧
          b.Advances x.analysis f (d.events ++ Decl.eventsAll (rest.map Prod.fst)) b' ∧
          b₁.Grows b' ∧ (b'.Grows final → ∀ R, Ir.Stable b₁.nextInst R →
            Ir.Translates final y b₁.place R (Decl.receive x (rest.zip (y.args.drop (index + 1))))
              (fun _ => b'.place) fun _ => R) := by
      rintro b₁ ⟨h₁, hb₁, hbinds₁⟩
      refine Run.mono (ih (index + 1) hdrop' (h₁.grows.params.trans hparams) hnodup' ?_ hb₁ hbinds₁) ?_
      · intro id hid
        rw [h₁.others id fun hmem => hdisjoint _ hmem _ hid rfl]
        exact hfree id (List.mem_append_right _ hid)
      · rintro _ b' ⟨hb', hbinds', h', htranslates⟩
        exact ⟨hb', fun d' hd' => hbinds' d' (List.perm_middle.symm.subset hd'),
          (h₁.mono (by simp)).trans (h'.mono (by simp)), h'.grows, htranslates⟩
    have hvar := hf.isVar _ hmem
    have hin := hf.entered _ hmem
    have htype := hf.types _ hmem
    have hpassed := hf.passed_eq hfirst
    unfold Decl.spillParams
    refine Run.bind_iff.mpr ?_
    rw [Run.get_iff]
    simp only [Ir.Builder.param?, hparams, List.getElem?_map, hfirst, Option.map_some]
    rw [List.drop_eq_getElem_cons hlt]
    cases type with
    | array elem len =>
      have h₁ := hb.bind (Ty.array elem len).machineParam hvar hin hbinds hpassed hnew
      refine Run.mono (hnext _ h₁) ?_
      rintro _ b' ⟨hb', hbinds', h', _, htranslates⟩
      exact ⟨hb', hbinds', h', htranslates⟩
    | basic kind =>
      have hs : (Ty.basic kind).isScalar := hf.isParam _ hmem
      obtain ⟨h₁, hb₁, hbinds₁⟩ := hb.withLocal d.name hvar hin hbinds htype
        (Ty.isComplete_of_isScalar hs) hpassed hnew
      have hbinding : (b.withLocal d.id d.name (Ty.basic kind).machine).binding? d.id =
          some (.inst b.nextInst (.ptr (Ty.basic kind).machine)) := by
        rw [Ir.Builder.withLocal_binding?, if_pos rfl]
      have hstore := Decl.initialize_computes hx hb₁ (fun b₂ h₂ => LowerM.param_computes h₂.active
        (Ty.basic kind).machineParam hlt) hbinding
      rw [pure_bind, pure_bind] at hstore
      refine Run.bind_iff.mpr (allocate_some_ensures (Ensures.bind hstore ?_))
      rintro _ b₂ ⟨_, h₂, t₂⟩
      refine Run.mono (hnext b₂ ⟨h₁.trans h₂.advances, h₂.active, h₂.binds hbinds₁⟩) ?_
      rintro _ b' ⟨hb', hbinds', h', hgrows', t'⟩
      refine ⟨hb', hbinds', h', ?_⟩
      intro hgrows R hR
      have hR₁ := hR.mono h₁.grows.nextInst
      refine ((t₂ (hgrows'.trans hgrows) R hR₁).mono (fun s hs => ⟨hs, trivial⟩)
        fun _ _ hs => hs.1).bind fun _ => ?_
      exact t' hgrows R (hR₁.mono h₂.grows.nextInst)
    | func result params =>
      have hparam := hf.isParam _ hmem
      simp [Ty.isParam, Ty.isScalar] at hparam

/-- A function with its body. -/
structure Decl.Defines (a : Analysis) (f : Decl) (body : Stmt) : Prop where
  hasParams : f.HasParams a
  typed : ∃ result, body.WellTyped a result
  isScoped : body.Scoped a.resolution ((f.params a).map Prod.fst)
  inside : body.events ⊆ f.events
  nodup : (Event.entered (Decl.eventsAll ((f.params a).map Prod.fst) ++ body.events)).Nodup

/-- Nothing in the body is a parameter. -/
theorem Decl.Defines.not_passed {a : Analysis} {body : Stmt} (h : f.Defines a body) {id : DeclId}
    (hid : (Family.decl, id) ∈ Event.entered body.events) : f.passed a id = none := by
  have hnodup := h.nodup
  rw [Event.entered_append] at hnodup
  unfold Decl.passed
  rw [List.findIdx?_eq_none_iff]
  rintro ⟨d, type⟩ hparam
  have hmem : d ∈ (f.params a).map Prod.fst := List.mem_map_of_mem hparam
  have hkey := (Decl.keys_sublist_entered _).subset (List.mem_map_of_mem hmem)
  have hne : d.id ≠ id := by
    rintro rfl
    exact (List.nodup_append.mp hnodup).2.2 _ hkey _ hid rfl
  simp [hne]

/-- The state in which the code of a body begins. -/
theorem Ir.Builder.startBody_active (hblocks : b.blocks = []) (hslots : b.slots = [])
    (hbindings : ∀ id, b.binding? id = none) :
    ((b.withBlock "entry").withCurrent (some 0)).Active ∧
      ((b.withBlock "entry").withCurrent (some 0)).place = .before 0 0 := by
  obtain ⟨text, hentry⟩ := b.withBlock_blocks "entry"
  refine ⟨⟨.startBody hblocks hslots hbindings, rfl⟩, ?_⟩
  simp [place, hentry, hblocks]

/-- The code of a body, from its beginning to its returns. -/
theorem Stmt.lowerBody_executes (hx : x.Realized p final y) (ha : x.analysis.Checked p) {body : Stmt}
    (hbody : f.Defines x.analysis body) (hlength : y.args.length = (f.params x.analysis).length)
    (hparams : b.params = (f.params x.analysis).map fun param => ⟨param.1.name, param.2.machineParam⟩)
    (hblocks : b.blocks = []) (hslots : b.slots = []) (hbindings : ∀ id, b.binding? id = none) :
    (body.lowerBody x.analysis (f.params x.analysis)).Ensures b fun _ b' => b.Grows b' ∧ b'.Tidy ∧
      b'.Laid x.analysis f ∧ (∃ entry, b'.blocks[0]? = some entry) ∧
      (b'.Grows final → Ir.Translates final y (.before 0 0) (fun _ => True)
        (do Decl.receive x ((f.params x.analysis).zip y.args); body.exec x)
        (fun exit => .done exit.result) fun _ _ => True) := by
  obtain ⟨hb₁, hplace₁⟩ := Ir.Builder.startBody_active hblocks hslots hbindings
  obtain ⟨result, htyped⟩ := hbody.typed
  refine (LowerM.startBody_ensures hblocks).bind ?_
  rintro _ b₁ rfl
  have hnodup := hbody.nodup
  rw [Event.entered_append] at hnodup
  obtain ⟨_, hnodup', hdisjoint⟩ := List.nodup_append.mp hnodup
  have hnone : ((b.withBlock "entry").withCurrent (some 0)).Binds [] := by simp [Ir.Builder.Binds]
  have hspill := Decl.spillParams_executes hx hbody.hasParams hlength (f.params x.analysis) 0 rfl
    (b := (b.withBlock "entry").withCurrent (some 0)) hparams hbody.hasParams.nodup
    (fun id _ => hbindings id) hb₁ hnone
  refine hspill.bind ?_
  rintro _ b₂ ⟨hb₂, hbinds₂, h₂, t₂⟩
  rw [List.append_nil] at hbinds₂
  have hawaits : b₂.Awaits x.analysis f body.events := by
    refine ⟨hnodup', ?_, fun id hid => hbody.not_passed hid, hbody.inside⟩
    intro id hid
    rw [h₂.others id fun hmem => hdisjoint _ hmem _ hid rfl]
    exact hbindings id
  refine (Stmt.lower_executes hx ha htyped hbody.isScoped hb₂ hbinds₂ hawaits).bind ?_
  intro _ b₃ h₃
  have hlaid : b₃.Laid x.analysis f := by
    refine h₃.advances.laid (h₂.laid ?_)
    intro id v hv
    cases (hbindings id).symm.trans hv
  have hgrows₁ : b.Grows ((b.withBlock "entry").withCurrent (some 0)) :=
    (b.grows_withBlock "entry").trans (Ir.Builder.grows_withCurrent _ _)
  -- the function returns at the end of its body, if a run comes to it
  have hend : ∀ b', b₃.Grows b' → b'.Tidy → b'.bindings = b₃.bindings →
      (b'.Grows final → b₃.current.isSome → b₃.place.LeadsTo final y (.done none)) →
      b.Grows b' ∧ b'.Tidy ∧ b'.Laid x.analysis f ∧ (∃ entry, b'.blocks[0]? = some entry) ∧
      (b'.Grows final → Ir.Translates final y (.before 0 0) (fun _ => True)
        (do Decl.receive x ((f.params x.analysis).zip y.args); body.exec x)
        (fun exit => .done exit.result) fun _ _ => True) := by
    intro b' hgrows' htidy' hbindings' hstep
    have hgrows := h₂.grows.trans (h₃.advances.grows.trans hgrows')
    refine ⟨hgrows₁.trans hgrows, htidy', hlaid.of_bindings hbindings' hgrows'.slots_subset, ?_, ?_⟩
    · obtain ⟨text, hentry⟩ := b.withBlock_blocks "entry"
      obtain ⟨block, hblock, _⟩ := hgrows.blocks 0 ⟨b.blocks.length, text, [], none⟩ (by
        simp [hentry, hblocks])
      exact ⟨block, hblock⟩
    · intro hfinal
      have hafter : (Ir.Place.done none).after = fun exit => .done exit.result := by
        funext exit
        cases exit <;> rfl
      have hstable : ∀ k, Ir.Stable k fun _ => True := fun _ _ _ _ _ => trivial
      have g₃ := hgrows'.trans hfinal
      rw [← hplace₁, ← hafter]
      refine (t₂ (h₃.advances.grows.trans g₃) _ (hstable _)).bind fun _ => ?_
      exact (h₃.rejoin hb₂ g₃ (hstable _) (hstep hfinal)).mono (fun _ hs => hs)
        fun _ _ _ => trivial
  refine .build fun _ b' hop => ?_
  rcases Ir.Builder.endBody_cases hop with ⟨hclosed, rfl⟩ | ⟨id, hid, hopen, _, rfl⟩
  · exact hend b' (.refl b') h₃.advances.tidy rfl (by simp [hclosed])
  · exact hend _ hopen.grows_withTerminator (h₃.advances.tidy.withTerminator hid) rfl
      fun hfinal _ => Ir.Builder.leadsTo_ret hid hopen hfinal

end

end MicroC
