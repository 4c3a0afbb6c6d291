import MicroC.Proofs.Lowering.Allotment
import MicroC.Proofs.Lowering.Contents

/-!
The stack slots of a lowered function. First each scalar parameter has a slot, into which it is
stored, and then each variable and each `&&` of the body has one. All of them are made once, at the
head of the entry; a slot for a variable has the type of the variable and is bound to it, and the
value of a parameter is there before anything else is done with its slot.
-/

namespace MicroC

open LowerM

/-- The parameters that are no arrays, with their positions. -/
def Decl.scalarParams : Nat → List (Decl × Ty) → List (Nat × Decl)
  | _, [] => []
  | index, (_, .array ..) :: rest => Decl.scalarParams (index + 1) rest
  | index, (d, _) :: rest => (index, d) :: Decl.scalarParams (index + 1) rest

section

variable {a : Analysis} {start b : Ir.Builder} {requests : List (Option Decl)}

theorem Ir.Builder.Allots.restart (h : start.Allots a requests b) : b.Allots a requests b := by
  obtain ⟨_, entry, _, hentry, _⟩ := h.entry
  exact ⟨h.length, h.serves, h.bound, h.plain, List.prefix_refl _, entry, entry, hentry, hentry,
    List.prefix_refl _⟩

/-- A declaration without a slot may be bound to anything. -/
theorem Ir.Builder.Allots.bind (h : start.Allots a requests b) {d : Decl}
    (hd : ∀ d', some d' ∈ requests → d'.id ≠ d.id) (v : Ir.Value) :
    start.Allots a requests (b.bind d.id v) := by
  refine ⟨h.length, h.serves, ?_, h.plain, h.slots, h.entry⟩
  intro hnodup d' slot hmem
  rw [Ir.Builder.binding?_bind, if_neg (hd d' (List.of_mem_zip hmem).1).symm]
  exact h.bound hnodup d' slot hmem

/-- Some parameters have been stored into their slots, which is all that the entry does so far. -/
structure Ir.Builder.Spilled (a : Analysis) (scalars : List (Nat × Decl))
    (spills : List Ir.Instruction) (b : Ir.Builder) : Prop where
  allots : b.Allots a (scalars.map fun param => some param.2) b
  current : b.current = some 0
  entry : ∃ entry, b.blocks[0]? = some entry ∧ entry.insts = spills
  length : spills.length = scalars.length
  stores : ∀ (m : Nat) (spill : Ir.Instruction), spills[m]? = some spill →
    ∃ param slot, scalars[m]? = some param ∧ b.slots[m]? = some slot ∧ spill.Spills param.1 slot

/-- One more parameter is stored. -/
theorem Ir.Builder.Spilled.add {b' : Ir.Builder} {scalars : List (Nat × Decl)} {param : Nat × Decl}
    {spills : List Ir.Instruction} {slot spill : Ir.Instruction} (h : b.Spilled a scalars spills)
    (hallots : b.Allots a ((scalars.map fun param => some param.2) ++ [some param.2]) b')
    (hcurrent : b'.current = some 0) (hslots : b'.slots = b.slots ++ [slot])
    (hentry : ∃ entry, b'.blocks[0]? = some entry ∧ entry.insts = spills ++ [spill])
    (hspill : spill.Spills param.1 slot) :
    b'.Spilled a (scalars ++ [param]) (spills ++ [spill]) := by
  have hlength : b.slots.length = spills.length := by
    rw [← h.allots.length, List.length_map, h.length]
  refine ⟨?_, hcurrent, hentry, by simp [h.length], ?_⟩
  · rw [List.map_append]
    exact hallots.restart
  · intro m spill' hspill'
    rw [hslots]
    by_cases hm : m < spills.length
    · rw [List.getElem?_append_left hm] at hspill'
      obtain ⟨param', slot', hparam', hslot', hstores⟩ := h.stores m spill' hspill'
      refine ⟨param', slot', ?_, ?_, hstores⟩
      · rw [List.getElem?_append_left (h.length ▸ hm)]
        exact hparam'
      · rw [List.getElem?_append_left (hlength ▸ hm)]
        exact hslot'
    · have hlast : m = spills.length := by
        have hlt := (List.getElem?_eq_some_iff.mp hspill').1
        rw [List.length_append, List.length_singleton] at hlt
        omega
      subst hlast
      rw [List.getElem?_concat_length] at hspill'
      cases hspill'
      refine ⟨param, slot, ?_, ?_, hspill⟩
      · rw [h.length, List.getElem?_concat_length]
      · rw [← hlength, List.getElem?_concat_length]

/-- The code for a scalar parameter. -/
theorem Ir.Builder.Spilled.store {scalars : List (Nat × Decl)} {spills : List Ir.Instruction}
    (h : b.Spilled a scalars spills) {d : Decl} {type : MicroC.Ty}
    (hknown : a.types.decl? d = some type) (index : Nat) (paramType : Ir.Ty) :
    ∃ spills', ((b.withLocal d.id d.name type.machine).withInst 0
      (.store (.param index paramType) (.inst b.nextInst (.ptr type.machine))) .void none).Spilled a
        (scalars ++ [(index, d)]) spills' := by
  obtain ⟨entry, hentry, hinsts⟩ := h.entry
  obtain ⟨text, hslots⟩ := @Ir.Builder.withLocal_slots b d.id d.name type.machine
  let spill : Ir.Instruction := ⟨b.nextInst + 1,
    .store (.param index paramType) (.inst b.nextInst (.ptr type.machine)), .void, none⟩
  refine ⟨spills ++ [spill], h.add ((h.allots.withLocal hknown d.name).withInst rfl) h.current hslots
    ⟨{ entry with insts := entry.insts ++ [spill] }, ?_, ?_⟩ ⟨paramType, rfl⟩⟩
  · rw [Ir.Builder.withInst_getElem?, Ir.Builder.withLocal_blocks, hentry]
    rfl
  · rw [hinsts]

theorem Decl.spillParams_spilled {params : List (Decl × Ty)} {index : Nat}
    {scalars : List (Nat × Decl)} {spills : List Ir.Instruction} (h : b.Spilled a scalars spills)
    (htypes : ∀ param ∈ params, a.types.decl? param.1 = some param.2)
    (hids : (scalars.map (·.2.id) ++ params.map (·.1.id)).Nodup)
    (hlength : index + params.length ≤ b.params.length) :
    (Decl.spillParams index params).Ensures b fun _ b' =>
      ∃ spills', b'.Spilled a (scalars ++ Decl.scalarParams index params) spills' := by
  induction params generalizing index b scalars spills with
  | nil =>
    rw [Decl.scalarParams, List.append_nil]
    exact ⟨spills, h⟩
  | cons param rest ih =>
    obtain ⟨d, type⟩ := param
    rw [List.length_cons] at hlength
    have hlength' : index + 1 + rest.length ≤ b.params.length := by omega
    obtain ⟨value, hvalue⟩ : ∃ value, b.params[index]? = some value :=
      ⟨_, List.getElem?_eq_getElem (by omega)⟩
    have hparam : b.param? index = some (.param index value.type) := by
      rw [Ir.Builder.param?, hvalue, Option.map_some]
    have hrest : ∀ param ∈ rest, a.types.decl? param.1 = some param.2 :=
      fun param hmem => htypes param (List.mem_cons_of_mem _ hmem)
    have hslot : (allocate (some (d.id, d.name)) type.machine >>= fun slot =>
        store (.param index value.type) slot >>= fun _ =>
          Decl.spillParams (index + 1) rest).Ensures b fun _ b' => ∃ spills',
            b'.Spilled a (scalars ++ (index, d) :: Decl.scalarParams (index + 1) rest) spills' := by
      refine Run.bind_iff.mpr (allocate_some_ensures ?_)
      refine Run.bind_iff.mpr (Run.discard_iff.mpr (emit_ensures fun id hid => ?_))
      obtain rfl : 0 = id := Option.some.inj (h.current.symm.trans hid)
      obtain ⟨spills', hspilled⟩ := h.store (htypes (d, type) List.mem_cons_self) index value.type
      rw [List.append_cons]
      exact ih hspilled hrest (by simpa using hids) hlength'
    unfold Decl.spillParams
    refine Run.bind_iff.mpr (Run.get_iff.mpr ?_)
    rw [hparam]
    cases type with
    | array elem len =>
      rw [List.map_cons, List.nodup_append] at hids
      obtain ⟨hscalars, hparams, hapart⟩ := hids
      have hfresh : ∀ d', some d' ∈ scalars.map (fun param => some param.2) → d'.id ≠ d.id := by
        intro d' hd'
        obtain ⟨param, hparam, heq⟩ := List.mem_map.mp hd'
        cases heq
        exact hapart _ (List.mem_map_of_mem hparam) _ List.mem_cons_self
      have hbound := h.allots.bind hfresh (.param index value.type)
      refine ih ⟨hbound.restart, h.current, h.entry, h.length, h.stores⟩ hrest ?_ hlength'
      rw [List.nodup_append]
      exact ⟨hscalars, (List.nodup_cons.mp hparams).2,
        fun x hx y hy => hapart x hx y (List.mem_cons_of_mem _ hy)⟩
    | basic kind => exact hslot
    | func result params => exact hslot

/-- The entry block alone. -/
theorem Ir.Builder.spilled_start (hblocks : b.blocks = []) (hslots : b.slots = []) :
    ((b.withBlock "entry").withCurrent (some 0)).Spilled a [] [] := by
  obtain ⟨text, hentry⟩ := b.withBlock_blocks "entry"
  rw [hblocks, List.nil_append] at hentry
  refine ⟨⟨?_, ?_, ?_, ?_, List.prefix_refl _, ?_⟩, rfl, ?_, rfl, by simp⟩
  · simp [hslots]
  · simp
  · simp
  · intro block hblock
    rw [Ir.Builder.withCurrent_blocks, hentry] at hblock
    obtain rfl := List.mem_singleton.mp hblock
    exact ⟨by simp, by simp⟩
  · simp [hentry]
  · simp [hentry]

/-- First the parameters get their slots and then the body. -/
theorem Stmt.lowerBody_allots {params : List (Decl × Ty)} {body : Stmt}
    (htypes : ∀ param ∈ params, a.types.decl? param.1 = some param.2)
    (hids : (params.map (·.1.id)).Nodup) (hblocks : b.blocks = []) (hslots : b.slots = [])
    (hlength : b.params.length = params.length) :
    (body.lowerBody a params).Ensures b fun _ b' => ∃ spilled spills,
      Ir.Builder.Spilled a (Decl.scalarParams 0 params) spills spilled ∧
      spilled.Allots a (((Decl.scalarParams 0 params).map fun param => some param.2) ++ body.requests)
        b' := by
  refine (startBody_ensures hblocks).bind ?_
  rintro _ _ rfl
  have hstart : ((b.withBlock "entry").withCurrent (some 0)).Spilled a [] [] :=
    Ir.Builder.spilled_start hblocks hslots
  refine (Decl.spillParams_spilled hstart htypes hids (by simp [hlength])).bind ?_
  rintro _ spilled ⟨spills, hspilled⟩
  rw [List.nil_append] at hspilled
  have hopen : spilled.current.isSome := by
    rw [hspilled.current]
    rfl
  refine (body.lower_allots hopen hspilled.allots).bind fun _ b₁ h₁ => ?_
  refine .build fun _ b' hop => ⟨spilled, spills, hspilled, ?_⟩
  rcases Ir.Builder.endBody_cases hop with ⟨_, rfl⟩ | ⟨id, _, _, _, rfl⟩
  · exact h₁
  · exact h₁.withTerminator (by simp [Ir.Terminator.successors])

end

/-- What a function needs slots for: its scalar parameters, and then what its body needs. -/
def Stmt.slotRequests (params : List (Decl × Ty)) (body : Stmt) : List (Option Decl) :=
  ((Decl.scalarParams 0 params).map fun param => some param.2) ++ body.requests

/-- How a lowered function keeps its variables. Each request has a slot of its own, and a variable
is bound to its slot. All slots are made once, at the head of the entry. The value of a scalar
parameter is stored before its slot is used in any other way. -/
structure Ir.Builder.Storage (a : Analysis) (params : List (Decl × MicroC.Ty)) (body : Stmt)
    (b : Ir.Builder) : Prop where
  hasSlots : b.toFunction.HasSlots b.slots
  made : ∀ executed i k, b.toFunction.Reaches executed i k →
    executed.filter (·.operation.isAlloca) = if i = 0 then b.slots.take k else b.slots
  length : (body.slotRequests params).length = b.slots.length
  serves : ∀ request slot, (request, slot) ∈ (body.slotRequests params).zip b.slots →
    slot.IsSlotFor a request
  bound : ∀ d slot, (some d, slot) ∈ (body.slotRequests params).zip b.slots →
    b.binding? d.id = some (.inst slot.id slot.type)
  spilled : ∀ (m : Nat) (param : Nat × Decl) (slot : Ir.Instruction),
    (Decl.scalarParams 0 params)[m]? = some param → b.slots[m]? = some slot →
    ∃ entry spill, b.toFunction.blocks[0]? = some entry ∧
      entry.insts[b.slots.length + m]? = some spill ∧ spill.Spills param.1 slot ∧
      ∀ executed i k type, b.toFunction.Reaches executed i k →
        b.toFunction.Uses i k (.inst slot.id type) →
        spill ∈ executed ∨ (i = 0 ∧ k = b.slots.length + m)

section

variable {a : Analysis} {start b : Ir.Builder} {requests : List (Option Decl)}

theorem Ir.Instruction.IsSlotFor.isAlloca {slot : Ir.Instruction} {request : Option Decl}
    (h : slot.IsSlotFor a request) : slot.operation.isAlloca := by
  cases request with
  | some d =>
    obtain ⟨_, type, _, hop, _⟩ := h
    rw [hop]
    rfl
  | none =>
    obtain ⟨_, type, hop, _⟩ := h
    rw [hop]
    rfl

theorem Ir.Builder.Allots.isAlloca (h : start.Allots a requests b) {slot : Ir.Instruction}
    (hslot : slot ∈ b.slots) : slot.operation.isAlloca := by
  obtain ⟨m, hm⟩ := List.mem_iff_getElem?.mp hslot
  have hlt : m < requests.length := by
    rw [h.length]
    exact (List.getElem?_eq_some_iff.mp hm).1
  have hzip : (requests.zip b.slots)[m]? = some (requests[m], slot) :=
    List.getElem?_zip_eq_some.mpr ⟨List.getElem?_eq_getElem hlt, hm⟩
  exact (h.serves _ slot (List.mem_of_getElem? hzip)).isAlloca

theorem Ir.Builder.Allots.hasSlots (h : start.Allots a requests b) (hunique : b.Unique) :
    b.toFunction.HasSlots b.slots := by
  constructor
  · obtain ⟨_, entry, _, hentry, _⟩ := h.entry
    exact ⟨_, by rw [Ir.Builder.toFunction_getElem?_eq, hentry]; rfl, List.prefix_append _ _⟩
  · intro i k block inst hblock hinst
    rw [Ir.Builder.toFunction_getElem?_eq] at hblock
    obtain ⟨old, hold, rfl⟩ := Option.map_eq_some_iff.mp hblock
    have hplain := (h.plain old (List.mem_of_getElem? hold)).insts
    rw [List.getElem?_append] at hinst
    split at hinst
    next hlt =>
      rw [Ir.Builder.front] at hlt hinst
      split at hlt
      next hi =>
        rw [if_pos hi] at hinst
        simp [hi, hlt, h.isAlloca (List.mem_of_getElem? hinst)]
      · simp at hlt
    next hge =>
      have hnot := hplain inst (List.mem_of_getElem? hinst)
      rw [hnot]
      constructor
      · intro hyes
        cases hyes
      · rintro ⟨rfl, hk⟩
        exact absurd hk hge
  · have hnodup := hunique.nodup
    rw [Ir.Builder.insts, List.map_append] at hnodup
    exact (List.nodup_append.mp hnodup).1
  · intro block hblock
    obtain ⟨i, hi⟩ := List.mem_iff_getElem?.mp hblock
    rw [Ir.Builder.toFunction_getElem?_eq] at hi
    obtain ⟨old, hold, rfl⟩ := Option.map_eq_some_iff.mp hi
    exact (h.plain old (List.mem_of_getElem? hold)).targets

/-- The storage of a function whose parameters and body have been lowered. -/
theorem Ir.Builder.Allots.storage {spilled : Ir.Builder} {spills : List Ir.Instruction}
    {params : List (Decl × MicroC.Ty)} {body : Stmt}
    (hspilled : Ir.Builder.Spilled a (Decl.scalarParams 0 params) spills spilled)
    (h : spilled.Allots a (body.slotRequests params) b) (hunique : b.Unique)
    (hids : ((Decl.requested (body.slotRequests params)).map Decl.id).Nodup) :
    b.Storage a params body := by
  have hF := h.hasSlots hunique
  refine ⟨hF, fun _ _ _ hreaches => hF.made hreaches, h.length, h.serves, h.bound hids, ?_⟩
  intro m param slot hparam hslot
  obtain ⟨first, entry, hfirst, hentry, hcode⟩ := h.entry
  obtain ⟨_, hfirst', rfl⟩ := hspilled.entry
  obtain rfl := Option.some.inj (hfirst.symm.trans hfirst')
  have hm : m < first.insts.length := by
    rw [hspilled.length]
    exact (List.getElem?_eq_some_iff.mp hparam).1
  obtain ⟨more, hmore⟩ := h.slots
  have hstores : ∀ (m : Nat) (spill : Ir.Instruction), first.insts[m]? = some spill →
      ∃ param slot, (Decl.scalarParams 0 params)[m]? = some param ∧ b.slots[m]? = some slot ∧
        spill.Spills param.1 slot := by
    intro m spill hspill
    obtain ⟨param, slot, hparam, hslot, hstore⟩ := hspilled.stores m spill hspill
    refine ⟨param, slot, hparam, ?_, hstore⟩
    rw [← hmore, List.getElem?_append_left (List.getElem?_eq_some_iff.mp hslot).1]
    exact hslot
  have hspill : first.insts[m]? = some first.insts[m] := List.getElem?_eq_getElem hm
  obtain ⟨param', slot', hparam', hslot', hstore⟩ := hstores m _ hspill
  obtain rfl := Option.some.inj (hparam.symm.trans hparam')
  obtain rfl := Option.some.inj (hslot.symm.trans hslot')
  have hfront : b.toFunction.blocks[0]? = some { entry with insts := b.slots ++ entry.insts } := by
    rw [Ir.Builder.toFunction_getElem?_eq, hentry]
    rfl
  have hprefix : b.slots ++ first.insts <+: b.slots ++ entry.insts :=
    (List.prefix_append_right_inj _).mpr hcode
  refine ⟨_, first.insts[m], hfront, ?_, hstore, ?_⟩
  · obtain ⟨code, hcode⟩ := hcode
    show (b.slots ++ entry.insts)[b.slots.length + m]? = _
    rw [List.getElem?_append_right (by omega), Nat.add_sub_cancel_left, ← hcode,
      List.getElem?_append_left hm]
    exact hspill
  · intro executed i k type hreaches huses
    refine hF.spilled_first hfront hprefix ?_ hslot hspill hreaches huses
    intro m spill hspill
    obtain ⟨param, slot, _, hslot, hstore⟩ := hstores m spill hspill
    exact ⟨param.1, slot, hslot, hstore⟩

end

/-! The variables of a function differ where no node is used twice. -/

theorem Expr.requested_requests (e : Expr) : Decl.requested e.requests = [] := by
  simp [Decl.requested, Expr.requests]

theorem Decl.keys_requests_sublist (d : Decl) :
    ((Decl.requested d.requests).map fun d => (Family.decl, d.id)).Sublist
      (Event.entered d.events) := by
  have hself : Decl.requested d.requests = [d] := by
    unfold Decl.requests
    split
    · rw [Decl.requested_cons, Expr.requested_requests]
    · rfl
  rw [hself]
  exact List.singleton_sublist.mpr d.key_mem_entered

mutual

theorem Stmt.keys_requests_sublist : (s : Stmt) →
    ((Decl.requested s.requests).map fun d => (Family.decl, d.id)).Sublist (Event.entered s.events)
  | .block _ _ items _ => by
    rw [Stmt.events, Event.entered_around]
    exact (Item.keys_requestsAll_sublist items).cons _
  | .empty .. | .ret _ _ none => List.nil_sublist _
  | .expr _ value | .ret _ _ (some value) => by
    rw [Stmt.requests, Expr.requested_requests]
    exact List.nil_sublist _
  | .branch _ _ cond onTrue none => by
    rw [Stmt.requests, Decl.requested_append, Expr.requested_requests, List.nil_append, Stmt.events,
      Event.entered_around, Event.entered_append]
    exact (onTrue.keys_requests_sublist.trans (List.sublist_append_right _ _)).cons _
  | .branch _ _ cond onTrue (some onFalse) => by
    rw [Stmt.requests, Decl.requested_append, Decl.requested_append, Expr.requested_requests,
      List.nil_append, List.map_append, Stmt.events, Event.entered_around, Event.entered_append,
      Event.entered_append, List.append_assoc]
    exact ((onTrue.keys_requests_sublist.append onFalse.keys_requests_sublist).trans
      (List.sublist_append_right _ _)).cons _
  | .loop _ _ cond body => by
    rw [Stmt.requests, Decl.requested_append, Expr.requested_requests, List.nil_append, Stmt.events,
      Event.entered_around, Event.entered_append]
    exact (body.keys_requests_sublist.trans (List.sublist_append_right _ _)).cons _

theorem Item.keys_requests_sublist : (item : Item) →
    ((Decl.requested item.requests).map fun d => (Family.decl, d.id)).Sublist
      (Event.entered item.events)
  | .decl d => d.keys_requests_sublist
  | .stmt s => s.keys_requests_sublist

theorem Item.keys_requestsAll_sublist : (items : List Item) →
    ((Decl.requested (Item.requestsAll items)).map fun d => (Family.decl, d.id)).Sublist
      (Event.entered (Item.eventsAll items))
  | [] => List.Sublist.refl _
  | item :: rest => by
    rw [Item.requestsAll, Decl.requested_append, List.map_append, Item.eventsAll,
      Event.entered_append]
    refine item.keys_requests_sublist.append ?_
    split
    · exact List.nil_sublist _
    · exact Item.keys_requestsAll_sublist rest

end

theorem Decl.scalarParams_sublist (params : List (Decl × Ty)) (index : Nat) :
    ((Decl.scalarParams index params).map Prod.snd).Sublist (params.map Prod.fst) := by
  induction params generalizing index with
  | nil => exact List.Sublist.refl _
  | cons param rest ih =>
    obtain ⟨d, type⟩ := param
    cases type with
    | array elem len => exact (ih (index + 1)).cons _
    | basic _ | func _ _ => exact (ih (index + 1)).cons_cons _

section

variable {id : DeclId} {name : String} {span : Span} {tid : TypeId} {written : TypeExpr}
  {lparen rparen : Span} {decls : List Decl} {body : Stmt} {types : List Ty}

/-- First the parameters of a function are entered and then its body. -/
theorem Decl.entered_parts_sublist :
    (Event.entered (Decl.eventsAll decls) ++ Event.entered body.events).Sublist (Event.entered
      (Decl.func id name span (.func tid written lparen decls rparen) (some body)).events) := by
  rw [Decl.events, Event.entered_around, Event.entered_append, TypeExpr.events, Event.entered_around,
    Event.entered_append]
  exact (((List.sublist_append_right _ _).cons _).append (List.Sublist.refl _)).cons _

theorem Stmt.keys_slotRequests_sublist (hfst : (decls.zip types).map Prod.fst = decls) :
    ((Decl.requested (body.slotRequests (decls.zip types))).map fun d => (Family.decl, d.id)).Sublist
      (Event.entered (Decl.eventsAll decls) ++ Event.entered body.events) := by
  have hscalars : Decl.requested ((Decl.scalarParams 0 (decls.zip types)).map fun param =>
      some param.2) = (Decl.scalarParams 0 (decls.zip types)).map Prod.snd := by
    rw [Decl.requested, List.filterMap_map]
    exact congrFun List.filterMap_eq_map _
  have hparams := Decl.scalarParams_sublist (decls.zip types) 0
  rw [hfst] at hparams
  have hkeys := (hparams.map fun d => (Family.decl, d.id)).trans (Decl.keys_sublist_entered decls)
  rw [Stmt.slotRequests, Decl.requested_append, hscalars, List.map_append]
  exact hkeys.append body.keys_requests_sublist

end

namespace Program

/-- How every compiled function keeps its variables: each scalar parameter, each variable that is
declared in the part of the body that is reached, and each `&&` in it has a slot of its own. -/
theorem compile_storage (p : Program) (hp : p.Coherent) (htree : p.TreeShaped) (settings : Settings)
    (c : Compilation) (h : p.compile settings = .ok c) (F : Ir.Function)
    (hF : F ∈ c.module.functions) (hblocks : F.blocks ≠ []) :
    ∃ id name span tid written lparen decls rparen body result types final,
      Decl.func id name span (.func tid written lparen decls rparen) (some body) ∈ p.file ∧
      c.types.decl? (.func id name span (.func tid written lparen decls rparen) (some body)) =
        some (.func result types) ∧ (decls.zip types).map Prod.fst = decls ∧
      body.lowerBody (Analysis.mk c.resolution c.types) (decls.zip types)
        (Decl.startBuilder name result (decls.zip types)) = .ok ((), final) ∧
      F = final.toFunction ∧ final.Storage ⟨c.resolution, c.types⟩ (decls.zip types) body := by
  obtain ⟨hr, ht, hm⟩ := compile_ok h
  obtain ⟨hsound, htyped⟩ := p.check_sound hp (p.resolve_covers hr) ht
  obtain ⟨d, hd, _, hlower⟩ := (lower_hasFunctions hm).source F hF
  obtain ⟨id, name, span, tid, written, lparen, decls, rparen, body, result, types, rfl, hknown,
    hbody⟩ := Decl.lowerFunction_cases hlower
  rcases hbody with ⟨rfl, rfl⟩ | ⟨s, final, rfl, hrun, rfl⟩
  · exact absurd rfl hblocks
  obtain ⟨result', types', hknown', _, htypes, hfst, _⟩ := hsound.definition htyped hd
  cases Option.some.inj (hknown.symm.trans hknown')
  have hentered := List.Nodup.sublist Decl.entered_parts_sublist (htree.entered_nodup hd)
  have hids : ((decls.zip types).map (·.1.id)).Nodup := by
    have hdecls := Decl.ids_nodup_of_entered (List.nodup_append.mp hentered).1
    rw [← hfst, List.map_map] at hdecls
    exact hdecls
  have hallots : (s.lowerBody (Analysis.mk c.resolution c.types) (decls.zip types)).Ensures
      (Decl.startBuilder name result (decls.zip types)) fun _ b' => ∃ spilled spills,
        Ir.Builder.Spilled ⟨c.resolution, c.types⟩ (Decl.scalarParams 0 (decls.zip types)) spills
          spilled ∧ spilled.Allots ⟨c.resolution, c.types⟩ (s.slotRequests (decls.zip types)) b' :=
    Stmt.lowerBody_allots (fun param hparam => (htypes param hparam).1) hids rfl rfl
      (by simp [Decl.startBuilder, Ir.Builder.new])
  obtain ⟨spilled, spills, hspilled, hallots⟩ := hallots.of_ok hrun
  have hcompleted := Stmt.lowerBody_completed (Analysis.permits_any ⟨c.resolution, c.types⟩)
    False.elim False.elim hrun
  obtain ⟨sketch, rfl, hsketch⟩ := hcompleted.sound
  have hrequested := Decl.ids_nodup_of_sublist (Stmt.keys_slotRequests_sublist hfst) hentered
  exact ⟨id, name, span, tid, written, lparen, decls, rparen, s, result, types, _, hd, hknown,
    hfst, hrun, rfl, hallots.storage hspilled hsketch.unique hrequested⟩

/-- `int f(int n, int a[]) { while (n && a[0]) { int k = n; n = n - k; } return n; }`. -/
def loopVariable : Program := Build.finish do
  let intType ← Build.namedType "int"
  let n ← Build.param intType "n"
  let intType ← Build.namedType "int"
  let a ← Build.param (← Build.arrayType intType none) "a"
  let more ← Build.binary .and (← Build.name "n") (← Build.index "a" (← Build.int 0))
  let intType ← Build.namedType "int"
  let k ← Build.var intType "k" (some (← Build.name "n"))
  let less ← Build.binary .sub (← Build.name "n") (← Build.name "k")
  let step ← Build.exprStmt (← Build.assign (← Build.name "n") less)
  let loop ← Build.loop more (← Build.block [.decl k, .stmt step])
  let result ← Build.ret (some (← Build.name "n"))
  let body ← Build.block [.stmt loop, .stmt result]
  let intType ← Build.namedType "int"
  Build.push (← Build.func "f" intType [n, a] (some body))

/-- The parameter, the `&&` and the variable inside the loop have their slots in the entry. -/
theorem compile_storage_loopVariable : ∃ c F params body final,
    loopVariable.compile {} = .ok c ∧ F ∈ c.module.functions ∧
    (F.insts.filter (·.operation.isAlloca)).map (·.name) = [some "n.1", none, some "k"] ∧
    F = final.toFunction ∧ Ir.Builder.Storage ⟨c.resolution, c.types⟩ params body final := by
  obtain ⟨c, hc, h⟩ : ∃ c, loopVariable.compile {} = .ok c ∧ decide (
      ∃ F ∈ c.module.functions, F.blocks ≠ [] ∧
        (F.insts.filter (·.operation.isAlloca)).map (·.name) = [some "n.1", none, some "k"]) :=
    Except.exists_of_any (by decide +kernel)
  obtain ⟨F, hF, hblocks, hnames⟩ := of_decide_eq_true h
  obtain ⟨_, _, _, _, _, _, decls, _, body, _, types, final, _, _, _, _, hfinal, hstorage⟩ :=
    compile_storage loopVariable (by decide +kernel) (by decide +kernel) {} c hc F hF hblocks
  exact ⟨c, F, decls.zip types, body, final, hc, hF, hnames, hfinal, hstorage⟩

end Program

end MicroC
