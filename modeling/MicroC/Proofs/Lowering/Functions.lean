import MicroC.Proofs.Lowering.Bodies
import MicroC.Proofs.Meaning.Implementation

/-!
The code of functions. A variable lives in the slot that it is bound to at the end of the lowering;
with these slots the code of a definition stands for the definition.
-/

namespace MicroC

open LowerM

/-! Arguments and sizes. -/

namespace Datum.AreArguments

theorem length_eq {depth : Nat} : {flags : List Bool} → {args : List Datum} →
    Datum.AreArguments depth flags args → args.length = flags.length
  | [], [], _ => rfl
  | _ :: _, _ :: _, h => congrArg (· + 1) (length_eq h.2)

/-- What is passed for an array is an address outside the new frame. -/
theorem of_array {depth : Nat} : {flags : List Bool} → {args : List Datum} → {k : Nat} →
    Datum.AreArguments depth flags args → flags[k]? = some true →
    ∃ object cell, args.getD k .none = .address object cell ∧ object.IsBelow depth
  | true :: _, .address object cell :: _, 0, h, _ => ⟨object, cell, rfl, h.1.2⟩
  | true :: _, .int _ :: _, 0, h, _ => nomatch h.1
  | _ :: flags, _ :: args, k + 1, h, hk =>
    have hrest : Datum.AreArguments depth flags args := h.2
    hrest.of_array (k := k) hk

end Datum.AreArguments

theorem Ir.Shows.of_isBelow {final : Ir.Builder} {y : Ir.Activation} {object : Object}
    (h : object.IsBelow y.depth) : Ir.Shows final y object := by
  rintro k rfl
  exact absurd h (Nat.lt_irrefl _)

namespace Ty

theorem isSome_pointee_machineParam (type : Ty) :
    type.machineParam.pointee?.isSome = type.isArray := by
  cases type with
  | basic kind => cases kind <;> rfl
  | array elem len => cases len <;> simp [machineParam, machine, Ir.Ty.decay, Ir.Ty.pointee?, isArray]
  | func _ _ => simp [machineParam, machine, Ir.Ty.decay, Ir.Ty.pointee?, isArray]

theorem cells_machine_of_isScalar {type : Ty} (h : type.isScalar) : type.machine.cells = 1 := by
  rw [scalar_basicKind h]
  cases type.scalar <;> rfl

theorem cells_machine {type : Ty} (h : type.isComplete) : type.machine.cells = type.cells := by
  cases type with
  | basic kind => exact cells_machine_of_isScalar h
  | array elem len =>
    cases len with
    | none => simp [isComplete] at h
    | some len =>
      have helem : elem.isScalar := by simpa [isComplete] using h
      simp [machine, Ir.Ty.cells, cells, cells_machine_of_isScalar helem]
  | func _ _ => simp [isComplete, isScalar] at h

end Ty

theorem Ir.Ty.cells_of_isInteger {type : Ir.Ty} (h : type.isInteger) : type.cells = 1 := by
  cases type with
  | i8 | i32 => rfl
  | void | array _ _ | ptr _ | func _ _ => simp [isInteger] at h

namespace Ir.Builder

variable {b : Builder}

/-- The stack slots are all of them. -/
theorem Tidy.mem_slots_iff (h : b.Tidy) (hblocks : b.blocks ≠ []) {inst : Instruction} :
    inst ∈ b.slots ↔ inst ∈ b.toFunction.insts ∧ ∃ type, inst.operation = .alloca type := by
  have hplain := h.plain
  cases hb : b.blocks with
  | nil => exact absurd hb hblocks
  | cons entry rest =>
    have hinsts : inst ∈ b.toFunction.insts ↔
        inst ∈ b.slots ∨ ∃ block ∈ b.blocks, inst ∈ block.insts := by
      simp [Function.insts, toFunction, hb]
    rw [hinsts]
    constructor
    · intro hslot
      obtain ⟨_, type, htype, _⟩ := h.slots inst hslot
      exact ⟨.inl hslot, type, htype⟩
    · rintro ⟨hslot | ⟨block, hblock, hinst⟩, type, htype⟩
      · exact hslot
      · exact absurd htype (hplain block hblock inst hinst type)

theorem Tidy.names_iff (h : b.Tidy) (hblocks : b.blocks ≠ []) {k : Nat} :
    b.toFunction.Names k ↔ b.Names k := by
  constructor
  · rintro ⟨inst, hinst, hid, hname, halloca⟩
    exact ⟨inst, (h.mem_slots_iff hblocks).mpr ⟨hinst, halloca⟩, hid, hname⟩
  · rintro ⟨slot, hslot, hid, hname⟩
    obtain ⟨hinst, halloca⟩ := (h.mem_slots_iff hblocks).mp hslot
    exact ⟨slot, hinst, hid, hname, halloca⟩

/-- A slot is known by its number. -/
theorem Tidy.slot_eq (h : b.Tidy) {slot slot' : Instruction} (hslot : slot ∈ b.slots)
    (hslot' : slot' ∈ b.slots) (hid : slot.id = slot'.id) : slot = slot' := by
  obtain ⟨i, hi⟩ := List.mem_iff_getElem?.mp hslot
  obtain ⟨j, hj⟩ := List.mem_iff_getElem?.mp hslot'
  have hlt : i < (b.slots.map (·.id)).length := by
    simpa using (List.getElem?_eq_some_iff.mp hi).1
  obtain rfl : i = j := (List.getElem?_inj hlt h.unique).mp (by simp [hi, hj, hid])
  exact Option.some.inj (hi.symm.trans hj)

/-- Where a variable is kept. A variable that the code does not need is kept apart. -/
def home (b : Builder) (id : DeclId) : Nat :=
  match b.binding? id with
  | some (.inst k _) => k
  | _ => b.nextInst + id

theorem home_of_binding {id : DeclId} {k : Nat} {type : Ty} (h : b.binding? id = some (.inst k type)) :
    b.home id = k := by
  simp [home, h]

end Ir.Builder

section

variable {p : Program} {a : Analysis} {f : Decl} {final : Ir.Builder}

/-- The variables of a function are not those at file level. -/
theorem Program.TreeShaped.not_mem_file (htree : p.TreeShaped) (hp : p.Coherent) (hf : f ∈ p.file)
    (hfunc : f.isVar = false) {d : Decl} (hvar : d.isVar) (hin : .enter (.decl d) ∈ f.events)
    {g : Decl} (hg : g ∈ p.file) : g.id ≠ d.id := by
  intro hid
  have hdeclares : p.Declares d := .inr (p.mem_events hf hin)
  obtain rfl := hp.decl_eq (p.declares_of_mem_file hg) hdeclares hid
  have hne : f ≠ g := by
    rintro rfl
    rw [hfunc] at hvar
    cases hvar
  have hkey : (Family.decl, g.id) ∈ Event.entered f.events :=
    List.mem_filterMap.mpr ⟨_, hin, rfl⟩
  exact Decl.entered_disjoint htree hf hg hne _ hkey g.key_mem_entered

theorem Decl.exists_param_of_passed {id : DeclId} {k : Nat} (hk : f.passed a id = some k) :
    ∃ param, (f.params a)[k]? = some param ∧ param.1.id = id ∧ param.2.isArray := by
  obtain ⟨hlt, hparam, _⟩ := List.findIdx?_eq_some_iff_getElem.mp hk
  exact ⟨_, List.getElem?_eq_getElem hlt, by simpa using hparam⟩

/-- With the slots at the end of the lowering, operands stand for addresses of variables. -/
theorem Program.activation_realized (hp : p.Coherent) (hfile : ∀ d, d.isVar →
      .enter (.decl d) ∈ f.events → ∀ g ∈ p.file, g.id ≠ d.id) (hf : f ∈ p.file)
    (hparams : f.HasParams a) (hlaid : final.Laid a f) {calls : Calls} {depth : Nat}
    {args : List Datum}
    (hargs : Datum.AreArguments depth ((f.params a).map (·.2.isArray)) args) :
    (p.activation a final.home calls f depth args).Realized p final ⟨depth, args, calls⟩ := by
  refine ⟨rfl, rfl, ?_, ?_, ?_⟩
  · intro d v hv M s hs
    obtain ⟨d', hid, hvar, hin, hhouses⟩ := hlaid d.id v hv
    rw [Ir.Builder.Houses, hid] at hhouses
    cases hk : f.passed a d.id with
    | some k =>
      rw [hk] at hhouses
      obtain ⟨type, rfl⟩ := hhouses
      obtain ⟨param, hget, _, harray⟩ := Decl.exists_param_of_passed hk
      obtain ⟨object, cell, harg, hbelow⟩ := hargs.of_array (k := k) (by simp [hget, harray])
      have haddress : (p.activation a final.home calls f depth args).address d =
          .address object cell := by
        simp only [Program.activation, hk, harg]
      rw [haddress]
      exact ⟨⟨harg, .of_isBelow hbelow⟩, object, cell, rfl⟩
    | none =>
      rw [hk] at hhouses
      obtain ⟨k, type, text, _, _, rfl, hslot⟩ := hhouses
      have hnone : p.file.any (·.id = d.id) = false := by
        rw [List.any_eq_false]
        intro g hg
        simpa [hid] using hfile d' hvar hin g hg
      have haddress : (p.activation a final.home calls f depth args).address d =
          .address (.slot depth k) 0 := by
        simp only [Program.activation, hk, hnone, Ir.Builder.home_of_binding hv]
        rfl
      rw [haddress]
      refine ⟨⟨hs.slots _ hslot, ?_⟩, _, _, rfl⟩
      intro k' hk'
      cases hk'
      exact ⟨_, hslot, rfl, rfl⟩
  · intro d hd hbound
    obtain ⟨v, hv⟩ := Option.isSome_iff_exists.mp hbound
    obtain ⟨d', hid, hvar, hin, _⟩ := hlaid d.id v hv
    rw [← hp.decl_eq (.inr (p.mem_events hf hin)) hd hid]
    exact hvar
  · intro d hd
    have hnone : f.passed a d.id = none := by
      cases hk : f.passed a d.id with
      | none => rfl
      | some k =>
        obtain ⟨param, hget, hid, _⟩ := Decl.exists_param_of_passed hk
        have hmem := List.mem_of_getElem? hget
        exact absurd hid.symm (hfile param.1 (hparams.isVar _ hmem) (hparams.entered _ hmem) d hd)
    have hany : p.file.any (·.id = d.id) = true := List.any_eq_true.mpr ⟨d, hd, by simp⟩
    simp only [Program.activation, hnone, hany]
    rfl

end

section

variable {a : Analysis} {f : Decl} {final : Ir.Builder}

/-- The state at the end of the lowering of a function. -/
structure Ir.Builder.Completes (a : Analysis) (f : Decl) (final : Ir.Builder) : Prop where
  tidy : final.Tidy
  laid : final.Laid a f
  entry : ∃ entry, final.blocks[0]? = some entry
  params : final.params = (f.params a).map fun param => ⟨param.1.name, param.2.machineParam⟩
  unique : ∀ d d', .enter (.decl d) ∈ f.events → .enter (.decl d') ∈ f.events → d.id = d'.id → d = d'

namespace Ir.Builder.Completes

theorem blocks_ne_nil (h : final.Completes a f) : final.blocks ≠ [] := by
  obtain ⟨entry, hentry⟩ := h.entry
  intro hnil
  simp [hnil] at hentry

/-- A variable has a slot of its size, or it is kept apart. -/
theorem home_cases (h : final.Completes a f) {d : Decl} (hd : f.Owns a d) :
    (∃ type text k, a.types.decl? d = some type ∧ type.isComplete ∧
      final.binding? d.id = some (.inst k (.ptr type.machine)) ∧ final.home d.id = k ∧
      ⟨k, .alloca type.machine, .ptr type.machine, some text⟩ ∈ final.slots) ∨
    final.home d.id = final.nextInst + d.id := by
  cases hv : final.binding? d.id with
  | none => exact .inr (by simp [home, hv])
  | some v =>
    obtain ⟨d', hid, _, hin, hhouses⟩ := h.laid d.id v hv
    obtain rfl := h.unique d' d hin hd.entered hid
    rw [Houses, hd.not_passed] at hhouses
    obtain ⟨k, type, text, htype, hcomplete, rfl, hslot⟩ := hhouses
    exact .inl ⟨type, text, k, htype, hcomplete, rfl, home_of_binding hv, hslot⟩

theorem apart (h : final.Completes a f) {d d' : Decl} (hd : f.Owns a d) (hd' : f.Owns a d')
    (hhome : final.home d.id = final.home d'.id) : d = d' := by
  refine h.unique d d' hd.entered hd'.entered ?_
  rcases h.home_cases hd with ⟨type, _, k, _, _, hv, hk, _⟩ | hk
  · rcases h.home_cases hd' with ⟨type', _, k', _, _, hv', hk', _⟩ | hk'
    · obtain rfl : k = k' := hk.symm.trans (hhome.trans hk')
      exact h.tidy.housed.apart d.id d'.id k _ _ hv hv'
    · rw [hk, hk'] at hhome
      exact absurd (h.tidy.housed.bound d.id k _ hv) (by simp [hhome])
  · rcases h.home_cases hd' with ⟨type', _, k', _, _, hv', hk', _⟩ | hk'
    · rw [hk, hk'] at hhome
      exact absurd (h.tidy.housed.bound d'.id k' _ hv') (by simp [← hhome])
    · rw [hk, hk'] at hhome
      exact Nat.add_left_cancel hhome

/-- A slot with a name belongs to a variable, whose size it has. -/
theorem named (h : final.Completes a f) {slot : Ir.Instruction} (hslot : slot ∈ final.slots)
    (hname : slot.name.isSome) : ∃ d type, f.Owns a d ∧ final.home d.id = slot.id ∧
      a.types.decl? d = some type ∧ type.isComplete ∧ slot.operation = .alloca type.machine := by
  obtain ⟨id, t, hv⟩ := h.tidy.housed.named slot hslot hname
  obtain ⟨d, rfl, hvar, hin, hhouses⟩ := h.laid id _ hv
  rw [Houses] at hhouses
  split at hhouses
  · obtain ⟨_, heq⟩ := hhouses
    cases heq
  next hpassed =>
    obtain ⟨k, type, text, htype, hcomplete, heq, hmem⟩ := hhouses
    cases heq
    rw [h.tidy.slot_eq hslot hmem rfl]
    exact ⟨d, type, ⟨hin, hvar, hpassed⟩, home_of_binding hv, htype, hcomplete, rfl⟩

/-- A slot that belongs to no variable holds a scalar. -/
theorem unnamed (h : final.Completes a f) {slot : Ir.Instruction} (hslot : slot ∈ final.slots)
    (hnames : ¬ final.Names slot.id) {type : Ir.Ty} (htype : slot.operation = .alloca type) :
    type.cells = 1 := by
  have hname : slot.name = none := by
    cases hname : slot.name with
    | none => rfl
    | some text => exact absurd ⟨slot, hslot, rfl, by simp [hname]⟩ hnames
  obtain ⟨_, type', htype', hinteger⟩ := h.tidy.slots slot hslot
  rw [htype'] at htype
  cases htype
  exact Ty.cells_of_isInteger (hinteger hname)

theorem mem_slots (h : final.Completes a f) {inst : Ir.Instruction} {type : Ir.Ty}
    (hinst : inst ∈ final.toFunction.insts) (htype : inst.operation = .alloca type) :
    inst ∈ final.slots :=
  (h.tidy.mem_slots_iff h.blocks_ne_nil).mpr ⟨hinst, type, htype⟩

/-- Whatever the variables contain, some frame of the code contains it. -/
theorem exists_frame (h : final.Completes a f) {frame : Nat → List Int}
    (hlays : f.Lays a final.home frame) :
    ∃ frame', final.toFunction.Lays frame' ∧ final.toFunction.SameFrame frame frame' := by
  classical
  refine ⟨fun k => if final.Names k then frame k else [0], ?_, ?_⟩
  · intro inst hinst type htype
    dsimp only
    have hslot := h.mem_slots hinst htype
    by_cases hnames : final.Names inst.id
    · obtain ⟨slot, hslot', hid, hname⟩ := hnames
      obtain rfl := h.tidy.slot_eq hslot' hslot hid
      obtain ⟨d, type', howns, hhome, hknown, hcomplete, halloca⟩ := h.named hslot hname
      rw [if_pos ⟨slot, hslot, rfl, hname⟩, ← hhome, hlays d howns type' hknown]
      rw [halloca] at htype
      cases htype
      exact (Ty.cells_machine hcomplete).symm
    · rw [if_neg hnames, h.unnamed hslot hnames htype]
      rfl
  · intro k hk
    exact if_pos ((h.tidy.names_iff h.blocks_ne_nil).mp hk)

/-- Whatever a frame of the code contains, the variables can contain. -/
theorem exists_contents (h : final.Completes a f) {frame' : Nat → List Int}
    (hlays : final.toFunction.Lays frame') :
    ∃ frame, f.Lays a final.home frame ∧ final.toFunction.SameFrame frame frame' := by
  let size (id : DeclId) : Nat := (a.types.decls[id]?.map MicroC.Ty.cells).getD 0
  refine ⟨fun k => if k < final.nextInst then frame' k
    else List.replicate (size (k - final.nextInst)) 0, ?_, ?_⟩
  · intro d hd type htype
    dsimp only
    rcases h.home_cases hd with ⟨type', text, k, htype', hcomplete, hv, rfl, hslot⟩ | hk
    · obtain rfl : type' = type := Option.some.inj (htype'.symm.trans htype)
      have hinst := ((h.tidy.mem_slots_iff h.blocks_ne_nil).mp hslot).1
      rw [if_pos (h.tidy.housed.bound d.id _ _ hv), hlays _ hinst _ rfl]
      exact Ty.cells_machine hcomplete
    · have hsize : size (final.home d.id - final.nextInst) = type.cells := by
        have hget : a.types.decls[d.id]? = some type := htype
        simp [size, hk, hget]
      have hge : ¬ final.home d.id < final.nextInst := by omega
      rw [if_neg hge, hsize, List.length_replicate]
  · intro k hk
    obtain ⟨slot, hslot, rfl, _⟩ := (h.tidy.names_iff h.blocks_ne_nil).mp hk
    exact (if_pos (h.tidy.slots slot hslot).1).symm

variable {y : Ir.Activation} {M : Memory} {frame frame' : Nat → List Int}

/-- The storage with which the code of a body begins. -/
theorem simulates (h : final.Completes a f) (hlays : final.toFunction.Lays frame')
    (hsame : final.toFunction.SameFrame frame frame') :
    Ir.Simulates final y (M.withFrame y.depth frame)
      (State.withSlots ⟨fun _ => .none, M.withFrame y.depth frame'⟩ y final.slots) := by
  refine ⟨⟨?_, ?_⟩, ?_⟩
  · intro object hobject
    cases object with
    | global name => rfl
    | slot depth k =>
      change (if depth = y.depth then frame' k else _) = if depth = y.depth then frame k else _
      split
      next hdepth =>
        exact hsame k ((h.tidy.names_iff h.blocks_ne_nil).mpr (hobject k (by rw [hdepth])))
      · rfl
  · intro k hk
    obtain ⟨slot, hslot, rfl⟩ := hk.exists_slot
    obtain ⟨_, type, htype, _⟩ := h.tidy.slots slot hslot
    have hinst := ((h.tidy.mem_slots_iff h.blocks_ne_nil).mp hslot).1
    change (if y.depth = y.depth then frame' slot.id else _).length = 1
    rw [if_pos rfl, hlays slot hinst type htype]
    exact h.unnamed hslot hk.not_names htype
  · intro slot hslot
    have hany : final.slots.any (·.id = slot.id) = true :=
      List.any_eq_true.mpr ⟨slot, hslot, by simp⟩
    exact if_pos hany

theorem sameMemory (h : final.Completes a f) {M N : Memory} (hM : Ir.Mirrors final y M N) :
    final.toFunction.SameMemory y.depth M N := by
  intro object hobject
  refine hM.shown object ?_
  intro k hk
  exact (h.tidy.names_iff h.blocks_ne_nil).mp (hobject k hk)

/-- If a run from the entry has the effect of a call, then the function stands for it. -/
theorem implements {p : Program} {calls : Calls} {body : Stmt} (h : final.Completes a f)
    (hbody : f.body? = some body)
    (hrun : ∀ depth args, Datum.AreArguments depth ((f.params a).map (·.2.isArray)) args →
      Ir.Translates final ⟨depth, args, calls⟩ (.before 0 0) (fun _ => True)
        (do Decl.receive (p.activation a final.home calls f depth args) ((f.params a).zip args)
            body.exec (p.activation a final.home calls f depth args))
        (fun exit => .done exit.result) fun _ _ => True) :
    final.toFunction.Implements p a final.home f calls calls := by
  obtain ⟨entry, hentry⟩ := h.entry
  have hflags : final.params.map (·.type.pointee?.isSome) = (f.params a).map (·.2.isArray) := by
    simp [h.params, Function.comp_def, Ty.isSome_pointee_machineParam]
  have hreturns : ∀ depth args M v M', final.toFunction.Returns calls depth args M v M' ↔
      Datum.AreArguments depth ((f.params a).map (·.2.isArray)) args ∧
        ∃ n, (Place.before 0 0).Finishes final ⟨depth, args, calls⟩ n
          (State.withSlots ⟨fun _ => .none, M⟩ ⟨depth, args, calls⟩ final.slots) v M' := by
    intro depth args M v M'
    rw [Ir.Builder.returns_iff h.tidy hentry, hflags]
  refine ⟨fun _ _ => h.apart, ?_, fun _ => h.exists_frame, fun _ => h.exists_contents, ?_, ?_⟩
  · intro number hnumber
    obtain ⟨slot, hslot, rfl, hname⟩ := (h.tidy.names_iff h.blocks_ne_nil).mp hnumber
    obtain ⟨d, _, howns, hhome, _⟩ := h.named hslot hname
    exact ⟨d, howns, hhome⟩
  · rintro depth args M frame frame' result M₁ hlays hsame ⟨hargs, body', exit, hbody', rfl, hexec⟩
    obtain rfl : body = body' := Option.some.inj (hbody.symm.trans hbody')
    have hstart := h.simulates (y := ⟨depth, args, calls⟩) (M := M) hlays hsame
    obtain ⟨s, hs, _, hfinish⟩ := (hrun depth args hargs _ _ hstart trivial).1 exit M₁ hexec
    obtain ⟨n, hn⟩ := hfinish 0 exit.result s.memory ⟨rfl, rfl⟩
    exact ⟨s.memory, (hreturns _ _ _ _ _).mpr ⟨hargs, n, hn⟩, h.sameMemory hs.mirrors⟩
  · rintro depth args M frame frame' result M₁' hlays hsame hreturn
    obtain ⟨hargs, n, hn⟩ := (hreturns _ _ _ _ _).mp hreturn
    have hstart := h.simulates (y := ⟨depth, args, calls⟩) (M := M) hlays hsame
    obtain ⟨exit, M₁, s, hexec, hs, _, rfl, rfl⟩ := (hrun depth args hargs _ _ hstart trivial).2 _ _ _ hn
    exact ⟨M₁, ⟨hargs, body, exit, hbody, rfl, hexec⟩, h.sameMemory hs.mirrors⟩

end Ir.Builder.Completes

end

end MicroC
