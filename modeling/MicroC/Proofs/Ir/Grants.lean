import Mathlib.Data.List.Nodup
import MicroC.Proofs.Ir.Calls
import MicroC.Proofs.Ir.Naming

/-!
The names that calls are given. Whoever asks for a name gets the base, or from the second time on
the base with a number behind a dot. The numbers keep the names of one base apart, but a base may
be spelled like a name with a number. So blocks and values have different names after any calls
exactly if no base that is given out as it stands is a numbered name given out to something of the
same kind.
-/

namespace MicroC.Ir

inductive Bearer where
  | block | value
deriving DecidableEq, Repr

/-- A name that has been given out: its base, and how often the base was asked for before. -/
structure Grant where
  bearer : Bearer
  base : String
  count : Nat
deriving DecidableEq, Repr

namespace Grant

def name (g : Grant) : String := Builder.numberedName g.base g.count

/-- Parameters keep the names that they have. -/
def ofParam (param : Param) : Grant := ⟨.value, param.name, 0⟩

/-- The base of the first is spelled like the second with its number. -/
def Clashes (g g' : Grant) : Prop :=
  g.bearer = g'.bearer ∧ g.count = 0 ∧ g'.count ≠ 0 ∧ g.base = g'.name

instance (g g' : Grant) : Decidable (g.Clashes g') := inferInstanceAs (Decidable (_ ∧ _))

end Grant

/-- The names given out to things of one kind. -/
def namesOf (bearer : Bearer) (grants : List Grant) : List String :=
  (grants.filter (·.bearer = bearer)).map Grant.name

@[simp] theorem namesOf_append (bearer : Bearer) (grants more : List Grant) :
    namesOf bearer (grants ++ more) = namesOf bearer grants ++ namesOf bearer more := by
  simp [namesOf]

namespace Function

def labels (F : Function) : List String := F.blocks.map (·.label)

/-- The names of the parameters and of the instructions that have one. -/
def valueNames (F : Function) : List String :=
  F.params.map (·.name) ++ F.insts.filterMap (·.name)

end Function

namespace Builder

variable {b b' : Builder} {call : Call}

def nextGrant (b : Builder) (bearer : Bearer) (base : String) : Grant :=
  ⟨bearer, base, b.names.getD base 0⟩

/-- The name that a call is given. A call that fails is given none. -/
def grant? (b : Builder) : Call → Option Grant
  | .startBody => if b.blocks = [] then some (b.nextGrant .block "entry") else none
  | .newBlock label => some (b.nextGrant .block label)
  | .emitNamed _ name _ _ => if b.current.isSome then some (b.nextGrant .value name) else none
  | .emitAlloca (some (_, name)) _ =>
    if b.blocks = [] then none else some (b.nextGrant .value name)
  | .emitAlloca none _ | .selectBlock _ | .emit .. | .bind .. | .terminate _ | .setTerminator ..
  | .endBody => none

/-- The names that calls are given one after another. -/
def grants (b : Builder) : List Call → List Grant
  | [] => []
  | call :: rest => (b.grant? call).toList ++ (b.perform call).2.grants rest

/-! What a call does to the names. -/

/-- The names in the code change by a grant, and the base of the grant is used up. -/
structure Awards (b b' : Builder) (grant : Option Grant) : Prop where
  params : b'.params = b.params
  labels : b'.blocks.map (·.label) = b.blocks.map (·.label) ++ namesOf .block grant.toList
  values : List.Perm (b'.insts.filterMap (·.name))
    (b.insts.filterMap (·.name) ++ namesOf .value grant.toList)
  counts : ∀ base, b.names.getD base 0 ≤ b'.names.getD base 0
  taken : ∀ g ∈ grant, g.count = b.names.getD g.base 0 ∧ g.count < b'.names.getD g.base 0

/-- Nothing gets a name, though one may be used up. -/
theorem Awards.nothing (hparams : b'.params = b.params)
    (hlabels : b'.blocks.map (·.label) = b.blocks.map (·.label))
    (hvalues : List.Perm (b'.insts.filterMap (·.name)) (b.insts.filterMap (·.name)))
    (hcounts : ∀ base, b.names.getD base 0 ≤ b'.names.getD base 0) : b.Awards b' none := by
  refine ⟨hparams, ?_, ?_, hcounts, ?_⟩
  · rw [hlabels]
    exact (List.append_nil _).symm
  · exact hvalues.trans (.of_eq (List.append_nil _).symm)
  · intro g hg
    cases hg

theorem Awards.same (b : Builder) : b.Awards b none := .nothing rfl rfl (.refl _) fun _ => Nat.le_refl _

theorem lt_uniqueName (b : Builder) (base : String) :
    b.names.getD base 0 < (b.uniqueName base).2.names.getD base 0 := by
  rw [Labelled.uniqueName_getD, if_pos rfl]
  exact Nat.lt_succ_self _

theorem awards_withBlock (b : Builder) (label : String) :
    b.Awards (b.withBlock label) (some (b.nextGrant .block label)) := by
  refine ⟨rfl, ?_, ?_, Labelled.le_uniqueName b label, ?_⟩
  · exact List.map_append
  · simp [insts, withBlock, newBlock, uniqueName, namesOf, nextGrant]
  · intro g hg
    obtain rfl := Option.some.inj hg
    exact ⟨rfl, b.lt_uniqueName label⟩

/-- A value gets the next name of a base. -/
theorem awards_value {base : String} {inst : Instruction} (hparams : b'.params = b.params)
    (hlabels : b'.blocks.map (·.label) = b.blocks.map (·.label))
    (hinsts : List.Perm b'.insts (inst :: b.insts)) (hname : inst.name = some (b.uniqueName base).1)
    (hnames : b'.names = (b.uniqueName base).2.names) : b.Awards b' (some (b.nextGrant .value base)) := by
  refine ⟨hparams, ?_, ?_, ?_, ?_⟩
  · rw [hlabels]
    exact (List.append_nil _).symm
  · refine (hinsts.filterMap _).trans ?_
    rw [List.filterMap_cons_some hname]
    exact (List.perm_append_singleton _ _).symm
  · intro other
    rw [hnames]
    exact Labelled.le_uniqueName b base other
  · intro g hg
    obtain rfl := Option.some.inj hg
    rw [hnames]
    exact ⟨rfl, b.lt_uniqueName base⟩

theorem withInst_labels (i : BlockId) (operation : Operation) (type : Ty) (name : Option String) :
    (b.withInst i operation type name).blocks.map (·.label) = b.blocks.map (·.label) := by
  refine map_modify ?_ i
  exact fun _ => rfl

theorem withTerminator_labels (i : BlockId) (terminator : Terminator) :
    (b.withTerminator i terminator).blocks.map (·.label) = b.blocks.map (·.label) := by
  refine map_modify ?_ i
  exact fun _ => rfl

theorem awards_withTerminator (b : Builder) (i : BlockId) (terminator : Terminator) :
    b.Awards (b.withTerminator i terminator) none :=
  .nothing rfl (withTerminator_labels i terminator)
    (.of_eq (by rw [withTerminator_insts])) fun _ => Nat.le_refl _

theorem Awards.withCurrent {grant : Option Grant} (h : b.Awards b' grant) (current : Option BlockId) :
    b.Awards (b'.withCurrent current) grant :=
  ⟨h.params, h.labels, h.values, h.counts, h.taken⟩

/-! Calls. -/

theorem startBody_awards (b : Builder) :
    b.Awards (b.perform .startBody).2 (b.grant? .startBody) := by
  by_cases hblocks : b.blocks = []
  · have hstart : (b.perform .startBody).2 = (b.withBlock "entry").withCurrent (some 0) := by
      rw [perform, startBody_eq hblocks]
      rfl
    rw [hstart, grant?, if_pos hblocks]
    exact (b.awards_withBlock "entry").withCurrent _
  · have hfail : (b.perform .startBody).2 = b := by
      rw [perform]
      simp [startBody, hblocks, Outcome.map]
    rw [hfail, grant?, if_neg hblocks]
    exact .same b

theorem selectBlock_awards (b : Builder) (i : BlockId) : b.Awards (b.selectBlock i).2 none := by
  unfold selectBlock
  split
  · exact .same b
  · split
    · exact .same b
    · exact (Awards.same b).withCurrent (some i)

theorem emit_awards (hselected : ∀ i, b.current = some i → i < b.blocks.length)
    (operation : Operation) (type : Ty) : b.Awards (b.emit operation type).2 none := by
  cases hcurrent : b.current with
  | none =>
    rw [emit, append, hcurrent]
    exact .same b
  | some i =>
    rw [emit, append_eq hcurrent]
    exact .nothing rfl (withInst_labels i operation type none)
      ((withInst_insts (hselected i hcurrent) operation type none).filterMap _)
      fun _ => Nat.le_refl _

/-- The name is used up in any case. -/
theorem emitNamed_awards (hselected : ∀ i, b.current = some i → i < b.blocks.length)
    (decl : DeclId) (name : String) (operation : Operation) (type : Ty) :
    b.Awards (b.perform (.emitNamed decl name operation type)).2
      (b.grant? (.emitNamed decl name operation type)) := by
  have hkept : (b.uniqueName name).2.current = b.current := rfl
  cases hcurrent : b.current with
  | none =>
    have hfail : (b.perform (.emitNamed decl name operation type)).2 = (b.uniqueName name).2 := by
      simp only [perform, emitNamed, append, hkept, hcurrent, Outcome.map]
    rw [hfail, grant?, hcurrent]
    exact .nothing rfl rfl (.refl _) (Labelled.le_uniqueName b name)
  | some i =>
    have hdone : (b.perform (.emitNamed decl name operation type)).2 =
        ((b.uniqueName name).2.withInst i operation type (some (b.uniqueName name).1)).bind decl
          (.inst b.nextInst type) := by
      rw [perform, emitNamed]
      dsimp only
      rw [append_eq (hkept.trans hcurrent)]
      rfl
    have hlt : i < (b.uniqueName name).2.blocks.length := hselected i hcurrent
    rw [hdone, grant?, hcurrent]
    exact awards_value rfl (withInst_labels i operation type _)
      (withInst_insts hlt operation type (some (b.uniqueName name).1)) rfl rfl

theorem emitAlloca_awards (b : Builder) (binding : Option (DeclId × String)) (type : Ty) :
    b.Awards (b.perform (.emitAlloca binding type)).2
      (b.grant? (.emitAlloca binding type)) := by
  by_cases hblocks : b.blocks = []
  · have hfail : (b.perform (.emitAlloca binding type)).2 = b := by
      simp [perform, emitAlloca, hblocks, Outcome.map]
    have hnone : b.grant? (.emitAlloca binding type) = none := by
      cases binding <;> simp [grant?, hblocks]
    rw [hfail, hnone]
    exact .same b
  · cases binding with
    | none =>
      rw [perform, emitAlloca_none_eq hblocks, grant?]
      refine .nothing rfl rfl ?_ fun _ => Nat.le_refl _
      simp [Outcome.map, insts, withSlot_slots]
    | some named =>
      obtain ⟨decl, name⟩ := named
      rw [perform, emitAlloca_some_eq hblocks, grant?, if_neg hblocks]
      have hinsts : List.Perm (b.withLocal decl name type).insts
          (⟨b.nextInst, .alloca type, .ptr type, some (b.uniqueName name).1⟩ :: b.insts) := by
        have hslots : (b.withLocal decl name type).slots = b.slots ++
            [⟨b.nextInst, .alloca type, .ptr type, some (b.uniqueName name).1⟩] := rfl
        rw [insts, hslots, withLocal_blocks, List.append_assoc]
        exact List.perm_middle
      exact awards_value rfl rfl hinsts rfl rfl

theorem setTerminator_awards (b : Builder) (i : BlockId) (terminator : Terminator) :
    b.Awards (b.setTerminator i terminator).2 none := by
  rcases b.setTerminator_result i terminator with ⟨e, hfail⟩ | ⟨_, hset⟩
  · rw [hfail]
    exact .same b
  · rw [hset]
    exact (b.awards_withTerminator i terminator).withCurrent _

theorem terminate_awards (b : Builder) (terminator : Terminator) :
    b.Awards (b.terminate terminator).2 none := by
  rw [terminate]
  cases hcurrent : b.current with
  | none => exact .same b
  | some i =>
    dsimp only
    rcases b.setTerminator_result i terminator with ⟨e, hfail⟩ | ⟨_, hset⟩
    · rw [hfail]
      exact .same b
    · rw [hset]
      exact b.awards_withTerminator i terminator

theorem endBody_awards (b : Builder) : b.Awards b.endBody.2 none := by
  have hclosed : b.Awards (b.withCurrent none) none := (Awards.same b).withCurrent none
  unfold endBody
  cases hcurrent : b.current with
  | none =>
    dsimp only
    rw [checkTerminated_snd]
    exact .same b
  | some i =>
    dsimp only
    split
    · rcases (b.withCurrent none).setTerminator_result i (.ret none) with
        ⟨e, hfail⟩ | ⟨_, hset⟩
      · rw [withCurrent] at hfail
        rw [hfail]
        exact hclosed
      · rw [withCurrent] at hset
        rw [hset]
        dsimp only
        rw [checkTerminated_snd]
        exact (b.awards_withTerminator i (.ret none)).withCurrent _
    · split <;> exact hclosed

theorem perform_awards (hselected : ∀ i, b.current = some i → i < b.blocks.length) (call : Call) :
    b.Awards (b.perform call).2 (b.grant? call) := by
  cases call with
  | startBody => exact b.startBody_awards
  | newBlock label => exact b.awards_withBlock label
  | selectBlock block => exact b.selectBlock_awards block
  | emit operation type => exact emit_awards hselected operation type
  | emitNamed decl name operation type => exact emitNamed_awards hselected decl name operation type
  | emitAlloca binding type => exact b.emitAlloca_awards binding type
  | bind decl value => exact .nothing rfl rfl (.refl _) fun _ => Nat.le_refl _
  | terminate terminator => exact b.terminate_awards terminator
  | setTerminator block terminator => exact b.setTerminator_awards block terminator
  | endBody => exact b.endBody_awards

end Builder

/-! Names that agree. -/

namespace Grant

variable {g g' : Grant}

theorem name_eq_of_clashes (h : g.Clashes g') : g.name = g'.name := by
  obtain ⟨_, hzero, _, hbase⟩ := h
  rw [name, hzero, Builder.numberedName_zero, hbase]

/-- Different grants have one name only if a base is spelled like a name with a number. -/
theorem clashes_of_name_eq (hbearer : g.bearer = g'.bearer) (hname : g.name = g'.name)
    (hne : (g.base, g.count) ≠ (g'.base, g'.count)) : g.Clashes g' ∨ g'.Clashes g := by
  by_cases hcount : g.count = 0
  · by_cases hcount' : g'.count = 0
    · rw [name, name, hcount, hcount'] at hname
      exact absurd (Prod.ext hname (hcount.trans hcount'.symm)) hne
    · rw [name, hcount] at hname
      exact .inl ⟨hbearer, hcount, hcount', hname⟩
  · by_cases hcount' : g'.count = 0
    · have hbase : g'.base = g.name := by
        rw [hname, name, hcount', Builder.numberedName_zero]
      exact .inr ⟨hbearer.symm, hcount', hcount, hbase⟩
    · obtain ⟨hbase, heq⟩ := Builder.numberedName_inj_of_ne_zero hcount hcount' hname
      exact absurd (Prod.ext hbase heq) hne

end Grant

theorem namesOf_nodup_iff {grants : List Grant}
    (h : (grants.map fun g => (g.base, g.count)).Nodup) (bearer : Bearer) :
    (namesOf bearer grants).Nodup ↔
      ∀ g ∈ grants, g.bearer = bearer → ∀ g' ∈ grants, ¬ g.Clashes g' := by
  have hnodup : (grants.filter (·.bearer = bearer)).Nodup := (List.Nodup.of_map _ h).filter _
  rw [namesOf, List.nodup_map_iff_inj_on hnodup]
  simp only [List.mem_filter, decide_eq_true_eq]
  constructor
  · intro hinj g hg hbearer g' hg' hclash
    have heq := hinj g ⟨hg, hbearer⟩ g' ⟨hg', hclash.1.symm.trans hbearer⟩
      (Grant.name_eq_of_clashes hclash)
    obtain ⟨_, hzero, hnot, _⟩ := hclash
    exact hnot (heq ▸ hzero)
  · rintro hapart g ⟨hg, hbearer⟩ g' ⟨hg', hbearer'⟩ hname
    by_contra hne
    have hkeys : (g.base, g.count) ≠ (g'.base, g'.count) :=
      fun heq => hne (List.inj_on_of_nodup_map h hg hg' heq)
    rcases Grant.clashes_of_name_eq (hbearer.trans hbearer'.symm) hname hkeys with hclash | hclash
    · exact hapart g hg hbearer g' hg' hclash
    · exact hapart g' hg' hbearer' g hg hclash

/-! Runs of calls. -/

namespace Builder

variable {b b' : Builder} {grants : List Grant}

/-- No name of a base is given out twice, and the names in the code are those given out. -/
structure Tallied (b : Builder) (grants : List Grant) : Prop where
  below : ∀ g ∈ grants, g.count < b.names.getD g.base 0
  apart : (grants.map fun g => (g.base, g.count)).Nodup
  labels : b.blocks.map (·.label) = namesOf .block grants
  values : List.Perm (b.params.map (·.name) ++ b.insts.filterMap (·.name)) (namesOf .value grants)

theorem Tallied.awards {grant : Option Grant} (h : b.Tallied grants) (hawards : b.Awards b' grant) :
    b'.Tallied (grants ++ grant.toList) := by
  refine ⟨?_, ?_, ?_, ?_⟩
  · intro g hg
    rcases List.mem_append.mp hg with hold | hnew
    · exact Nat.lt_of_lt_of_le (h.below g hold) (hawards.counts g.base)
    · exact (hawards.taken g (Option.mem_toList.mp hnew)).2
  · rw [List.map_append, List.nodup_append]
    refine ⟨h.apart, ?_, ?_⟩
    · cases grant <;> simp
    · intro key hkey key' hkey' heq
      obtain ⟨g, hg, rfl⟩ := List.mem_map.mp hkey
      obtain ⟨g', hg', rfl⟩ := List.mem_map.mp hkey'
      obtain ⟨hbase, hcount⟩ := Prod.mk.inj heq
      have hbelow := h.below g hg
      have htaken := (hawards.taken g' (Option.mem_toList.mp hg')).1
      rw [hbase] at hbelow
      omega
  · rw [hawards.labels, h.labels, namesOf_append]
  · rw [hawards.params, namesOf_append]
    refine (hawards.values.append_left _).trans ?_
    rw [← List.append_assoc]
    exact h.values.append_right _

theorem Tallied.after {log : List LogEntry} (h : b.Tallied grants) (hmatches : b.Matches log)
    (calls : List Call) : (b.after calls).Tallied (grants ++ b.grants calls) := by
  induction calls generalizing b grants log with
  | nil =>
    rw [Builder.grants, List.append_nil]
    exact h
  | cons call rest ih =>
    have hstep := h.awards (perform_awards hmatches.selected call)
    have hrest := ih hstep ((b.perform_effect call).matches hmatches)
    rw [List.append_assoc] at hrest
    exact hrest

theorem tallied_new (name : String) (result : Ty) {params : List Param}
    (hparams : (params.map (·.name)).Nodup) :
    (new name result params).Tallied (params.map Grant.ofParam) := by
  refine ⟨?_, ?_, ?_, ?_⟩
  · intro g hg
    obtain ⟨param, hparam, rfl⟩ := List.mem_map.mp hg
    have hone := getD_foldl_insert params ∅ (.inl (List.mem_map_of_mem hparam))
    exact hone ▸ Nat.zero_lt_one
  · have hkeys := hparams.map (f := fun text => (text, 0)) fun _ _ heq => (Prod.mk.inj heq).1
    rw [List.map_map] at hkeys ⊢
    exact hkeys
  · simp [namesOf, Grant.ofParam, new, List.filter_map]
  · simp [namesOf, Grant.ofParam, new, insts, Grant.name, List.filter_map, Function.comp_def]

theorem toFunction_labels (b : Builder) : b.toFunction.labels = b.blocks.map (·.label) := by
  unfold Function.labels toFunction
  cases b.blocks <;> rfl

theorem Matches.toFunction_valueNames {log : List LogEntry} (h : b.Matches log) :
    b.toFunction.valueNames = b.params.map (·.name) ++ b.insts.filterMap (·.name) := by
  by_cases hblocks : b.blocks = []
  · simp [Function.valueNames, Function.insts, toFunction, insts, hblocks, h.hoisted hblocks]
  · rw [Function.valueNames, toFunction_insts hblocks]
    rfl

/-- The names of the parameters, and those that calls are given after them. -/
def givenOut (name : String) (result : Ty) (params : List Param) (calls : List Call) : List Grant :=
  params.map Grant.ofParam ++ (new name result params).grants calls

/-- After any calls the blocks are labelled by the names given out to them, and so are the values.
No two labels and no two names of values agree exactly if no base is spelled like a numbered name
that is given out to something of the same kind; so it is if no base ends in a dot and digits. -/
theorem after_names_nodup_iff (name : String) (result : Ty) (params : List Param)
    (hparams : (params.map (·.name)).Nodup) (calls : List Call) :
    ((new name result params).after calls).toFunction.labels =
        namesOf .block (givenOut name result params calls) ∧
      List.Perm ((new name result params).after calls).toFunction.valueNames
        (namesOf .value (givenOut name result params calls)) ∧
      ((((new name result params).after calls).toFunction.labels.Nodup ∧
          ((new name result params).after calls).toFunction.valueNames.Nodup) ↔
        ∀ g ∈ givenOut name result params calls, ∀ g' ∈ givenOut name result params calls,
          ¬ g.Clashes g') ∧
      ((∀ g ∈ givenOut name result params calls, Unnumbered g.base) →
        ((new name result params).after calls).toFunction.labels.Nodup ∧
          ((new name result params).after calls).toFunction.valueNames.Nodup) := by
  have htallied : ((new name result params).after calls).Tallied
      (givenOut name result params calls) :=
    (tallied_new name result hparams).after (matches_new name result params) calls
  have hlabels := (toFunction_labels _).trans htallied.labels
  have hvalues := htallied.values
  rw [← (matches_after name result params calls).toFunction_valueNames] at hvalues
  have hiff : (((new name result params).after calls).toFunction.labels.Nodup ∧
      ((new name result params).after calls).toFunction.valueNames.Nodup) ↔
        ∀ g ∈ givenOut name result params calls, ∀ g' ∈ givenOut name result params calls,
          ¬ g.Clashes g' := by
    rw [hlabels, hvalues.nodup_iff, namesOf_nodup_iff htallied.apart,
      namesOf_nodup_iff htallied.apart]
    constructor
    · rintro ⟨hblocks, hrest⟩ g hg
      cases hbearer : g.bearer with
      | block => exact hblocks g hg hbearer
      | value => exact hrest g hg hbearer
    · intro h
      exact ⟨fun g hg _ => h g hg, fun g hg _ => h g hg⟩
  refine ⟨hlabels, hvalues, hiff, fun hbases => hiff.mpr ?_⟩
  rintro g hg g' _ ⟨_, _, hcount, hbase⟩
  exact (hbases g hg).ne_numberedName hcount hbase

/-- Bases that are asked for repeatedly, by blocks and by values and after a parameter. -/
theorem after_names_nodup_iff_shared :
    let calls : List Call := [.startBody, .newBlock "a", .newBlock "entry",
      .emitAlloca (some (3, "a")) .i32, .emitNamed 4 "a" (.load (.inst 0 (.ptr .i32))) .i32]
    let F := ((new "f" .void [⟨"a", .i32⟩]).after calls).toFunction
    F.labels = ["entry", "a.1", "entry.1"] ∧ F.valueNames = ["a", "a.2", "a.3"] ∧
      F.labels.Nodup ∧ F.valueNames.Nodup := by
  intro calls F
  have hnames := after_names_nodup_iff "f" .void [⟨"a", .i32⟩] (by decide) calls
  exact ⟨by decide +kernel, by decide +kernel, hnames.2.2.1.mpr (by decide +kernel)⟩

/-- A base that is spelled like a numbered name: two blocks have one label, and a slot has the
name of a parameter. -/
theorem numberedBase_repeats :
    ¬ ((new "f" .void []).after [.newBlock "x", .newBlock "x", .newBlock "x.1"]).toFunction.labels.Nodup ∧
    ¬ ((new "f" .void [⟨"x.1", .i32⟩]).after [.startBody, .emitAlloca (some (3, "x")) .i32,
      .emitAlloca (some (4, "x")) .i32]).toFunction.valueNames.Nodup := by
  decide +kernel

end Builder

end MicroC.Ir
