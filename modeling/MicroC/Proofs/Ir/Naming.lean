import MicroC.Ir.Text
import MicroC.Proofs.Ir.Paths
import MicroC.Proofs.Run

/-!
Names in the text of a function. Parameters, blocks and stack slots carry names; a block or a slot
takes the next number of its base, so that no name comes twice as long as the parameters have
different ones. All other results are numbered when the text is written, and no name is a number.
A result has a name in the text just if it has a value, and in well-typed code operands without a
value are never used.
-/

namespace MicroC.Ir

namespace Builder

variable {b b' : Builder} {base : String}

/-! Names and numbers. -/

/-- A text that names are made from: it does not end in a dot and digits, and is not a number. -/
structure IsBase (text : String) : Prop where
  unnumbered : Unnumbered text
  notNumber : ∃ c ∈ text.toList, c.isDigit = false

theorem isBase_of_mem_blockLabels {label : String} (h : label ∈ blockLabels) : IsBase label := by
  have hall : blockLabels.all fun label => label.toList.any fun c => !c.isDigit := by decide
  obtain ⟨c, hc, hdigit⟩ := List.any_eq_true.mp (List.all_eq_true.mp hall label h)
  exact ⟨unnumbered_of_mem_blockLabels h, c, hc, by simpa using hdigit⟩

theorem IsBase.numberedName_ne_toString (h : IsBase base) (count n : Nat) :
    numberedName base count ≠ toString n := by
  intro heq
  obtain ⟨c, hc, hdigit⟩ := h.notNumber
  have hmem : c ∈ (numberedName base count).toList := by
    unfold numberedName
    split
    · exact hc
    · simp [hc]
  rw [heq] at hmem
  rw [isDigit_of_mem_toString hmem] at hdigit
  cases hdigit

/-- A name from a base and a number that has been used up. -/
def Made (b : Builder) (name : String) : Prop :=
  ∃ base count, IsBase base ∧ count < b.names.getD base 0 ∧ name = numberedName base count

theorem Made.mono {name : String} (h : b.Made name)
    (hnames : ∀ base, b.names.getD base 0 ≤ b'.names.getD base 0) : b'.Made name := by
  obtain ⟨base, count, hbase, hlt, hname⟩ := h
  exact ⟨base, count, hbase, Nat.lt_of_lt_of_le hlt (hnames base), hname⟩

theorem Made.ne_toString {name : String} (h : b.Made name) (n : Nat) : name ≠ toString n := by
  obtain ⟨base, count, hbase, _, rfl⟩ := h
  exact hbase.numberedName_ne_toString count n

/-- The next name of a base has not been made yet. -/
theorem IsBase.not_made (h : IsBase base) : ¬ b.Made (numberedName base (b.names.getD base 0)) := by
  rintro ⟨base', count, hbase', hlt, hname⟩
  obtain ⟨rfl, rfl⟩ := numberedName_inj h.unnumbered hbase'.unnumbered hname
  exact Nat.lt_irrefl _ hlt

theorem IsBase.made_uniqueName (h : IsBase base) :
    (b.uniqueName base).2.Made (numberedName base (b.names.getD base 0)) := by
  refine ⟨base, _, h, ?_, rfl⟩
  rw [Labelled.uniqueName_getD, if_pos rfl]
  exact Nat.lt_succ_self _

/-! Names of blocks and slots. -/

/-- The names that have been given to blocks and stack slots. -/
def given (b : Builder) : List String := b.blocks.map (·.label) ++ b.slots.filterMap (·.name)

/-- All names are made from bases, and those that have been given differ from each other and from
those of the parameters. -/
structure Named (b : Builder) : Prop where
  made : ∀ name ∈ b.params.map (·.name) ++ b.given, b.Made name
  apart : ∀ name ∈ b.params.map (·.name), name ∉ b.given
  nodup : b.given.Nodup

namespace Named

/-- A step that gives no name. -/
theorem congr (h : b.Named) (hnames : b'.names = b.names) (hparams : b'.params = b.params)
    (hgiven : b'.given = b.given) : b'.Named := by
  constructor
  · intro name hname
    rw [hparams, hgiven] at hname
    exact (h.made name hname).mono fun _ => Nat.le_of_eq (by rw [hnames])
  · rw [hparams, hgiven]
    exact h.apart
  · rw [hgiven]
    exact h.nodup

/-- A step that gives the next name of a base. -/
theorem add (h : b.Named) (hbase : IsBase base) (hnames : b'.names = (b.uniqueName base).2.names)
    (hparams : b'.params = b.params)
    (hgiven : b'.given.Perm (numberedName base (b.names.getD base 0) :: b.given)) : b'.Named := by
  have hgrows : ∀ other, b.names.getD other 0 ≤ b'.names.getD other 0 := by
    intro other
    rw [hnames]
    exact Labelled.le_uniqueName b base other
  constructor
  · intro name hname
    rw [hparams] at hname
    rcases List.mem_append.mp hname with hparam | hmem
    · exact (h.made name (List.mem_append_left _ hparam)).mono hgrows
    · rcases List.mem_cons.mp (hgiven.subset hmem) with rfl | hold
      · exact hbase.made_uniqueName.mono fun _ => Nat.le_of_eq (by rw [hnames])
      · exact (h.made name (List.mem_append_right _ hold)).mono hgrows
  · intro name hname hmem
    rw [hparams] at hname
    rcases List.mem_cons.mp (hgiven.subset hmem) with rfl | hold
    · exact hbase.not_made (h.made _ (List.mem_append_left _ hname))
    · exact h.apart name hname hold
  · rw [hgiven.nodup_iff, List.nodup_cons]
    exact ⟨fun hmem => hbase.not_made (h.made _ (List.mem_append_right _ hmem)), h.nodup⟩

theorem withBlock (h : b.Named) (hbase : IsBase base) : (b.withBlock base).Named := by
  refine h.add hbase rfl rfl ?_
  have hlabels : (b.withBlock base).given = b.blocks.map (·.label) ++
      [numberedName base (b.names.getD base 0)] ++ b.slots.filterMap (·.name) := by
    rw [given, withBlock_slots]
    exact congrArg (· ++ _) List.map_append
  rw [hlabels, List.append_assoc]
  exact List.perm_middle

theorem withLocal (h : b.Named) (hbase : IsBase base) (decl : DeclId) (type : Ty) :
    (b.withLocal decl base type).Named := by
  refine h.add hbase rfl rfl ?_
  have hslots : (b.withLocal decl base type).given =
      b.given ++ [numberedName base (b.names.getD base 0)] := by
    rw [given, given, withLocal_blocks, List.append_assoc]
    exact congrArg (_ ++ ·) List.filterMap_append
  rw [hslots]
  exact List.perm_append_comm

theorem withSlot (h : b.Named) (type : Ty) : (b.withSlot type none).Named := by
  refine h.congr rfl rfl ?_
  rw [given, given, withSlot_slots, List.filterMap_append]
  simp

/-- A step that changes one block but not its label. -/
theorem modify (h : b.Named) {i : BlockId} {change : Block → Block} (hnames : b'.names = b.names)
    (hparams : b'.params = b.params) (hslots : b'.slots = b.slots)
    (hblocks : b'.blocks = b.blocks.modify i change)
    (hchange : ∀ block, (change block).label = block.label) : b'.Named := by
  refine h.congr hnames hparams ?_
  rw [given, given, hslots, hblocks, map_modify hchange]

end Named

end Builder

/-- A function under construction of which the text can be read back: names differ, and
instructions other than stack slots have none of their own. -/
structure Builder.Legible (b : Builder) : Prop extends b.Named where
  unnamed : ∀ block ∈ b.blocks, ∀ inst ∈ block.insts, inst.name = none

theorem Builder.getD_foldl_insert {name : String} (params : List Param)
    (names : Std.TreeMap String Nat) (h : name ∈ params.map (·.name) ∨ names.getD name 0 = 1) :
    (params.foldl (fun names p => names.insert p.name 1) names).getD name 0 = 1 := by
  induction params generalizing names with
  | nil => simpa using h
  | cons param rest ih =>
    apply ih
    by_cases heq : param.name = name
    · exact .inr (by simp [heq])
    · have hkept : (names.insert param.name 1).getD name 0 = names.getD name 0 := by
        simp [Std.TreeMap.getD_insert, heq]
      rw [hkept]
      simpa [Ne.symm heq] using h

namespace Builder.Legible

variable {b b' : Builder} {base : String}

/-- A step that gives no name and changes no block. -/
theorem congr (h : b.Legible) (hnames : b'.names = b.names) (hparams : b'.params = b.params)
    (hgiven : b'.given = b.given) (hblocks : b'.blocks = b.blocks) : b'.Legible :=
  ⟨h.toNamed.congr hnames hparams hgiven, hblocks ▸ h.unnamed⟩

theorem withBlock (h : b.Legible) (hbase : IsBase base) : (b.withBlock base).Legible := by
  refine ⟨h.toNamed.withBlock hbase, ?_⟩
  obtain ⟨text, hblocks⟩ := b.withBlock_blocks base
  intro block hblock
  rw [hblocks] at hblock
  rcases List.mem_append.mp hblock with hold | hnew
  · exact h.unnamed block hold
  · rw [List.mem_singleton.mp hnew]
    exact List.forall_mem_nil _

/-- The names of the parameters are used up from the start. -/
theorem new {name : String} {result : Ty} {params : List Param}
    (hbase : ∀ param ∈ params, IsBase param.name) : (Builder.new name result params).Legible := by
  have hcount : ∀ param ∈ params, (Builder.new name result params).names.getD param.name 0 = 1 :=
    fun _ hparam => getD_foldl_insert params ∅ (.inl (List.mem_map_of_mem hparam))
  refine ⟨⟨?_, fun _ _ => List.not_mem_nil, List.nodup_nil⟩, List.forall_mem_nil _⟩
  intro text htext
  rw [given, Builder.new, List.map_nil, List.filterMap_nil, List.append_nil, List.append_nil]
    at htext
  obtain ⟨param, hparam, rfl⟩ := List.mem_map.mp htext
  exact ⟨param.name, 0, hbase param hparam, by rw [hcount param hparam]; decide, rfl⟩

/-- A step that changes one block but not its label. -/
theorem modify (h : b.Legible) {i : BlockId} {change : Block → Block} (hnames : b'.names = b.names)
    (hparams : b'.params = b.params) (hslots : b'.slots = b.slots)
    (hblocks : b'.blocks = b.blocks.modify i change)
    (hlabel : ∀ block, (change block).label = block.label)
    (hchange : ∀ block, (∀ inst ∈ block.insts, inst.name = none) →
      ∀ inst ∈ (change block).insts, inst.name = none) : b'.Legible := by
  refine ⟨h.toNamed.modify hnames hparams hslots hblocks hlabel, ?_⟩
  intro block hblock
  rw [hblocks] at hblock
  obtain ⟨j, hj⟩ := List.mem_iff_getElem?.mp hblock
  rw [List.getElem?_modify] at hj
  obtain ⟨old, hold, rfl⟩ := Option.map_eq_some_iff.mp hj
  have hunnamed := h.unnamed old (List.mem_of_getElem? hold)
  split
  · exact hchange old hunnamed
  · exact hunnamed

theorem withInst (h : b.Legible) (i : BlockId) (operation : Operation) (type : Ty) :
    (b.withInst i operation type none).Legible := by
  refine h.modify rfl rfl rfl rfl (fun _ => rfl) fun block hunnamed inst hinst => ?_
  rcases List.mem_append.mp hinst with hold | hnew
  · exact hunnamed inst hold
  · rw [List.mem_singleton.mp hnew]

theorem withTerminator (h : b.Legible) (i : BlockId) (terminator : Terminator) :
    (b.withTerminator i terminator).Legible :=
  h.modify rfl rfl rfl rfl (fun _ => rfl) fun _ hunnamed => hunnamed

end Builder.Legible

/-- Steps keep the text legible if variables are only declared under names that names can be made
from. -/
theorem Sketch.Step.legible {R : Sketch.Rules} {s s' : Sketch} (hstep : Sketch.Step R s s')
    (hR : ∀ d type, R.declares d type → Builder.IsBase d.name) (h : s.builder.Legible) :
    s'.builder.Legible := by
  cases hstep with
  | inst _ _ _ _ => exact h.withInst _ _ _
  | slot => exact ⟨h.toNamed.withSlot _, h.unnamed⟩
  | declare hd => exact ⟨h.toNamed.withLocal (hR _ _ hd) _ _, h.unnamed⟩
  | pass _ _ | select _ _ => exact h.congr rfl rfl rfl rfl
  | fork _ _ hTrue hFalse _ _ _ _ =>
    have hblocks := h.withBlock (Builder.isBase_of_mem_blockLabels hTrue)
    exact (hblocks.withBlock (Builder.isBase_of_mem_blockLabels hFalse)).withTerminator _ _
  | enter _ _ hlabel _ =>
    exact (h.withBlock (Builder.isBase_of_mem_blockLabels hlabel)).withTerminator _ _
  | jump _ _ _ _ _ | ret _ _ _ _ => exact h.withTerminator _ _

theorem Sketch.Steps.legible {R : Sketch.Rules} {s s' : Sketch} (h : Sketch.Steps R s s')
    (hR : ∀ d type, R.declares d type → Builder.IsBase d.name) (hs : s.builder.Legible) :
    s'.builder.Legible :=
  h.keeps (I := fun s => s.builder.Legible) (fun _ _ hstep => hstep.legible hR) hs

/-! Names of results in the text. -/

/-- The names of results are those of the instructions and the numbers from the first one on. -/
theorem resultNames_perm (next : Nat) (insts : List Instruction) :
    ∃ n, ((resultNames next insts).map Prod.snd).Perm
      (insts.filterMap (·.name) ++ (List.range' next n).map toString) := by
  induction insts generalizing next with
  | nil => exact ⟨0, .refl _⟩
  | cons inst rest ih =>
    unfold resultNames
    cases hname : inst.name with
    | some name =>
      obtain ⟨n, hperm⟩ := ih next
      refine ⟨n, ?_⟩
      rw [List.filterMap_cons_some hname]
      exact hperm.cons name
    | none =>
      rw [List.filterMap_cons_none hname]
      dsimp only
      split
      · exact ih next
      · obtain ⟨n, hperm⟩ := ih (next + 1)
        refine ⟨n + 1, ?_⟩
        rw [List.range'_succ, List.map_cons, List.map_cons]
        exact (hperm.cons _).trans List.perm_middle.symm

theorem resultNames_ids_sublist (next : Nat) (insts : List Instruction) :
    List.Sublist ((resultNames next insts).map Prod.fst) (insts.map (·.id)) := by
  induction insts generalizing next with
  | nil => exact .refl _
  | cons inst rest ih =>
    unfold resultNames
    split
    · exact (ih next).cons_cons _
    · split
      · exact (ih next).cons _
      · exact (ih (next + 1)).cons_cons _

theorem exists_resultName (next : Nat) {insts : List Instruction} {inst : Instruction}
    (hinst : inst ∈ insts) (htype : inst.type ≠ .void) :
    ∃ name, (inst.id, name) ∈ resultNames next insts := by
  induction insts generalizing next with
  | nil => cases hinst
  | cons first rest ih =>
    have hrest : ∀ next, inst ∈ rest → ∃ name, (inst.id, name) ∈ resultNames next rest :=
      fun next hmem => ih next hmem
    unfold resultNames
    rcases List.mem_cons.mp hinst with rfl | hmem
    · split
      next name _ => exact ⟨name, List.mem_cons_self⟩
      next =>
        rw [if_neg htype]
        exact ⟨_, List.mem_cons_self⟩
    · split
      · obtain ⟨name, hname⟩ := hrest next hmem
        exact ⟨name, List.mem_cons_of_mem _ hname⟩
      · split
        · exact hrest next hmem
        · obtain ⟨name, hname⟩ := hrest (next + 1) hmem
          exact ⟨name, List.mem_cons_of_mem _ hname⟩

/-- All names that the text of a function introduces. -/
def Naming.all (n : Naming) : List String := n.params ++ n.labels ++ n.results.map Prod.snd

namespace Function

variable {F : Function} {inst : Instruction}

/-- The result of an instruction is written with a name. -/
def HasName (F : Function) (inst : Instruction) (name : String) : Prop :=
  (Naming.ofFunction F).results.lookup inst.id = some name

theorem exists_hasName (hids : (F.insts.map (·.id)).Nodup) (hinst : inst ∈ F.insts)
    (htype : inst.type ≠ .void) : ∃ name, F.HasName inst name := by
  obtain ⟨name, hname⟩ := exists_resultName 0 hinst htype
  have hkeys := List.Nodup.sublist (resultNames_ids_sublist 0 F.insts) hids
  exact ⟨name, lookup_of_mem hkeys hname⟩

end Function

namespace Builder.Legible

variable {b : Builder}

theorem insts_names (h : b.Legible) : b.insts.filterMap (·.name) = b.slots.filterMap (·.name) := by
  rw [insts, List.filterMap_append]
  have hnone : (b.blocks.flatMap (·.insts)).filterMap (·.name) = [] := by
    rw [List.filterMap_eq_nil_iff]
    intro inst hinst
    obtain ⟨block, hblock, hmem⟩ := List.mem_flatMap.mp hinst
    exact h.unnamed block hblock inst hmem
  rw [hnone, List.append_nil]

/-- In the text of the function a name can come twice only among the parameters. -/
theorem all_nodup_iff (h : b.Legible) (hblocks : b.blocks ≠ []) :
    (Naming.ofFunction b.toFunction).all.Nodup ↔ (b.params.map (·.name)).Nodup := by
  obtain ⟨n, hperm⟩ := resultNames_perm 0 b.toFunction.insts
  rw [toFunction_insts hblocks, h.insts_names] at hperm
  have hlabels : b.toFunction.blocks.map (·.label) = b.blocks.map (·.label) := by
    unfold toFunction
    cases b.blocks with
    | nil => rfl
    | cons entry rest => rfl
  have hnames : (Naming.ofFunction b.toFunction).all = b.params.map (·.name) ++
      b.blocks.map (·.label) ++ (resultNames 0 b.insts).map Prod.snd := by
    rw [← hlabels, ← toFunction_insts hblocks]
    rfl
  have hall : (Naming.ofFunction b.toFunction).all.Perm
      (b.params.map (·.name) ++ b.given ++ (List.range' 0 n).map toString) := by
    have happend := hperm.append_left (b.params.map (·.name) ++ b.blocks.map (·.label))
    rw [hnames, given]
    simpa only [List.append_assoc] using happend
  have hnumbers : ((List.range' 0 n).map toString).Nodup :=
    List.Pairwise.map _ (fun _ _ hne heq => hne (toString_inj heq)) List.nodup_range'
  -- Given names are apart from the parameters, and numbers from both.
  rw [hall.nodup_iff, List.nodup_append, List.nodup_append]
  constructor
  · exact fun hnodup => hnodup.1.1
  · intro hparams
    refine ⟨⟨hparams, h.nodup, ?_⟩, hnumbers, ?_⟩
    · rintro name hname _ hgiven rfl
      exact h.apart name hname hgiven
    · rintro name hname _ hnumber rfl
      obtain ⟨k, _, hk⟩ := List.mem_map.mp hnumber
      exact (h.made name hname).ne_toString k hk.symm

end Builder.Legible

/-- What is used in well-typed code has a value. -/
theorem Function.WellTyped.ne_void_of_uses {F : Function} (h : F.WellTyped) {i : BlockId} {k : Nat}
    {v : Value} (hv : F.Uses i k v) : v.type ≠ .void := by
  obtain ⟨block, hblock, huse⟩ := hv
  have hblock := h block (List.mem_of_getElem? hblock)
  rcases huse with ⟨inst, hinst, hmem⟩ | ⟨_, t, ht, hmem⟩
  · exact ((hblock.insts inst (List.mem_of_getElem? hinst)).operands v hmem).ne_void
  · have ht := hblock.ends t ht
    cases t with
    | br _ => cases hmem
    | condBr cond _ _ =>
      rw [List.mem_singleton.mp hmem]
      exact ht.2.ne_void
    | ret value =>
      cases value with
      | none => cases hmem
      | some value =>
        rw [List.mem_singleton.mp hmem]
        exact ht.2.ne_void

/-! Texts that can be read back. -/

namespace Module

/-- The names of the global variables and the functions. -/
def symbols (m : Module) : List String := m.globals.map (·.name) ++ m.functions.map (·.name)

/-- The name that an operand gives belongs to a global variable or function of the module, and to
nothing else. -/
def Has (m : Module) : Value → Prop
  | .global name _ => (∃ g ∈ m.globals, g.name = name) ∧ m.symbols.count name = 1
  | .function name _ => (∃ f ∈ m.functions, f.name = name) ∧ m.symbols.count name = 1
  | .const _ | .inst _ _ | .param _ _ => True

/-- An operand is written as the name of the one instruction, the parameter, the global variable
or the function that it stands for. -/
def Writes (m : Module) (F : Function) : Value → Prop
  | .inst id type => ∃ inst name, F.insts.filter (·.id = id) = [inst] ∧ inst.type = type ∧
    F.HasName inst name ∧ (Naming.ofFunction F).value (.inst id type) = "%" ++ name
  | .param index type => ∃ param, F.params[index]? = some param ∧ param.type = type ∧
    (Naming.ofFunction F).value (.param index type) = "%" ++ param.name
  | .global name type => ∃ g ∈ m.globals, m.symbols.count g.name = 1 ∧
    (Naming.ofFunction F).value (.global name type) = "@" ++ g.name
  | .function name type => ∃ f ∈ m.functions, m.symbols.count f.name = 1 ∧
    (Naming.ofFunction F).value (.function name type) = "@" ++ f.name
  | .const _ => True

/-- The text of a module is unambiguous: in a function with a body no two parameters, blocks or
results have the same name, every result that has a value is named, and operands and the targets
of jumps are written as the names of what they stand for. -/
structure Unambiguous (m : Module) : Prop where
  distinct : ∀ F ∈ m.functions, F.blocks ≠ [] → (Naming.ofFunction F).all.Nodup
  named : ∀ F ∈ m.functions, ∀ inst ∈ F.insts, inst.type ≠ .void → ∃ name, F.HasName inst name
  operands : ∀ F ∈ m.functions, ∀ i k v, F.Uses i k v → m.Writes F v
  targets : ∀ F ∈ m.functions, ∀ block ∈ F.blocks, ∀ t ∈ block.terminator, ∀ j ∈ t.successors,
    ∃ target, F.blocks[j]? = some target ∧ (Naming.ofFunction F).label j = target.label

end Module

private theorem symbol_inj {name name' : String} (h : "@" ++ name = "@" ++ name') : name = name' := by
  have hlists := congrArg String.toList h
  rw [String.toList_append, @String.toList_append "@" name'] at hlists
  exact String.toList_inj.mp (List.append_cancel_left hlists)

namespace Function

variable {F : Function} {m : Module}

/-- The target of a jump is written as its label. -/
theorem FlowGraph.label_eq (h : F.FlowGraph) {block : Block} (hblock : block ∈ F.blocks)
    {t : Terminator} (ht : t ∈ block.terminator) {j : BlockId} (hj : j ∈ t.successors) :
    ∃ target, F.blocks[j]? = some target ∧ (Naming.ofFunction F).label j = target.label := by
  have hlt := h.targets block hblock t ht j hj
  refine ⟨F.blocks[j], List.getElem?_eq_getElem hlt, ?_⟩
  simp [Naming.label, Naming.ofFunction, List.getElem?_eq_getElem hlt]

/-- An operand that is defined and has a value is written as what it stands for, if that is in the
function or in the module. -/
theorem Defines.writes_iff {i k : Nat} {v : Value} (h : F.Defines i k v) (hv : v.type ≠ .void)
    (hnamed : ∀ inst ∈ F.insts, inst.type ≠ .void → ∃ name, F.HasName inst name) :
    m.Writes F v ↔ m.Has v := by
  cases v with
  | const _ => exact Iff.rfl
  | inst id type =>
    refine iff_of_true ?_ trivial
    obtain ⟨inst, hinst, rfl, _⟩ := h
    have hmem : inst ∈ F.insts.filter (·.id = id) := by simp [hinst]
    obtain ⟨hin, hid⟩ := List.mem_filter.mp hmem
    obtain ⟨name, hname⟩ := hnamed inst hin hv
    refine ⟨inst, name, hinst, rfl, hname, ?_⟩
    rw [HasName, of_decide_eq_true hid] at hname
    rw [Naming.value, hname]
  | param index type =>
    refine iff_of_true ?_ trivial
    obtain ⟨param, hparam, rfl⟩ := h
    refine ⟨param, hparam, rfl, ?_⟩
    simp [Naming.value, Naming.ofFunction, hparam]
  | global name type =>
    constructor
    · rintro ⟨g, hg, hcount, htext⟩
      rw [symbol_inj htext]
      exact ⟨⟨g, hg, rfl⟩, hcount⟩
    · rintro ⟨⟨g, hg, rfl⟩, hcount⟩
      exact ⟨g, hg, hcount, rfl⟩
  | function name type =>
    constructor
    · rintro ⟨f, hf, hcount, htext⟩
      rw [symbol_inj htext]
      exact ⟨⟨f, hf, rfl⟩, hcount⟩
    · rintro ⟨⟨f, hf, rfl⟩, hcount⟩
      exact ⟨f, hf, hcount, rfl⟩

end Function

end MicroC.Ir
