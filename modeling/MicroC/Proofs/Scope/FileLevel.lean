import MicroC.Proofs.Scope.Agreement
import MicroC.Samples

/-!
The names at file level. Inserting the top-level declarations one after another binds each
name to the declaration that defines it, or else to the first one; together with the walk
through the file this makes resolution the same as lexical scoping.
-/

namespace MicroC

namespace Decl

/-- A later declaration takes a name over if it is the first to define it. -/
theorem bindingOf_concat (seen : List Decl) (d : Decl) (name : String) :
    bindingOf (seen ++ [d]) name =
      if name = d.name then
        match bindingOf seen name with
        | none => some d
        | some old => if !old.isDefinition && d.isDefinition then some d else some old
      else bindingOf seen name := by
  by_cases hname : name = d.name
  · subst hname
    simp only [bindingOf, List.filter_append, List.filter_cons, List.filter_nil, if_true,
      List.find?_append, List.head?_append, decide_true]
    cases hdef : (seen.filter (·.name = d.name)).find? (·.isDefinition) with
    | some first =>
      have hfirst : first.isDefinition = true := by simpa using List.find?_some hdef
      simp [hfirst]
    | none =>
      cases hhead : (seen.filter (·.name = d.name)).head? with
      | none => cases hd : d.isDefinition <;> simp [hd]
      | some old =>
        have hmem : old ∈ seen.filter (·.name = d.name) := List.mem_of_head? hhead
        have hold : old.isDefinition = false := by simpa using List.find?_eq_none.mp hdef old hmem
        cases hd : d.isDefinition <;> simp [hd, hold]
  · have hne : d.name ≠ name := fun heq => hname heq.symm
    simp [bindingOf, hname, hne]

theorem mem_of_bindingOf {decls : List Decl} {name : String} {d : Decl}
    (h : bindingOf decls name = some d) : d ∈ decls ∧ d.name = name := by
  have hmem : d ∈ decls.filter (·.name = name) := by
    rcases Option.or_eq_some_iff.mp h with hdef | ⟨_, hhead⟩
    · exact List.mem_of_find?_eq_some hdef
    · exact List.mem_of_head? hhead
  simpa using hmem

end Decl

namespace ScopeTree

variable {t : ScopeTree} {file : Nat} {seen : List Decl} {builtin : Env} {d : Decl}

/-- Replacing the contents of the file's scope. -/
theorem ShowsOuter.update {top top' : Env} {scope scope' : Scope}
    (h : t.ShowsOuter file top builtin) (hget : t.get? file = some scope)
    (hparent : scope'.parent = scope.parent) (hkind : scope'.kind = scope.kind)
    (htop : ∀ name, scope'.get? name = top' name) :
    (t.update file scope').ShowsOuter file top' builtin := by
  obtain ⟨old, root, outer, hfile, hfileKind, _, hroot, hlt, houter, hbuiltin, hnone⟩ := h
  obtain rfl : old = scope := Option.some.inj (hfile.symm.trans hget)
  refine ⟨scope', root, outer, get?_update_self hget, ?_, htop, ?_, hlt, ?_, hbuiltin, hnone⟩
  · rw [hkind, hfileKind]
  · rw [hparent, hroot]
  · rw [get?_update_of_ne (Nat.ne_of_lt hlt), houter]

/-- One top-level declaration. -/
theorem ShowsOuter.insert (h : t.ShowsOuter file (Decl.bindingOf seen) builtin)
    (hnew : ∀ old ∈ seen, old.id ≠ d.id) :
    Agree (fun out _ => out.2.ShowsOuter file (Decl.bindingOf (seen ++ [d])) builtin)
      (t.insert file d) (Decl.merge seen d) := by
  obtain ⟨scope, hget, hkind, htop⟩ : ∃ scope, t.get? file = some scope ∧ scope.kind = .file ∧
      ∀ name, scope.get? name = Decl.bindingOf seen name := by
    obtain ⟨scope, _, _, hget, hkind, htop, _⟩ := h
    exact ⟨scope, hget, hkind, htop⟩
  rw [insert_eq hget, Scope.put, Decl.merge, htop d.name]
  cases hold : Decl.bindingOf seen d.name with
  | none =>
    refine .ok (h.update hget rfl rfl ?_)
    intro name
    have hfree : scope.get? d.name = none := (htop d.name).trans hold
    rw [Scope.get?_bind hfree, Decl.bindingOf_concat, htop name]
    by_cases hname : name = d.name
    · simp [hname, hold]
    · simp [hname]
  | some old =>
    have hid : old.id ≠ d.id := hnew old (Decl.mem_of_bindingOf hold).1
    have hbound : scope.get? d.name = some old := (htop d.name).trans hold
    have hkept : (!old.isDefinition && d.isDefinition) = false →
        ∀ name, scope.get? name = Decl.bindingOf (seen ++ [d]) name := by
      intro hcase name
      rw [Decl.bindingOf_concat, htop name]
      by_cases hname : name = d.name
      · simp only [hname, hold, hcase, if_true, Bool.false_eq_true, if_false]
      · rw [if_neg hname]
    have htaken : (!old.isDefinition && d.isDefinition) = true →
        ∀ name, (scope.rebind d).get? name = Decl.bindingOf (seen ++ [d]) name := by
      intro hcase name
      rw [Decl.bindingOf_concat, Scope.get?_rebind hbound]
      by_cases hname : name = d.name
      · simp only [hname, hold, hcase, if_true]
      · rw [if_neg hname, if_neg hname, htop name]
    simp only [hid, if_false, hkind, true_and, Decl.mergesWith, beq_eq_false_iff_ne.mpr hid,
      Bool.false_or]
    cases hsort : old.sameSort d
    · exact .error rfl
    · cases holdDef : old.isDefinition <;> cases hdDef : d.isDefinition
      · exact .ok (h.update hget rfl rfl (hkept (by simp [hdDef])))
      · exact .ok (h.update hget rfl rfl (htaken (by simp [holdDef, hdDef])))
      · exact .ok (h.update hget rfl rfl (hkept (by simp [hdDef])))
      · exact .error rfl

/-- All top-level declarations, one after another. -/
theorem ShowsOuter.insertAll (h : t.ShowsOuter file (Decl.bindingOf seen) builtin)
    (decls : List Decl) (hids : ((seen ++ decls).map Decl.id).Nodup) :
    Agree (fun t' _ => t'.ShowsOuter file (Decl.bindingOf (seen ++ decls)) builtin)
      (t.insertAll file decls) (Decl.mergeAll seen decls) := by
  induction decls generalizing t seen with
  | nil => exact .ok ((List.append_nil seen).symm ▸ h)
  | cons d rest ih =>
    have hnew : ∀ old ∈ seen, old.id ≠ d.id := by
      intro old hold heq
      rw [List.map_append, List.nodup_append] at hids
      exact hids.2.2 _ (List.mem_map_of_mem hold) _ (List.mem_map_of_mem List.mem_cons_self) heq
    simp only [ScopeTree.insertAll, List.foldlM_cons, Decl.mergeAll, bind_assoc, pure_bind]
    refine (h.insert hnew).bind ?_
    intro out _ hout
    have hrest := ih hout (by simpa using hids)
    rw [List.append_assoc] at hrest
    exact hrest

end ScopeTree

/-- Among definitions the first one counts. -/
theorem Decl.lookup_eq_bindingOf {decls : List Decl} (hdef : ∀ d ∈ decls, d.isDefinition)
    (name : String) : (decls.map fun d => (d.name, d)).lookup name = bindingOf decls name := by
  induction decls with
  | nil => rfl
  | cons d rest ih =>
    have hd : d.isDefinition = true := hdef d List.mem_cons_self
    have hrest := ih fun d hd => hdef d (List.mem_cons_of_mem _ hd)
    rw [List.map_cons, List.lookup_cons, hrest]
    by_cases hname : name = d.name
    · simp [bindingOf, hname, hd]
    · have hne : d.name ≠ name := fun heq => hname heq.symm
      have hbeq : (name == d.name) = false := beq_eq_false_iff_ne.mpr hname
      simp [bindingOf, hbeq, hne]

theorem Scope.get?_universal (name : String) :
    Scope.universal.get? name = Decl.bindingOf Decl.builtins name :=
  Decl.lookup_eq_bindingOf (by simp [Decl.builtins, Decl.isDefinition]) name

namespace Program

/-- Before the walk the scopes of the file and of the built-in names are the outer
environments. -/
theorem openFile_agree {p : Program} (hids : (p.file.map Decl.id).Nodup) :
    Agree (fun r _ => r.sharesScope = false ∧
        Represents (Decl.bindingOf p.file) (Decl.bindingOf Decl.builtins) r {})
      p.openFile (Decl.mergeAll [] p.file) := by
  have hstart : ScopeTree.initial.ShowsOuter 1 (Decl.bindingOf []) (Decl.bindingOf Decl.builtins) :=
    ⟨_, 0, Scope.universal, rfl, rfl, fun _ => rfl, rfl, by decide, rfl, Scope.get?_universal, rfl⟩
  have hfile := hstart.insertAll p.file hids
  rw [openFile_eq]
  have hempty : Decl.mergeAll [] p.file = Decl.mergeAll [] p.file >>= fun _ => .ok () := by
    cases Decl.mergeAll [] p.file <;> rfl
  rw [hempty]
  refine hfile.bind ?_
  intro scopes _ hscopes
  exact .ok ⟨rfl, hscopes, rfl, fun _ => by simp⟩

/-- The walk over the program and the recursion on it come to the same uses, and leave the names
at file level as they are. -/
theorem resolve_represents (p : Program) (htree : p.TreeShaped) (hbodies : p.BlockBodies)
    (hparams : p.VariableParams) :
    Agree (fun r s => (∀ id : IdentId, r.idents[id]? = s.uses.lookup id) ∧
        ∀ name, r.fileBinding? name = Decl.bindingOf p.file name)
      p.resolve (Decl.mergeAll [] p.file >>= fun _ => Decl.resolveAllIn p.outerEnvs p.file {}) := by
  have hplain : Event.Plain p.events := fun n hn => ⟨hbodies n hn, hparams n hn⟩
  unfold resolve
  refine (openFile_agree htree.file_ids_nodup).bind ?_
  intro start _ ⟨hflag, hstart⟩
  have hwalk := Decl.tracksAll p.file hplain start {} hstart hflag
  have hok : Decl.resolveAllIn p.outerEnvs p.file {} =
      Decl.resolveAllIn p.outerEnvs p.file {} >>= .ok := by
    cases Decl.resolveAllIn p.outerEnvs p.file {} <;> rfl
  rw [hok]
  refine hwalk.bind ?_
  intro final s hfinal
  obtain ⟨scope, _, _, hscope, _, htop, _⟩ := hfinal.represents.outermost
  refine .ok ⟨hfinal.represents.uses, ?_⟩
  intro name
  simp [Resolution.fileBinding?, hscope, htop]

/-- Resolution is lexical scoping: it succeeds on the same programs, gives every use of a name
the same declaration, and otherwise fails for the same reason at the same place. -/
theorem resolve_agrees_lexically (p : Program) (htree : p.TreeShaped) (hbodies : p.BlockBodies)
    (hparams : p.VariableParams) :
    Agree (fun r uses => ∀ id : IdentId, r.idents[id]? = uses.lookup id)
      p.resolve p.lexicalUses := by
  have hresolve : p.resolve = p.resolve >>= .ok := by cases p.resolve <;> rfl
  have huses : p.lexicalUses =
      (Decl.mergeAll [] p.file >>= fun _ => Decl.resolveAllIn p.outerEnvs p.file {}) >>=
        fun s => .ok s.uses := by
    simp only [lexicalUses, bind_assoc]
    rfl
  rw [hresolve, huses]
  refine (p.resolve_represents htree hbodies hparams).bind ?_
  intro r s hrs
  exact .ok hrs.1

/-- Two functions, one with parameters, local variables and a loop over a block. -/
theorem resolve_agrees_lexically_arraySum :
    Samples.arraySum.TreeShaped ∧ Samples.arraySum.BlockBodies ∧
      Samples.arraySum.VariableParams ∧
      Agree (fun r uses => ∀ id : IdentId, r.idents[id]? = uses.lookup id)
        Samples.arraySum.resolve Samples.arraySum.lexicalUses := by
  have htree : Samples.arraySum.TreeShaped := by decide +kernel
  have hbodies : Samples.arraySum.BlockBodies := by decide +kernel
  have hparams : Samples.arraySum.VariableParams := by decide +kernel
  exact ⟨htree, hbodies, hparams, resolve_agrees_lexically Samples.arraySum htree hbodies hparams⟩

end Program

end MicroC
