import MicroC.Proofs.Run
import MicroC.Proofs.Scope.FileLevel

/-!
Several declarations of one name at file level. In a program that can be resolved they are all of
one sort, and only the one that the name is bound to can be a definition.
-/

namespace MicroC

namespace Decl

theorem sameSort_symm {d d' : Decl} (h : d.sameSort d') : d'.sameSort d := by
  cases d <;> cases d' <;> simp_all [sameSort]

theorem sameSort_trans {d d' d'' : Decl} (h : d.sameSort d') (h' : d'.sameSort d'') :
    d.sameSort d'' := by
  cases d <;> cases d' <;> cases d'' <;> simp_all [sameSort]

/-- A name that is declared is bound. -/
theorem exists_bindingOf {decls : List Decl} {d : Decl} (hd : d ∈ decls) :
    ∃ d₀, bindingOf decls d.name = some d₀ := by
  have hmem : d ∈ decls.filter (·.name = d.name) := by simp [hd]
  cases hhead : (decls.filter (·.name = d.name)).head? with
  | none =>
    rw [List.head?_eq_none_iff] at hhead
    rw [hhead] at hmem
    cases hmem
  | some first =>
    cases hfind : (decls.filter (·.name = d.name)).find? (·.isDefinition) with
    | none => exact ⟨first, by simp [bindingOf, hfind, hhead]⟩
    | some d₀ => exact ⟨d₀, by simp [bindingOf, hfind]⟩

/-- A declaration is the one that its name is bound to, or it adds nothing to that. -/
def Repeats (d₀ d : Decl) : Prop := d₀ = d ∨ (d₀.sameSort d ∧ d.isDefinition = false)

theorem Repeats.isVar_eq {d₀ d : Decl} (h : d₀.Repeats d) : d₀.isVar = d.isVar := by
  rcases h with rfl | ⟨hsort, _⟩
  · rfl
  · cases d₀ <;> cases d <;> simp_all [sameSort, isVar]

/-- Every declaration agrees in its sort with the binding of its name. -/
def Merged (decls : List Decl) : Prop :=
  ∀ d ∈ decls, ∀ d₀, bindingOf decls d.name = some d₀ → d₀.Repeats d

/-- One more declaration. -/
theorem Merged.concat {seen : List Decl} {d : Decl} (h : Merged seen)
    (hnew : ∀ old ∈ seen, old.id ≠ d.id) (hmerge : merge seen d = .ok ()) :
    Merged (seen ++ [d]) := by
  intro d' hd' d₀ hbound
  rw [bindingOf_concat] at hbound
  by_cases hname : d'.name = d.name
  · rw [if_pos hname, hname] at hbound
    cases hold : bindingOf seen d.name with
    | none =>
      rw [hold] at hbound
      obtain rfl : d = d₀ := Option.some.inj hbound
      rcases List.mem_append.mp hd' with hseen | hself
      · obtain ⟨_, hsome⟩ := exists_bindingOf hseen
        rw [hname, hold] at hsome
        cases hsome
      · exact .inl (List.mem_singleton.mp hself).symm
    | some old =>
      obtain ⟨hsort, hdefs⟩ : old.sameSort d ∧ (old.isDefinition && d.isDefinition) = false := by
        have hid : old.id ≠ d.id := hnew old (mem_of_bindingOf hold).1
        rw [merge, hold] at hmerge
        simpa [mergesWith, hid] using hmerge
      have hold' : d' ∈ seen → old.Repeats d' := fun hmem => h d' hmem old (hname ▸ hold)
      simp only [hold] at hbound
      split at hbound
      next htakes =>
        obtain rfl : d = d₀ := Option.some.inj hbound
        have hnot : old.isDefinition = false := by simp_all
        rcases List.mem_append.mp hd' with hseen | hself
        · rcases hold' hseen with rfl | ⟨hsort', hdef'⟩
          · exact .inr ⟨sameSort_symm hsort, hnot⟩
          · exact .inr ⟨sameSort_trans (sameSort_symm hsort) hsort', hdef'⟩
        · exact .inl (List.mem_singleton.mp hself).symm
      next hkeeps =>
        obtain rfl : old = d₀ := Option.some.inj hbound
        rcases List.mem_append.mp hd' with hseen | hself
        · exact hold' hseen
        · rw [List.mem_singleton.mp hself]
          refine .inr ⟨hsort, ?_⟩
          cases hd : d.isDefinition with
          | false => rfl
          | true => simp_all
  · rw [if_neg hname] at hbound
    rcases List.mem_append.mp hd' with hseen | hself
    · exact h d' hseen d₀ hbound
    · exact absurd (congrArg name (List.mem_singleton.mp hself)) hname

theorem Merged.of_mergeAll {seen : List Decl} (h : Merged seen) (decls : List Decl)
    (hids : ((seen ++ decls).map Decl.id).Nodup) (hmerge : mergeAll seen decls = .ok ()) :
    Merged (seen ++ decls) := by
  induction decls generalizing seen with
  | nil => exact (List.append_nil seen).symm ▸ h
  | cons d rest ih =>
    obtain ⟨_, hone, hrest⟩ := Except.bind_eq_ok.mp hmerge
    have hnew : ∀ old ∈ seen, old.id ≠ d.id := by
      intro old hold heq
      rw [List.map_append, List.nodup_append] at hids
      exact hids.2.2 _ (List.mem_map_of_mem hold) _ (List.mem_map_of_mem List.mem_cons_self) heq
    have hall := ih (h.concat hnew hone) (by simpa using hids) hrest
    rw [List.append_assoc] at hall
    exact hall

theorem merged_of_mergeAll {decls : List Decl} (hids : (decls.map Decl.id).Nodup)
    (h : mergeAll [] decls = .ok ()) : Merged decls := by
  have hnone : Merged [] := by
    intro d hd
    cases hd
  exact hnone.of_mergeAll decls hids h

end Decl

namespace Program

variable {p : Program} {r : Resolution}

theorem resolve_fileBinding (htree : p.TreeShaped) (hbodies : p.BlockBodies)
    (hparams : p.VariableParams) (hr : p.resolve = .ok r) :
    Decl.mergeAll [] p.file = .ok () ∧ ∀ name, r.fileBinding? name = Decl.bindingOf p.file name := by
  have hrepresents := p.resolve_represents htree hbodies hparams
  rw [hr] at hrepresents
  obtain ⟨_, hlexical, _, hfile⟩ := hrepresents.exists_of_ok
  obtain ⟨_, hmerge, _⟩ := Except.bind_eq_ok.mp hlexical
  exact ⟨hmerge, hfile⟩

/-- The binding of a name at file level is of the sort of all declarations of the name, and no
other one is a definition. -/
theorem fileBinding_repeats (htree : p.TreeShaped) (hbodies : p.BlockBodies)
    (hparams : p.VariableParams) (hr : p.resolve = .ok r) {d d₀ : Decl} (hd : d ∈ p.file)
    (hbound : r.fileBinding? d.name = some d₀) : d₀.Repeats d := by
  obtain ⟨hmerge, hfile⟩ := resolve_fileBinding htree hbodies hparams hr
  have hmerged := Decl.merged_of_mergeAll htree.file_ids_nodup hmerge
  exact hmerged d hd d₀ ((hfile d.name).symm.trans hbound)

end Program

end MicroC
