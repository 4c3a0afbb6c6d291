import MicroC.Proofs.Run
import MicroC.Proofs.Scope.Tree
import MicroC.Proofs.Syntax.Shape

/-!
What a resolution guarantees to the passes after it, whatever the program looks like: every
use of a name that the traversal meets is in the table, the table and the scopes hold only
declarations of the program, and the names at file level are those of the file.
-/

namespace MicroC

namespace ScopeTree

variable {t t' : ScopeTree} {s : ScopeId} {P : Decl → Prop}

/-- All scopes bind names to declarations with a property only. -/
def Only (P : Decl → Prop) (t : ScopeTree) : Prop :=
  ∀ (i : ScopeId) scope name d, t.get? i = some scope → scope.get? name = some d → P d

theorem Only.create (h : t.Only P) (parent : Option ScopeId) (kind : ScopeKind) :
    (t.create parent kind).2.Only P := by
  intro i scope name d hget hname
  rw [get?_create] at hget
  split at hget
  · obtain rfl := Option.some.inj hget
    simp [Scope.get?] at hname
  · exact h i scope name d hget hname

theorem Only.insert {d : Decl} {outcome : Insertion} (h : t.Only P) (hd : P d)
    (hinsert : t.insert s d = .ok (outcome, t')) : t'.Only P := by
  rcases insert_cases hinsert with ⟨_, rfl⟩ | ⟨old, new, hold, hnew, rfl⟩
  · exact h
  · intro i scope name d' hget hname
    by_cases hi : i = s
    · subst hi
      rw [get?_update_self hold] at hget
      obtain rfl := Option.some.inj hget
      rcases Scope.get?_put hnew name with heq | ⟨_, heq⟩
      · exact h i old name d' hold (heq ▸ hname)
      · obtain rfl : d = d' := Option.some.inj (heq.symm.trans hname)
        exact hd
    · rw [get?_update_of_ne hi] at hget
      exact h i scope name d' hget hname

theorem Only.lookup {name : String} {d : Decl} (h : t.Only P) (hd : t.lookup s name = some d) :
    P d := by
  obtain ⟨i, _, hi⟩ := List.exists_of_findSome?_eq_some hd
  obtain ⟨scope, hget, hname⟩ := Option.bind_eq_some_iff.mp hi
  exact h i scope name d hget hname

/-- An insertion into one scope leaves the others alone. -/
theorem get?_insert_of_ne {d : Decl} {outcome : Insertion} {i : ScopeId} (hne : i ≠ s)
    (hinsert : t.insert s d = .ok (outcome, t')) : t'.get? i = t.get? i := by
  rcases insert_cases hinsert with ⟨_, rfl⟩ | ⟨_, _, _, _, rfl⟩
  · rfl
  · exact get?_update_of_ne hne

end ScopeTree

/-- A scope binds, of some declarations, each name and nothing else. -/
structure Scope.Binds (s : Scope) (decls : List Decl) : Prop where
  mem : ∀ name d, s.get? name = some d → d ∈ decls ∧ d.name = name
  bound : ∀ d ∈ decls, ∃ b, s.get? d.name = some b

theorem Scope.Binds.put {s s' : Scope} {decls : List Decl} {d : Decl} {outcome : Insertion}
    (h : s.Binds decls) (hput : s.put d = (.ok outcome, s')) : s'.Binds (decls ++ [d]) := by
  constructor
  · intro name b hb
    rcases Scope.get?_put hput name with heq | ⟨hname, heq⟩
    · obtain ⟨hmem, hbname⟩ := h.mem name b (heq ▸ hb)
      exact ⟨List.mem_append_left _ hmem, hbname⟩
    · obtain rfl : d = b := Option.some.inj (heq.symm.trans hb)
      exact ⟨by simp, hname.symm⟩
  · intro b hb
    rcases List.mem_append.mp hb with hold | hnew
    · obtain ⟨c, hc⟩ := h.bound b hold
      rcases Scope.get?_put hput b.name with heq | ⟨_, heq⟩
      · exact ⟨c, heq.trans hc⟩
      · exact ⟨d, heq⟩
    · obtain rfl := List.mem_singleton.mp hnew
      exact Scope.exists_get?_put hput

/-- The state of a resolver after some events of a traversal. -/
structure Resolver.Covers (p : Program) (top : Scope) (seen : List Event) (r : Resolver) : Prop where
  scopes : r.resolution.scopes.Only p.Declares
  declares : ∀ (id : IdentId) d, r.resolution.idents[id]? = some d → p.Declares d
  covers : ∀ ident, .enter (.ident ident) ∈ seen → ∃ d, r.resolution.idents[ident.id]? = some d
  file : r.resolution.scopes.get? r.resolution.file = some top

namespace Resolver.Covers

variable {p : Program} {top : Scope} {seen : List Event} {r r' : Resolver}

/-- Only entering an identifier adds to what has to be covered. -/
theorem skip (h : r.Covers p top seen) (event : Event)
    (hevent : ∀ ident, event ≠ .enter (.ident ident)) : r.Covers p top (seen ++ [event]) := by
  refine ⟨h.scopes, h.declares, ?_, h.file⟩
  intro ident hident
  rcases List.mem_append.mp hident with hold | hnew
  · exact h.covers ident hold
  · exact absurd (List.mem_singleton.mp hnew).symm (hevent ident)

theorem enterScope (h : r.Covers p top seen) (kind : ScopeKind) :
    (r.enterScope kind).Covers p top seen := by
  refine ⟨h.scopes.create _ _, h.declares, h.covers, ?_⟩
  have hlt : r.resolution.file < r.resolution.scopes.size := ScopeTree.lt_size_of_get? h.file
  exact (ScopeTree.get?_create _ _ _).trans ((if_neg (Nat.ne_of_lt hlt)).trans h.file)

theorem leaveScope (h : r.Covers p top seen) : r.leaveScope.Covers p top seen := by
  unfold Resolver.leaveScope
  split
  · exact ⟨h.scopes, h.declares, h.covers, h.file⟩
  · exact h

theorem enterFunction (h : r.Covers p top seen) (id : DeclId) (hasBody : Bool) :
    (r.enterFunction id hasBody).Covers p top seen := by
  have hflagged : Resolver.Covers p top seen { r with sharesScope := hasBody } :=
    ⟨h.scopes, h.declares, h.covers, h.file⟩
  have hopened := hflagged.enterScope .function
  exact ⟨hopened.scopes, hopened.declares, hopened.covers, hopened.file⟩

theorem enterBlock (h : r.Covers p top seen) (id : StmtId) :
    (r.enterBlock id).Covers p top seen := by
  unfold Resolver.enterBlock
  split
  · exact ⟨h.scopes, h.declares, h.covers, h.file⟩
  · have hopened := h.enterScope .block
    exact ⟨hopened.scopes, hopened.declares, hopened.covers, hopened.file⟩

theorem declare {d : Decl} (h : r.Covers p top seen) (hd : p.Declares d)
    (hdeclare : r.declare d = .ok r') : r'.Covers p top seen := by
  unfold Resolver.declare at hdeclare
  split at hdeclare
  · cases hdeclare
    exact h
  next hne =>
    obtain ⟨⟨outcome, scopes⟩, hinsert, hr'⟩ := Except.bind_eq_ok.mp hdeclare
    cases hr'
    refine ⟨h.scopes.insert hd hinsert, h.declares, h.covers, ?_⟩
    rw [ScopeTree.get?_insert_of_ne (Ne.symm hne) hinsert]
    exact h.file

theorem use {ident : Ident} (h : r.Covers p top seen) (huse : r.use ident = .ok r') :
    r'.Covers p top (seen ++ [.enter (.ident ident)]) := by
  unfold Resolver.use at huse
  split at huse
  next d hd =>
    cases huse
    have hget : ∀ id : IdentId, (r.resolution.idents.insert ident.id d)[id]? =
        if ident.id = id then some d else r.resolution.idents[id]? := by
      intro id
      simp [Std.TreeMap.getElem?_insert]
    refine ⟨h.scopes, ?_, ?_, h.file⟩
    · intro id d' hd'
      rw [hget] at hd'
      split at hd'
      · cases hd'
        exact h.scopes.lookup hd
      · exact h.declares id d' hd'
    · intro other hother
      rw [hget]
      split
      · exact ⟨d, rfl⟩
      next hne =>
        rcases List.mem_append.mp hother with hold | hnew
        · exact h.covers other hold
        · simp only [List.mem_singleton, Event.enter.injEq, Node.ident.injEq] at hnew
          exact absurd (hnew ▸ rfl) hne
  next => cases huse

/-- One event. -/
theorem step {event : Event} (h : r.Covers p top seen) (hevent : event ∈ p.events)
    (hstep : r.step event = .ok r') : r'.Covers p top (seen ++ [event]) := by
  unfold Resolver.step at hstep
  split at hstep
  next d =>
    obtain ⟨r₁, hdeclare, hr'⟩ := Except.bind_eq_ok.mp hstep
    have h₁ := (h.declare (.inr hevent) hdeclare).skip (.enter (.decl d)) (by simp)
    split at hr'
    · cases hr'
      exact h₁.enterFunction _ _
    · cases hr'
      exact h₁
  next =>
    cases hstep
    exact (h.enterBlock _).skip _ (by simp)
  next => exact h.use hstep
  next =>
    cases hstep
    exact h.leaveScope.skip _ (by simp)
  next =>
    cases hstep
    exact h.leaveScope.skip _ (by simp)
  next hident _ _ =>
    cases hstep
    exact h.skip _ fun ident heq => hident ident heq

end Resolver.Covers

/-- Names stand for declarations of the program. -/
structure Resolution.Refers (p : Program) (r : Resolution) : Prop where
  declares : ∀ ident d, r.declOf? ident = some d → p.Declares d
  binding : ∀ name d, r.fileBinding? name = some d → p.Declares d

/-- What the passes after resolution rely on. -/
structure Resolution.Covers (p : Program) (r : Resolution) : Prop where
  declares : ∀ ident d, r.declOf? ident = some d → p.Declares d
  covers : ∀ ident, .enter (.ident ident) ∈ p.events → ∃ d, r.declOf? ident = some d
  binding_mem : ∀ name d, r.fileBinding? name = some d → d ∈ p.file ∧ d.name = name
  binding_some : ∀ d ∈ p.file, ∃ b, r.fileBinding? d.name = some b

theorem Resolution.Covers.refers {p : Program} {r : Resolution} (h : r.Covers p) : r.Refers p :=
  ⟨h.declares, fun name d hd => p.declares_of_mem_file (h.binding_mem name d hd).1⟩

namespace Program

variable {p : Program}

theorem initial_only : ScopeTree.initial.Only p.Declares := by
  intro i scope name d hget hname
  have hmem : scope ∈ ScopeTree.initial.scopes.toList :=
    Array.mem_toList_iff.mpr (Array.mem_of_getElem? hget)
  simp only [ScopeTree.initial, List.mem_cons, List.not_mem_nil, or_false] at hmem
  rcases hmem with rfl | rfl
  · obtain ⟨before, after, hdefs, _⟩ := List.lookup_eq_some_iff.mp hname
    have hdef : (name, d) ∈ Decl.builtins.map fun d => (d.name, d) := by
      rw [show (Decl.builtins.map fun d => (d.name, d)) = _ from hdefs]
      simp
    obtain ⟨b, hb, heq⟩ := List.mem_map.mp hdef
    cases heq
    exact .inl hb
  · simp [Scope.get?] at hname

/-- Before the walk the scope of the file binds the top-level declarations. -/
theorem openFile_covers {r : Resolver} (h : p.openFile = .ok r) :
    ∃ top, top.Binds p.file ∧ r.Covers p top [] := by
  rw [openFile_eq] at h
  obtain ⟨scopes, hinsert, hr⟩ := Except.bind_eq_ok.mp h
  cases hr
  let Inv (seen : List Decl) (t : ScopeTree) : Prop :=
    t.Only p.Declares ∧ ∃ top, top.Binds seen ∧ t.get? 1 = some top
  have hstart : Inv [] ScopeTree.initial :=
    ⟨initial_only, { parent := some 0, kind := .file }, ⟨by simp [Scope.get?], by simp⟩, rfl⟩
  have hend : Inv p.file scopes := by
    refine foldlM_seen Inv ?_ hstart hinsert
    rintro seen d t t' hd ⟨honly, top, hbinds, hget⟩ hstep
    obtain ⟨⟨outcome, t''⟩, hone, ht'⟩ := Except.bind_eq_ok.mp hstep
    cases ht'
    refine ⟨honly.insert (declares_of_mem_file hd) hone, ?_⟩
    rcases ScopeTree.insert_cases hone with ⟨hnone, _⟩ | ⟨old, new, hold, hnew, rfl⟩
    · simp [hget] at hnone
    · obtain rfl : top = old := Option.some.inj (hget.symm.trans hold)
      exact ⟨new, hbinds.put hnew, ScopeTree.get?_update_self hold⟩
  obtain ⟨honly, top, hbinds, hget⟩ := hend
  exact ⟨top, hbinds, honly, by simp, by simp, hget⟩

theorem resolve_covers {r : Resolution} (h : p.resolve = .ok r) : r.Covers p := by
  obtain ⟨start, hstart, hrest⟩ := Except.bind_eq_ok.mp h
  obtain ⟨final, hwalk, hr⟩ := Except.bind_eq_ok.mp hrest
  cases hr
  obtain ⟨top, hbinds, hcovers⟩ := openFile_covers hstart
  have hfinal := foldlM_seen (fun seen r => Resolver.Covers p top seen r)
    (fun seen event r r' hevent hr hstep => hr.step hevent hstep) hcovers hwalk
  have hbinding : ∀ name, final.resolution.fileBinding? name = top.get? name := by
    intro name
    simp [Resolution.fileBinding?, hfinal.file]
  refine ⟨fun ident d hd => hfinal.declares ident.id d hd, hfinal.covers, ?_, ?_⟩
  · intro name d hd
    exact hbinds.mem name d (hbinding name ▸ hd)
  · intro d hd
    rw [hbinding]
    exact hbinds.bound d hd

end Program

end MicroC
