import MicroC.Proofs.Scope.Merging
import MicroC.Proofs.Scope.Nesting

/-!
The scopes mirror the program. Scopes are opened at a cursor while the program is traversed, and
the body of a function goes on in a scope that is already open. Each piece of the traversal opens
one scope for each owner in it, in that order, and comes back to where it was; so in the end each
owner has a scope of its own, inside of the scope of the nearest owner around it. The table of
names has the names that the traversal meets.
-/

namespace MicroC

/-- The scope of an owner, if it has one. -/
def Resolution.scopeOf? (r : Resolution) : Owner → Option ScopeId
  | .file => some r.file
  | .function id => r.functionScopes[id]?
  | .block id => r.blockScopes[id]?

/-! Opening scopes. -/

/-- A resolution with the scopes of some owners, in that order, behind those of the built-in names
and of the file. -/
structure Resolution.Opened (owners : List (Owner × Owner)) (r : Resolution) : Prop where
  root_eq : r.root = 0
  file_eq : r.file = 1
  size_eq : r.scopes.size = owners.length + 2
  file_parent : r.scopes.parent? 1 = some 0
  scope : ∀ (i : Nat) (o outer : Owner), owners[i]? = some (o, outer) →
    r.scopeOf? o = some (i + 2) ∧
      ∃ s, r.scopeOf? outer = some s ∧ r.scopes.parent? (i + 2) = some s
  owner : ∀ (o : Owner) (s : ScopeId), r.scopeOf? o = some s → o = .file ∨ o ∈ owners.map Prod.fst

namespace Resolution.Opened

variable {owners : List (Owner × Owner)} {r r' : Resolution} {o outer : Owner}

/-- The scopes of owners are numbered in the order of the owners. -/
theorem scopeOf?_eq_some_iff (h : r.Opened owners) {s : Nat} : r.scopeOf? o = some s ↔
    o = .file ∧ s = 1 ∨ ∃ i outer, owners[i]? = some (o, outer) ∧ s = i + 2 := by
  constructor
  · intro hs
    rcases h.owner o s hs with rfl | hmem
    · exact .inl ⟨rfl, (Option.some.inj hs).symm.trans h.file_eq⟩
    · obtain ⟨⟨o, outer⟩, hentry, rfl⟩ := List.mem_map.mp hmem
      obtain ⟨i, hi⟩ := List.mem_iff_getElem?.mp hentry
      refine .inr ⟨i, outer, hi, ?_⟩
      exact Option.some.inj (hs.symm.trans (h.scope i o outer hi).1)
  · rintro (⟨rfl, rfl⟩ | ⟨i, outer, hi, rfl⟩)
    · exact congrArg some h.file_eq
    · exact (h.scope i o outer hi).1

theorem scope_of_mem (h : r.Opened owners) (hmem : (o, outer) ∈ owners) :
    ∃ s s', r.scopeOf? o = some s ∧ r.scopeOf? outer = some s' ∧ r.scopes.parent? s = some s' := by
  obtain ⟨i, hi⟩ := List.mem_iff_getElem?.mp hmem
  obtain ⟨hscope, s, houter, hparent⟩ := h.scope i o outer hi
  exact ⟨i + 2, s, hscope, houter, hparent⟩

theorem exists_scope_iff (h : r.Opened owners) :
    (∃ s, r.scopeOf? o = some s) ↔ o = .file ∨ o ∈ owners.map Prod.fst := by
  constructor
  · rintro ⟨s, hs⟩
    exact h.owner o s hs
  · rintro (rfl | hmem)
    · exact ⟨r.file, rfl⟩
    · obtain ⟨⟨o, outer⟩, hentry, rfl⟩ := List.mem_map.mp hmem
      obtain ⟨s, _, hs, _⟩ := h.scope_of_mem hentry
      exact ⟨s, hs⟩

theorem exists_owner_iff (h : r.Opened owners) (s : Nat) :
    (∃ o, r.scopeOf? o = some s) ↔ s < r.scopes.size ∧ s ≠ r.root := by
  rw [h.size_eq, h.root_eq]
  constructor
  · rintro ⟨o, hs⟩
    rcases h.scopeOf?_eq_some_iff.mp hs with ⟨_, rfl⟩ | ⟨i, outer, hi, rfl⟩
    · omega
    · have hlt := (List.getElem?_eq_some_iff.mp hi).1
      omega
  · rintro ⟨hlt, hne⟩
    by_cases hs : s = 1
    · exact ⟨.file, h.scopeOf?_eq_some_iff.mpr (.inl ⟨rfl, hs⟩)⟩
    · have hindex : s - 2 < owners.length := by omega
      refine ⟨owners[s - 2].1, h.scopeOf?_eq_some_iff.mpr (.inr ⟨s - 2, owners[s - 2].2, ?_, ?_⟩)⟩
      · exact List.getElem?_eq_getElem hindex
      · omega

/-- Owners are told apart by their scopes. -/
theorem eq_of_scopeOf? (h : r.Opened owners) {o' : Owner} {s : Nat} (hs : r.scopeOf? o = some s)
    (hs' : r.scopeOf? o' = some s) : o = o' := by
  rcases h.scopeOf?_eq_some_iff.mp hs with ⟨rfl, rfl⟩ | ⟨i, outer, hi, rfl⟩
  · rcases h.scopeOf?_eq_some_iff.mp hs' with ⟨rfl, _⟩ | ⟨j, _, _, hj⟩
    · rfl
    · omega
  · rcases h.scopeOf?_eq_some_iff.mp hs' with ⟨_, hj⟩ | ⟨j, outer', hj, heq⟩
    · omega
    · obtain rfl : i = j := by omega
      rw [hi] at hj
      cases hj
      rfl

theorem fresh (h : r.Opened owners) (ho : o ≠ .file) (hmem : o ∉ owners.map Prod.fst) :
    r.scopeOf? o = none := by
  cases hscope : r.scopeOf? o with
  | none => rfl
  | some s =>
    rcases h.owner o s hscope with hfile | hold
    · exact absurd hfile ho
    · exact absurd hold hmem

/-- A new owner gets the next scope. -/
theorem push (h : r.Opened owners) {current : ScopeId} {kind : ScopeKind}
    (hfresh : r.scopeOf? o = none) (houter : r.scopeOf? outer = some current)
    (hroot : r'.root = r.root) (hscopes : r'.scopes = (r.scopes.create (some current) kind).2)
    (howners : ∀ o', r'.scopeOf? o' = if o = o' then some r.scopes.size else r.scopeOf? o') :
    r'.Opened (owners ++ [(o, outer)]) := by
  have hold : ∀ {o' s}, r.scopeOf? o' = some s → r'.scopeOf? o' = some s := by
    intro o' s hs
    have hne : o ≠ o' := by
      rintro rfl
      rw [hfresh] at hs
      cases hs
    rw [howners, if_neg hne, hs]
  have hparents : ∀ i : Nat, r'.scopes.parent? i =
      if i = r.scopes.size then some current else r.scopes.parent? i := by
    intro i
    rw [hscopes, ScopeTree.parent?_create]
  have hsize := h.size_eq
  refine ⟨hroot.trans h.root_eq, ?_, ?_, ?_, ?_, ?_⟩
  · have hfile : r'.scopeOf? .file = some r.file := hold rfl
    exact (Option.some.inj hfile).trans h.file_eq
  · rw [hscopes, ScopeTree.size_create, hsize, List.length_append, List.length_singleton]
  · rw [hparents, if_neg (by omega), h.file_parent]
  · intro i o' outer' hi
    rcases Nat.lt_trichotomy i owners.length with hlt | rfl | hgt
    · rw [List.getElem?_append_left hlt] at hi
      obtain ⟨hscope, s, hs, hparent⟩ := h.scope i o' outer' hi
      exact ⟨hold hscope, s, hold hs, by rw [hparents, if_neg (by omega), hparent]⟩
    · rw [List.getElem?_concat_length] at hi
      cases hi
      refine ⟨?_, current, hold houter, ?_⟩
      · rw [howners, if_pos rfl, hsize]
      · rw [hparents, if_pos hsize.symm]
    · have hlength : (owners ++ [(o, outer)]).length ≤ i := by
        rw [List.length_append, List.length_singleton]
        omega
      rw [List.getElem?_eq_none hlength] at hi
      cases hi
  · intro o' s hs
    rw [howners] at hs
    rw [List.map_append, List.mem_append]
    by_cases heq : o = o'
    · exact .inr (.inr (by simp [heq]))
    · rw [if_neg heq] at hs
      exact (h.owner o' s hs).imp_right .inl

end Resolution.Opened

namespace Resolver

theorem scopeOf?_enterFunction (r : Resolver) (id : DeclId) (hasBody : Bool) (o : Owner) :
    (r.enterFunction id hasBody).resolution.scopeOf? o =
      if .function id = o then some r.resolution.scopes.size else r.resolution.scopeOf? o := by
  cases o with
  | function other =>
    have hinsert : (r.enterFunction id hasBody).resolution.functionScopes =
      r.resolution.functionScopes.insert id r.resolution.scopes.size := rfl
    simp [Resolution.scopeOf?, hinsert, Std.TreeMap.getElem?_insert]
  | file | block => rfl

theorem enterBlock_eq (r : Resolver) (id : StmtId) (hflag : r.sharesScope = false) :
    r.enterBlock id =
      { r.enterScope .block with
        resolution.blockScopes := r.resolution.blockScopes.insert id r.resolution.scopes.size } := by
  simp only [enterBlock, hflag]
  rfl

theorem scopeOf?_enterBlock (r : Resolver) (id : StmtId) (hflag : r.sharesScope = false) (o : Owner) :
    (r.enterBlock id).resolution.scopeOf? o =
      if .block id = o then some r.resolution.scopes.size else r.resolution.scopeOf? o := by
  rw [enterBlock_eq r id hflag]
  cases o with
  | block other => simp [Resolution.scopeOf?, Std.TreeMap.getElem?_insert]
  | file | function => rfl

end Resolver

/-- A resolver at the scope of an owner, after some owners. -/
structure Resolver.Within (owners : List (Owner × Owner)) (o : Owner) (waits : Bool) (r : Resolver) :
    Prop where
  opened : r.resolution.Opened owners
  cursor : r.resolution.scopeOf? o = some r.current
  flag : r.sharesScope = waits

namespace Resolver.Within

variable {owners : List (Owner × Owner)} {o outer : Owner} {waits : Bool} {r r' : Resolver}

/-- A step that does not concern the owners. -/
theorem congr (h : r.Within owners o waits) (hroot : r'.resolution.root = r.resolution.root)
    (hscopes : ∀ o, r'.resolution.scopeOf? o = r.resolution.scopeOf? o)
    (hsize : r'.resolution.scopes.size = r.resolution.scopes.size)
    (hparents : ∀ i, r'.resolution.scopes.parent? i = r.resolution.scopes.parent? i)
    (hcurrent : r'.current = r.current) (hflag : r'.sharesScope = r.sharesScope) :
    r'.Within owners o waits := by
  obtain ⟨hopened, hcursor, hwaits⟩ := h
  refine ⟨⟨hroot.trans hopened.root_eq, ?_, hsize.trans hopened.size_eq, ?_, ?_, ?_⟩, ?_,
    hflag.trans hwaits⟩
  · exact (Option.some.inj (hscopes .file)).trans hopened.file_eq
  · rw [hparents, hopened.file_parent]
  · intro i o outer hi
    simp only [hscopes, hparents]
    exact hopened.scope i o outer hi
  · intro o s hs
    exact hopened.owner o s (hscopes o ▸ hs)
  · rw [hscopes, hcurrent, hcursor]

theorem declare {d : Decl} (h : r.Within owners o waits) (hdeclare : r.declare d = .ok r') :
    r'.Within owners o waits := by
  unfold Resolver.declare at hdeclare
  split at hdeclare
  · cases hdeclare
    exact h
  next =>
    obtain ⟨⟨outcome, scopes⟩, hinsert, hr'⟩ := Except.bind_eq_ok.mp hdeclare
    cases hr'
    exact h.congr rfl (fun o => by cases o <;> rfl) (ScopeTree.size_insert hinsert)
      (ScopeTree.parent?_insert hinsert) rfl rfl

theorem use {ident : Ident} (h : r.Within owners o waits) (huse : r.use ident = .ok r') :
    r'.Within owners o waits := by
  unfold Resolver.use at huse
  split at huse
  · cases huse
    exact h.congr rfl (fun o => by cases o <;> rfl) rfl (fun _ => rfl) rfl rfl
  · cases huse

/-- Entering a node that is no owner. -/
theorem enter {n : Node} (h : r.Within owners o waits) (hfunction : n.function? = none)
    (hblock : n.block? = none) (hstep : r.step (.enter n) = .ok r') : r'.Within owners o waits := by
  cases n with
  | decl d =>
    obtain ⟨r₁, hdeclare, hrest⟩ := Except.bind_eq_ok.mp hstep
    cases d with
    | func => cases hfunction
    | var | basic | typedef =>
      cases hrest
      exact h.declare hdeclare
  | stmt s =>
    cases s with
    | block => cases hblock
    | empty | expr | branch | ret | loop =>
      cases hstep
      exact h
  | ident i => exact h.use hstep
  | expr | type =>
    cases hstep
    exact h

theorem enterFunction {id : DeclId} (h : r.Within owners outer waits) (hasBody : Bool)
    (hfresh : .function id ∉ owners.map Prod.fst) :
    (r.enterFunction id hasBody).Within (owners ++ [(.function id, outer)]) (.function id) hasBody := by
  have howners := r.scopeOf?_enterFunction id hasBody
  refine ⟨h.opened.push (h.opened.fresh nofun hfresh) h.cursor rfl rfl howners, ?_, rfl⟩
  rw [howners, if_pos rfl]
  rfl

theorem enterBlock {id : StmtId} (h : r.Within owners outer false)
    (hfresh : .block id ∉ owners.map Prod.fst) :
    (r.enterBlock id).Within (owners ++ [(.block id, outer)]) (.block id) false := by
  have howners := r.scopeOf?_enterBlock id h.flag
  rw [r.enterBlock_eq id h.flag] at howners ⊢
  refine ⟨h.opened.push (h.opened.fresh nofun hfresh) h.cursor rfl rfl howners, ?_, h.flag⟩
  rw [howners, if_pos rfl]
  rfl

/-- The block that a function waits for goes on in the scope of the function. -/
theorem enterBody (h : r.Within owners o true) (id : StmtId) :
    (r.enterBlock id).Within owners o false := by
  have henter : r.enterBlock id = { r with sharesScope := false } := by
    simp [Resolver.enterBlock, h.flag]
  rw [henter]
  exact ⟨h.opened, h.cursor, rfl⟩

/-- Closing the scope of an owner. -/
theorem leaveScope (h : r.Within owners o waits) (hmem : (o, outer) ∈ owners) :
    r.leaveScope.Within owners outer waits := by
  obtain ⟨s, s', hs, hs', hparent⟩ := h.opened.scope_of_mem hmem
  obtain rfl : s = r.current := Option.some.inj (hs.symm.trans h.cursor)
  have hleave : r.leaveScope = { r with current := s' } := by
    simp only [Resolver.leaveScope, hparent]
  rw [hleave]
  exact ⟨h.opened, hs', h.flag⟩

end Resolver.Within

theorem Owner.fresh_of_nodup {owners inner : List (Owner × Owner)} {o outer : Owner}
    (h : ((owners ++ (o, outer) :: inner).map Prod.fst).Nodup) : o ∉ owners.map Prod.fst := by
  rw [List.map_append] at h
  intro hmem
  exact (List.nodup_append.mp h).2.2 o hmem o (by simp) rfl

theorem Resolver.step_leave_of_plain {n : Node} {r : Resolver} (hfunction : n.function? = none)
    (hblock : n.block? = none) : r.step (.leave n) = .ok r := by
  cases n with
  | decl d =>
    cases d with
    | func => cases hfunction
    | var | basic | typedef => rfl
  | stmt s =>
    cases s with
    | block => cases hblock
    | empty | expr | branch | ret | loop => rfl
  | ident | expr | type => rfl

/-- A piece of the traversal opens the scopes of the owners in it and comes back. -/
theorem Event.Nests.opens {waits : Bool} {outer : Owner} {events : List Event}
    {inner : List (Owner × Owner)} (h : Event.Nests waits outer events inner)
    {owners : List (Owner × Owner)} {r r' : Resolver} (hr : r.Within owners outer waits)
    (hnodup : ((owners ++ inner).map Prod.fst).Nodup) (hrun : events.foldlM Resolver.step r = .ok r') :
    r'.Within (owners ++ inner) outer waits := by
  -- the cursor is at the scope of `outer` before and after each piece, whichever scopes it opens
  induction h generalizing owners r r' with
  | nil =>
    cases hrun
    rwa [List.append_nil]
  | @append _ _ xs ys as bs _ _ hx hy =>
    rw [List.foldlM_append] at hrun
    obtain ⟨r₁, hrun₁, hrun₂⟩ := Except.bind_eq_ok.mp hrun
    rw [← List.append_assoc] at hnodup ⊢
    have hleft := List.Nodup.of_append_left (List.map_append ▸ hnodup)
    exact hy (hx hr hleft hrun₁) hnodup hrun₂
  | around hfunction hblock _ ih =>
    rw [foldlM_around] at hrun
    obtain ⟨r₁, henter, hrest⟩ := Except.bind_eq_ok.mp hrun
    obtain ⟨r₂, hchildren, hleave⟩ := Except.bind_eq_ok.mp hrest
    have h₂ := ih (hr.enter hfunction hblock henter) hnodup hchildren
    rw [Resolver.step_leave_of_plain hfunction hblock] at hleave
    cases hleave
    exact h₂
  | prototype _ ih =>
    rw [Decl.events, foldlM_around] at hrun
    obtain ⟨r₁, henter, hrest⟩ := Except.bind_eq_ok.mp hrun
    obtain ⟨r₀, hdeclare, henter⟩ := Except.bind_eq_ok.mp henter
    cases henter
    obtain ⟨r₂, hsignature, hleave⟩ := Except.bind_eq_ok.mp hrest
    cases hleave
    have hfresh := Owner.fresh_of_nodup hnodup
    rw [List.append_cons] at hnodup ⊢
    have h₂ := ih ((hr.declare hdeclare).enterFunction false hfresh) hnodup hsignature
    exact h₂.leaveScope (by simp)
  | @definition _ _ _ _ _ _ _ _ items inner rest _ _ hsignature hitems =>
    rw [Decl.events, foldlM_around, Stmt.events] at hrun
    obtain ⟨r₁, henter, hrest⟩ := Except.bind_eq_ok.mp hrun
    obtain ⟨r₀, hdeclare, henter⟩ := Except.bind_eq_ok.mp henter
    cases henter
    obtain ⟨r₄, hparts, hleave⟩ := Except.bind_eq_ok.mp hrest
    cases hleave
    rw [List.foldlM_append] at hparts
    obtain ⟨r₂, hrun₂, hblock⟩ := Except.bind_eq_ok.mp hparts
    have hfresh := Owner.fresh_of_nodup hnodup
    rw [List.append_cons, ← List.append_assoc] at hnodup ⊢
    have hleft := List.Nodup.of_append_left (List.map_append ▸ hnodup)
    have h₂ := hsignature ((hr.declare hdeclare).enterFunction true hfresh) hleft hrun₂
    rw [foldlM_around] at hblock
    obtain ⟨r₃, henter, hrest⟩ := Except.bind_eq_ok.mp hblock
    cases henter
    obtain ⟨r₃, hrun₃, hleave⟩ := Except.bind_eq_ok.mp hrest
    cases hleave
    exact (hitems (h₂.enterBody _) hnodup hrun₃).leaveScope (by simp)
  | block _ ih =>
    rw [Stmt.events, foldlM_around] at hrun
    obtain ⟨r₁, henter, hrest⟩ := Except.bind_eq_ok.mp hrun
    cases henter
    obtain ⟨r₂, hitems, hleave⟩ := Except.bind_eq_ok.mp hrest
    cases hleave
    have hfresh := Owner.fresh_of_nodup hnodup
    rw [List.append_cons] at hnodup ⊢
    exact (ih (hr.enterBlock hfresh) hnodup hitems).leaveScope (by simp)

/-! The names that are used. -/

namespace Resolver

variable {r r' : Resolver}

theorem declare_idents {d : Decl} (h : r.declare d = .ok r') :
    r'.resolution.idents = r.resolution.idents := by
  unfold declare at h
  split at h
  · cases h
    rfl
  · obtain ⟨_, _, hr'⟩ := Except.bind_eq_ok.mp h
    cases hr'
    rfl

theorem enterBlock_idents (r : Resolver) (id : StmtId) :
    (r.enterBlock id).resolution.idents = r.resolution.idents := by
  unfold enterBlock
  split <;> rfl

theorem leaveScope_idents (r : Resolver) :
    r.leaveScope.resolution.idents = r.resolution.idents := by
  unfold leaveScope
  split <;> rfl

/-- Only entering an identifier adds to the table. -/
theorem mem_idents_step {event : Event} (h : r.step event = .ok r') (id : IdentId) :
    id ∈ r'.resolution.idents ↔
      id ∈ r.resolution.idents ∨ id ∈ (Event.identUses [event]).map Ident.id := by
  unfold step at h
  split at h
  next d =>
    obtain ⟨r₁, hdeclare, hrest⟩ := Except.bind_eq_ok.mp h
    have hidents : r'.resolution.idents = r₁.resolution.idents := by
      split at hrest <;> cases hrest <;> rfl
    simp [hidents, declare_idents hdeclare, Event.identUses]
  next =>
    cases h
    simp [enterBlock_idents, Event.identUses]
  next ident =>
    unfold use at h
    split at h
    next d _ =>
      cases h
      have hinsert : id ∈ r.resolution.idents.insert ident.id d ↔
          ident.id = id ∨ id ∈ r.resolution.idents := by
        simp [Std.TreeMap.mem_insert]
      rw [hinsert]
      simp [Event.identUses, or_comm, eq_comm]
    next => cases h
  next =>
    cases h
    simp [leaveScope_idents, Event.identUses]
  next =>
    cases h
    simp [leaveScope_idents, Event.identUses]
  next hident _ _ =>
    cases h
    simp [Event.identUses]

end Resolver

theorem ScopeTree.insertAll_shape {t t' : ScopeTree} {s : ScopeId} {decls : List Decl}
    (h : t.insertAll s decls = .ok t') : t'.size = t.size ∧ ∀ i, t'.parent? i = t.parent? i := by
  induction decls generalizing t with
  | nil =>
    cases h
    exact ⟨rfl, fun _ => rfl⟩
  | cons d rest ih =>
    rw [insertAll_cons] at h
    obtain ⟨⟨outcome, t₁⟩, hinsert, hrest⟩ := Except.bind_eq_ok.mp h
    obtain ⟨hsize, hparents⟩ := ih hrest
    refine ⟨hsize.trans (size_insert hinsert), fun i => ?_⟩
    rw [hparents, parent?_insert hinsert]

/-- The tables of a resolution have what the program asks for, and nothing else. -/
structure Resolution.Mirrors (p : Program) (r : Resolution) : Prop where
  /-- The table of names has the uses that are reached. -/
  idents : ∀ id, id ∈ r.idents ↔ id ∈ p.identUses.map Ident.id
  /-- The file, the functions and the blocks other than bodies have scopes. -/
  owners : ∀ o, (∃ s, r.scopeOf? o = some s) ↔ o = .file ∨ o ∈ p.functions ∨ o ∈ p.freeBlocks
  distinct : ∀ o o' s, r.scopeOf? o = some s → r.scopeOf? o' = some s → o = o'
  /-- All scopes but that of the built-in names have an owner. -/
  owned : ∀ s, (∃ o, r.scopeOf? o = some s) ↔ s < r.scopes.size ∧ s ≠ r.root
  size : r.scopes.size = p.functions.length + p.freeBlocks.length + 2
  file_parent : r.scopes.parent? r.file = some r.root
  /-- A scope is inside of that of the nearest owner around its own. -/
  parent : ∀ o s, o ≠ .file → r.scopeOf? o = some s → ∃ outer s', p.enclosing? o = some outer ∧
    r.scopeOf? outer = some s' ∧ r.scopes.parent? s = some s'

namespace Program

variable {p : Program}

theorem openFile_within {r : Resolver} (h : p.openFile = .ok r) : r.Within [] .file false := by
  rw [openFile_eq] at h
  obtain ⟨scopes, hinsert, hr⟩ := Except.bind_eq_ok.mp h
  cases hr
  obtain ⟨hsize, hparents⟩ := ScopeTree.insertAll_shape hinsert
  refine ⟨⟨rfl, rfl, hsize, (hparents 1).trans rfl, ?_, ?_⟩, rfl, rfl⟩
  · intro i o outer hi
    simp at hi
  · intro o s hs
    cases o with
    | file => exact .inl rfl
    | function id => simp [Resolution.scopeOf?] at hs
    | block id => simp [Resolution.scopeOf?] at hs

theorem resolve_opened (htree : p.TreeShaped) (hplain : Event.Plain p.events) {r : Resolution}
    (hr : p.resolve = .ok r) : r.Opened p.nesting := by
  obtain ⟨start, hstart, hrest⟩ := Except.bind_eq_ok.mp hr
  obtain ⟨final, hwalk, hfinal⟩ := Except.bind_eq_ok.mp hrest
  cases hfinal
  exact ((nests hplain).opens (openFile_within hstart) (nesting_nodup htree hplain) hwalk).opened

theorem resolve_idents {r : Resolution} (hr : p.resolve = .ok r) (id : IdentId) :
    id ∈ r.idents ↔ id ∈ p.identUses.map Ident.id := by
  obtain ⟨start, hstart, hrest⟩ := Except.bind_eq_ok.mp hr
  obtain ⟨final, hwalk, hfinal⟩ := Except.bind_eq_ok.mp hrest
  cases hfinal
  rw [openFile_eq] at hstart
  obtain ⟨scopes, _, hstart⟩ := Except.bind_eq_ok.mp hstart
  cases hstart
  refine foldlM_seen (fun seen r => id ∈ r.resolution.idents ↔
    id ∈ (Event.identUses seen).map Ident.id) ?_ (by simp [Event.identUses]) hwalk
  intro seen event r r' _ hseen hstep
  rw [Resolver.mem_idents_step hstep, hseen, Event.identUses_append, List.map_append, List.mem_append]

/-- The table of names and the scopes of a resolution are complete and exact. -/
theorem resolve_mirrors (p : Program) (htree : p.TreeShaped) (hbodies : p.BlockBodies)
    (hparams : p.VariableParams) (r : Resolution) (hr : p.resolve = .ok r) : r.Mirrors p := by
  have hplain : Event.Plain p.events := fun n hn => ⟨hbodies n hn, hparams n hn⟩
  have hopened := resolve_opened htree hplain hr
  have hperm := nesting_perm htree hplain
  refine ⟨resolve_idents hr, ?_, fun _ _ _ => hopened.eq_of_scopeOf?, hopened.exists_owner_iff, ?_,
    ?_, ?_⟩
  · intro o
    rw [hopened.exists_scope_iff, hperm.mem_iff, List.mem_append]
  · rw [hopened.size_eq, ← List.length_map, hperm.length_eq, List.length_append]
  · rw [hopened.file_eq, hopened.root_eq, hopened.file_parent]
  · intro o s hne hs
    have hmem := (hopened.owner o s hs).resolve_left hne
    obtain ⟨⟨o, outer⟩, hentry, rfl⟩ := List.mem_map.mp hmem
    obtain ⟨found, s', hfound, houter, hparent⟩ := hopened.scope_of_mem hentry
    obtain rfl : found = s := Option.some.inj (hfound.symm.trans hs)
    exact ⟨outer, s', lookup_of_mem (nesting_nodup htree hplain) hentry, houter, hparent⟩

/-- A function inside of another one, and blocks in both: `int twice(int n);
int main() { int same(int n) { { return n; } } while (same(0)) { int n; } }`. -/
def localFunction : Program := Build.finish do
  let intType ← Build.namedType "int"
  let n ← Build.param intType "n"
  let intType ← Build.namedType "int"
  Build.push (← Build.func "twice" intType [n] none)
  let intType ← Build.namedType "int"
  let n ← Build.param intType "n"
  let inside ← Build.block [.stmt (← Build.ret (some (← Build.name "n")))]
  let body ← Build.block [.stmt inside]
  let intType ← Build.namedType "int"
  let same ← Build.func "same" intType [n] (some body)
  let cond ← Build.call "same" [← Build.int 0]
  let intType ← Build.namedType "int"
  let repeated ← Build.block [.decl (← Build.var intType "n" none)]
  let body ← Build.block [.decl same, .stmt (← Build.loop cond repeated)]
  let intType ← Build.namedType "int"
  Build.push (← Build.func "main" intType [] (some body))

/-- Three functions and two blocks other than bodies make seven scopes. -/
theorem resolve_mirrors_localFunction : ∃ r, localFunction.resolve = .ok r ∧
    r.Mirrors localFunction ∧ localFunction.functions.length = 3 ∧
    localFunction.freeBlocks.length = 2 ∧ r.scopes.size = 7 := by
  obtain ⟨r, hr, hsize⟩ : ∃ r, localFunction.resolve = .ok r ∧ r.scopes.size == 7 :=
    Except.exists_of_any (by decide +kernel)
  have hmirrors := resolve_mirrors localFunction (by decide +kernel) (by decide +kernel)
    (by decide +kernel) r hr
  exact ⟨r, hr, hmirrors, by decide +kernel, by decide +kernel, eq_of_beq hsize⟩

end Program

end MicroC
