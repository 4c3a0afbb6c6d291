import MicroC.Proofs.Scope.Coverage
import MicroC.Proofs.Scope.Redeclaration
import MicroC.Proofs.Syntax.Equality

/-!
Declarations that share a scope. An insertion looks at nothing but what the name of the new
declaration is bound to, and forgets the declarations that merged with it before. All insertions
succeed, nevertheless, just if any two declarations of one name can stand beside each other; so it
does not depend on their order.
-/

namespace MicroC

namespace Decl

variable {kind : ScopeKind} {decls seen : List Decl} {d b : Decl}

/-- Two declarations of one name can be in one scope if they are the same, or if they are at file
level, of one sort, and not both definitions. -/
def Coexists (kind : ScopeKind) (d d' : Decl) : Prop :=
  d = d' ∨ kind = .file ∧ d.sameSort d' ∧ (d.isDefinition && d'.isDefinition) = false

def AllCoexist (kind : ScopeKind) (decls : List Decl) : Prop :=
  ∀ d ∈ decls, ∀ d' ∈ decls, d.name = d'.name → Coexists kind d d'

/-- A number belongs to one declaration. -/
def Numbered (decls : List Decl) : Prop :=
  ∀ d ∈ decls, ∀ d' ∈ decls, d.id = d'.id → d = d'

instance (decls : List Decl) : Decidable (Numbered decls) :=
  inferInstanceAs (Decidable (∀ d ∈ decls, ∀ d' ∈ decls, d.id = d'.id → d = d'))

theorem Coexists.symm {d' : Decl} (h : Coexists kind d d') : Coexists kind d' d := by
  rcases h with rfl | ⟨hkind, hsort, hdefs⟩
  · exact .inl rfl
  · exact .inr ⟨hkind, sameSort_symm hsort, Bool.and_comm _ _ ▸ hdefs⟩

theorem AllCoexist.subset (h : AllCoexist kind decls) (hsub : seen ⊆ decls) :
    AllCoexist kind seen :=
  fun d hd d' hd' => h d (hsub hd) d' (hsub hd')

theorem Numbered.subset (h : Numbered decls) (hsub : seen ⊆ decls) : Numbered seen :=
  fun d hd d' hd' => h d (hsub hd) d' (hsub hd')

/-- A name that has a definition is bound to one. -/
theorem isDefinition_of_bindingOf (hb : bindingOf decls d.name = some b) (hd : d ∈ decls)
    (hdef : d.isDefinition) : b.isDefinition := by
  rcases Option.or_eq_some_iff.mp hb with hfind | ⟨hnone, _⟩
  · simpa using List.find?_some hfind
  · have hmem : d ∈ decls.filter (·.name = d.name) := by simp [hd]
    exact absurd hdef (by simpa using List.find?_eq_none.mp hnone d hmem)

/-- What a new declaration has to coexist with is only the binding of its name: the others are
of the same sort, and none of them is a definition unless the binding is. -/
theorem AllCoexist.concat_iff (h : AllCoexist kind seen) :
    AllCoexist kind (seen ++ [d]) ↔
      ∀ b, bindingOf seen d.name = some b → Coexists kind b d := by
  constructor
  · intro hall b hb
    obtain ⟨hmem, hname⟩ := mem_of_bindingOf hb
    exact hall b (List.mem_append_left _ hmem) d (by simp) hname
  · intro hbinding
    have hone : ∀ old ∈ seen, old.name = d.name → Coexists kind old d := by
      intro old hold hname
      obtain ⟨b, hb⟩ := exists_bindingOf hold
      have hbound := mem_of_bindingOf hb
      rcases h old hold b hbound.1 hbound.2.symm with rfl | ⟨hkind, hsort, hdefs⟩
      · exact hbinding old (hname ▸ hb)
      · rcases hbinding b (hname ▸ hb) with rfl | ⟨_, hsort', hdefs'⟩
        · exact .inr ⟨hkind, hsort, hdefs⟩
        · refine .inr ⟨hkind, sameSort_trans hsort hsort', ?_⟩
          cases hdef : old.isDefinition with
          | false => rfl
          | true =>
            have hbdef : b.isDefinition := isDefinition_of_bindingOf hb hold hdef
            simpa [hbdef] using hdefs'
    intro x hx y hy hname
    simp only [List.mem_append, List.mem_singleton] at hx hy
    rcases hx with hx | rfl <;> rcases hy with hy | rfl
    · exact h x hx y hy hname
    · exact hone x hx hname
    · exact (hone y hy hname.symm).symm
    · exact .inl rfl

theorem Coexists.eq_of_isDefinition {d' : Decl} (h : Coexists kind d d') (hd : d.isDefinition)
    (hd' : d'.isDefinition) : d = d' := by
  rcases h with heq | ⟨_, _, hdefs⟩
  · exact heq
  · simp [hd, hd'] at hdefs

/-- A definition is what its name is bound to. -/
theorem AllCoexist.bindingOf_eq (h : AllCoexist kind decls) (hd : d ∈ decls)
    (hdef : d.isDefinition) : bindingOf decls d.name = some d := by
  obtain ⟨b, hb⟩ := exists_bindingOf hd
  obtain ⟨hmem, hname⟩ := mem_of_bindingOf hb
  have heq := (h b hmem d hd hname).eq_of_isDefinition (isDefinition_of_bindingOf hb hd hdef) hdef
  rw [hb, heq]

theorem AllCoexist.merged (h : AllCoexist kind decls) : Merged decls := by
  intro d hd d₀ hd₀
  obtain ⟨hmem, hname⟩ := mem_of_bindingOf hd₀
  cases hdef : d.isDefinition with
  | true => exact .inl (Option.some.inj (hd₀.symm.trans (h.bindingOf_eq hd hdef)))
  | false => exact (h d₀ hmem d hd hname).imp_right fun hsort => ⟨hsort.2.1, hdef⟩

/-- Outside of the file only one declaration of a name is possible. -/
theorem allCoexist_iff_of_ne_file (hkind : kind ≠ .file) :
    AllCoexist kind decls ↔ ∀ d ∈ decls, ∀ d' ∈ decls, d.name = d'.name → d = d' := by
  simp [AllCoexist, Coexists, hkind]

/-! The declarations of one name in a file. -/

theorem sameSort_iff {d d' : Decl} :
    d.sameSort d' ↔ d.isFunc ∧ d'.isFunc ∨ d.isVar ∧ d'.isVar := by
  cases d <;> cases d' <;> simp [sameSort, isFunc, isVar]

/-- At most one of the declarations is a definition. -/
def DefinedOnce (decls : List Decl) : Prop :=
  ∀ d ∈ decls, ∀ d' ∈ decls, d.isDefinition → d'.isDefinition → d = d'

/-- What the declarations of one name in a file can be: one declaration, functions at most one of
which has a body, or variables at most one of which has an initial value. -/
def Mergeable (same : List Decl) : Prop :=
  (∀ d ∈ same, ∀ d' ∈ same, d = d') ∨
    (∀ d ∈ same, d.isFunc) ∧ DefinedOnce same ∨ (∀ d ∈ same, d.isVar) ∧ DefinedOnce same

theorem Coexists.isFunc {d' : Decl} (h : Coexists kind d d') (hd : d.isFunc) : d'.isFunc := by
  rcases h with rfl | ⟨_, hsort, _⟩
  · exact hd
  · cases d <;> cases d' <;> simp_all [sameSort, Decl.isFunc]

theorem Coexists.isVar {d' : Decl} (h : Coexists kind d d') (hd : d.isVar) : d'.isVar := by
  rcases h with rfl | ⟨_, hsort, _⟩
  · exact hd
  · cases d <;> cases d' <;> simp_all [sameSort, Decl.isVar]

theorem Coexists.sameSort {d' : Decl} (h : Coexists kind d d') (hd : d.isType = false) :
    d.sameSort d' := by
  rcases h with rfl | ⟨_, hsort, _⟩
  · cases d <;> simp_all [Decl.sameSort, isType]
  · exact hsort

/-- A name for a type has one declaration. -/
theorem Coexists.eq_of_isType {d' : Decl} (h : Coexists kind d d') (hd : d.isType) : d = d' := by
  rcases h with heq | ⟨_, hsort, _⟩
  · exact heq
  · cases d <;> cases d' <;> simp_all [Decl.sameSort, isType]

theorem mergeable_of_coexist {same : List Decl}
    (h : ∀ d ∈ same, ∀ d' ∈ same, Coexists kind d d') : Mergeable same := by
  have honce : DefinedOnce same :=
    fun d hd d' hd' hdef hdef' => (h d hd d' hd').eq_of_isDefinition hdef hdef'
  -- the sort of the first declaration is that of all
  cases same with
  | nil => exact .inl (by simp)
  | cons first rest =>
    have hfirst : ∀ d ∈ first :: rest, Coexists kind first d := h first List.mem_cons_self
    cases hsort : first with
    | func _ _ _ _ _ =>
      subst hsort
      exact .inr (.inl ⟨fun d hd => (hfirst d hd).isFunc rfl, honce⟩)
    | var _ _ _ _ _ =>
      subst hsort
      exact .inr (.inr ⟨fun d hd => (hfirst d hd).isVar rfl, honce⟩)
    | basic _ _ _ _ | typedef _ _ _ _ =>
      subst hsort
      refine .inl fun d hd d' hd' => ?_
      rw [← (hfirst d hd).eq_of_isType rfl, ← (hfirst d' hd').eq_of_isType rfl]

theorem Mergeable.coexists {same : List Decl} {d' : Decl} (h : Mergeable same) (hd : d ∈ same)
    (hd' : d' ∈ same) : Coexists .file d d' := by
  have honce : DefinedOnce same → d ≠ d' → (d.isDefinition && d'.isDefinition) = false := by
    intro honce hne
    cases hdef : d.isDefinition with
    | false => rfl
    | true => exact Bool.eq_false_iff.mpr fun hdef' => hne (honce d hd d' hd' hdef hdef')
  by_cases heq : d = d'
  · exact .inl heq
  · refine .inr ⟨rfl, ?_⟩
    rcases h with hsingle | ⟨hsort, hdefs⟩ | ⟨hsort, hdefs⟩
    · exact absurd (hsingle d hd d' hd') heq
    · exact ⟨sameSort_iff.mpr (.inl ⟨hsort d hd, hsort d' hd'⟩), honce hdefs heq⟩
    · exact ⟨sameSort_iff.mpr (.inr ⟨hsort d hd, hsort d' hd'⟩), honce hdefs heq⟩

theorem allCoexist_file_iff :
    AllCoexist .file decls ↔ ∀ name, Mergeable (decls.filter (·.name = name)) := by
  constructor
  · intro h name
    apply mergeable_of_coexist
    intro d hd d' hd'
    simp only [List.mem_filter, decide_eq_true_eq] at hd hd'
    exact h d hd.1 d' hd'.1 (hd.2.trans hd'.2.symm)
  · intro h d hd d' hd' hname
    exact (h d.name).coexists (by simp [hd]) (by simp [hd', hname])

end Decl

/-! Insertions one after another. -/

namespace Scope

variable {s s' : Scope} {seen : List Decl} {d : Decl}

/-- A scope binds each name to its definition among some declarations, or else to the first one. -/
def Keeps (s : Scope) (seen : List Decl) : Prop :=
  ∀ name, s.get? name = Decl.bindingOf seen name

theorem keeps_nil (h : s.defs = []) : s.Keeps [] := by
  intro name
  simp [get?, h, Decl.bindingOf]

theorem Keeps.put_iff (h : s.Keeps seen) (hids : Decl.Numbered (seen ++ [d]))
    (hseen : Decl.AllCoexist s.kind seen) :
    (∃ outcome s', s.put d = (.ok outcome, s')) ↔ Decl.AllCoexist s.kind (seen ++ [d]) := by
  rw [exists_put_iff, hseen.concat_iff, h d.name]
  apply forall_congr'
  intro old
  apply forall_congr'
  intro hold
  have hmem : old ∈ seen ++ [d] := List.mem_append_left _ (Decl.mem_of_bindingOf hold).1
  have hid : old.id = d.id ↔ old = d := ⟨hids old hmem d (by simp), fun heq => heq ▸ rfl⟩
  rw [hid, Decl.Coexists]

theorem Keeps.put {outcome : Insertion} (h : s.Keeps seen)
    (hids : Decl.Numbered (seen ++ [d])) (hput : s.put d = (.ok outcome, s')) :
    s'.Keeps (seen ++ [d]) := by
  intro name
  rw [Decl.bindingOf_concat, ← h name]
  rcases put_found hput with ⟨_, rfl, old, hold, hwhy⟩ | ⟨_, rfl, hfree⟩ |
    ⟨_, rfl, old, hold, _, _, hnot, hdef⟩
  · -- the new declaration is the old one, or no definition
    have hkept : (!old.isDefinition && d.isDefinition) = false := by
      rcases hwhy with hid | ⟨_, _, hnot⟩
      · have hmem : old ∈ seen := (Decl.mem_of_bindingOf (h d.name ▸ hold)).1
        obtain rfl := hids old (List.mem_append_left _ hmem) d (by simp) hid
        exact Bool.not_and_self _
      · rw [hnot, Bool.and_false]
    by_cases hname : name = d.name
    · simp [hname, hold, hkept]
    · rw [if_neg hname]
  · rw [get?_bind hfree]
    by_cases hname : name = d.name
    · simp [hname, hfree]
    · rw [if_neg hname, if_neg hname]
  · rw [get?_rebind hold]
    by_cases hname : name = d.name
    · simp [hname, hold, hnot, hdef]
    · rw [if_neg hname, if_neg hname]

end Scope

namespace ScopeTree

variable {t t' : ScopeTree} {s : ScopeId} {scope : Scope} {seen decls : List Decl}

theorem insertAll_cons (t : ScopeTree) (s : ScopeId) (d : Decl) (rest : List Decl) :
    t.insertAll s (d :: rest) = t.insert s d >>= fun out => out.2.insertAll s rest := by
  simp only [insertAll, List.foldlM_cons, bind_assoc, pure_bind]

/-- All insertions succeed just if all declarations can stand beside each other. -/
theorem exists_insertAll_iff (hget : t.get? s = some scope) (hkeeps : scope.Keeps seen)
    (hseen : Decl.AllCoexist scope.kind seen) (hids : Decl.Numbered (seen ++ decls)) :
    (∃ t', t.insertAll s decls = .ok t') ↔ Decl.AllCoexist scope.kind (seen ++ decls) := by
  induction decls generalizing t scope seen with
  | nil =>
    rw [List.append_nil]
    exact ⟨fun _ => hseen, fun _ => ⟨t, rfl⟩⟩
  | cons d rest ih =>
    have hsub : seen ++ [d] ⊆ seen ++ d :: rest := by
      intro x hx
      simp only [List.mem_append, List.mem_cons, List.not_mem_nil, or_false] at hx ⊢
      exact hx.imp_right .inl
    have hone := hkeeps.put_iff (hids.subset hsub) hseen
    -- the rest is inserted into a scope that keeps one declaration more
    have hnext : ∀ outcome scope', scope.put d = (.ok outcome, scope') →
        ((∃ t', (t.update s scope').insertAll s rest = .ok t') ↔
          Decl.AllCoexist scope.kind (seen ++ d :: rest)) := by
      intro outcome scope' hput
      have hkind : scope'.kind = scope.kind := (Scope.put_kind hput).1
      have hget' : (t.update s scope').get? s = some scope' := get?_update_self hget
      have hall := ih hget' (hkeeps.put (hids.subset hsub) hput)
        (hkind.symm ▸ hone.mp ⟨_, _, hput⟩) (by simpa using hids)
      rwa [hkind, List.append_assoc] at hall
    rw [insertAll_cons, insert_eq hget]
    cases hresult : (scope.put d).1 with
    | ok outcome => exact hnext outcome _ (Prod.ext hresult rfl)
    | error e =>
      constructor
      · rintro ⟨_, hrun⟩
        cases hrun
      · intro hall
        obtain ⟨_, _, hok⟩ := hone.mpr (hall.subset hsub)
        rw [hok] at hresult
        cases hresult

/-- What the names are bound to then. Nothing else changes. -/
theorem insertAll_keeps (hget : t.get? s = some scope) (hkeeps : scope.Keeps seen)
    (hids : Decl.Numbered (seen ++ decls)) (h : t.insertAll s decls = .ok t') :
    ∃ scope', t'.get? s = some scope' ∧ scope'.Keeps (seen ++ decls) ∧
      (scope'.kind = scope.kind ∧ scope'.parent = scope.parent) ∧
      ∀ i, i ≠ s → t'.get? i = t.get? i := by
  induction decls generalizing t scope seen with
  | nil =>
    cases h
    exact ⟨scope, hget, (List.append_nil seen).symm ▸ hkeeps, ⟨rfl, rfl⟩, fun _ _ => rfl⟩
  | cons d rest ih =>
    rw [insertAll_cons] at h
    obtain ⟨⟨outcome, t₁⟩, hone, hrest⟩ := Except.bind_eq_ok.mp h
    rcases insert_cases hone with ⟨hnone, _⟩ | ⟨old, new, hold, hnew, rfl⟩
    · simp [hget] at hnone
    · obtain rfl : scope = old := Option.some.inj (hget.symm.trans hold)
      obtain ⟨hkind, hparent⟩ := Scope.put_kind hnew
      have hids' : Decl.Numbered ((seen ++ [d]) ++ rest) := by simpa using hids
      have hkept := hkeeps.put (hids'.subset (List.subset_append_left _ _)) hnew
      obtain ⟨scope', hget', hkeeps', hsame, hothers⟩ :=
        ih (get?_update_self hget) hkept hids' hrest
      rw [List.append_assoc] at hkeeps'
      refine ⟨scope', hget', hkeeps', ⟨hsame.1.trans hkind, hsame.2.trans hparent⟩, ?_⟩
      intro i hi
      rw [hothers i hi, get?_update_of_ne hi]

section

variable (hget : t.get? s = some scope) (hempty : scope.defs = []) (hids : Decl.Numbered decls)
include hget hempty hids

theorem exists_insertAll_iff_of_empty :
    (∃ t', t.insertAll s decls = .ok t') ↔ Decl.AllCoexist scope.kind decls :=
  exists_insertAll_iff hget (Scope.keeps_nil hempty) (by simp [Decl.AllCoexist]) hids

theorem binding?_insertAll (h : t.insertAll s decls = .ok t') (name : String) :
    t'.binding? s name = Decl.bindingOf decls name := by
  obtain ⟨scope', hget', hkept, _⟩ := insertAll_keeps hget (Scope.keeps_nil hempty) hids h
  rw [binding?, hget', Option.bind_some, hkept name, List.nil_append]

end

/-- Declarations inserted one after another into an empty scope. In the scope of a file they all
find their place if, for every name, they are one declaration, functions at most one of which has
a body, or variables at most one of which has an initial value; in any other scope, if no two
declarations have the same name. A name is then bound to its definition, or else to the declaration
that came first. So neither success nor the binding of a name that has a definition depends on the
order. -/
theorem insertAll_merges (t : ScopeTree) (s : ScopeId) (scope : Scope) (hget : t.get? s = some scope)
    (hempty : scope.defs = []) (decls : List Decl) (hids : Decl.Numbered decls) :
    (scope.kind = .file → ((∃ t', t.insertAll s decls = .ok t') ↔
      ∀ name, Decl.Mergeable (decls.filter (·.name = name)))) ∧
    (scope.kind ≠ .file → ((∃ t', t.insertAll s decls = .ok t') ↔
      ∀ d ∈ decls, ∀ d' ∈ decls, d.name = d'.name → d = d')) ∧
    (∀ t', t.insertAll s decls = .ok t' →
      ∀ name, t'.binding? s name = Decl.bindingOf decls name) ∧
    ∀ decls', decls.Perm decls' →
      ((∃ t', t.insertAll s decls = .ok t') ↔ ∃ t', t.insertAll s decls' = .ok t') ∧
      ∀ t₁ t₂, t.insertAll s decls = .ok t₁ → t.insertAll s decls' = .ok t₂ →
        ∀ d ∈ decls, d.isDefinition →
          t₁.binding? s d.name = some d ∧ t₂.binding? s d.name = some d := by
  have hiff := exists_insertAll_iff_of_empty hget hempty hids
  refine ⟨?_, ?_, fun t' => binding?_insertAll hget hempty hids, ?_⟩
  · intro hkind
    rw [hiff, hkind, Decl.allCoexist_file_iff]
  · intro hkind
    rw [hiff, Decl.allCoexist_iff_of_ne_file hkind]
  · intro decls' hperm
    have hids' : Decl.Numbered decls' := hids.subset hperm.symm.subset
    have hiff' := exists_insertAll_iff_of_empty hget hempty hids'
    constructor
    · rw [hiff, hiff']
      exact ⟨fun h => h.subset hperm.symm.subset, fun h => h.subset hperm.subset⟩
    · intro t₁ t₂ h₁ h₂ d hd hdef
      rw [binding?_insertAll hget hempty hids h₁, binding?_insertAll hget hempty hids' h₂]
      exact ⟨(hiff.mp ⟨t₁, h₁⟩).bindingOf_eq hd hdef,
        (hiff'.mp ⟨t₂, h₂⟩).bindingOf_eq (hperm.subset hd) hdef⟩

/-- A variable that is declared before and after its definition, a prototype that is listed twice,
and a name for a type: `int x; int f(void); int x = 1; int x; int f(void) { } int f(void);
typedef int number;` -/
def repeatedNames : List Decl :=
  let int : TypeExpr := .named 0 ⟨0, "int", default⟩
  let signature : TypeExpr := .func 1 int default [] default
  let prototype : Decl := .func 4 "f" default signature none
  [.var 3 "x" default int none, prototype,
    .var 5 "x" default int (some (.literal 0 (.int 1) default)), .var 6 "x" default int none,
    .func 7 "f" default signature (some (.block 0 default [] default)), prototype,
    .typedef 8 "number" default int]

/-- In this order and in the opposite one, `x` is bound to its definition. -/
theorem insertAll_merges_repeatedNames : Decl.Numbered repeatedNames ∧ ∃ t₁ t₂,
    (create {} none .file).2.insertAll 0 repeatedNames = .ok t₁ ∧
    (create {} none .file).2.insertAll 0 repeatedNames.reverse = .ok t₂ ∧
    ∃ d ∈ repeatedNames, d.id = 5 ∧ t₁.binding? 0 "x" = some d ∧ t₂.binding? 0 "x" = some d := by
  have hids : Decl.Numbered repeatedNames := by decide +kernel
  obtain ⟨_, _, _, hperm⟩ := insertAll_merges (create {} none .file).2 0
    { parent := none, kind := .file } rfl rfl repeatedNames hids
  obtain ⟨hsuccess, hbindings⟩ := hperm repeatedNames.reverse (List.reverse_perm _).symm
  obtain ⟨t₁, h₁, _⟩ : ∃ t₁, (create {} none .file).2.insertAll 0 repeatedNames = .ok t₁ ∧ true :=
    Except.exists_of_any (by decide +kernel)
  obtain ⟨t₂, h₂⟩ := hsuccess.mp ⟨t₁, h₁⟩
  have hmem : repeatedNames[2] ∈ repeatedNames := List.getElem_mem _
  exact ⟨hids, t₁, t₂, h₁, h₂, repeatedNames[2], hmem, rfl,
    hbindings t₁ t₂ h₁ h₂ repeatedNames[2] hmem rfl⟩

end ScopeTree

namespace Program

variable {p : Program} {r : Resolution}

theorem Coherent.numbered (hp : p.Coherent) : Decl.Numbered p.file :=
  fun _ hd _ hd' => hp.decl_eq (p.declares_of_mem_file hd) (p.declares_of_mem_file hd')

/-- The walk through a program leaves the scope of the file as it is. -/
theorem resolve_file (hr : p.resolve = .ok r) :
    ∃ start, p.openFile = .ok start ∧
      ∀ name, r.fileBinding? name = start.resolution.fileBinding? name := by
  obtain ⟨start, hstart, hrest⟩ := Except.bind_eq_ok.mp hr
  obtain ⟨final, hwalk, hfinal⟩ := Except.bind_eq_ok.mp hrest
  cases hfinal
  obtain ⟨top, _, hcovers⟩ := openFile_covers hstart
  have hfile := (foldlM_seen (fun seen r => Resolver.Covers p top seen r)
    (fun _ _ _ _ hevent hr hstep => hr.step hevent hstep) hcovers hwalk).file
  refine ⟨start, hstart, fun name => ?_⟩
  rw [Resolution.fileBinding?, Resolution.fileBinding?, hfile, hcovers.file]

/-- In a program that can be resolved the top-level declarations stand beside each other, however
often they are listed, and names are bound at file level as the declarations say. -/
theorem resolve_coexist (hids : Decl.Numbered p.file) (hr : p.resolve = .ok r) :
    Decl.AllCoexist .file p.file ∧ ∀ name, r.fileBinding? name = Decl.bindingOf p.file name := by
  obtain ⟨start, hstart, hfile⟩ := resolve_file hr
  rw [openFile_eq] at hstart
  obtain ⟨scopes, hinsert, hscopes⟩ := Except.bind_eq_ok.mp hstart
  cases hscopes
  have hget : ScopeTree.initial.get? 1 = some { parent := some 0, kind := .file } := rfl
  constructor
  · exact (ScopeTree.exists_insertAll_iff_of_empty hget rfl hids).mp ⟨scopes, hinsert⟩
  · intro name
    rw [hfile]
    exact ScopeTree.binding?_insertAll hget rfl hids hinsert name

end Program

end MicroC
