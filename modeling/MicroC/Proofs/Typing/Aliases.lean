import Mathlib.Logic.Relation
import MicroC.Proofs.Syntax.Construction
import MicroC.Proofs.Typing.Completeness

/-!
Expansion of aliases. The checker stops an expansion at an alias that it is expanding already, and
at a name that is too deep inside others. Here it is free what is done at such a place: if that makes
no difference, then no expansion comes there. So the limit on names is never reached, and an alias is
met inside itself only if it depends on itself.
-/

namespace MicroC

open CheckM

/-! Dependence. -/

/-- What the type of a node depends on: what it is made from, as long as names stand for types. -/
def Node.DependsOn (r : Resolution) (n m : Node) : Prop :=
  m.Below r n ∧ ∀ id ident d, n = .type (.named id ident) → m = .decl d → d.isType

theorem Node.Below.dependsOn {r : Resolution} {n m : Node} (h : m.Below r n)
    (hn : ∀ id ident, n ≠ .type (.named id ident)) : n.DependsOn r m :=
  ⟨h, fun id ident _ hname _ => absurd hname (hn id ident)⟩

theorem Node.DependsOn.transGen_below {r : Resolution} {n m : Node}
    (h : Relation.TransGen (Node.DependsOn r) n m) : Relation.TransGen (Node.Below r) m n := by
  refine Relation.transGen_swap.mp (h.lift id ?_)
  exact fun _ _ hdepends => hdepends.1

/-- What holds along an expansion: of a node and the aliases that are being expanded, of what the
node depends on, and of the target of an alias once the alias is one of them. -/
structure Node.Along (r : Resolution) (Inv : List DeclId → Node → Prop) : Prop where
  step : ∀ {expanding n m}, Inv expanding n → n.DependsOn r m → Inv expanding m
  enter : ∀ {expanding id name span target}, Inv expanding (.decl (.typedef id name span target)) →
    Inv (id :: expanding) (.type target)

/-- Nothing depends on what is done at an alias that is being expanded. -/
def Halts.AgreeAlong (halts halts' : Halts) (Inv : List DeclId → Node → Prop) : Prop :=
  ∀ expanding id name span target, Inv expanding (.decl (.typedef id name span target)) →
    id ∈ expanding → halts.again name span = halts'.again name span

section

variable {r : Resolution} {Inv : List DeclId → Node → Prop} {halts halts' : Halts}
  {named named' : List DeclId → Ident → CheckM Ty} {Ready : List DeclId → Prop}

theorem Decl.typeWith_typedef_congr (hagree : halts.AgreeAlong halts' Inv) {expanding : List DeclId}
    {id : DeclId} {name : String} {span : Span} {target : TypeExpr}
    (h : Inv expanding (.decl (.typedef id name span target)))
    (htarget : id ∉ expanding → target.denote halts named (id :: expanding) =
      target.denote halts' named' (id :: expanding)) :
    (Decl.typedef id name span target).typeWith halts named expanding =
      (Decl.typedef id name span target).typeWith halts' named' expanding := by
  rw [typeWith, typeWith]
  split
  next hmem => rw [hagree expanding id name span target h hmem]
  next hmem => rw [htarget hmem]

/-- Two ways to read names, and to do something where an expansion stops, that agree along an
expansion as long as it is ready for names. -/
structure Halts.Alike (r : Resolution) (Inv : List DeclId → Node → Prop) (Ready : List DeclId → Prop)
    (halts halts' : Halts) (named named' : List DeclId → Ident → CheckM Ty) : Prop where
  along : Node.Along r Inv
  agree : halts.AgreeAlong halts' Inv
  ready : ∀ id expanding, Ready expanding → Ready (id :: expanding)
  names : ∀ expanding id ident, Ready expanding → Inv expanding (.type (.named id ident)) →
    named expanding ident = named' expanding ident

mutual

theorem TypeExpr.denote_congr (hsame : Halts.Alike r Inv Ready halts halts' named named') :
    (written : TypeExpr) → ∀ expanding, Ready expanding → Inv expanding (.type written) →
    written.denote halts named expanding = written.denote halts' named' expanding
  | .named id ident, expanding, hexpanding, h => by
    rw [TypeExpr.denote, TypeExpr.denote, hsame.names expanding id ident hexpanding h]
  | .array id elem lbracket len rbracket, expanding, hexpanding, h => by
    have helem := elem.denote_congr hsame expanding hexpanding
      (hsame.along.step h (Node.Below.elem.dependsOn nofun))
    rw [TypeExpr.denote, TypeExpr.denote, helem]
  | .func id result lparen params rparen, expanding, hexpanding, h => by
    have hresult := result.denote_congr hsame expanding hexpanding
      (hsame.along.step h (Node.Below.result.dependsOn nofun))
    have hparams := Decl.paramTypes_congr hsame params expanding hexpanding fun d hd =>
      hsame.along.step h ((Node.Below.param hd).dependsOn nofun)
    rw [TypeExpr.denote, TypeExpr.denote, hresult, hparams]

theorem Decl.typeWith_congr (hsame : Halts.Alike r Inv Ready halts halts' named named') :
    (d : Decl) → ∀ expanding, Ready expanding → Inv expanding (.decl d) →
    d.typeWith halts named expanding = d.typeWith halts' named' expanding
  | .func id name span signature body, expanding, hexpanding, h => by
    have hsignature := signature.denote_congr hsame expanding hexpanding
      (hsame.along.step h (Node.Below.signature.dependsOn nofun))
    rw [Decl.typeWith, Decl.typeWith, hsignature]
  | .var id name span written init, expanding, hexpanding, h => by
    have hwritten := written.denote_congr hsame expanding hexpanding
      (hsame.along.step h (Node.Below.written.dependsOn nofun))
    rw [Decl.typeWith, Decl.typeWith, hwritten]
  | .basic id name span kind, _, _, _ => by rw [Decl.typeWith, Decl.typeWith]
  | .typedef id name span target, expanding, hexpanding, h =>
    Decl.typeWith_typedef_congr hsame.agree h fun _ => target.denote_congr hsame (id :: expanding)
      (hsame.ready id expanding hexpanding) (hsame.along.enter h)

theorem Decl.paramTypes_congr (hsame : Halts.Alike r Inv Ready halts halts' named named') :
    (ds : List Decl) → ∀ expanding, Ready expanding → (∀ d ∈ ds, Inv expanding (.decl d)) →
    Decl.paramTypes halts named expanding ds = Decl.paramTypes halts' named' expanding ds
  | [], _, _, _ => by rw [Decl.paramTypes, Decl.paramTypes]
  | d :: rest, expanding, hexpanding, h => by
    have hd := d.typeWith_congr hsame expanding hexpanding (h d List.mem_cons_self)
    have hrest := Decl.paramTypes_congr hsame rest expanding hexpanding fun d hd =>
      h d (List.mem_cons_of_mem _ hd)
    rw [Decl.paramTypes, Decl.paramTypes, hd, hrest]

end

/-- Names are read alike as long as there are names left to follow. -/
theorem Resolution.namedType_alike (hinv : Node.Along r Inv) (hagree : halts.AgreeAlong halts' Inv)
    (depth depth' : Nat) :
    Halts.Alike r Inv (fun expanding => r.Spare depth expanding ∧ r.Spare depth' expanding)
      halts halts' (r.namedType halts depth) (r.namedType halts' depth') := by
  refine ⟨hinv, hagree, fun id _ h => ⟨h.1.cons id, h.2.cons id⟩, ?_⟩
  induction depth generalizing depth' with
  | zero =>
    intro _ _ _ hspare _
    exact absurd rfl hspare.1.ne_zero
  | succ depth ih =>
    rintro expanding id ident ⟨hspare, hspare'⟩ h
    cases depth' with
    | zero => exact absurd rfl hspare'.ne_zero
    | succ depth' =>
      rw [namedType, namedType]
      unfold Resolution.declOf
      cases hd : r.declOf? ident with
      | none => rfl
      | some d =>
        simp only [pure_bind]
        cases d with
        | func _ _ _ _ _ | var _ _ _ _ _ | basic _ _ _ _ => rfl
        | typedef found name span target =>
          have htypedef : Inv expanding (.decl (.typedef found name span target)) := by
            refine hinv.step h ⟨.named hd, ?_⟩
            rintro _ _ _ _ ⟨⟩
            rfl
          refine Decl.typeWith_typedef_congr hagree htypedef fun hnew => ?_
          exact target.denote_congr
            ⟨hinv, hagree, fun id _ h => ⟨h.1.cons id, h.2.cons id⟩, ih depth'⟩ _
            ⟨hspare.follow hd hnew, hspare'.follow hd hnew⟩ (hinv.enter htypedef)

theorem Resolution.Spare.mono {depth depth' : Nat} {expanding : List DeclId}
    (h : r.Spare depth expanding) (hle : depth ≤ depth') : r.Spare depth' expanding := by
  obtain ⟨reached, hnodup, hsubset, hreached, hsize⟩ := h
  exact ⟨reached, hnodup, hsubset, hreached, by omega⟩

theorem Decl.expand_congr (hinv : Node.Along r Inv) (hagree : halts.AgreeAlong halts' Inv)
    {depth depth' : Nat} (hdepth : r.nameDepth ≤ depth) (hdepth' : r.nameDepth ≤ depth') {d : Decl}
    (hd : Inv [] (.decl d)) : d.expand r halts depth = d.expand r halts' depth' :=
  d.typeWith_congr (Resolution.namedType_alike hinv hagree depth depth') []
    ⟨.mono .start hdepth, .mono .start hdepth'⟩ hd

end

/-! Programs. -/

section

variable {draft : Draft} {r : Resolution}

/-- While a node is looked at, all aliases that are being expanded depend on it. -/
def Program.Inside (p : Program) (r : Resolution) (expanding : List DeclId) (n : Node) : Prop :=
  p.Holds n ∧ ∀ c, p.Holds (.decl c) → c.id ∈ expanding →
    Relation.TransGen (Node.DependsOn r) (.decl c) n

theorem Draft.Closed.holds_below (h : draft.Closed)
    (hr : ∀ ident c, r.declOf? ident = some c → draft.program.Holds (.decl c)) {n m : Node}
    (hn : draft.program.Holds n) (hm : m.Below r n) : draft.program.Holds m := by
  cases hm with
  | named hd => exact hr _ _ hd
  | elem | result | target =>
    refine h.inner _ _ hn ?_
    simp [Node.events, TypeExpr.events, Decl.events, TypeExpr.enter_mem_events]
  | @param _ _ _ _ _ d hd =>
    refine h.inner _ _ hn ?_
    simp [Node.events, TypeExpr.events, Decl.mem_eventsAll hd d.enter_mem_events]
  | @signature _ _ _ _ body =>
    refine h.inner _ _ hn ?_
    cases body <;> simp [Node.events, Decl.events, TypeExpr.enter_mem_events]
  | @written _ _ _ _ init =>
    refine h.inner _ _ hn ?_
    cases init <;> simp [Node.events, Decl.events, TypeExpr.enter_mem_events]

theorem Draft.Closed.along_inside (h : draft.Closed)
    (hr : ∀ ident c, r.declOf? ident = some c → draft.program.Holds (.decl c)) :
    Node.Along r (draft.program.Inside r) := by
  constructor
  · rintro expanding n m ⟨hn, hinside⟩ hm
    exact ⟨h.holds_below hr hn hm.1, fun c hc hmem => (hinside c hc hmem).tail hm⟩
  · rintro expanding id name span target ⟨hn, hinside⟩
    have htarget : (Node.decl (.typedef id name span target)).DependsOn r (.type target) :=
      Node.Below.target.dependsOn nofun
    refine ⟨h.holds_below hr hn htarget.1, ?_⟩
    intro c hc hmem
    rcases List.mem_cons.mp hmem with hid | hmem
    · rw [hc.decl_eq hn hid]
      exact .single htarget
    · exact (hinside c hc hmem).tail htarget

/-- A program with all declarations of the arena at file level. -/
def Program.opened (p : Program) : Program :=
  { p with file := p.file ++ p.decls.toList.filter fun c => p.Holds (.decl c) }

theorem Program.opened_declares {p : Program} {c : Decl} (h : p.Holds (.decl c)) :
    p.opened.Declares c := by
  refine p.opened.declares_of_mem_file (List.mem_append_right _ (List.mem_filter.mpr ⟨?_, ?_⟩))
  · exact Array.mem_toList_iff.mpr (Array.mem_of_getElem? h)
  · exact decide_eq_true h

theorem Draft.Closed.opened_coherent (h : draft.Closed) : draft.program.opened.Coherent := by
  refine Draft.Closed.coherent (d := ⟨draft.program.opened, 0⟩) ⟨h.builtins, h.inner, ?_⟩
  intro c hc
  rcases List.mem_append.mp hc with hfile | harena
  · exact h.file c hfile
  · exact of_decide_eq_true (List.mem_filter.mp harena).2

/-- An accepted declaration does not depend on itself. -/
theorem Draft.Closed.not_cyclic_of_check (h : draft.Closed)
    (hr : ∀ ident c, r.declOf? ident = some c → draft.program.Holds (.decl c))
    (hbindings : ∀ name c, r.fileBinding? name = some c → draft.program.Holds (.decl c))
    {t : TypeTable} (hcheck : draft.program.check r = .ok t) {c : Decl} (hc : c ∈ draft.program.file) :
    ¬ Relation.TransGen (Node.DependsOn r) (.decl c) (.decl c) := by
  intro hcycle
  have hrefers : r.Refers draft.program.opened :=
    ⟨fun ident c hc => draft.program.opened_declares (hr ident c hc),
      fun name c hc => draft.program.opened_declares (hbindings name c hc)⟩
  have hdecides := Decl.checkAll_decides h.opened_coherent hrefers draft.program.file
    (fun c hc => List.mem_append_left _ hc) .empty
  obtain ⟨⟨_, t'⟩, hrun, _⟩ := Except.bind_eq_ok.mp hcheck
  obtain ⟨_, _, hvalid⟩ := hdecides.of_ok hrun
  obtain ⟨⟨type, hmeans, _⟩, _⟩ := hvalid c hc
  exact hmeans.not_transGen_self (Node.DependsOn.transGen_below hcycle)

end

/-- Aliases are expanded for every table of names. What would be done at a name deeper inside others
than the table has names does not matter, so an expansion ends before. If a declaration at file level
depends on itself, then the program is refused; if no alias does, then it does not matter what
would be done at an alias that is being expanded, so none is met. -/
theorem Draft.expansion_halts_at_cycles (draft : Draft) (h : draft.Closed) (r : Resolution)
    (hr : ∀ ident c, r.declOf? ident = some c → draft.program.Holds (.decl c))
    (hbindings : ∀ name c, r.fileBinding? name = some c → draft.program.Holds (.decl c)) :
    (∀ (c : Decl) tooDeep depth, r.nameDepth ≤ depth →
      c.expand r ⟨Halts.refuse.again, tooDeep⟩ depth = c.typeOf r) ∧
    ((∃ c ∈ draft.program.file, Relation.TransGen (Node.DependsOn r) (.decl c) (.decl c)) →
      ∃ e, draft.program.check r = .error e) ∧
    ((∀ id name span target, draft.program.Holds (.decl (.typedef id name span target)) →
        ¬ Relation.TransGen (Node.DependsOn r) (.decl (.typedef id name span target))
          (.decl (.typedef id name span target))) →
      ∀ c, draft.program.Holds (.decl c) → ∀ halts depth, r.nameDepth ≤ depth →
        c.expand r halts depth = c.typeOf r) := by
  refine ⟨?_, ?_, ?_⟩
  · intro c tooDeep depth hdepth
    have halong : Node.Along r fun _ _ => True := ⟨fun _ _ => trivial, fun _ => trivial⟩
    have hagree : Halts.AgreeAlong ⟨Halts.refuse.again, tooDeep⟩ .refuse fun _ _ => True :=
      fun _ _ _ _ _ _ _ => rfl
    exact Decl.expand_congr halong hagree hdepth (Nat.le_refl _) trivial
  · rintro ⟨c, hc, hcycle⟩
    cases hcheck : draft.program.check r with
    | error e => exact ⟨e, rfl⟩
    | ok t => exact absurd hcycle (h.not_cyclic_of_check hr hbindings hcheck hc)
  · intro hacyclic c hc halts depth hdepth
    refine Decl.expand_congr (h.along_inside hr) ?_ hdepth (Nat.le_refl _) ⟨hc, nofun⟩
    rintro expanding id name span target ⟨hn, hinside⟩ hmem
    exact absurd (hinside _ hn hmem) (hacyclic id name span target hn)

namespace Samples

/-- An alias `typedef A B[3];`, whose element type is named by the first identifier. -/
def arrayAlias : Decl :=
  .typedef 3 "B" ⟨8, 9⟩ (.array 1 (.named 0 ⟨0, "A", ⟨0, 1⟩⟩) ⟨4, 5⟩ (some 3) ⟨6, 7⟩)

/-- An alias `typedef B A;`, whose target is named by the second identifier. -/
def plainAlias : Decl := .typedef 4 "A" ⟨10, 11⟩ (.named 2 ⟨1, "B", ⟨2, 3⟩⟩)

def twoAliases : Draft :=
  let a : Ident := ⟨0, "A", ⟨0, 1⟩⟩
  let b : Ident := ⟨1, "B", ⟨2, 3⟩⟩
  ⟨{ decls := (Decl.builtins ++ [arrayAlias, plainAlias]).toArray
     types := #[.named 0 a, .array 1 (.named 0 a) ⟨4, 5⟩ (some 3) ⟨6, 7⟩, .named 2 b]
     idents := #[a, b]
     file := [arrayAlias, plainAlias] }, 12⟩

/-- The table in which the identifiers stand for a declaration and for the array. -/
def aliasTable (first : Decl) : Resolution :=
  { scopes := {}
    idents := ((∅ : Std.TreeMap IdentId Decl).insert 0 first).insert 1 arrayAlias
    root := 0
    file := 0 }

theorem aliasTable_holds {first : Decl} (hfirst : twoAliases.program.Holds (.decl first))
    (ident : Ident) (c : Decl) (hc : (aliasTable first).declOf? ident = some c) :
    twoAliases.program.Holds (.decl c) := by
  simp only [Resolution.declOf?, aliasTable, Std.TreeMap.getElem?_insert] at hc
  split at hc
  next =>
    cases hc
    decide +kernel
  next =>
    split at hc
    next =>
      cases hc
      exact hfirst
    next => simp at hc

theorem plainAlias_cyclic : Relation.TransGen (Node.DependsOn (aliasTable plainAlias))
    (.decl plainAlias) (.decl plainAlias) := by
  have harray : (Node.type (.named 2 ⟨1, "B", ⟨2, 3⟩⟩)).DependsOn (aliasTable plainAlias)
      (.decl arrayAlias) := by
    refine ⟨.named (by decide +kernel), ?_⟩
    rintro _ _ _ _ ⟨⟩
    rfl
  have hplain : (Node.type (.named 0 ⟨0, "A", ⟨0, 1⟩⟩)).DependsOn (aliasTable plainAlias)
      (.decl plainAlias) := by
    refine ⟨.named (by decide +kernel), ?_⟩
    rintro _ _ _ _ ⟨⟩
    rfl
  have helem : (Node.decl arrayAlias).DependsOn (aliasTable plainAlias)
      (.type (.array 1 (.named 0 ⟨0, "A", ⟨0, 1⟩⟩) ⟨4, 5⟩ (some 3) ⟨6, 7⟩)) :=
    Node.Below.target.dependsOn nofun
  refine .tail (.tail (.tail (.tail (.single ?_) harray) helem) ?_) hplain
  · exact Node.Below.target.dependsOn nofun
  · exact Node.Below.elem.dependsOn nofun

end Samples

section

open Samples

/-- If `A` in the first alias stands for the second one, then they depend on each other; if it
stands for `int`, then none depends on itself. -/
theorem Draft.expansion_halts_at_cycles_twoAliases :
    (∃ e, twoAliases.program.check (aliasTable plainAlias) = .error e) ∧
    ∀ halts, plainAlias.expand (aliasTable (.basic 1 "int" Span.builtin .int)) halts 4 =
      plainAlias.typeOf (aliasTable (.basic 1 "int" Span.builtin .int)) := by
  have hclosed : twoAliases.Closed := by decide +kernel
  have hbindings : ∀ first name c, (aliasTable first).fileBinding? name = some c →
      twoAliases.program.Holds (.decl c) := by
    intro first name c hc
    cases hc
  have hint : twoAliases.program.Holds (.decl (.basic 1 "int" Span.builtin .int)) := by decide +kernel
  have hplain : twoAliases.program.Holds (.decl plainAlias) := by decide +kernel
  have hcyclic := expansion_halts_at_cycles twoAliases hclosed (aliasTable plainAlias)
    (aliasTable_holds hplain) (hbindings plainAlias)
  have hshared := expansion_halts_at_cycles twoAliases hclosed
    (aliasTable (.basic 1 "int" Span.builtin .int)) (aliasTable_holds hint) (hbindings _)
  refine ⟨hcyclic.2.1 ⟨plainAlias, by simp [twoAliases], plainAlias_cyclic⟩, fun halts => ?_⟩
  refine hshared.2.2 ?_ plainAlias hplain halts 4 (by decide +kernel)
  -- With this table the program is accepted, and all its aliases stand at file level.
  intro id name span target htypedef
  have hok : (twoAliases.program.check (aliasTable (.basic 1 "int" Span.builtin .int))).toOption.any
      fun _ => true := by decide +kernel
  obtain ⟨t, ht, _⟩ := Except.exists_of_any hok
  refine hclosed.not_cyclic_of_check (aliasTable_holds hint) (hbindings _) ht ?_
  have hmem := Array.mem_of_getElem? htypedef
  simpa [twoAliases, Decl.builtins] using hmem

end

end MicroC
