import MicroC.Proofs.Typing.Decision

/-!
Types of declarations. While an alias is expanded, the checker refuses to expand it again, and it
follows a limited number of names. Neither refuses a type that the rules give: an alias that is met
inside itself has no type, and the names on a way through different aliases are not too many.
-/

namespace MicroC

open CheckM

/-- A node that the types of all aliases which are being expanded are made from. -/
def Node.Inside (p : Program) (r : Resolution) (expanding : List DeclId) (n : Node) : Prop :=
  ∀ d, p.Declares d → d.id ∈ expanding → Relation.TransGen (Node.Below r) n (.decl d)

namespace Node.Inside

variable {p : Program} {r : Resolution} {expanding : List DeclId} {n m : Node}

theorem nil : n.Inside p r [] := by
  intro d _ hmem
  cases hmem

theorem below (h : n.Inside p r expanding) (hm : m.Below r n) : m.Inside p r expanding :=
  fun d hd hmem => .trans (.single hm) (h d hd hmem)

theorem cons {d : Decl} (h : (Node.decl d).Inside p r expanding) (hp : p.Coherent)
    (hd : p.Declares d) (hm : m.Below r (.decl d)) : m.Inside p r (d.id :: expanding) := by
  intro c hc hmem
  rcases List.mem_cons.mp hmem with hid | hmem
  · rw [hp.decl_eq hc hd hid]
    exact .single hm
  · exact h.below hm c hc hmem

end Node.Inside

/-- What the checker does with a type name, if it may follow it. -/
def CheckM.DecidesNames (p : Program) (r : Resolution) (named : List DeclId → Ident → CheckM Ty)
    (Ready : List DeclId → Prop) : Prop :=
  ∀ id ident expanding t, Ready expanding →
    (Node.type (.named id ident)).Inside p r expanding →
    Decides p r t (named expanding ident) (∀ type, ¬ (TypeExpr.named id ident).Means r type)
      fun type _ => (TypeExpr.named id ident).Means r type

section

variable {p : Program} {r : Resolution} {named : List DeclId → Ident → CheckM Ty}
  {Ready : List DeclId → Prop}

/-- An alias. If it is met while it is expanded, then it has no type. -/
theorem Decl.typedef_decides (hp : p.Coherent) {id : DeclId} {name : String} {span : Span}
    {target : TypeExpr} (hd : p.Declares (.typedef id name span target)) {expanding : List DeclId}
    (hinside : (Node.decl (.typedef id name span target)).Inside p r expanding) {t : TypeTable}
    (htarget : id ∉ expanding → Decides p r t (target.denote .refuse named (id :: expanding))
      (∀ type, ¬ target.Means r type) fun type t' =>
        target.Means r type ∧ t'.Knows r target.paramDecls) :
    Decides p r t ((Decl.typedef id name span target).typeWith .refuse named expanding)
      (∀ type, ¬ (Decl.typedef id name span target).Means r type) fun type t' =>
        (Decl.typedef id name span target).Means r type ∧
          t'.decl? (.typedef id name span target) = some type ∧ t'.Knows r target.paramDecls := by
  refine .memoDecl hp hd ?_
  split
  next hmem =>
    refine .throw ?_
    intro type hmeans
    exact hmeans.not_transGen_self (hinside _ hd hmem)
  next hmem =>
    refine (htarget hmem).mono ?_ ?_
    · intro hwrong type hmeans
      cases hmeans with
      | typedef htarget => exact hwrong _ htarget
    · rintro type t' _ _ ⟨hmeans, hknows⟩
      exact ⟨.typedef hmeans, hknows⟩

mutual

theorem TypeExpr.denote_decides (hp : p.Coherent) (hnamed : DecidesNames p r named Ready)
    (hready : ∀ id expanding, Ready expanding → Ready (id :: expanding)) :
    (written : TypeExpr) → written.events ⊆ p.events → ∀ expanding, Ready expanding →
    (Node.type written).Inside p r expanding → ∀ t,
    Decides p r t (written.denote .refuse named expanding) (∀ type, ¬ written.Means r type)
      fun type t' => written.Means r type ∧ t'.Knows r written.paramDecls
  | .named id ident, _, expanding, hexpanding, hinside, t => by
    refine (hnamed id ident expanding t hexpanding hinside).mono (fun hwrong => hwrong) ?_
    intro type t' _ _ hmeans
    exact ⟨hmeans, nofun⟩
  | .array id elem lbracket len rbracket, hin, expanding, hexpanding, hinside, t => by
    refine (elem.denote_decides hp hnamed hready (Node.inside_events hin) expanding hexpanding
      (hinside.below .elem) t).bind ?_ ?_
    · intro hwrong type hmeans
      cases hmeans with
      | array helem _ => exact hwrong _ helem
    · rintro type t' _ ⟨hmeans, hknows⟩
      split
      next hscalar => exact .pure ⟨.array hmeans hscalar, hknows⟩
      next hscalar =>
        refine .throw ?_
        intro type' hmeans'
        cases hmeans' with
        | array helem helemScalar =>
          rw [hmeans.unique helem] at hscalar
          exact hscalar helemScalar
  | .func id result lparen params rparen, hin, expanding, hexpanding, hinside, t => by
    obtain ⟨hresult, hparams⟩ := List.append_subset.mp (Node.inside_events hin)
    refine (result.denote_decides hp hnamed hready hresult expanding hexpanding
      (hinside.below .result) t).bind ?_ ?_
    · intro hwrong type hmeans
      cases hmeans with
      | func hmeans _ => exact hwrong _ hmeans
    · rintro type t₁ _ ⟨hmeans, hknows⟩
      refine (Decl.paramTypes_decides hp hnamed hready params hparams expanding hexpanding
        (fun d hd => hinside.below (.param hd)) t₁).bind ?_ ?_
      · intro hwrong type' hmeans'
        cases hmeans' with
        | func _ htypes => exact hwrong _ htypes
      · rintro types t₂ hwithin ⟨htypes, hknows'⟩
        exact .pure ⟨.func hmeans htypes, (hknows.mono hwithin).append hknows'⟩

theorem Decl.typeWith_decides (hp : p.Coherent) (hnamed : DecidesNames p r named Ready)
    (hready : ∀ id expanding, Ready expanding → Ready (id :: expanding)) :
    (d : Decl) → p.Declares d → ∀ expanding, Ready expanding →
    (Node.decl d).Inside p r expanding → ∀ t,
    Decides p r t (d.typeWith .refuse named expanding) (∀ type, ¬ d.Means r type) fun type t' =>
      d.Means r type ∧ t'.decl? d = some type ∧ t'.Knows r d.paramDecls
  | .func id name span signature body, hd, expanding, hexpanding, hinside, t => by
    have hin : signature.events ⊆ p.events := by
      have hevents := p.events_subset (hd.entered (by simp [Decl.builtins]))
      cases body with
      | none => exact Node.inside_events hevents
      | some body => exact (List.append_subset.mp (Node.inside_events hevents)).1
    refine .memoDecl hp hd ((signature.denote_decides hp hnamed hready hin expanding hexpanding
      (hinside.below .signature) t).bind ?_ ?_)
    · intro hwrong type hmeans
      cases hmeans with
      | func hsignature _ => exact hwrong _ hsignature
    · rintro type t' _ ⟨hmeans, hknows⟩
      split
      next result params =>
        split
        next hresult =>
          refine .pure ⟨.func hmeans ?_, hknows⟩
          intro result' params' heq
          cases heq
          exact hresult
        next hresult =>
          refine .throw ?_
          intro type' hmeans'
          cases hmeans' with
          | func hsignature hresult' => exact hresult (hresult' _ _ (hsignature.unique hmeans))
      next hother =>
        refine .pure ⟨.func hmeans ?_, hknows⟩
        intro result params heq
        exact absurd heq (hother result params)
  | .var id name span written init, hd, expanding, hexpanding, hinside, t => by
    have hin : written.events ⊆ p.events := by
      have hevents := p.events_subset (hd.entered (by simp [Decl.builtins]))
      cases init with
      | none => exact Node.inside_events hevents
      | some init => exact (List.append_subset.mp (Node.inside_events hevents)).1
    refine .memoDecl hp hd ((written.denote_decides hp hnamed hready hin expanding hexpanding
      (hinside.below .written) t).mono ?_ ?_)
    · intro hwrong type hmeans
      cases hmeans with
      | var hwritten => exact hwrong _ hwritten
    · rintro type t' _ _ ⟨hmeans, hknows⟩
      exact ⟨.var hmeans, hknows⟩
  | .basic id name span kind, hd, expanding, _, _, t => .memoDecl hp hd (.pure ⟨.basic, nofun⟩)
  | .typedef id name span target, hd, expanding, hexpanding, hinside, t => by
    have hin : target.events ⊆ p.events :=
      Node.inside_events (p.events_subset (hd.entered (by simp [Decl.builtins])))
    refine Decl.typedef_decides hp hd hinside fun _ => ?_
    exact target.denote_decides hp hnamed hready hin (id :: expanding) (hready id expanding hexpanding)
      (hinside.cons hp hd .target) t

theorem Decl.paramTypes_decides (hp : p.Coherent) (hnamed : DecidesNames p r named Ready)
    (hready : ∀ id expanding, Ready expanding → Ready (id :: expanding)) :
    (ds : List Decl) → Decl.eventsAll ds ⊆ p.events → ∀ expanding, Ready expanding →
    (∀ d ∈ ds, (Node.decl d).Inside p r expanding) → ∀ t,
    Decides p r t (Decl.paramTypes .refuse named expanding ds) (∀ types, ¬ Decl.ParamsMean r ds types)
      fun types t' => Decl.ParamsMean r ds types ∧ t'.Knows r (Decl.withParamDecls ds)
  | [], _, _, _, _, t => .pure ⟨.nil, nofun⟩
  | d :: rest, hin, expanding, hexpanding, hinside, t => by
    obtain ⟨hd, hrest⟩ := List.append_subset.mp hin
    refine (d.typeWith_decides hp hnamed hready (.inr (hd d.enter_mem_events)) expanding hexpanding
      (hinside d List.mem_cons_self) t).bind ?_ ?_
    · intro hwrong types hmeans
      cases hmeans with
      | cons hfirst _ _ => exact hwrong _ hfirst
    · rintro type t₁ _ ⟨hmeans, hknown, hknows⟩
      split
      next hparam =>
        refine (Decl.paramTypes_decides hp hnamed hready rest hrest expanding hexpanding
          (fun d hd => hinside d (List.mem_cons_of_mem _ hd)) t₁).bind ?_ ?_
        · intro hwrong types hmeans'
          cases hmeans' with
          | cons _ _ htypes => exact hwrong _ htypes
        · rintro types t₂ hwithin ⟨htypes, hknows'⟩
          have hself : t₂.Knows r [d] :=
            List.forall_mem_singleton.mpr ⟨type, hwithin.decl? hknown, hmeans⟩
          exact .pure ⟨.cons hmeans hparam htypes,
            hself.append ((hknows.mono hwithin).append hknows')⟩
      next hparam =>
        refine .throw ?_
        intro types hmeans'
        cases hmeans' with
        | cons hfirst hfirstParam _ =>
          rw [hmeans.unique hfirst] at hparam
          exact hparam hfirstParam

end

end

/-! Names. -/

/-- There are names left to follow: on the way here each one led to another alias. -/
def Resolution.Spare (r : Resolution) (depth : Nat) (expanding : List DeclId) : Prop :=
  ∃ reached : List DeclId, reached.Nodup ∧ reached ⊆ expanding ∧
    (∀ id ∈ reached, ∃ ident d, r.declOf? ident = some d ∧ d.id = id) ∧
    r.idents.size < reached.length + depth

namespace Resolution.Spare

variable {r : Resolution} {depth : Nat} {expanding : List DeclId}

theorem start : r.Spare r.nameDepth [] := by
  refine ⟨[], List.nodup_nil, List.Subset.refl _, nofun, ?_⟩
  simp [nameDepth]

theorem cons (h : r.Spare depth expanding) (id : DeclId) : r.Spare depth (id :: expanding) := by
  obtain ⟨reached, hnodup, hsubset, hrest⟩ := h
  exact ⟨reached, hnodup, fun id hid => List.mem_cons_of_mem _ (hsubset hid), hrest⟩

/-- The next alias takes one of the names. -/
theorem follow (h : r.Spare (depth + 1) expanding) {ident : Ident} {d : Decl}
    (hd : r.declOf? ident = some d) (hnew : d.id ∉ expanding) : r.Spare depth (d.id :: expanding) := by
  obtain ⟨reached, hnodup, hsubset, hreached, hsize⟩ := h
  refine ⟨d.id :: reached, ?_, ?_, ?_, ?_⟩
  · exact List.nodup_cons.mpr ⟨fun hmem => hnew (hsubset hmem), hnodup⟩
  · exact List.cons_subset_cons _ hsubset
  · intro id hid
    rcases List.mem_cons.mp hid with rfl | hmem
    · exact ⟨ident, d, hd, rfl⟩
    · exact hreached id hmem
  · rw [List.length_cons]
    omega

/-- There are not more aliases than names that stand for them. -/
theorem ne_zero (h : r.Spare depth expanding) : depth ≠ 0 := by
  obtain ⟨reached, hnodup, _, hreached, hsize⟩ := h
  have hsubset : reached ⊆ r.idents.toList.map (·.2.id) := by
    intro id hid
    obtain ⟨ident, d, hd, rfl⟩ := hreached id hid
    exact List.mem_map.mpr ⟨(ident.id, d), Std.TreeMap.mem_toList_iff_getElem?_eq_some.mpr hd, rfl⟩
  have hlength := hnodup.length_le_of_subset hsubset
  rw [List.length_map, Std.TreeMap.length_toList] at hlength
  omega

end Resolution.Spare

section

variable {p : Program} {r : Resolution} {t : TypeTable}

theorem Resolution.declOf_decides (hr : r.Refers p) (ident : Ident) :
    Decides p r t (r.declOf ident) (r.declOf? ident = none) fun d _ =>
      r.declOf? ident = some d ∧ p.Declares d := by
  unfold Resolution.declOf
  cases hd : r.declOf? ident with
  | none => exact .throw rfl
  | some d => exact .pure ⟨rfl, hr.declares ident d hd⟩

theorem Resolution.namedType_decides (hp : p.Coherent) (hr : r.Refers p) (depth : Nat) :
    DecidesNames p r (r.namedType .refuse depth) (r.Spare depth) := by
  induction depth with
  | zero =>
    intro id ident expanding t hspare _
    exact absurd rfl hspare.ne_zero
  | succ depth ih =>
    intro id ident expanding t hspare hinside
    refine (r.declOf_decides hr ident).bind ?_ ?_
    · intro hnone type hmeans
      cases hmeans with
      | named hd _ _ => cases hnone.symm.trans hd
    · rintro d t' _ ⟨hd, hdeclares⟩
      have hbelow := hinside.below (.named hd)
      -- The meaning of the name is that of the declaration it stands for.
      have hnamed : ∀ type, (TypeExpr.named id ident).Means r type → d.isType ∧ d.Means r type := by
        intro type hmeans
        cases hmeans with
        | named hd' htype hmeans =>
          rw [Option.some.inj (hd.symm.trans hd')]
          exact ⟨htype, hmeans⟩
      split
      next htype =>
        have hdecides : Decides p r t' (d.typeWith .refuse (r.namedType .refuse depth) expanding)
            (∀ type, ¬ d.Means r type) fun type t'' =>
              d.Means r type ∧ t''.decl? d = some type ∧ t''.Knows r d.paramDecls := by
          cases d with
          | func _ _ _ _ _ | var _ _ _ _ _ => cases htype
          | basic _ _ _ _ => exact .memoDecl hp hdeclares (.pure ⟨.basic, nofun⟩)
          | typedef _ name span target =>
            have hin : target.events ⊆ p.events :=
              Node.inside_events (p.events_subset (hdeclares.entered (by simp [Decl.builtins])))
            refine Decl.typedef_decides hp hdeclares hbelow fun hnew => ?_
            exact target.denote_decides hp ih (fun id _ h => h.cons id) hin _ (hspare.follow hd hnew)
              (hbelow.cons hp hdeclares .target) t'
        refine hdecides.mono (fun hwrong type hmeans => hwrong type (hnamed type hmeans).2) ?_
        rintro type t'' _ _ ⟨hmeans, _⟩
        exact .named hd htype hmeans
      next htype => exact .throw fun type hmeans => htype (hnamed type hmeans).1

/-- The checker decides which declarations have a type. -/
theorem Decl.typeOf_decides (hp : p.Coherent) (hr : r.Refers p) {d : Decl} (hd : p.Declares d) :
    Decides p r t (d.typeOf r) (∀ type, ¬ d.Means r type) fun type t' =>
      d.Means r type ∧ t'.decl? d = some type ∧ t'.Knows r d.paramDecls :=
  d.typeWith_decides hp (r.namedType_decides hp hr r.nameDepth) (fun id _ h => h.cons id) hd []
    .start .nil t

end

end MicroC
