import MicroC.Proofs.Scope.Visible

/-!
Names of parameters. The parameters of a definition are declared one after the other in an
environment that is empty at first, so that no two of them have the same name.
-/

namespace MicroC

/-- The innermost environment holds some declarations and nothing else. -/
def Lexical.Lists (s : Lexical) (decls : List Decl) : Prop :=
  ∃ env rest, s.inner = env :: rest ∧ ∀ name d, env name = some d ↔ d ∈ decls ∧ d.name = name

namespace Lexical.Lists

variable {s s' : Lexical} {decls : List Decl}

theorem congr (h : s.Lists decls) (hinner : s'.inner = s.inner) : s'.Lists decls := by
  obtain ⟨env, rest, henv, hlists⟩ := h
  exact ⟨env, rest, hinner.trans henv, hlists⟩

theorem enter (s : Lexical) : s.enter.Lists [] := by
  refine ⟨.empty, s.inner, rfl, ?_⟩
  intro name d
  simp [Env.empty]

/-- A new declaration needs a new name. -/
theorem declare {d : Decl} (h : s.Lists decls) (hid : d.id ∉ decls.map Decl.id)
    (hrun : s.declare d = .ok s') : s'.Lists (decls ++ [d]) := by
  obtain ⟨env, rest, henv, hlists⟩ := h
  simp only [Lexical.declare, henv] at hrun
  split at hrun
  next hnone =>
    obtain rfl := Except.ok.inj hrun
    refine ⟨_, _, rfl, ?_⟩
    intro name d'
    unfold Env.bind
    by_cases hname : name = d.name
    · rw [if_pos hname, Option.some.injEq]
      constructor
      · rintro rfl
        exact ⟨by simp, hname.symm⟩
      · rintro ⟨hmem, hname'⟩
        rcases List.mem_append.mp hmem with hold | hnew
        · have hbound := (hlists name d').mpr ⟨hold, hname'⟩
          rw [hname, hnone] at hbound
          cases hbound
        · exact (List.mem_singleton.mp hnew).symm
    · rw [if_neg hname, hlists]
      constructor
      · exact fun hd' => ⟨List.mem_append_left _ hd'.1, hd'.2⟩
      · rintro ⟨hmem, hname'⟩
        rcases List.mem_append.mp hmem with hold | hnew
        · exact ⟨hold, hname'⟩
        · rw [List.mem_singleton.mp hnew] at hname'
          exact absurd hname'.symm hname
  next old hold =>
    -- A bound name may be declared again only by the declaration it is bound to.
    split at hrun
    next heq =>
      have hmem := ((hlists _ _).mp hold).1
      exact absurd (heq ▸ List.mem_map_of_mem hmem) hid
    · cases hrun

theorem names_nodup (h : s.Lists decls) (hids : (decls.map Decl.id).Nodup) :
    (decls.map Decl.name).Nodup := by
  obtain ⟨env, rest, _, hlists⟩ := h
  rw [List.Nodup, List.pairwise_map] at hids ⊢
  refine hids.imp_of_mem ?_
  intro d d' hd hd' hne hname
  have hbound := (hlists d.name d).mpr ⟨hd, rfl⟩
  have hbound' := (hlists d.name d').mpr ⟨hd', hname.symm⟩
  exact hne (congrArg Decl.id (Option.some.inj (hbound.symm.trans hbound')))

end Lexical.Lists

mutual

/-- An expression declares nothing. -/
theorem Expr.resolveIn_inner {outer : List Env} : (e : Expr) → {s s' : Lexical} →
    e.resolveIn outer s = .ok s' → s'.inner = s.inner
  | .literal .., _, _, h => by rw [Except.ok.inj h]
  | .binary _ _ _ lhs rhs, _, _, h => by
    obtain ⟨s₁, hl, hr⟩ := Except.bind_eq_ok.mp h
    exact (rhs.resolveIn_inner hr).trans (lhs.resolveIn_inner hl)
  | .call _ _ _ args _, _, _, h => by
    obtain ⟨s₁, hc, ha⟩ := Except.bind_eq_ok.mp h
    exact (Expr.resolveAllIn_inner args ha).trans (Lexical.use_inner hc)
  | .name .., _, _, h => Lexical.use_inner h
  | .index _ _ _ position _, _, _, h => by
    obtain ⟨s₁, ha, hp⟩ := Except.bind_eq_ok.mp h
    exact (position.resolveIn_inner hp).trans (Lexical.use_inner ha)
  | .paren _ _ inner _, _, _, h => inner.resolveIn_inner h
  | .unary _ _ _ operand, _, _, h => operand.resolveIn_inner h

theorem Expr.resolveAllIn_inner {outer : List Env} : (es : List Expr) → {s s' : Lexical} →
    Expr.resolveAllIn outer es s = .ok s' → s'.inner = s.inner
  | [], _, _, h => by rw [Except.ok.inj h]
  | e :: rest, _, _, h => by
    obtain ⟨s₁, he, hr⟩ := Except.bind_eq_ok.mp h
    exact (Expr.resolveAllIn_inner rest hr).trans (e.resolveIn_inner he)

end

section

variable {p : Program} {a : Analysis} {outer : List Env} {s s' : Lexical} {decls : List Decl}

/-- A variable is declared, and its type and initial value declare nothing more. -/
theorem Decl.resolveIn_lists (ha : a.Checked p) {d : Decl} (hvar : d.isVar)
    (hin : .enter (.decl d) ∈ p.events) (hid : d.id ∉ decls.map Decl.id) (h : s.Lists decls)
    (hrun : d.resolveIn outer s = .ok s') : s'.Lists (decls ++ [d]) := by
  obtain ⟨type, hknown, hparam⟩ := ha.objects d hin hvar
  cases d with
  | func _ _ _ _ _ | basic _ _ _ _ | typedef _ _ _ _ => simp [Decl.isVar] at hvar
  | var id name span written init =>
    cases ha.sound.decls _ _ (.inr hin) hknown with
    | var hdenotes =>
      cases init with
      | none =>
        obtain ⟨s₁, hd, ht⟩ := Except.bind_eq_ok.mp hrun
        exact (h.declare hid hd).congr (hdenotes.resolveIn_inner (.inl hparam) ht)
      | some init =>
        obtain ⟨s₁, hd, hrest⟩ := Except.bind_eq_ok.mp hrun
        obtain ⟨s₂, ht, hi⟩ := Except.bind_eq_ok.mp hrest
        have htype := hdenotes.resolveIn_inner (.inl hparam) ht
        exact (h.declare hid hd).congr ((init.resolveIn_inner hi).trans htype)

theorem Decl.resolveAllIn_lists (ha : a.Checked p) (params : List Decl)
    (hvars : ∀ d ∈ params, d.isVar) (hin : ∀ d ∈ params, .enter (.decl d) ∈ p.events)
    (hids : ((decls ++ params).map Decl.id).Nodup) (h : s.Lists decls)
    (hrun : Decl.resolveAllIn outer params s = .ok s') : s'.Lists (decls ++ params) := by
  induction params generalizing s decls with
  | nil =>
    rw [List.append_nil, ← Except.ok.inj hrun]
    exact h
  | cons d rest ih =>
    obtain ⟨s₁, hd, hrest⟩ := Except.bind_eq_ok.mp hrun
    have hid : d.id ∉ decls.map Decl.id := by
      rw [List.map_append, List.nodup_append] at hids
      exact fun hmem => hids.2.2 d.id hmem d.id (by simp) rfl
    have hfirst := Decl.resolveIn_lists ha (hvars d List.mem_cons_self) (hin d List.mem_cons_self)
      hid h hd
    rw [List.append_cons]
    refine ih (fun d hd => hvars d (List.mem_cons_of_mem _ hd))
      (fun d hd => hin d (List.mem_cons_of_mem _ hd)) ?_ hfirst hrest
    rwa [← List.append_cons]

end

/-- A definition that is gone through has parameters with different names. -/
theorem Decl.param_names_nodup {p : Program} {a : Analysis} {outer : List Env} {s s' : Lexical}
    (ha : a.Checked p) (hparams : p.VariableParams) {id : DeclId} {name : String} {span : Span}
    {tid : TypeId} {written : TypeExpr} {lparen rparen : Span} {params : List Decl}
    {block : StmtId} {lbrace rbrace : Span} {items : List Item}
    (hd : Decl.func id name span (.func tid written lparen params rparen)
      (some (.block block lbrace items rbrace)) ∈ p.file)
    (hids : (params.map Decl.id).Nodup)
    (hrun : (Decl.func id name span (.func tid written lparen params rparen)
      (some (.block block lbrace items rbrace))).resolveIn outer s = .ok s') :
    (params.map Decl.name).Nodup := by
  -- The environment of the parameters is entered before the signature; its result declares nothing.
  obtain ⟨s₁, _, hrun⟩ := Except.bind_eq_ok.mp hrun
  obtain ⟨s₂, hsignature, _⟩ := Except.bind_eq_ok.mp hrun
  obtain ⟨s₃, hresult, hdecls⟩ := Except.bind_eq_ok.mp hsignature
  have hin := p.enter_mem_of_mem_file hd
  have hentered : ∀ d ∈ params, .enter (.decl d) ∈ p.events := by
    intro d hd
    refine p.events_subset hin ?_
    simp [Node.events, Decl.events, TypeExpr.events, Decl.mem_eventsAll hd d.enter_mem_events]
  obtain ⟨result, types, hknown, _⟩ := ha.definition hd
  cases ha.sound.decls _ _ (.inr hin) hknown with
  | func hdenotes hresultType =>
    cases hdenotes with
    | func hwritten _ _ =>
      have hobject := hresultType _ _ rfl
      rw [Bool.or_eq_true] at hobject
      have hinner := hwritten.resolveIn_inner (hobject.imp_left Ty.isParam_of_isScalar) hresult
      have hvars : ∀ d ∈ params, d.isVar := fun _ hmem => p.isVar_of_mem_params hparams hd hmem
      have hlists : s₂.Lists params := Decl.resolveAllIn_lists ha params hvars hentered
        (by simpa using hids) ((Lexical.Lists.enter s₁).congr hinner) hdecls
      exact hlists.names_nodup hids

/-- The parameters of a definition have different names. -/
theorem Program.param_names_nodup {p : Program} {a : Analysis} (ha : a.Checked p)
    (htree : p.TreeShaped) (hbodies : p.BlockBodies) (hparams : p.VariableParams)
    (hr : p.resolve = .ok a.resolution) {id : DeclId} {name : String} {span : Span} {tid : TypeId}
    {written : TypeExpr} {lparen rparen : Span} {params : List Decl} {body : Stmt}
    (hd : Decl.func id name span (.func tid written lparen params rparen) (some body) ∈ p.file) :
    (params.map Decl.name).Nodup := by
  have hsublist := Decl.inner_sublist id name span tid written lparen rparen params body
  have hentered : (Event.entered (Decl.eventsAll params ++ body.events)).Nodup :=
    List.Nodup.sublist ((hsublist.trans (Decl.events_sublist hd)).filterMap _) htree
  rw [Event.entered_append] at hentered
  have hids := Decl.ids_nodup_of_entered (List.nodup_append.mp hentered).1
  have hrepresents := p.resolve_represents htree hbodies hparams
  rw [hr] at hrepresents
  obtain ⟨s, hlexical, _⟩ := hrepresents.exists_of_ok
  obtain ⟨_, _, hrun⟩ := Except.bind_eq_ok.mp hlexical
  obtain ⟨s₁, s₂, hone, _⟩ := Decl.exists_run_of_mem hd hrun
  have hblock : body.isBlock := hbodies _ (p.enter_mem_of_mem_file hd)
  cases body with
  | block block lbrace items rbrace => exact Decl.param_names_nodup ha hparams hd hids hone
  | empty _ _ | expr _ _ | branch _ _ _ _ _ | ret _ _ _ | loop _ _ _ _ =>
    simp [Stmt.isBlock] at hblock

end MicroC
