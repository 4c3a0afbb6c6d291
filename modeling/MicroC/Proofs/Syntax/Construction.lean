import MicroC.Proofs.Syntax.Equality

/-!
Construction keeps coherence. A draft is closed if the arenas hold, with each node, all
nodes inside it; the empty draft is closed, a step that numbers a new node keeps the draft
closed as long as the parts of the node were made before, and a closed draft is coherent.
-/

namespace MicroC

/-- The arenas hold, with each node, every node inside it. -/
structure Draft.Closed (d : Draft) : Prop where
  builtins : ∀ b ∈ Decl.builtins, d.program.Holds (.decl b)
  inner : ∀ n m, d.program.Holds n → .enter m ∈ n.events → d.program.Holds m
  file : ∀ b ∈ d.program.file, d.program.Holds (.decl b)

/-- The nodes of all arenas. -/
def Program.nodes (p : Program) : List Node :=
  p.decls.toList.map .decl ++ p.stmts.toList.map .stmt ++ p.exprs.toList.map .expr ++
    p.types.toList.map .type ++ p.idents.toList.map .ident

theorem Program.mem_nodes {p : Program} {n : Node} (h : p.Holds n) : n ∈ p.nodes := by
  cases n <;> simp [nodes, Array.mem_of_getElem? h]

instance (d : Draft) : Decidable d.Closed :=
  decidable_of_iff ((∀ b ∈ Decl.builtins, d.program.Holds (.decl b)) ∧
      (∀ n ∈ d.program.nodes, d.program.Holds n →
        ∀ event ∈ n.events, ∀ m ∈ event.enters?, d.program.Holds m) ∧
      ∀ b ∈ d.program.file, d.program.Holds (.decl b)) <| by
    simp only [Event.forall_enters?_iff]
    constructor
    · rintro ⟨hbuiltins, hinner, hfile⟩
      exact ⟨hbuiltins, fun n m hn hm => hinner n (d.program.mem_nodes hn) hn m hm, hfile⟩
    · intro h
      exact ⟨h.builtins, fun n _ hn m hm => h.inner n m hn hm, h.file⟩

/-- Whether all nodes inside a node, except itself, were made before. -/
def Program.HoldsParts (p : Program) (n : Node) : Prop :=
  ∀ m, .enter m ∈ n.events → m = n ∨ p.Holds m

namespace Draft.Closed

theorem coherent {d : Draft} (h : d.Closed) : d.program.Coherent := by
  refine ⟨h.builtins, ?_⟩
  intro n hn
  have along : ∀ decls : List Decl, (∀ b ∈ decls, d.program.Holds (.decl b)) →
      .enter n ∈ Decl.eventsAll decls → d.program.Holds n := by
    intro decls
    induction decls with
    | nil => intro _ hmem; simp [Decl.eventsAll] at hmem
    | cons b rest ih =>
      intro hall hmem
      rcases List.mem_append.mp hmem with hb | hrest
      · exact h.inner (.decl b) n (hall b List.mem_cons_self) hb
      · exact ih (fun c hc => hall c (List.mem_cons_of_mem b hc)) hrest
  exact along d.program.file h.file hn

theorem empty : ({} : Draft).Closed := by
  have hbuiltins : ∀ b ∈ Decl.builtins, ({} : Draft).program.Holds (.decl b) := by
    simp [Decl.builtins, Program.Holds, Decl.id]
  refine ⟨hbuiltins, ?_, by simp⟩
  intro n m hn hm
  cases n with
  | decl d =>
    have hd : d ∈ Decl.builtins := List.mem_of_getElem? (by simpa [Program.Holds] using hn)
    have hm' : m = .decl d := by
      simp only [Decl.builtins, List.mem_cons, List.not_mem_nil, or_false] at hd
      rcases hd with rfl | rfl | rfl <;> simpa [Node.events, Decl.events] using hm
    exact hm' ▸ hn
  | stmt _ | expr _ | type _ | ident _ => simp [Program.Holds] at hn

/-- A step that adds just one node, whose parts are there, keeps a draft closed. -/
theorem of_holds_iff {d d' : Draft} (h : d.Closed) (new : Node)
    (hfile : d'.program.file = d.program.file)
    (hiff : ∀ m, d'.program.Holds m ↔ d.program.Holds m ∨ m = new)
    (hparts : d.program.HoldsParts new) : d'.Closed := by
  refine ⟨fun b hb => (hiff _).mpr (Or.inl (h.builtins b hb)), ?_, ?_⟩
  · intro n m hn hm
    rcases (hiff n).mp hn with hold | rfl
    · exact (hiff m).mpr (Or.inl (h.inner n m hold hm))
    · rcases hparts m hm with rfl | hpart
      · exact (hiff m).mpr (Or.inr rfl)
      · exact (hiff m).mpr (Or.inl hpart)
  · intro b hb
    exact (hiff _).mpr (Or.inl (h.file b (hfile ▸ hb)))

end Draft.Closed

private theorem push_holds_iff {α : Type} (number : α → Nat) {arena : Array α} (new : α)
    {m : α} (hnew : number new = arena.size) :
    (arena.push new)[number m]? = some m ↔ arena[number m]? = some m ∨ m = new := by
  rw [Array.getElem?_push]
  by_cases hm : number m = arena.size
  · rw [if_pos hm, hm]
    simp [eq_comm]
  · have hne : m ≠ new := fun heq => hm (heq ▸ hnew)
    simp [hm, hne]

namespace Build

variable {d : Draft}

theorem closed_addDecl (h : d.Closed) (node : DeclId → Decl)
    (hid : (node d.program.decls.size).id = d.program.decls.size)
    (hparts : d.program.HoldsParts (.decl (node d.program.decls.size))) :
    ((addDecl node).run d).2.Closed := by
  refine h.of_holds_iff (.decl (node d.program.decls.size)) rfl ?_ hparts
  intro m
  cases m with
  | decl m => exact (push_holds_iff Decl.id _ hid).trans (by simp [Program.Holds])
  | stmt _ | expr _ | type _ | ident _ => exact (or_iff_left (by simp)).symm

theorem closed_addStmt (h : d.Closed) (node : StmtId → Stmt)
    (hid : (node d.program.stmts.size).id = d.program.stmts.size)
    (hparts : d.program.HoldsParts (.stmt (node d.program.stmts.size))) :
    ((addStmt node).run d).2.Closed := by
  refine h.of_holds_iff (.stmt (node d.program.stmts.size)) rfl ?_ hparts
  intro m
  cases m with
  | stmt m => exact (push_holds_iff Stmt.id _ hid).trans (by simp [Program.Holds])
  | decl _ | expr _ | type _ | ident _ => exact (or_iff_left (by simp)).symm

theorem closed_addExpr (h : d.Closed) (node : ExprId → Expr)
    (hid : (node d.program.exprs.size).id = d.program.exprs.size)
    (hparts : d.program.HoldsParts (.expr (node d.program.exprs.size))) :
    ((addExpr node).run d).2.Closed := by
  refine h.of_holds_iff (.expr (node d.program.exprs.size)) rfl ?_ hparts
  intro m
  cases m with
  | expr m => exact (push_holds_iff Expr.id _ hid).trans (by simp [Program.Holds])
  | decl _ | stmt _ | type _ | ident _ => exact (or_iff_left (by simp)).symm

theorem closed_addType (h : d.Closed) (node : TypeId → TypeExpr)
    (hid : (node d.program.types.size).id = d.program.types.size)
    (hparts : d.program.HoldsParts (.type (node d.program.types.size))) :
    ((addType node).run d).2.Closed := by
  refine h.of_holds_iff (.type (node d.program.types.size)) rfl ?_ hparts
  intro m
  cases m with
  | type m => exact (push_holds_iff TypeExpr.id _ hid).trans (by simp [Program.Holds])
  | decl _ | stmt _ | expr _ | ident _ => exact (or_iff_left (by simp)).symm

theorem closed_addIdent (h : d.Closed) (name : String) (span : Span) :
    ((addIdent name span).run d).2.Closed := by
  refine h.of_holds_iff (.ident ⟨d.program.idents.size, name, span⟩) rfl ?_ ?_
  · intro m
    cases m with
    | ident m =>
      refine (push_holds_iff Ident.id ⟨d.program.idents.size, name, span⟩ rfl).trans ?_
      simp [Program.Holds]
    | decl _ | stmt _ | expr _ | type _ => exact (or_iff_left (by simp)).symm
  · intro m hm
    exact Or.inl (by simpa [Node.events] using hm)

theorem closed_push (h : d.Closed) {decl : Decl} (hdecl : d.program.Holds (.decl decl)) :
    ((push decl).run d).2.Closed := by
  refine ⟨h.builtins, h.inner, ?_⟩
  intro b hb
  rcases List.mem_append.mp hb with hold | hnew
  · exact h.file b hold
  · obtain rfl := List.mem_singleton.mp hnew
    exact hdecl

end Build

end MicroC
