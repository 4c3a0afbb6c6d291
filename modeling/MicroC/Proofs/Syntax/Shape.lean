import MicroC.Syntax.Program

/-!
Shapes of programs. A program is coherent if every node its traversal reaches is the node
that stands under its number in the arena of its family; then a number determines the node.
The construction functions keep a draft coherent. The other shapes restrict what a function
may look like, or how often a node may be used.
-/

namespace MicroC

@[simp] theorem Node.enter_mem_around {n m : Node} {children : List Event} :
    Event.enter n ∈ m.around children ↔ n = m ∨ Event.enter n ∈ children := by
  simp [Node.around]

theorem Node.inside_events {n : Node} {children events : List Event}
    (h : n.around children ⊆ events) : children ⊆ events := by
  intro event hevent
  exact h (by simp [Node.around, hevent])

@[simp] theorem Ident.enter_mem_events {n : Node} {ident : Ident} :
    Event.enter n ∈ ident.events ↔ n = .ident ident := by
  simp [Ident.events]

/-! A node is the first one that its own traversal enters. -/

theorem Expr.enter_mem_events (e : Expr) : .enter (.expr e) ∈ e.events := by
  cases e <;> simp [Expr.events]

theorem TypeExpr.enter_mem_events (t : TypeExpr) : .enter (.type t) ∈ t.events := by
  cases t <;> simp [TypeExpr.events]

theorem Stmt.enter_mem_events (s : Stmt) : .enter (.stmt s) ∈ s.events := by
  cases s with
  | branch _ _ _ _ onFalse => cases onFalse <;> simp [Stmt.events]
  | ret _ _ value => cases value <;> simp [Stmt.events]
  | block | empty | expr | loop => simp [Stmt.events]

theorem Decl.enter_mem_events (d : Decl) : .enter (.decl d) ∈ d.events := by
  cases d with
  | func _ _ _ _ body => cases body <;> simp [Decl.events]
  | var _ _ _ _ init => cases init <;> simp [Decl.events]
  | basic | typedef => simp [Decl.events]

theorem Decl.mem_eventsAll {event : Event} {d : Decl} {decls : List Decl}
    (hd : d ∈ decls) (h : event ∈ d.events) : event ∈ Decl.eventsAll decls := by
  induction decls with
  | nil => simp at hd
  | cons first rest ih =>
    simp only [Decl.eventsAll, List.mem_append]
    rcases List.mem_cons.mp hd with rfl | hrest
    · exact Or.inl h
    · exact Or.inr (ih hrest)

theorem Expr.mem_eventsAll {event : Event} {e : Expr} {es : List Expr}
    (he : e ∈ es) (h : event ∈ e.events) : event ∈ Expr.eventsAll es := by
  induction es with
  | nil => simp at he
  | cons first rest ih =>
    simp only [Expr.eventsAll, List.mem_append]
    rcases List.mem_cons.mp he with rfl | hrest
    · exact Or.inl h
    · exact Or.inr (ih hrest)

theorem Item.mem_eventsAll {event : Event} {item : Item} {items : List Item}
    (hitem : item ∈ items) (h : event ∈ item.events) : event ∈ Item.eventsAll items := by
  induction items with
  | nil => simp at hitem
  | cons first rest ih =>
    simp only [Item.eventsAll, List.mem_append]
    rcases List.mem_cons.mp hitem with rfl | hrest
    · exact Or.inl h
    · exact Or.inr (ih hrest)

/-- With each node that it enters, a traversal contains that of the node. -/
def Event.Closed (events : List Event) : Prop := ∀ n, .enter n ∈ events → n.events ⊆ events

namespace Event.Closed

theorem nil : Event.Closed [] := by
  intro n hn
  simp at hn

theorem append {xs ys : List Event} (hx : Event.Closed xs) (hy : Event.Closed ys) :
    Event.Closed (xs ++ ys) := by
  intro n hn
  rcases List.mem_append.mp hn with hmem | hmem
  · exact List.subset_append_of_subset_left _ (hx n hmem)
  · exact List.subset_append_of_subset_right _ (hy n hmem)

theorem around {n : Node} {children : List Event} (hn : n.events = n.around children)
    (hc : Event.Closed children) : Event.Closed (n.around children) := by
  intro m hm
  rcases Node.enter_mem_around.mp hm with rfl | hchild
  · rw [hn]
    exact List.Subset.refl _
  · intro event hevent
    simp [Node.around, hc m hchild hevent]

theorem ident (i : Ident) : Event.Closed i.events := .around rfl .nil

end Event.Closed

mutual

theorem Expr.events_closed : (e : Expr) → Event.Closed e.events
  | .literal .. => .around rfl .nil
  | .binary _ _ _ lhs rhs => .around rfl (lhs.events_closed.append rhs.events_closed)
  | .call _ callee _ args _ =>
    .around rfl ((Event.Closed.ident callee).append (Expr.eventsAll_closed args))
  | .name _ ident => .around rfl (.ident ident)
  | .index _ array _ position _ =>
    .around rfl ((Event.Closed.ident array).append position.events_closed)
  | .paren _ _ inner _ => .around rfl inner.events_closed
  | .unary _ _ _ operand => .around rfl operand.events_closed

theorem Expr.eventsAll_closed : (es : List Expr) → Event.Closed (Expr.eventsAll es)
  | [] => .nil
  | e :: rest => e.events_closed.append (Expr.eventsAll_closed rest)

end

mutual

theorem TypeExpr.events_closed : (t : TypeExpr) → Event.Closed t.events
  | .named _ ident => .around rfl (.ident ident)
  | .array _ elem _ _ _ => .around rfl elem.events_closed
  | .func _ result _ params _ =>
    .around rfl (result.events_closed.append (Decl.eventsAll_closed params))

theorem Decl.events_closed : (d : Decl) → Event.Closed d.events
  | .func _ _ _ signature none => .around rfl signature.events_closed
  | .func _ _ _ signature (some body) =>
    .around rfl (signature.events_closed.append body.events_closed)
  | .var _ _ _ type none => .around rfl type.events_closed
  | .var _ _ _ type (some init) => .around rfl (type.events_closed.append init.events_closed)
  | .basic .. => .around rfl .nil
  | .typedef _ _ _ target => .around rfl target.events_closed

theorem Decl.eventsAll_closed : (ds : List Decl) → Event.Closed (Decl.eventsAll ds)
  | [] => .nil
  | d :: rest => d.events_closed.append (Decl.eventsAll_closed rest)

theorem Stmt.events_closed : (s : Stmt) → Event.Closed s.events
  | .block _ _ items _ => .around rfl (Item.eventsAll_closed items)
  | .empty .. => .around rfl .nil
  | .expr _ value => .around rfl value.events_closed
  | .branch _ _ cond onTrue none => .around rfl (cond.events_closed.append onTrue.events_closed)
  | .branch _ _ cond onTrue (some onFalse) =>
    .around rfl ((cond.events_closed.append onTrue.events_closed).append onFalse.events_closed)
  | .ret _ _ none => .around rfl .nil
  | .ret _ _ (some value) => .around rfl value.events_closed
  | .loop _ _ cond body => .around rfl (cond.events_closed.append body.events_closed)

theorem Item.events_closed : (i : Item) → Event.Closed i.events
  | .decl d => d.events_closed
  | .stmt s => s.events_closed

theorem Item.eventsAll_closed : (items : List Item) → Event.Closed (Item.eventsAll items)
  | [] => .nil
  | item :: rest => item.events_closed.append (Item.eventsAll_closed rest)

end

namespace Program

variable {p : Program}

theorem events_subset {n : Node} (h : .enter n ∈ p.events) : n.events ⊆ p.events :=
  Decl.eventsAll_closed p.file n h

theorem mem_events {event : Event} {d : Decl} (hd : d ∈ p.file) (h : event ∈ d.events) :
    event ∈ p.events :=
  Decl.mem_eventsAll hd h

theorem enter_mem_of_mem_file {d : Decl} (hd : d ∈ p.file) : .enter (.decl d) ∈ p.events :=
  mem_events hd d.enter_mem_events

/-- Whether a node stands under its number in the arena of its family. -/
def Holds (p : Program) : Node → Prop
  | .decl d => p.decls[d.id]? = some d
  | .stmt s => p.stmts[s.id]? = some s
  | .expr e => p.exprs[e.id]? = some e
  | .type t => p.types[t.id]? = some t
  | .ident i => p.idents[i.id]? = some i

theorem Holds.decl_eq {d d' : Decl} (h : p.Holds (.decl d)) (h' : p.Holds (.decl d'))
    (hid : d.id = d'.id) : d = d' := by
  simp only [Holds] at h h'
  rw [hid, h'] at h
  exact (Option.some.inj h).symm

/-- Every node that is reached, and every built-in declaration, stands under its number. -/
structure Coherent (p : Program) : Prop where
  builtins : ∀ d ∈ Decl.builtins, p.Holds (.decl d)
  reached : ∀ n, .enter n ∈ p.events → p.Holds n

/-- A declaration that the program can refer to. -/
def Declares (p : Program) (d : Decl) : Prop :=
  d ∈ Decl.builtins ∨ .enter (.decl d) ∈ p.events

theorem Declares.entered {d : Decl} (h : p.Declares d) (hd : d ∉ Decl.builtins) :
    .enter (.decl d) ∈ p.events :=
  h.resolve_left hd

theorem declares_of_mem_file {d : Decl} (hd : d ∈ p.file) : p.Declares d :=
  Or.inr (enter_mem_of_mem_file hd)

namespace Coherent

theorem holds_of_declares (hp : p.Coherent) {d : Decl} (hd : p.Declares d) :
    p.decls[d.id]? = some d := by
  rcases hd with hb | hr
  · exact hp.builtins d hb
  · exact hp.reached _ hr

/-- Declarations are told apart by their numbers. -/
theorem decl_eq (hp : p.Coherent) {d d' : Decl} (hd : p.Declares d) (hd' : p.Declares d')
    (hid : d.id = d'.id) : d = d' :=
  Holds.decl_eq (hp.holds_of_declares hd) (hp.holds_of_declares hd') hid

/-- Expressions are told apart by their numbers. -/
theorem expr_eq (hp : p.Coherent) {e e' : Expr} (he : .enter (.expr e) ∈ p.events)
    (he' : .enter (.expr e') ∈ p.events) (hid : e.id = e'.id) : e = e' := by
  have h : p.exprs[e.id]? = some e := hp.reached _ he
  have h' : p.exprs[e'.id]? = some e' := hp.reached _ he'
  rw [hid, h'] at h
  exact (Option.some.inj h).symm

end Coherent

end Program

/-! The families of nodes, and the use of a node in one place only. -/

inductive Family where
  | decl | stmt | expr | type | ident
deriving DecidableEq, Repr

def Node.key : Node → Family × Nat
  | .decl d => (.decl, d.id)
  | .stmt s => (.stmt, s.id)
  | .expr e => (.expr, e.id)
  | .type t => (.type, t.id)
  | .ident i => (.ident, i.id)

/-- The node that an event enters. -/
def Event.enters? : Event → Option Node
  | .enter n => some n
  | .leave _ => none

theorem Event.forall_enters?_iff {events : List Event} {q : Node → Prop} :
    (∀ event ∈ events, ∀ n ∈ event.enters?, q n) ↔ ∀ n, .enter n ∈ events → q n := by
  constructor
  · intro h n hn
    exact h _ hn n rfl
  · intro h event hevent n hn
    cases event with
    | enter m =>
      obtain rfl : m = n := Option.some.inj hn
      exact h _ hevent
    | leave m => cases hn

/-- The numbers of the nodes that a traversal enters, in that order. -/
def Event.entered (events : List Event) : List (Family × Nat) :=
  events.filterMap fun event => event.enters?.map Node.key

@[simp] theorem Event.entered_append (xs ys : List Event) :
    Event.entered (xs ++ ys) = Event.entered xs ++ Event.entered ys := by
  simp [Event.entered]

@[simp] theorem Event.entered_around (n : Node) (children : List Event) :
    Event.entered (n.around children) = n.key :: Event.entered children := by
  simp [Event.entered, Node.around, Event.enters?]

theorem Decl.key_mem_entered (d : Decl) : (Family.decl, d.id) ∈ Event.entered d.events :=
  List.mem_filterMap.mpr ⟨_, d.enter_mem_events, rfl⟩

/-- The declarations of a list are entered one after another. -/
theorem Decl.keys_sublist_entered (ds : List Decl) :
    (ds.map fun d => (Family.decl, d.id)).Sublist (Event.entered (Decl.eventsAll ds)) := by
  induction ds with
  | nil => exact List.Sublist.refl _
  | cons d rest ih =>
    rw [Decl.eventsAll, Event.entered_append]
    exact (List.singleton_sublist.mpr d.key_mem_entered).append ih

theorem Decl.ids_nodup_of_sublist {ds : List Decl} {keys : List (Family × Nat)}
    (hsub : (ds.map fun d => (Family.decl, d.id)).Sublist keys) (h : keys.Nodup) :
    (ds.map Decl.id).Nodup := by
  have hkeys := List.Nodup.sublist hsub h
  rw [List.Nodup, List.pairwise_map] at hkeys ⊢
  exact hkeys.imp fun hne heq => hne (congrArg _ heq)

theorem Decl.ids_nodup_of_entered {ds : List Decl} (h : (Event.entered (Decl.eventsAll ds)).Nodup) :
    (ds.map Decl.id).Nodup :=
  Decl.ids_nodup_of_sublist (Decl.keys_sublist_entered ds) h

/-- What one declaration of a list contains is not in another one. -/
theorem Decl.entered_disjoint {ds : List Decl} (h : (Event.entered (Decl.eventsAll ds)).Nodup)
    {d d' : Decl} (hd : d ∈ ds) (hd' : d' ∈ ds) (hne : d ≠ d') :
    ∀ key ∈ Event.entered d.events, key ∉ Event.entered d'.events := by
  have hsub : ∀ {rest : List Decl} {c : Decl}, c ∈ rest →
      Event.entered c.events ⊆ Event.entered (Decl.eventsAll rest) :=
    fun hc => List.filterMap_subset _ fun _ => Decl.mem_eventsAll hc
  induction ds with
  | nil => simp at hd
  | cons first rest ih =>
    rw [Decl.eventsAll, Event.entered_append] at h
    obtain ⟨_, hrest, hdisjoint⟩ := List.nodup_append.mp h
    intro key hkey hkey'
    rcases List.mem_cons.mp hd with rfl | hmem
    · rcases List.mem_cons.mp hd' with rfl | hmem'
      · exact hne rfl
      · exact hdisjoint key hkey key (hsub hmem' hkey') rfl
    · rcases List.mem_cons.mp hd' with rfl | hmem'
      · exact hdisjoint key hkey' key (hsub hmem hkey) rfl
      · exact ih hrest hmem hmem' key hkey hkey'

theorem Decl.events_sublist {ds : List Decl} {d : Decl} (hd : d ∈ ds) :
    d.events.Sublist (Decl.eventsAll ds) := by
  induction ds with
  | nil => cases hd
  | cons first rest ih =>
    rcases List.mem_cons.mp hd with rfl | hrest
    · exact List.sublist_append_left _ _
    · exact (ih hrest).trans (List.sublist_append_right _ _)

/-- The parameters and the body of a function stand in it one after the other. -/
theorem Decl.inner_sublist (id : DeclId) (name : String) (span : Span) (tid : TypeId)
    (written : TypeExpr) (lparen rparen : Span) (decls : List Decl) (body : Stmt) :
    (Decl.eventsAll decls ++ body.events).Sublist
      (Decl.func id name span (.func tid written lparen decls rparen) (some body)).events := by
  have hdecls : (Decl.eventsAll decls).Sublist
      (TypeExpr.func tid written lparen decls rparen).events :=
    ((List.sublist_append_right _ _).trans (List.sublist_append_left _ _)).cons _
  exact ((hdecls.append (.refl _)).trans (List.sublist_append_left _ _)).cons _

namespace Program

/-- No node is used twice. -/
def TreeShaped (p : Program) : Prop := (Event.entered p.events).Nodup

instance (p : Program) : Decidable p.TreeShaped := inferInstanceAs (Decidable (List.Nodup _))

theorem TreeShaped.entered_nodup {p : Program} (h : p.TreeShaped) {d : Decl} (hd : d ∈ p.file) :
    (Event.entered d.events).Nodup := by
  obtain ⟨before, after, hfile⟩ := List.append_of_mem hd
  rw [TreeShaped, events, hfile, Decl.eventsAll_append, Event.entered_append, Decl.eventsAll,
    Event.entered_append] at h
  exact (List.nodup_append.mp (List.nodup_append.mp h).2.1).1

theorem TreeShaped.file_ids_nodup {p : Program} (h : p.TreeShaped) : (p.file.map Decl.id).Nodup :=
  Decl.ids_nodup_of_entered h

end Program

/-! The shapes of functions. -/

def Stmt.isBlock : Stmt → Bool
  | .block .. => true
  | _ => false

def Decl.isVar : Decl → Bool
  | .var .. => true
  | _ => false

def Decl.isFunc : Decl → Bool
  | .func .. => true
  | _ => false

def TypeExpr.isFunc : TypeExpr → Bool
  | .func .. => true
  | _ => false

namespace Node

/-- A function body is a block. -/
def bodyIsBlock : Node → Bool
  | .decl (.func _ _ _ _ (some body)) => body.isBlock
  | _ => true

/-- The parameters of a function type are variables. -/
def paramsAreVars : Node → Bool
  | .type (.func _ _ _ params _) => params.all Decl.isVar
  | _ => true

/-- The signature of a function is written as a function type. -/
def signatureIsFunc : Node → Bool
  | .decl (.func _ _ _ signature _) => signature.isFunc
  | _ => true

end Node

namespace Program

/-- Whether all nodes that are reached have a property. -/
def Everywhere (p : Program) (q : Node → Bool) : Prop := ∀ n, .enter n ∈ p.events → q n

instance (p : Program) (q : Node → Bool) : Decidable (p.Everywhere q) :=
  decidable_of_iff _ Event.forall_enters?_iff

abbrev BlockBodies (p : Program) : Prop := p.Everywhere Node.bodyIsBlock

abbrev VariableParams (p : Program) : Prop := p.Everywhere Node.paramsAreVars

abbrev FunctionSignatures (p : Program) : Prop := p.Everywhere Node.signatureIsFunc

/-- The parameters of a function at file level. -/
theorem isVar_of_mem_params {p : Program} (hparams : p.VariableParams) {id : DeclId}
    {name : String} {span : Span} {tid : TypeId} {written : TypeExpr} {lparen rparen : Span}
    {params : List Decl} {body : Option Stmt}
    (hd : Decl.func id name span (.func tid written lparen params rparen) body ∈ p.file)
    {d : Decl} (hmem : d ∈ params) : d.isVar := by
  have htype : .enter (.type (.func tid written lparen params rparen)) ∈ p.events := by
    refine p.events_subset (p.enter_mem_of_mem_file hd) ?_
    cases body <;> simp [Node.events, Decl.events, TypeExpr.enter_mem_events]
  have hall := hparams _ htype
  rw [Node.paramsAreVars, List.all_eq_true] at hall
  exact hall d hmem

end Program

end MicroC
