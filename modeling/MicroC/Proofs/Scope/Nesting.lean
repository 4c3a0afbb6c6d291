import MicroC.Proofs.Scope.Agreement
import Mathlib.Data.List.Nodup

/-!
What owns a scope in a program: the file, its functions, and its blocks other than the bodies of
functions. The owners are listed by recursion on the program, each with the nearest one around it.
A traversal is cut into pieces along the owners in it, and where no node is used twice these are
just the functions and the blocks other than bodies that the traversal enters.
-/

namespace MicroC

/-- What a scope other than that of the built-in names belongs to. -/
inductive Owner where
  | file
  | function (id : DeclId)
  | block (id : StmtId)
deriving DecidableEq, Repr

/-! The owners that a traversal meets. -/

namespace Node

def function? : Node → Option Owner
  | .decl (.func id ..) => some (.function id)
  | _ => none

def block? : Node → Option Owner
  | .stmt (.block id ..) => some (.block id)
  | _ => none

/-- The block that is the body of a function. -/
def body? : Node → Option Owner
  | .decl (.func _ _ _ _ (some (.block id ..))) => some (.block id)
  | _ => none

end Node

/-- What is picked from the nodes that a traversal enters. -/
def Event.collect (pick : Node → Option Owner) (events : List Event) : List Owner :=
  events.filterMap fun event => event.enters?.bind pick

namespace Program

/-- The functions that are reached, in that order. -/
def functions (p : Program) : List Owner := Event.collect Node.function? p.events

/-- The blocks that are reached and are not the body of a function. -/
def freeBlocks (p : Program) : List Owner :=
  (Event.collect Node.block? p.events).filter (· ∉ Event.collect Node.body? p.events)

end Program

/-! Owners inside of each other. -/

mutual

/-- The owners in a type, in the order of the traversal, each with the nearest owner around it. -/
def TypeExpr.owners (outer : Owner) : TypeExpr → List (Owner × Owner)
  | .named .. => []
  | .array _ elem _ _ _ => elem.owners outer
  | .func _ result _ params _ => result.owners outer ++ Decl.ownersAll outer params

def Decl.owners (outer : Owner) : Decl → List (Owner × Owner)
  | .func id _ _ signature none => (.function id, outer) :: signature.owners (.function id)
  | .func id _ _ signature (some (.block _ _ items _)) =>
    (.function id, outer) ::
      (signature.owners (.function id) ++ Item.ownersAll (.function id) items)
  | .func id _ _ signature (some body) =>
    (.function id, outer) :: (signature.owners (.function id) ++ body.owners (.function id))
  | .var _ _ _ type _ => type.owners outer
  | .basic .. => []
  | .typedef _ _ _ target => target.owners outer

def Decl.ownersAll (outer : Owner) : List Decl → List (Owner × Owner)
  | [] => []
  | d :: rest => d.owners outer ++ Decl.ownersAll outer rest

def Stmt.owners (outer : Owner) : Stmt → List (Owner × Owner)
  | .block id _ items _ => (.block id, outer) :: Item.ownersAll (.block id) items
  | .empty .. | .expr .. | .ret .. => []
  | .branch _ _ _ onTrue none => onTrue.owners outer
  | .branch _ _ _ onTrue (some onFalse) => onTrue.owners outer ++ onFalse.owners outer
  | .loop _ _ _ body => body.owners outer

def Item.owners (outer : Owner) : Item → List (Owner × Owner)
  | .decl d => d.owners outer
  | .stmt s => s.owners outer

def Item.ownersAll (outer : Owner) : List Item → List (Owner × Owner)
  | [] => []
  | item :: rest => item.owners outer ++ Item.ownersAll outer rest

end

/-- The owners in a program other than the file, each with the nearest one around it. -/
def Program.nesting (p : Program) : List (Owner × Owner) := Decl.ownersAll .file p.file

/-- The nearest owner around another one. -/
def Program.enclosing? (p : Program) (o : Owner) : Option Owner := p.nesting.lookup o

/-- A piece of a traversal inside of an owner, with the owners in it. While a function waits for
its body, no other function or block is met. -/
inductive Event.Nests : Bool → Owner → List Event → List (Owner × Owner) → Prop
  | nil {waits : Bool} {outer : Owner} : Nests waits outer [] []
  | append {waits : Bool} {outer : Owner} {xs ys : List Event} {as bs : List (Owner × Owner)} :
    Nests waits outer xs as → Nests waits outer ys bs → Nests waits outer (xs ++ ys) (as ++ bs)
  | around {waits : Bool} {outer : Owner} {n : Node} {children : List Event}
    {inner : List (Owner × Owner)} : n.function? = none → n.block? = none →
    Nests waits outer children inner → Nests waits outer (n.around children) inner
  | prototype {outer : Owner} {id : DeclId} {name : String} {span : Span} {signature : TypeExpr}
    {inner : List (Owner × Owner)} : Nests false (.function id) signature.events inner →
    Nests false outer (Decl.func id name span signature none).events ((.function id, outer) :: inner)
  | definition {outer : Owner} {id : DeclId} {name : String} {span : Span} {signature : TypeExpr}
    {block : StmtId} {lbrace rbrace : Span} {items : List Item} {inner rest : List (Owner × Owner)} :
    Nests true (.function id) signature.events inner →
    Nests false (.function id) (Item.eventsAll items) rest →
    Nests false outer
      (Decl.func id name span signature (some (.block block lbrace items rbrace))).events
      ((.function id, outer) :: (inner ++ rest))
  | block {outer : Owner} {id : StmtId} {lbrace rbrace : Span} {items : List Item}
    {inner : List (Owner × Owner)} : Nests false (.block id) (Item.eventsAll items) inner →
    Nests false outer (Stmt.block id lbrace items rbrace).events ((.block id, outer) :: inner)

section

open Event (Nests)

variable {waits : Bool} {outer : Owner}

theorem Ident.nests (i : Ident) : Nests waits outer i.events [] := .around rfl rfl .nil

mutual

theorem Expr.nests : (e : Expr) → Nests waits outer e.events []
  | .literal .. => .around rfl rfl .nil
  | .binary _ _ _ lhs rhs => .around rfl rfl (lhs.nests.append rhs.nests)
  | .call _ callee _ args _ => .around rfl rfl (callee.nests.append (Expr.nestsAll args))
  | .name _ ident => .around rfl rfl ident.nests
  | .index _ array _ position _ => .around rfl rfl (array.nests.append position.nests)
  | .paren _ _ inner _ => .around rfl rfl inner.nests
  | .unary _ _ _ operand => .around rfl rfl operand.nests

theorem Expr.nestsAll : (es : List Expr) → Nests waits outer (Expr.eventsAll es) []
  | [] => .nil
  | e :: rest => e.nests.append (Expr.nestsAll rest)

end

mutual

theorem TypeExpr.nests : (t : TypeExpr) → Event.Plain t.events →
    Nests waits outer t.events (t.owners outer)
  | .named _ ident, _ => .around rfl rfl ident.nests
  | .array _ elem _ _ _, h => .around rfl rfl (elem.nests h.inside)
  | .func _ result _ params _, h =>
    .around rfl rfl ((result.nests h.inside.left).append
      (Decl.nestsParams params (List.all_eq_true.mp h.self.2) h.inside.right))

theorem Decl.nestsVar : (d : Decl) → d.isVar → Event.Plain d.events →
    Nests waits outer d.events (d.owners outer)
  | .var _ _ _ type none, _, h => .around rfl rfl (type.nests h.inside)
  | .var _ _ _ type (some init), _, h => by
    have htype : Nests waits outer type.events (type.owners outer) := type.nests h.inside.left
    have hparts := htype.append init.nests
    rw [List.append_nil] at hparts
    exact .around rfl rfl hparts
  | .func .., hvar, _ | .basic .., hvar, _ | .typedef .., hvar, _ => by simp [Decl.isVar] at hvar

theorem Decl.nestsParams : (ds : List Decl) → (∀ d ∈ ds, d.isVar) →
    Event.Plain (Decl.eventsAll ds) →
    Nests waits outer (Decl.eventsAll ds) (Decl.ownersAll outer ds)
  | [], _, _ => .nil
  | d :: rest, hvars, h =>
    (d.nestsVar (hvars d List.mem_cons_self) h.left).append
      (Decl.nestsParams rest (fun d hd => hvars d (List.mem_cons_of_mem _ hd)) h.right)

end

mutual

theorem Decl.nests : (d : Decl) → Event.Plain d.events →
    ∀ {outer : Owner}, Nests false outer d.events (d.owners outer)
  | .func _ _ _ signature none, h => .prototype (signature.nests h.inside)
  | .func _ _ _ signature (some (.block _ _ items _)), h =>
    .definition (signature.nests h.inside.left) (Item.nestsAll items h.inside.right.inside)
  | .func _ _ _ _ (some (.empty ..)), h | .func _ _ _ _ (some (.expr ..)), h
  | .func _ _ _ _ (some (.branch ..)), h | .func _ _ _ _ (some (.ret ..)), h
  | .func _ _ _ _ (some (.loop ..)), h => by
    have hbody := h.self.1
    simp [Node.bodyIsBlock, Stmt.isBlock] at hbody
  | .var id name span type init, h => (Decl.var id name span type init).nestsVar rfl h
  | .basic .., _ => .around rfl rfl .nil
  | .typedef _ _ _ target, h => .around rfl rfl (target.nests h.inside)

theorem Stmt.nests : (s : Stmt) → Event.Plain s.events →
    ∀ {outer : Owner}, Nests false outer s.events (s.owners outer)
  | .block _ _ items _, h => .block (Item.nestsAll items h.inside)
  | .empty .., _ => .around rfl rfl .nil
  | .expr _ value, _ => .around rfl rfl value.nests
  | .branch _ _ cond onTrue none, h =>
    .around rfl rfl (cond.nests.append (onTrue.nests h.inside.right))
  | .branch _ _ cond onTrue (some onFalse), h =>
    .around rfl rfl ((cond.nests.append (onTrue.nests h.inside.left.right)).append
      (onFalse.nests h.inside.right))
  | .ret _ _ none, _ => .around rfl rfl .nil
  | .ret _ _ (some value), _ => .around rfl rfl value.nests
  | .loop _ _ cond body, h => .around rfl rfl (cond.nests.append (body.nests h.inside.right))

theorem Item.nests : (i : Item) → Event.Plain i.events →
    ∀ {outer : Owner}, Nests false outer i.events (i.owners outer)
  | .decl d, h => d.nests h
  | .stmt s, h => s.nests h

theorem Item.nestsAll : (items : List Item) → Event.Plain (Item.eventsAll items) →
    ∀ {outer : Owner}, Nests false outer (Item.eventsAll items) (Item.ownersAll outer items)
  | [], _ => .nil
  | item :: rest, h => (item.nests h.left).append (Item.nestsAll rest h.right)

end

theorem Decl.nestsAll : (ds : List Decl) → Event.Plain (Decl.eventsAll ds) →
    Nests false outer (Decl.eventsAll ds) (Decl.ownersAll outer ds)
  | [], _ => .nil
  | d :: rest, h => (d.nests h.left).append (Decl.nestsAll rest h.right)

end

/-! Each function and each block other than a body is listed once. -/

namespace Event

@[simp] theorem collect_append (pick : Node → Option Owner) (xs ys : List Event) :
    collect pick (xs ++ ys) = collect pick xs ++ collect pick ys := by
  simp [collect]

@[simp] theorem collect_around (pick : Node → Option Owner) (n : Node) (children : List Event) :
    collect pick (n.around children) = (pick n).toList ++ collect pick children := by
  cases hn : pick n <;> simp [collect, Node.around, Event.enters?, hn]

/-- Of all functions and blocks, only the bodies are not among the owners. -/
theorem Nests.count_eq {waits : Bool} {outer : Owner} {events : List Event}
    {inner : List (Owner × Owner)} (h : Nests waits outer events inner) (o : Owner) :
    (inner.map Prod.fst).count o + (collect Node.body? events).count o =
      (collect Node.function? events).count o + (collect Node.block? events).count o := by
  induction h with
  | nil => rfl
  | append _ _ hx hy =>
    simp only [List.map_append, collect_append, List.count_append]
    omega
  | @around _ _ n _ _ hfunction hblock _ ih =>
    have hbody : n.body? = none := by
      unfold Node.function? at hfunction
      unfold Node.body?
      split <;> simp_all
    simpa [hfunction, hblock, hbody] using ih
  | prototype _ ih =>
    simp only [Decl.events, collect_around, Node.function?, Node.block?, Node.body?, List.map_cons,
      List.count_cons, List.count_append, Option.toList_some, Option.toList_none, List.count_nil]
    omega
  | definition _ _ hsignature hitems =>
    simp only [Decl.events, Stmt.events, collect_around, collect_append, Node.function?, Node.block?,
      Node.body?, List.map_cons, List.map_append, List.count_cons, List.count_append,
      Option.toList_some, Option.toList_none, List.count_nil]
    omega
  | block _ ih =>
    simp only [Stmt.events, collect_around, Node.function?, Node.block?, Node.body?, List.map_cons,
      List.count_cons, List.count_append, Option.toList_some, Option.toList_none, List.count_nil]
    omega

end Event

theorem Event.exists_of_mem_collect {pick : Node → Option Owner} {events : List Event} {o : Owner}
    (h : o ∈ Event.collect pick events) : ∃ n, .enter n ∈ events ∧ pick n = some o := by
  obtain ⟨event, hevent, hpick⟩ := List.mem_filterMap.mp h
  obtain ⟨n, hn, hpick⟩ := Option.bind_eq_some_iff.mp hpick
  cases event with
  | enter m =>
    cases hn
    exact ⟨n, hevent, hpick⟩
  | leave m => cases hn

/-- The node that an owner is. -/
def Owner.key? : Owner → Option (Family × Nat)
  | .file => none
  | .function id => some (.decl, id)
  | .block id => some (.stmt, id)

namespace Node

variable {n : Node} {o : Owner}

theorem function?_eq_some (h : n.function? = some o) :
    ∃ id, o = .function id ∧ n.key = (.decl, id) := by
  unfold function? at h
  split at h
  next id _ _ _ _ =>
    cases h
    exact ⟨id, rfl, rfl⟩
  next => cases h

theorem block?_eq_some (h : n.block? = some o) : ∃ id, o = .block id ∧ n.key = (.stmt, id) := by
  unfold block? at h
  split at h
  next id _ _ _ =>
    cases h
    exact ⟨id, rfl, rfl⟩
  next => cases h

theorem body?_eq_some (h : n.body? = some o) : ∃ id, o = .block id := by
  unfold body? at h
  split at h
  next id _ _ _ =>
    cases h
    exact ⟨id, rfl⟩
  next => cases h

end Node

/-- Where no node is entered twice, nothing is picked twice. -/
theorem Event.collect_nodup {pick : Node → Option Owner} {events : List Event}
    (hpick : ∀ n o, pick n = some o → o.key? = some n.key) (h : (Event.entered events).Nodup) :
    (Event.collect pick events).Nodup := by
  rw [List.Nodup, Event.entered, List.pairwise_filterMap] at h
  rw [List.Nodup, Event.collect, List.pairwise_filterMap]
  refine h.imp ?_
  intro event event' hne o ho o' ho' heq
  obtain ⟨n, hn, hpicked⟩ := Option.bind_eq_some_iff.mp ho
  obtain ⟨n', hn', hpicked'⟩ := Option.bind_eq_some_iff.mp ho'
  have hkey := hpick n o hpicked
  rw [heq, hpick n' o' hpicked'] at hkey
  exact hne n.key (by simp [hn]) n'.key (by simp [hn']) (Option.some.inj hkey).symm

namespace Program

variable {p : Program} {o : Owner}

theorem functions_nodup (htree : p.TreeShaped) : p.functions.Nodup := by
  refine Event.collect_nodup ?_ htree
  intro n o h
  obtain ⟨id, rfl, hkey⟩ := Node.function?_eq_some h
  rw [hkey, Owner.key?]

theorem blocks_nodup (htree : p.TreeShaped) : (Event.collect Node.block? p.events).Nodup := by
  refine Event.collect_nodup ?_ htree
  intro n o h
  obtain ⟨id, rfl, hkey⟩ := Node.block?_eq_some h
  rw [hkey, Owner.key?]

theorem block_not_mem_functions (id : StmtId) : .block id ∉ p.functions := by
  intro hmem
  obtain ⟨n, _, hn⟩ := Event.exists_of_mem_collect hmem
  obtain ⟨_, heq, _⟩ := Node.function?_eq_some hn
  cases heq

theorem exists_of_mem_freeBlocks (h : o ∈ p.freeBlocks) : ∃ id, o = .block id := by
  obtain ⟨n, _, hn⟩ := Event.exists_of_mem_collect (List.mem_filter.mp h).1
  obtain ⟨id, heq, _⟩ := Node.block?_eq_some hn
  exact ⟨id, heq⟩

theorem nests (hplain : Event.Plain p.events) : Event.Nests false .file p.events p.nesting :=
  Decl.nestsAll p.file hplain

/-- The owners in a program are its functions and its blocks other than bodies. -/
theorem nesting_perm (htree : p.TreeShaped) (hplain : Event.Plain p.events) :
    (p.nesting.map Prod.fst).Perm (p.functions ++ p.freeBlocks) := by
  refine List.perm_iff_count.mpr fun o => ?_
  have hcount := (nests hplain).count_eq o
  rw [List.count_append]
  by_cases ho : o ∈ Event.collect Node.body? p.events
  · -- a body is a block that is entered once
    obtain ⟨n, _, hn⟩ := Event.exists_of_mem_collect ho
    obtain ⟨id, rfl⟩ := Node.body?_eq_some hn
    have hfunctions : p.functions.count (.block id) = 0 :=
      List.count_eq_zero.mpr (p.block_not_mem_functions id)
    have hfree : p.freeBlocks.count (.block id) = 0 :=
      List.count_eq_zero.mpr fun h => of_decide_eq_true (List.mem_filter.mp h).2 ho
    have hblocks := List.nodup_iff_count_le_one.mp (blocks_nodup htree) (.block id)
    have hbodies := List.count_pos_iff.mpr ho
    rw [functions] at hfunctions ⊢
    omega
  · have hbodies := List.count_eq_zero.mpr ho
    have hfree : p.freeBlocks.count o = (Event.collect Node.block? p.events).count o :=
      List.count_filter (decide_eq_true ho)
    rw [hfree, functions]
    omega

theorem nesting_nodup (htree : p.TreeShaped) (hplain : Event.Plain p.events) :
    (p.nesting.map Prod.fst).Nodup := by
  refine (nesting_perm htree hplain).nodup_iff.mpr (List.nodup_append.mpr ?_)
  refine ⟨functions_nodup htree, (blocks_nodup htree).filter _, ?_⟩
  intro o ho o' ho' heq
  obtain ⟨id, rfl⟩ := exists_of_mem_freeBlocks ho'
  exact block_not_mem_functions id (heq ▸ ho)

end Program

end MicroC
