import MicroC.Syntax.Basic

/-!
The order in which a tree is visited. A traversal is the list of its events: each
node is entered, its children are traversed from left to right, and it is left.
A function visits its signature before its body, a variable its type before its
initializer, a function type its result before its parameters.
-/

namespace MicroC

inductive Node where
  | decl (decl : Decl)
  | stmt (stmt : Stmt)
  | expr (expr : Expr)
  | type (type : TypeExpr)
  | ident (ident : Ident)

inductive Event where
  | enter (node : Node)
  | leave (node : Node)

/-- The events of a node, given those of its children. -/
def Node.around (node : Node) (children : List Event) : List Event :=
  .enter node :: children ++ [.leave node]

def Ident.events (ident : Ident) : List Event := (Node.ident ident).around []

mutual

def Expr.events : Expr → List Event
  | e@(.literal ..) => (Node.expr e).around []
  | e@(.binary _ _ _ lhs rhs) => (Node.expr e).around (lhs.events ++ rhs.events)
  | e@(.call _ callee _ args _) => (Node.expr e).around (callee.events ++ Expr.eventsAll args)
  | e@(.name _ ident) => (Node.expr e).around ident.events
  | e@(.index _ array _ position _) => (Node.expr e).around (array.events ++ position.events)
  | e@(.paren _ _ inner _) => (Node.expr e).around inner.events
  | e@(.unary _ _ _ operand) => (Node.expr e).around operand.events

def Expr.eventsAll : List Expr → List Event
  | [] => []
  | e :: rest => e.events ++ Expr.eventsAll rest

end

mutual

def TypeExpr.events : TypeExpr → List Event
  | t@(.named _ ident) => (Node.type t).around ident.events
  | t@(.array _ elem _ _ _) => (Node.type t).around elem.events
  | t@(.func _ result _ params _) => (Node.type t).around (result.events ++ Decl.eventsAll params)

def Decl.events : Decl → List Event
  | d@(.func _ _ _ signature none) => (Node.decl d).around signature.events
  | d@(.func _ _ _ signature (some body)) =>
    (Node.decl d).around (signature.events ++ body.events)
  | d@(.var _ _ _ type none) => (Node.decl d).around type.events
  | d@(.var _ _ _ type (some init)) => (Node.decl d).around (type.events ++ init.events)
  | d@(.basic ..) => (Node.decl d).around []
  | d@(.typedef _ _ _ target) => (Node.decl d).around target.events

def Decl.eventsAll : List Decl → List Event
  | [] => []
  | d :: rest => d.events ++ Decl.eventsAll rest

def Stmt.events : Stmt → List Event
  | s@(.block _ _ items _) => (Node.stmt s).around (Item.eventsAll items)
  | s@(.empty ..) => (Node.stmt s).around []
  | s@(.expr _ value) => (Node.stmt s).around value.events
  | s@(.branch _ _ cond onTrue none) => (Node.stmt s).around (cond.events ++ onTrue.events)
  | s@(.branch _ _ cond onTrue (some onFalse)) =>
    (Node.stmt s).around (cond.events ++ onTrue.events ++ onFalse.events)
  | s@(.ret _ _ none) => (Node.stmt s).around []
  | s@(.ret _ _ (some value)) => (Node.stmt s).around value.events
  | s@(.loop _ _ cond body) => (Node.stmt s).around (cond.events ++ body.events)

def Item.events : Item → List Event
  | .decl d => d.events
  | .stmt s => s.events

def Item.eventsAll : List Item → List Event
  | [] => []
  | item :: rest => item.events ++ Item.eventsAll rest

end

def Node.events : Node → List Event
  | .decl d => d.events
  | .stmt s => s.events
  | .expr e => e.events
  | .type t => t.events
  | .ident i => i.events

namespace Event

/-- The identifiers a traversal enters, in that order. -/
def identUses (events : List Event) : List Ident :=
  events.filterMap fun
    | .enter (.ident ident) => some ident
    | _ => none

theorem identUses_append (xs ys : List Event) :
    identUses (xs ++ ys) = identUses xs ++ identUses ys := by
  simp [identUses]

theorem mem_identUses {events : List Event} {ident : Ident} :
    ident ∈ identUses events ↔ .enter (.ident ident) ∈ events := by
  simp only [identUses, List.mem_filterMap]
  constructor
  · rintro ⟨event, hevent, hmatch⟩
    split at hmatch
    · cases hmatch
      exact hevent
    · cases hmatch
  · intro h
    exact ⟨_, h, rfl⟩

end Event

theorem Decl.eventsAll_append (xs ys : List Decl) :
    Decl.eventsAll (xs ++ ys) = Decl.eventsAll xs ++ Decl.eventsAll ys := by
  induction xs with
  | nil => rfl
  | cons d rest ih => simp [Decl.eventsAll, ih]

end MicroC
