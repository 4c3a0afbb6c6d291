import MicroC.Proofs.Ir.Paths
import MicroC.Proofs.Lowering.Operands

/-!
What a lowering goes by. A setting has the analysis that is asked about names and types, another
guide that comes to the same, and what each step of the construction keeps to. Two properties are
optional: that names are used where they are visible, and that expressions have types. A lowering
is ready if a block is selected and the visible variables are bound.
-/

namespace MicroC

open LowerM

/-! What needs a slot: a variable or, without a declaration, the result of an `&&`. -/

mutual

/-- How often `&&` occurs in an expression. -/
def Expr.conjunctions : Expr → Nat
  | .literal .. | .name .. => 0
  | .paren _ _ inner _ => inner.conjunctions
  | .unary _ _ _ operand => operand.conjunctions
  | .binary _ op _ lhs rhs =>
    lhs.conjunctions + rhs.conjunctions + if op = .and then 1 else 0
  | .call _ _ _ args _ => Expr.conjunctionsAll args
  | .index _ _ _ position _ => position.conjunctions

def Expr.conjunctionsAll : List Expr → Nat
  | [] => 0
  | e :: rest => e.conjunctions + Expr.conjunctionsAll rest

end

def Expr.requests (e : Expr) : List (Option Decl) := List.replicate e.conjunctions none

def Decl.requests (d : Decl) : List (Option Decl) :=
  match d with
  | .var _ _ _ _ (some init) => some d :: init.requests
  | _ => [some d]

mutual

def Stmt.requests : Stmt → List (Option Decl)
  | .block _ _ items _ => Item.requestsAll items
  | .empty .. | .ret _ _ none => []
  | .expr _ value | .ret _ _ (some value) => value.requests
  | .branch _ _ cond onTrue none => cond.requests ++ onTrue.requests
  | .branch _ _ cond onTrue (some onFalse) =>
    cond.requests ++ (onTrue.requests ++ onFalse.requests)
  | .loop _ _ cond body => cond.requests ++ body.requests

def Item.requests : Item → List (Option Decl)
  | .decl d => d.requests
  | .stmt s => s.requests

/-- Behind an item that always returns nothing is reached. -/
def Item.requestsAll : List Item → List (Option Decl)
  | [] => []
  | item :: rest => item.requests ++ if item.alwaysReturns then [] else Item.requestsAll rest

end

theorem Expr.requests_and (id : ExprId) (span : Span) (lhs rhs : Expr) :
    (Expr.binary id .and span lhs rhs).requests = lhs.requests ++ none :: rhs.requests := by
  rw [Expr.requests, Expr.requests, Expr.requests, ← List.replicate_succ,
    List.replicate_append_replicate, Expr.conjunctions, if_pos rfl, Nat.add_assoc]

theorem Expr.requests_assign (id : ExprId) (span : Span) (lhs rhs : Expr) :
    (Expr.binary id .assign span lhs rhs).requests = rhs.requests ++ lhs.requests := by
  rw [Expr.requests, Expr.requests, Expr.requests, List.replicate_append_replicate,
    Expr.conjunctions, if_neg nofun, Nat.add_comm rhs.conjunctions]
  rfl

theorem Expr.requests_strict {op : BinaryOp} (hop : op ≠ .and) (id : ExprId) (span : Span)
    (lhs rhs : Expr) :
    (Expr.binary id op span lhs rhs).requests = lhs.requests ++ rhs.requests := by
  rw [Expr.requests, Expr.requests, Expr.requests, List.replicate_append_replicate,
    Expr.conjunctions, if_neg hop]
  rfl

section

variable {α β γ : Type}

/-- If the run succeeds, it takes a sketch to one as `Q` says. -/
def LowerM.Draws (m : LowerM α) (s : Ir.Sketch) (Q : α → Ir.Sketch → Prop) : Prop :=
  m.Ensures s.builder fun x b => ∃ s', s'.builder = b ∧ Q x s'

namespace LowerM.Draws

variable {m : LowerM α} {s : Ir.Sketch} {Q R : α → Ir.Sketch → Prop}

theorem bind {f : α → LowerM β} {R : β → Ir.Sketch → Prop} (hm : m.Draws s Q)
    (hf : ∀ x s', Q x s' → (f x).Draws s' R) : (m >>= f).Draws s R := by
  refine LowerM.Ensures.bind hm ?_
  rintro x _ ⟨s', rfl, hQ⟩
  exact hf x s' hQ

theorem mono (hm : m.Draws s Q) (h : ∀ x s', Q x s' → R x s') : m.Draws s R := by
  refine Run.mono hm ?_
  rintro x _ ⟨s', hs', hQ⟩
  exact ⟨s', hs', h x s' hQ⟩

theorem pure {x : α} (h : Q x s) : (pure x : LowerM α).Draws s Q := ⟨s, rfl, h⟩

theorem liftBind {x : Except LowerError α} {f : α → LowerM β} {R : β → Ir.Sketch → Prop}
    (hf : ∀ v, x = .ok v → (f v).Draws s R) : LowerM.Draws (liftM x >>= f) s R :=
  LowerM.Ensures.liftBind hf

theorem discard {Q : Unit → Ir.Sketch → Prop} (h : m.Draws s fun _ s' => Q () s') :
    (discard m).Draws s Q :=
  Run.discard_iff.mpr h

end LowerM.Draws

/-- A computation does what another one does, which takes a sketch to one as `Q` says. -/
structure LowerM.Follows (m' m : LowerM α) (s : Ir.Sketch) (Q : α → Ir.Sketch → Prop) : Prop where
  same : m' s.builder = m s.builder
  draws : m.Draws s Q

theorem LowerM.Draws.follows {m : LowerM α} {s : Ir.Sketch} {Q : α → Ir.Sketch → Prop}
    (h : m.Draws s Q) : m.Follows m s Q := ⟨rfl, h⟩

namespace LowerM.Follows

variable {m m' : LowerM α} {s : Ir.Sketch} {Q R : α → Ir.Sketch → Prop}

theorem bind {f f' : α → LowerM β} {R : β → Ir.Sketch → Prop} (hm : m'.Follows m s Q)
    (hf : ∀ x s', Q x s' → (f' x).Follows (f x) s' R) : (m' >>= f').Follows (m >>= f) s R := by
  refine ⟨LowerM.bind_congr hm.same hm.draws ?_, hm.draws.bind fun x s' hQ => (hf x s' hQ).draws⟩
  rintro x _ ⟨s', rfl, hQ⟩
  exact (hf x s' hQ).same

theorem mono (hm : m'.Follows m s Q) (h : ∀ x s', Q x s' → R x s') : m'.Follows m s R :=
  ⟨hm.same, hm.draws.mono h⟩

theorem pure {x : α} (h : Q x s) : (pure x : LowerM α).Follows (pure x) s Q :=
  (LowerM.Draws.pure h).follows

theorem throw {e : LowerError} : (throw e : LowerM α).Follows (throw e) s Q := ⟨rfl, trivial⟩

theorem discard {Q : Unit → Ir.Sketch → Prop} (h : m'.Follows m s fun _ s' => Q () s') :
    (discard m').Follows (discard m) s Q :=
  LowerM.Follows.bind h fun _ _ hQ => .pure hQ

/-- A step that only reads the tables. -/
theorem liftBind {x x' : Except LowerError α} {f f' : α → LowerM β} {R : β → Ir.Sketch → Prop}
    (hx : x' = x) (hf : ∀ v, x = .ok v → (f' v).Follows (f v) s R) :
    LowerM.Follows (liftM x' >>= f') (liftM x >>= f) s R := by
  subst hx
  cases hx : x' with
  | error e => exact .throw
  | ok v => exact hf v hx

/-- Two steps that only read the tables. -/
theorem liftBind₂ {x x' : Except LowerError α} {y y' : α → Except LowerError β}
    {f f' : β → LowerM γ} {R : γ → Ir.Sketch → Prop} (hy : (x' >>= y') = (x >>= y))
    (hf : ∀ v w, x = .ok v → y v = .ok w → (f' w).Follows (f w) s R) :
    LowerM.Follows (liftM x' >>= fun v => liftM (y' v) >>= f')
      (liftM x >>= fun v => liftM (y v) >>= f) s R := by
  have hjoin : ∀ (x : Except LowerError α) (y : α → Except LowerError β) (f : β → LowerM γ),
      (liftM x >>= fun v => liftM (y v) >>= f) = (liftM (x >>= y) >>= f : LowerM γ) := by
    intro x y f
    cases x <;> rfl
  rw [hjoin, hjoin]
  refine .liftBind hy fun w hw => ?_
  obtain ⟨v, hv, hw⟩ := Except.bind_eq_ok.mp hw
  exact hf v w hv hw

end LowerM.Follows

end

theorem Analysis.declOf?_of_ok {a : Analysis} {ident : Ident} {d : Decl}
    (h : a.declOf ident = .ok d) : a.resolution.declOf? ident = some d := by
  unfold Analysis.declOf at h
  split at h
  · cases h
    assumption
  · cases h

theorem Analysis.decl?_of_ok {a : Analysis} {d : Decl} {type : Ty}
    (h : a.typeOf d = .ok type) : a.types.decl? d = some type := by
  unfold Analysis.typeOf at h
  split at h
  · cases h
    assumption
  · cases h

/-- What is known at file level: the binding of a name, or a builtin type. -/
def Decl.AtFile (a : Analysis) (d : Decl) : Prop :=
  a.resolution.fileBinding? d.name = some d ∨ d ∈ Decl.builtins

/-- The operands in `P` include what is local to a function, and what stands for variables and
functions. If names are known to be used where they are visible, only those at file level
matter. -/
structure Analysis.Permits (a : Analysis) (lexical : Prop) (P : Ir.Value → Prop) : Prop where
  const : ∀ c, P (.const c)
  isLocal : ∀ v, v.isLocal → P v
  global : ∀ (d : Decl) (type : Ty), (lexical → d.AtFile a) → d.isVar →
    a.types.decl? d = some type → P (.global d.name (.ptr type.machine))
  function : ∀ (d : Decl) (result : Ty) (params : List Ty), (lexical → d.AtFile a) →
    d.isFunc → a.types.decl? d = some (.func result params) →
    P (.function d.name (Ty.func result params).machine)

/-- An operand holds the value of an expression as the types of the expression say, where types
matter. -/
def Expr.Suits (a : Analysis) (typed : Prop) (e : Expr) (v : Ir.Value) : Prop :=
  typed → ∀ type, e.HasType a type → v.Carries type

/-- An operand is the place that an expression of scalar type stands for. -/
def Expr.Locates (a : Analysis) (typed : Prop) (e : Expr) (v : Ir.Value) : Prop :=
  typed → ∀ type, e.HasType a type → type.isScalar → v.type = .ptr type.machine ∧ v.IsOperand

/-- Operands can be passed for parameters that the expressions fit. -/
def Expr.AllSuit (a : Analysis) (typed : Prop) (es : List Expr) (vs : List Ir.Value) : Prop :=
  typed → ∀ params, Expr.ArgsFit a params es → (∀ param ∈ params, param.isParam) →
    vs.map Ir.Value.type = params.map Ty.machineParam ∧ ∀ v ∈ vs, v.IsOperand

/-- A guide comes to what an analysis says about the parts of a traversal, as long as the bindings
are as `inv` says. -/
structure Guide.Mimics (g : Guide) (a : Analysis) (typed : Prop) (events : List Event)
    (inv : Ir.Builder → Prop) : Prop where
  read : ∀ {b : Ir.Builder} {id : ExprId} {ident : Ident}, inv b →
    .enter (.expr (.name id ident)) ∈ events → ident.read g b = ident.read a b
  place : ∀ {b : Ir.Builder} {id : ExprId} {ident : Ident}, inv b →
    .enter (.expr (.name id ident)) ∈ events →
    (liftM (g.declOf ident) >>= fun d => d.address g ident.span : LowerM Ir.Value) b =
      (liftM (a.declOf ident) >>= fun d => d.address a ident.span : LowerM Ir.Value) b
  element : ∀ {b : Ir.Builder} {id : ExprId} {array : Ident} {lbracket rbracket : Span}
    {position : Expr} {index index' : LowerM Ir.Value}, inv b →
    .enter (.expr (.index id array lbracket position rbracket)) ∈ events → index' b = index b →
    array.elementAddress g index' b = array.elementAddress a index b
  function : ∀ {id : ExprId} {callee : Ident} {lparen rparen : Span} {args : List Expr},
    .enter (.expr (.call id callee lparen args rparen)) ∈ events →
    (g.declOf callee >>= fun d => d.functionValue g callee.span) =
      (a.declOf callee >>= fun d => d.functionValue a callee.span)
  type : ∀ {d : Decl}, .enter (.decl d) ∈ events → d.isVar → g.typeOf d = a.typeOf d
  operand : ∀ {b : Ir.Builder} {e : Expr} {code : LowerM Ir.Value}, .enter (.expr e) ∈ events →
    code b = e.lower a b → ((e.lower a).Ensures b fun v _ => e.Suits a typed v) →
    g.operand e code b = e.lower a b

/-- What the types of operands rest on: names are used where they are visible, variables are bound
to storage for values of their types, global variables have types with a size, and functions take
and return what can be passed. -/
structure Analysis.Firm (a : Analysis) (lexical : Prop) (inv : Ir.Builder → Prop)
    (result : Ty) : Prop where
  isLexical : lexical
  stores : ∀ {b : Ir.Builder} {d : Decl} {type : Ty} {v : Ir.Value}, inv b →
    a.types.decl? d = some type → b.binding? d.id = some v → v.Stores type ∧ type.isParam
  complete : ∀ {d : Decl} {type : Ty}, d.AtFile a → d.isVar → a.types.decl? d = some type →
    type.isComplete
  signature : ∀ {ident : Ident} {d : Decl} {type : Ty} {params : List Ty},
    ident.HasType a d (.func type params) →
    (∀ param ∈ params, param.isParam) ∧ (type.isScalar ∨ type.isVoid)
  returns : result.isScalar ∨ result.isVoid

/-- What a lowering goes by, and what it keeps to. -/
structure Setting where
  a : Analysis
  g : Guide
  lexical : Prop
  events : List Event
  inv : Ir.Builder → Prop
  result : Ty
  R : Ir.Sketch.Rules
  mimics : g.Mimics a R.typed events inv
  permits : a.Permits lexical R.operand
  bound : ∀ {b : Ir.Builder} {id : DeclId} {v : Ir.Value}, inv b → b.binding? id = some v →
    R.operand v
  declares : ∀ {d : Decl} {type : Ty}, .enter (.decl d) ∈ events → d.isVar →
    a.types.decl? d = some type → (R.typed → type.isComplete) → R.declares d type.machine
  keep : R.Keep inv
  firm : R.typed → a.Firm lexical inv result

section

variable {a : Analysis} {b : Ir.Builder}

theorem Decl.address_ensures (g : Guide) (d : Decl) (span : Span) :
    (d.address g span).Ensures b fun _ b' => b' = b := by
  unfold Decl.address
  refine Run.bind_iff.mpr (Run.get_iff.mpr ?_)
  split
  · rfl
  · split
    · exact LowerM.Ensures.liftBind fun _ _ => rfl
    · trivial

/-- The address of an element, when the code of the index does the same. -/
theorem Ident.elementAddress_congr {g : Guide} {array : Ident} {index index' : LowerM Ir.Value}
    (hindex : index' b = index b) :
    array.elementAddress g index' b = array.elementAddress g index b := by
  have hreads : ∀ {α : Type} (x : Except LowerError α),
      (liftM x : LowerM α).Ensures b fun _ b' => b' = b :=
    fun x => Run.lift_iff.mpr ⟨fun _ _ => rfl, fun _ _ => trivial⟩
  refine LowerM.bind_congr rfl (hreads (g.declOf array)) ?_
  rintro d _ rfl
  refine LowerM.bind_congr rfl (hreads (g.typeOf d)) ?_
  rintro type _ rfl
  cases type with
  | basic _ | func _ _ => rfl
  | array elem len =>
    refine LowerM.bind_congr rfl (Decl.address_ensures g d array.span) ?_
    rintro base _ rfl
    exact LowerM.bind_congr_left _ hindex

theorem Guide.Mimics.refl {typed : Prop} {events : List Event} {inv : Ir.Builder → Prop} :
    a.guide.Mimics a typed events inv :=
  ⟨fun _ _ => rfl, fun _ _ => rfl, fun _ _ => Ident.elementAddress_congr, fun _ => rfl,
    fun _ _ => rfl, fun _ hcode _ => hcode⟩

/-- Nothing need be known of an analysis if operands may name anything. -/
theorem Analysis.permits_any (a : Analysis) {lexical : Prop} : a.Permits lexical fun _ => True :=
  ⟨fun _ => trivial, fun _ _ => trivial, fun _ _ _ _ _ => trivial, fun _ _ _ _ _ _ => trivial⟩

/-- Names are looked up in the tables, and any operand may be used. -/
def Analysis.setting (a : Analysis) (events : List Event) (R : Ir.Sketch.Rules)
    (hoperand : ∀ v, R.operand v) (htyped : ¬ R.typed)
    (hdeclares : ∀ {d : Decl} {type : Ty}, .enter (.decl d) ∈ events → d.isVar →
      a.types.decl? d = some type → R.declares d type.machine) : Setting where
  a := a
  g := a
  lexical := False
  events := events
  inv := fun _ => True
  result := .void
  R := R
  mimics := .refl
  permits := ⟨fun _ => hoperand _, fun _ _ => hoperand _, fun _ _ _ _ _ => hoperand _,
    fun _ _ _ _ _ _ => hoperand _⟩
  bound := fun _ _ => hoperand _
  declares := fun hin hvar htype _ => hdeclares hin hvar htype
  keep := ⟨fun _ _ => trivial, fun _ _ => trivial, fun _ _ => trivial⟩
  firm := fun h => absurd h htyped

/-- Everything is allowed, as long as control goes only to new blocks. -/
def Analysis.free (a : Analysis) (events : List Event) (first : Ir.BlockId) : Setting :=
  a.setting events ⟨fun _ => True, fun _ _ => True, fun _ _ => True, first, False⟩
    (fun _ => trivial) not_false fun _ _ _ => trivial

/-- Names are looked up in the tables, and what variables are bound to is local. -/
def Analysis.Permits.setting {lexical : Prop} {P : Ir.Value → Prop} (h : a.Permits lexical P)
    (events : List Event) : Setting where
  a := a
  g := a
  lexical := lexical
  events := events
  inv := fun b => ∀ id v, b.binding? id = some v → v.isLocal
  result := .void
  R := ⟨P, fun _ _ => True, fun _ _ => True, 0, False⟩
  mimics := .refl
  permits := h
  bound := fun hb hv => h.isLocal _ (hb _ _ hv)
  declares := fun _ _ _ _ => trivial
  keep := by
    refine ⟨?_, ?_, ?_⟩
    · intro b b' hb hbindings id v hv
      rw [Ir.Builder.binding?, hbindings] at hv
      exact hb id v hv
    · intro b d type _ hb id v hv
      rw [Ir.Builder.withLocal_binding?] at hv
      split at hv
      · cases hv
        rfl
      · exact hb id v hv
    · intro b d index type _ hb id v hv
      rw [Ir.Builder.binding?_bind] at hv
      split at hv
      · cases hv
        rfl
      · exact hb id v hv
  firm := False.elim

end

namespace Ir.Sketch

variable {R : Rules} {requests requests' : List (Option Decl)} {s s' s'' : Sketch} {v : Value}

/-- More of a function, with slots for some requests. No variable is bound. -/
structure Extends (R : Rules) (requests : List (Option Decl)) (s s' : Sketch) : Prop where
  steps : Steps R s s'
  bindings : s'.builder.bindings = s.builder.bindings
  served : s'.served = s.served ++ requests

/-- More code without control leaving it: what could be used still can be. -/
structure Continues (R : Rules) (requests : List (Option Decl)) (s s' : Sketch) : Prop
    extends Extends R requests s s' where
  isOpen : s'.builder.current.isSome
  here : s.here ⊆ s'.here

/-- The code of an expression, with the operand that holds its value. -/
structure Gives (R : Rules) (requests : List (Option Decl)) (s : Sketch) (v : Value)
    (s' : Sketch) : Prop extends Continues R requests s s' where
  allowed : R.operand v
  usable : s'.Usable v

/-- A block becomes the selected one, for which some results are noted. -/
structure Selects (R : Rules) (results : List (InstId × Ty)) (s s' : Sketch) : Prop
    extends Extends R [] s s' where
  isOpen : s'.builder.current.isSome
  here : s'.here = results

/-- A block that may be selected, and what is noted for it. -/
structure Notes (R : Rules) (s : Sketch) (i : BlockId) (results : List (InstId × Ty)) : Prop where
  lt : i < s.builder.blocks.length
  first : R.first ≤ i
  known : s.known i = results

theorem Steps.notes (h : Steps R s s') {i : BlockId} {results : List (InstId × Ty)}
    (hi : s.Notes R i results) : s'.Notes R i results :=
  ⟨Nat.lt_of_lt_of_le hi.lt h.kept.length, hi.first, (h.kept.known i hi.lt).trans hi.known⟩

theorem Extends.trans (h : Extends R requests s s') (h' : Extends R requests' s' s'') :
    Extends R (requests ++ requests') s s'' :=
  ⟨h.steps.trans h'.steps, h'.bindings.trans h.bindings, by simp [h.served, h'.served]⟩

/-- What follows makes no slot. -/
theorem Extends.andThen (h : Extends R requests s s') (h' : Extends R [] s' s'') :
    Extends R requests s s'' := by
  have hboth := h.trans h'
  rwa [List.append_nil] at hboth

namespace Continues

theorem refl (hopen : s.builder.current.isSome) : Continues R [] s s :=
  ⟨⟨.refl, rfl, (List.append_nil _).symm⟩, hopen, List.Subset.refl _⟩

theorem trans (h : Continues R requests s s') (h' : Continues R requests' s' s'') :
    Continues R (requests ++ requests') s s'' :=
  ⟨h.toExtends.trans h'.toExtends, h'.isOpen, List.Subset.trans h.here h'.here⟩

theorem keeps (h : Continues R requests s s') (hv : s.Usable v) : s'.Usable v := by
  rcases hv with ⟨id, hid⟩ | hv
  · refine .inl ⟨id, ?_⟩
    rw [Builder.binding?, h.bindings]
    exact hid
  · exact .inr (hv.mono h.steps.kept.slots h.steps.kept.params h.here)

theorem keepsOperand (h : Continues R requests s s') (hv : R.operand v ∧ s.Usable v) :
    R.operand v ∧ s'.Usable v :=
  ⟨hv.1, h.keeps hv.2⟩

theorem andThen (h : Continues R requests s s') (h' : Continues R [] s' s'') :
    Continues R requests s s'' :=
  ⟨h.toExtends.andThen h'.toExtends, h'.isOpen, List.Subset.trans h.here h'.here⟩

theorem thenGives (h : Continues R requests s s') (h' : s'.Gives R [] v s'') :
    s.Gives R requests v s'' :=
  ⟨h.andThen h'.toContinues, h'.allowed, h'.usable⟩

end Continues

theorem Gives.operand (h : s.Gives R requests v s') : R.operand v ∧ s'.Usable v :=
  ⟨h.allowed, h.usable⟩

/-- The block that is selected knows what was known before. -/
theorem Selects.continues (h : Selects R s''.here s s') (hs : Extends R requests s'' s) :
    Continues R requests s'' s' :=
  ⟨hs.andThen h.toExtends, h.isOpen, h.here ▸ List.Subset.refl _⟩

end Ir.Sketch

/-- A function under construction of which nothing is known. -/
def Ir.Sketch.blank (b : Ir.Builder) : Ir.Sketch := ⟨b, [], fun _ => [], []⟩

/-- A block is selected, the visible variables are bound, and the bindings are as they should be. -/
structure Setting.Ready (F : Setting) (visible : List Decl) (s : Ir.Sketch) : Prop where
  isOpen : s.builder.current.isSome
  first : F.R.first ≤ s.builder.blocks.length
  bound : s.builder.Binds visible
  isVar : F.lexical → ∀ d ∈ visible, d.isVar
  holds : F.inv s.builder
  result_eq : F.R.typed → s.builder.result = F.result.machine

/-- An expression as the setting asks for it: names are used where they are visible, it has a type,
and the traversal comes to it. -/
structure Setting.Admits (F : Setting) (visible : List Decl) (e : Expr) : Prop where
  inScope : F.lexical → e.Scoped F.a.resolution visible
  hasType : F.R.typed → ∃ type, e.HasType F.a type
  inside : e.events ⊆ F.events

structure Setting.AdmitsAll (F : Setting) (visible : List Decl) (es : List Expr) : Prop where
  inScope : F.lexical → Expr.AllScoped F.a.resolution visible es
  hasType : F.R.typed → ∃ params, Expr.ArgsFit F.a params es
  inside : Expr.eventsAll es ⊆ F.events

section

variable {F : Setting} {visible : List Decl} {s s' : Ir.Sketch}
  {requests requests' : List (Option Decl)}

/-- Where nothing is asked of bindings, a selected block is enough. -/
theorem Analysis.setting_ready {a : Analysis} {events : List Event} {R : Ir.Sketch.Rules}
    {hoperand : ∀ v, R.operand v} {htyped : ¬ R.typed}
    {hdeclares : ∀ {d : Decl} {type : Ty}, .enter (.decl d) ∈ events → d.isVar →
      a.types.decl? d = some type → R.declares d type.machine}
    (hopen : s.builder.current.isSome) (hfirst : R.first ≤ s.builder.blocks.length) :
    (a.setting events R hoperand htyped hdeclares).Ready [] s :=
  ⟨hopen, hfirst, by simp [Ir.Builder.Binds], by simp, trivial, fun h => absurd h htyped⟩

theorem Setting.Ready.of_steps (h : F.Ready visible s) (hsteps : Ir.Sketch.Steps F.R s s')
    (hopen : s'.builder.current.isSome) : F.Ready visible s' :=
  ⟨hopen, Nat.le_trans h.first hsteps.kept.length,
    fun d hd => hsteps.kept.bound d.id (h.bound d hd), h.isVar, hsteps.holds F.keep h.holds,
    fun ht => hsteps.kept.result.trans (h.result_eq ht)⟩

theorem Setting.Ready.reorder {visible' : List Decl} (h : F.Ready visible s)
    (hsubset : visible' ⊆ visible) : F.Ready visible' s :=
  ⟨h.isOpen, h.first, fun d hd => h.bound d (hsubset hd), fun hlexical d hd =>
    h.isVar hlexical d (hsubset hd), h.holds, h.result_eq⟩

theorem Setting.Ready.continue (h : F.Ready visible s)
    (hs' : Ir.Sketch.Continues F.R requests s s') : F.Ready visible s' :=
  h.of_steps hs'.steps hs'.isOpen

/-! The parts of an expression. -/

namespace Setting.Admits

variable {id : ExprId} {span span' : Span} {e lhs rhs : Expr}

theorem paren (h : F.Admits visible (.paren id span e span')) : F.Admits visible e := by
  refine ⟨h.inScope, fun ht => ?_, Node.inside_events h.inside⟩
  obtain ⟨_, htype⟩ := h.hasType ht
  cases htype with
  | paren h => exact ⟨_, h⟩

theorem position {array : Ident} (h : F.Admits visible (.index id array span e span')) :
    F.Admits visible e := by
  obtain ⟨_, hinside⟩ := List.append_subset.mp (Node.inside_events h.inside)
  refine ⟨fun hlexical => (h.inScope hlexical).2, fun ht => ?_, hinside⟩
  obtain ⟨_, htype⟩ := h.hasType ht
  cases htype with
  | index _ h _ => exact ⟨_, h⟩

theorem args {callee : Ident} {args : List Expr}
    (h : F.Admits visible (.call id callee span args span')) : F.AdmitsAll visible args := by
  obtain ⟨_, hinside⟩ := List.append_subset.mp (Node.inside_events h.inside)
  refine ⟨fun hlexical => (h.inScope hlexical).2, fun ht => ?_, hinside⟩
  obtain ⟨_, htype⟩ := h.hasType ht
  cases htype with
  | call _ h => exact ⟨_, h⟩

theorem operand {op : UnaryOp} (h : F.Admits visible (.unary id op span e)) :
    F.Admits visible e := by
  refine ⟨h.inScope, fun ht => ?_, Node.inside_events h.inside⟩
  obtain ⟨_, htype⟩ := h.hasType ht
  cases htype with
  | neg h _ | not h _ => exact ⟨_, h⟩

theorem left {op : BinaryOp} (h : F.Admits visible (.binary id op span lhs rhs)) :
    F.Admits visible lhs := by
  obtain ⟨hinside, _⟩ := List.append_subset.mp (Node.inside_events h.inside)
  refine ⟨fun hlexical => (h.inScope hlexical).1, fun ht => ?_, hinside⟩
  obtain ⟨_, htype⟩ := h.hasType ht
  cases htype with
  | binary h _ _ _ => exact ⟨_, h⟩

theorem right {op : BinaryOp} (h : F.Admits visible (.binary id op span lhs rhs)) :
    F.Admits visible rhs := by
  obtain ⟨_, hinside⟩ := List.append_subset.mp (Node.inside_events h.inside)
  refine ⟨fun hlexical => (h.inScope hlexical).2, fun ht => ?_, hinside⟩
  obtain ⟨_, htype⟩ := h.hasType ht
  cases htype with
  | binary _ h _ _ => exact ⟨_, h⟩

end Setting.Admits

namespace Setting.AdmitsAll

variable {e : Expr} {rest : List Expr}

theorem head (h : F.AdmitsAll visible (e :: rest)) : F.Admits visible e := by
  refine ⟨fun hlexical => (h.inScope hlexical).1, fun ht => ?_, (List.append_subset.mp h.inside).1⟩
  obtain ⟨_, hargs⟩ := h.hasType ht
  cases hargs with
  | cons h _ _ => exact ⟨_, h⟩

theorem tail (h : F.AdmitsAll visible (e :: rest)) : F.AdmitsAll visible rest := by
  refine ⟨fun hlexical => (h.inScope hlexical).2, fun ht => ?_, (List.append_subset.mp h.inside).2⟩
  obtain ⟨_, hargs⟩ := h.hasType ht
  cases hargs with
  | cons _ _ h => exact ⟨_, h⟩

end Setting.AdmitsAll

end

end MicroC
