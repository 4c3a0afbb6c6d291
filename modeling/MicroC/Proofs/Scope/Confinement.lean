import MicroC.Proofs.Scope.Visible
import MicroC.Proofs.Syntax.Equality

/-!
Names do not leak out of functions, under one condition. A function opens a scope, and the next
block that is entered takes the scope over and closes it; normally that block is the body. A
function whose body holds no block leaves its scope open, and what follows is resolved inside of
it. So the cursor is back at file level after each top-level declaration, and each use stays
inside of its own, exactly if every function with a body meets a block in time.
-/

namespace MicroC

/-! Traversals are nested. -/

inductive Event.Nested : List Event → Prop
  | nil : Nested []
  | append {xs ys : List Event} : Nested xs → Nested ys → Nested (xs ++ ys)
  | around (n : Node) {children : List Event} : Nested children → Nested (n.around children)

theorem Ident.events_nested (i : Ident) : Event.Nested i.events := .around _ .nil

mutual

theorem Expr.events_nested : (e : Expr) → Event.Nested e.events
  | .literal .. => .around _ .nil
  | .binary _ _ _ lhs rhs => .around _ (lhs.events_nested.append rhs.events_nested)
  | .call _ callee _ args _ => .around _ (callee.events_nested.append (Expr.eventsAll_nested args))
  | .name _ ident => .around _ ident.events_nested
  | .index _ array _ position _ => .around _ (array.events_nested.append position.events_nested)
  | .paren _ _ inner _ => .around _ inner.events_nested
  | .unary _ _ _ operand => .around _ operand.events_nested

theorem Expr.eventsAll_nested : (es : List Expr) → Event.Nested (Expr.eventsAll es)
  | [] => .nil
  | e :: rest => e.events_nested.append (Expr.eventsAll_nested rest)

end

mutual

theorem TypeExpr.events_nested : (t : TypeExpr) → Event.Nested t.events
  | .named _ ident => .around _ ident.events_nested
  | .array _ elem _ _ _ => .around _ elem.events_nested
  | .func _ result _ params _ =>
    .around _ (result.events_nested.append (Decl.eventsAll_nested params))

theorem Decl.events_nested : (d : Decl) → Event.Nested d.events
  | .func _ _ _ signature none => .around _ signature.events_nested
  | .func _ _ _ signature (some body) =>
    .around _ (signature.events_nested.append body.events_nested)
  | .var _ _ _ type none => .around _ type.events_nested
  | .var _ _ _ type (some init) => .around _ (type.events_nested.append init.events_nested)
  | .basic .. => .around _ .nil
  | .typedef _ _ _ target => .around _ target.events_nested

theorem Decl.eventsAll_nested : (ds : List Decl) → Event.Nested (Decl.eventsAll ds)
  | [] => .nil
  | d :: rest => d.events_nested.append (Decl.eventsAll_nested rest)

theorem Stmt.events_nested : (s : Stmt) → Event.Nested s.events
  | .block _ _ items _ => .around _ (Item.eventsAll_nested items)
  | .empty .. => .around _ .nil
  | .expr _ value => .around _ value.events_nested
  | .branch _ _ cond onTrue none => .around _ (cond.events_nested.append onTrue.events_nested)
  | .branch _ _ cond onTrue (some onFalse) =>
    .around _ ((cond.events_nested.append onTrue.events_nested).append onFalse.events_nested)
  | .ret _ _ none => .around _ .nil
  | .ret _ _ (some value) => .around _ value.events_nested
  | .loop _ _ cond body => .around _ (cond.events_nested.append body.events_nested)

theorem Item.events_nested : (item : Item) → Event.Nested item.events
  | .decl d => d.events_nested
  | .stmt s => s.events_nested

theorem Item.eventsAll_nested : (items : List Item) → Event.Nested (Item.eventsAll items)
  | [] => .nil
  | item :: rest => item.events_nested.append (Item.eventsAll_nested rest)

end

/-! Functions wait for a block. -/

/-- Whether a function waits for its block after an event. There is no answer if a function is
entered while another one waits. -/
def Event.await (waiting : Bool) : Event → Option Bool
  | .enter (.decl (.func _ _ _ _ body)) => if waiting then none else some body.isSome
  | .enter (.stmt (.block ..)) => some false
  | _ => some waiting

/-- Each function with a body that a declaration contains is followed by a block before the next
function, or the end of the declaration, is met. -/
def Decl.Settled (d : Decl) : Prop := d.events.foldlM Event.await false = some false

instance (d : Decl) : Decidable d.Settled := inferInstanceAs (Decidable (_ = _))

def Program.Settled (p : Program) : Prop := ∀ d ∈ p.file, d.Settled

instance (p : Program) : Decidable p.Settled := inferInstanceAs (Decidable (∀ d ∈ p.file, _))

/-- The scopes that are open when a node is left and were not when it was entered, apart from
those of functions that wait or have waited. -/
def Node.opens : Node → Nat
  | .stmt (.block ..) | .decl (.func _ _ _ _ none) => 1
  | _ => 0

theorem Resolver.step_leave (n : Node) (r : Resolver) :
    r.step (.leave n) = .ok (if n.opens = 1 then r.leaveScope else r) := by
  unfold Node.opens
  split
  · rfl
  · rfl
  next hblock hfunc =>
    rw [if_neg (by decide)]
    unfold Resolver.step
    split <;> simp_all

/-- Open environments bind names to declarations with a property only. -/
def Lexical.Only (P : Decl → Prop) (s : Lexical) : Prop :=
  ∀ env ∈ s.inner, ∀ name d, env name = some d → P d

section

variable {top builtin : Env} {P : Decl → Prop} {r r₁ r' : Resolver} {s s₁ s' : Lexical}
  {events events' : List Event} {opened opened' : Nat}

/-- What a piece of the traversal does. The number of open scopes grows by `opened`, and by one
for each function that is left without a block; a function that waits counts as open already. -/
structure Walked (top builtin : Env) (P : Decl → Prop) (opened : Nat) (events : List Event)
    (r : Resolver) (s : Lexical) (r' : Resolver) (s' : Lexical) : Prop where
  represents : Represents top builtin r' s'
  only : s'.Only P
  uses : ∃ new : List (IdentId × Decl), s'.uses = new ++ s.uses ∧
    new.map Prod.fst = (Event.useIds events).reverse ∧
    ∀ use ∈ new, P use.2 ∨ (∃ name, top name = some use.2) ∨ ∃ name, builtin name = some use.2
  settled : ∀ waiting, events.foldlM Event.await r.sharesScope = some waiting →
    r'.sharesScope = waiting ∧ s'.inner.length + r.sharesScope.toNat =
      s.inner.length + r'.sharesScope.toNat + opened
  stranded : events.foldlM Event.await r.sharesScope = none →
    s.inner.length + r'.sharesScope.toNat + opened < s'.inner.length + r.sharesScope.toNat

namespace Walked

theorem length_le (h : Walked top builtin P opened events r s r' s') :
    s.inner.length + r'.sharesScope.toNat + opened ≤ s'.inner.length + r.sharesScope.toNat := by
  cases hawait : events.foldlM Event.await r.sharesScope with
  | none => exact Nat.le_of_lt (h.stranded hawait)
  | some waiting => exact Nat.le_of_eq (h.settled waiting hawait).2.symm

theorem nil (h : Represents top builtin r s) (honly : s.Only P) :
    Walked top builtin P 0 [] r s r s := by
  refine ⟨h, honly, ⟨[], rfl, rfl, by simp⟩, ?_, ?_⟩
  · intro waiting hawait
    exact ⟨Option.some.inj hawait, rfl⟩
  · intro hawait
    cases hawait

theorem append (h : Walked top builtin P opened events r s r₁ s₁)
    (h' : Walked top builtin P opened' events' r₁ s₁ r' s') :
    Walked top builtin P (opened + opened') (events ++ events') r s r' s' := by
  refine ⟨h'.represents, h'.only, ?_, ?_, ?_⟩
  · obtain ⟨new, huses, hids, hseen⟩ := h.uses
    obtain ⟨new', huses', hids', hseen'⟩ := h'.uses
    refine ⟨new' ++ new, by simp [huses, huses'], by simp [hids, hids'], ?_⟩
    intro use hmem
    rcases List.mem_append.mp hmem with hnew' | hnew
    · exact hseen' use hnew'
    · exact hseen use hnew
  · intro waiting hawait
    rw [List.foldlM_append] at hawait
    obtain ⟨between, hfirst, hrest⟩ := Option.bind_eq_some_iff.mp hawait
    obtain ⟨hflag, hlength⟩ := h.settled between hfirst
    obtain ⟨hflag', hlength'⟩ := h'.settled waiting (hflag ▸ hrest)
    exact ⟨hflag', by omega⟩
  · intro hawait
    have hle := h.length_le
    have hle' := h'.length_le
    rw [List.foldlM_append] at hawait
    cases hfirst : events.foldlM Event.await r.sharesScope with
    | none =>
      have hlt := h.stranded hfirst
      omega
    | some between =>
      rw [hfirst] at hawait
      obtain ⟨hflag, hlength⟩ := h.settled between hfirst
      have hlt := h'.stranded (hflag ▸ hawait)
      omega

/-- Events that no function waits for, and that use the same names, do the same. -/
theorem congr (h : Walked top builtin P opened events r s r' s')
    (hids : Event.useIds events' = Event.useIds events)
    (hawait : ∀ waiting, events'.foldlM Event.await waiting = events.foldlM Event.await waiting) :
    Walked top builtin P opened events' r s r' s' := by
  refine ⟨h.represents, h.only, ?_, ?_, ?_⟩
  · rw [hids]
    exact h.uses
  · rw [hawait]
    exact h.settled
  · rw [hawait]
    exact h.stranded

/-- Leaving a node closes what the node has opened. -/
theorem leave {n : Node} (h : Walked top builtin P n.opens events r s r₁ s₁)
    (hwaits : r.sharesScope.toNat ≤ s.inner.length) (hstep : r₁.step (.leave n) = .ok r') :
    ∃ s', Walked top builtin P 0 (events ++ [.leave n]) r s r' s' := by
  have hids : Event.useIds (events ++ [.leave n]) = Event.useIds events := by
    simp [Event.useIds, Event.identUses]
  have hawait : ∀ waiting, (events ++ [Event.leave n]).foldlM Event.await waiting =
      events.foldlM Event.await waiting := by
    intro waiting
    rw [List.foldlM_append]
    cases events.foldlM Event.await waiting <;> rfl
  rw [Resolver.step_leave] at hstep
  obtain rfl := Except.ok.inj hstep
  split
  next hopens =>
    rw [hopens] at h
    have hle := h.length_le
    have hinner : s₁.inner ≠ [] := by
      intro hnil
      rw [hnil] at hle
      simp only [List.length_nil] at hle
      omega
    have hlength : s₁.leave.inner.length + 1 = s₁.inner.length := by
      have hpos := List.length_pos_iff.mpr hinner
      simp only [Lexical.leave, List.length_tail]
      omega
    have hflag : r₁.leaveScope.sharesScope = r₁.sharesScope := by
      unfold Resolver.leaveScope
      cases r₁.resolution.scopes.parent? r₁.current <;> rfl
    refine ⟨s₁.leave, Walked.congr ⟨h.represents.leaveScope hinner, ?_, h.uses, ?_, ?_⟩ hids hawait⟩
    · exact fun env henv => h.only env (List.mem_of_mem_tail henv)
    · intro waiting hwaiting
      obtain ⟨heq, hlength'⟩ := h.settled waiting hwaiting
      rw [hflag]
      exact ⟨heq, by omega⟩
    · intro hnone
      have hlt := h.stranded hnone
      rw [hflag]
      omega
  next hopens =>
    have hzero : n.opens = 0 := by
      unfold Node.opens at hopens ⊢
      split at hopens <;> simp_all
    rw [hzero] at h
    exact ⟨s₁, h.congr hids hawait⟩

end Walked

/-! Entering a node. -/

theorem Lexical.Only.declare {d : Decl} (h : s.Only P) (hd : P d) (hdeclare : s.declare d = .ok s') :
    s'.Only P := by
  unfold Lexical.declare at hdeclare
  split at hdeclare
  · obtain rfl := Except.ok.inj hdeclare
    exact h
  next env rest hinner =>
    split at hdeclare
    · obtain rfl := Except.ok.inj hdeclare
      intro env' henv' name d' hname
      rcases List.mem_cons.mp henv' with rfl | hrest
      · unfold Env.bind at hname
        split at hname
        · obtain rfl := Option.some.inj hname
          exact hd
        · exact h env (hinner ▸ List.mem_cons_self) name d' hname
      · exact h env' (hinner ▸ List.mem_cons_of_mem _ hrest) name d' hname
    · split at hdeclare
      · obtain rfl := Except.ok.inj hdeclare
        exact h
      · cases hdeclare

theorem Lexical.Only.enter (h : s.Only P) : s.enter.Only P := by
  intro env henv name d hname
  rcases List.mem_cons.mp henv with rfl | hrest
  · cases hname
  · exact h env hrest name d hname

namespace Walked

theorem declare {d : Decl} (h : Represents top builtin r s) (honly : s.Only P) (hd : P d)
    (hdeclare : r.declare d = .ok r') : ∃ s', Walked top builtin P 0 [] r s r' s' := by
  have hagree := h.declare rfl d
  rw [hdeclare] at hagree
  obtain ⟨s', hs', hfollows⟩ := hagree.exists_of_ok
  refine ⟨s', hfollows.represents, honly.declare hd hs', ?_, ?_, ?_⟩
  · obtain ⟨new, huses, hids⟩ := (Lexical.Records.declare hs').uses
    obtain rfl : new = [] := by simpa [Event.useIds, Event.identUses] using hids
    exact ⟨[], huses, rfl, by simp⟩
  · intro waiting hawait
    rw [hfollows.flag_eq, hfollows.length_eq]
    exact ⟨Option.some.inj hawait, rfl⟩
  · intro hawait
    cases hawait

/-- A function opens a scope; a function that still waits keeps its own for good. -/
theorem enterFunction (h : Represents top builtin r s) (honly : s.Only P) (id : DeclId)
    (name : String) (span : Span) (signature : TypeExpr) (body : Option Stmt) :
    Walked top builtin P (Node.decl (.func id name span signature body)).opens
      [.enter (.decl (.func id name span signature body))] r s
      (r.enterFunction id body.isSome) s.enter := by
  have hopens : (Node.decl (.func id name span signature body)).opens + body.isSome.toNat = 1 := by
    cases body <;> rfl
  have hflag : (r.enterFunction id body.isSome).sharesScope = body.isSome := rfl
  have hlength : s.enter.inner.length = s.inner.length + 1 := rfl
  refine ⟨h.enterFunction id body.isSome, honly.enter, ⟨[], rfl, rfl, by simp⟩, ?_, ?_⟩
  · intro waiting hawait
    cases hwait : r.sharesScope with
    | true =>
      rw [hwait] at hawait
      cases hawait
    | false =>
      rw [hwait] at hawait
      rw [hflag, hlength]
      simp only [Bool.toNat_false]
      exact ⟨Option.some.inj hawait, by omega⟩
  · intro hawait
    cases hwait : r.sharesScope with
    | true =>
      rw [hflag, hlength]
      simp only [Bool.toNat_true]
      omega
    | false =>
      rw [hwait] at hawait
      cases hawait

/-- A block takes over the scope of a function that waits, or opens one of its own. -/
theorem enterBlock (h : Represents top builtin r s) (honly : s.Only P) (id : StmtId)
    (lbrace rbrace : Span) (items : List Item) :
    ∃ s', Walked top builtin P 1 [.enter (.stmt (.block id lbrace items rbrace))] r s
      (r.enterBlock id) s' := by
  unfold Resolver.enterBlock
  cases hwait : r.sharesScope with
  | true =>
    refine ⟨s, ⟨h.outermost, h.chain, h.uses⟩, honly, ⟨[], rfl, rfl, by simp⟩, ?_, ?_⟩
    · intro waiting hawait
      rw [hwait]
      exact ⟨Option.some.inj hawait, rfl⟩
    · intro hawait
      cases hawait
  | false =>
    have hopened := h.enterScope .block (by decide)
    refine ⟨s.enter, ⟨hopened.outermost, hopened.chain, hopened.uses⟩, honly.enter,
      ⟨[], rfl, rfl, by simp⟩, ?_, ?_⟩
    · intro waiting hawait
      have hflag : (r.enterScope .block).sharesScope = false := hwait
      simp only [Bool.false_eq_true, if_false, hflag, hwait]
      exact ⟨Option.some.inj hawait, rfl⟩
    · intro hawait
      cases hawait

theorem use {ident : Ident} (h : Represents top builtin r s) (honly : s.Only P)
    (huse : r.use ident = .ok r') :
    ∃ s', Walked top builtin P 0 [.enter (.ident ident)] r s r' s' := by
  have hagree := h.use rfl ident
  rw [huse] at hagree
  obtain ⟨s', hs', hfollows⟩ := hagree.exists_of_ok
  unfold Lexical.use at hs'
  split at hs'
  next d hd =>
    obtain rfl := Except.ok.inj hs'
    refine ⟨_, hfollows.represents, honly, ⟨[(ident.id, d)], rfl, rfl, ?_⟩, ?_, ?_⟩
    · intro use hmem
      obtain rfl := List.mem_singleton.mp hmem
      obtain ⟨env, henv, hname⟩ := List.exists_of_findSome?_eq_some hd
      simp only [List.mem_append, List.mem_cons, List.not_mem_nil, or_false] at henv
      rcases henv with hinner | rfl | rfl
      · exact .inl (honly env hinner _ d hname)
      · exact .inr (.inl ⟨_, hname⟩)
      · exact .inr (.inr ⟨_, hname⟩)
    · intro waiting hawait
      rw [hfollows.flag_eq]
      exact ⟨Option.some.inj hawait, rfl⟩
    · intro hawait
      cases hawait
  next => cases hs'

/-- Entering any node. -/
theorem enter {n : Node} (h : Represents top builtin r s) (honly : s.Only P)
    (hn : ∀ d, n = .decl d → P d) (hstep : r.step (.enter n) = .ok r') :
    ∃ s', Walked top builtin P n.opens [.enter n] r s r' s' := by
  cases n with
  | expr _ | type _ =>
    obtain rfl := Except.ok.inj hstep
    exact ⟨s, (Walked.nil h honly).congr rfl fun _ => rfl⟩
  | ident ident => exact use h honly hstep
  | stmt t =>
    cases t with
    | block id lbrace items rbrace =>
      obtain rfl := Except.ok.inj hstep
      exact enterBlock h honly id lbrace rbrace items
    | empty _ _ | expr _ _ | branch _ _ _ _ _ | ret _ _ _ | loop _ _ _ _ =>
      obtain rfl := Except.ok.inj hstep
      exact ⟨s, (Walked.nil h honly).congr rfl fun _ => rfl⟩
  | decl d =>
    obtain ⟨r₁, hdeclare, hrest⟩ := Except.bind_eq_ok.mp hstep
    obtain ⟨s₁, hwalked⟩ := declare h honly (hn d rfl) hdeclare
    cases d with
    | func id name span signature body =>
      obtain rfl := Except.ok.inj hrest
      have hentered := enterFunction hwalked.represents hwalked.only id name span signature body
      have hboth := hwalked.append hentered
      rw [Nat.zero_add, List.nil_append] at hboth
      exact ⟨_, hboth⟩
    | var _ _ _ _ _ | basic _ _ _ _ | typedef _ _ _ _ =>
      obtain rfl := Except.ok.inj hrest
      exact ⟨s₁, hwalked.congr rfl fun _ => rfl⟩

end Walked

/-- A piece of the traversal that is nested in itself opens no scope but those of functions
that meet no block. -/
theorem Event.Nested.walked (hnested : Event.Nested events)
    (hP : ∀ d, .enter (.decl d) ∈ events → P d) (h : Represents top builtin r s)
    (honly : s.Only P) (hwaits : r.sharesScope.toNat ≤ s.inner.length)
    (hrun : events.foldlM Resolver.step r = .ok r') :
    ∃ s', Walked top builtin P 0 events r s r' s' := by
  induction hnested generalizing r s r' with
  | nil =>
    obtain rfl := Except.ok.inj hrun
    exact ⟨s, .nil h honly⟩
  | append _ _ ihx ihy =>
    rw [List.foldlM_append] at hrun
    obtain ⟨r₁, hx, hy⟩ := Except.bind_eq_ok.mp hrun
    obtain ⟨s₁, hwalked⟩ :=
      ihx (fun d hd => hP d (List.mem_append_left _ hd)) h honly hwaits hx
    have hle := hwalked.length_le
    obtain ⟨s₂, hwalked'⟩ := ihy (fun d hd => hP d (List.mem_append_right _ hd))
      hwalked.represents hwalked.only (by omega) hy
    exact ⟨s₂, hwalked.append hwalked'⟩
  | around n _ ih =>
    rw [foldlM_around] at hrun
    obtain ⟨r₁, henter, hrun⟩ := Except.bind_eq_ok.mp hrun
    obtain ⟨r₂, hchildren, hleave⟩ := Except.bind_eq_ok.mp hrun
    obtain ⟨s₁, hentered⟩ := Walked.enter h honly
      (fun d hd => hP d (Node.enter_mem_around.mpr (.inl hd.symm))) henter
    have hle := hentered.length_le
    obtain ⟨s₂, hwalked⟩ := ih (fun d hd => hP d (Node.enter_mem_around.mpr (.inr hd)))
      hentered.represents hentered.only (by omega) hchildren
    exact (hentered.append hwalked).leave hwaits hleave

/-! The file. -/

/-- After each of some declarations the cursor is back at file level. -/
def Resolver.Returns : List Decl → Resolver → Prop
  | [], _ => True
  | d :: rest, r => ∀ r', d.events.foldlM Resolver.step r = .ok r' →
    r'.current = r'.resolution.file ∧ r'.Returns rest

/-- A resolver between two top-level declarations. -/
structure AtFile (top builtin : Env) (r : Resolver) (s : Lexical) : Prop where
  represents : Represents top builtin r s
  inner : s.inner = []
  flag : r.sharesScope = false

theorem Represents.current_eq_file_iff (h : Represents top builtin r s) :
    r.current = r.resolution.file ↔ s.inner = [] := by
  have hchain := h.chain
  cases hinner : s.inner with
  | nil =>
    rw [hinner] at hchain
    exact iff_of_true hchain rfl
  | cons env rest =>
    rw [hinner] at hchain
    exact iff_of_false hchain.1 (by simp)

/-- One top-level declaration. -/
theorem AtFile.walked {d : Decl} (h : AtFile top builtin r s)
    (hrun : d.events.foldlM Resolver.step r = .ok r') :
    ∃ s', Walked top builtin (fun d' => .enter (.decl d') ∈ d.events) 0 d.events r s r' s' ∧
      (r'.current = r'.resolution.file ↔ d.Settled) ∧
      (d.Settled → AtFile top builtin r' s') := by
  have honly : s.Only fun d' => .enter (.decl d') ∈ d.events := by
    intro env henv
    rw [h.inner] at henv
    cases henv
  obtain ⟨s', hwalked⟩ := d.events_nested.walked (fun _ hd => hd) h.represents honly
    (by simp [h.flag]) hrun
  have hsettled := hwalked.settled
  have hstranded := hwalked.stranded
  rw [h.flag, h.inner] at hsettled hstranded
  simp only [List.length_nil, Bool.toNat_false, Nat.zero_add, Nat.add_zero] at hsettled hstranded
  have hback : d.Settled → s'.inner = [] ∧ r'.sharesScope = false := by
    intro hd
    obtain ⟨hflag, hlength⟩ := hsettled false hd
    rw [hflag] at hlength
    exact ⟨List.length_eq_zero_iff.mp hlength, hflag⟩
  refine ⟨s', hwalked, ?_, fun hd => ⟨hwalked.represents, (hback hd).1, (hback hd).2⟩⟩
  rw [hwalked.represents.current_eq_file_iff]
  refine ⟨?_, fun hd => (hback hd).1⟩
  intro hinner
  rw [hinner] at hsettled hstranded
  cases hawait : d.events.foldlM Event.await false with
  | none =>
    have hlt := hstranded hawait
    simp at hlt
  | some waiting =>
    obtain ⟨hflag, hlength⟩ := hsettled waiting hawait
    rw [hflag] at hlength
    cases waiting with
    | false => exact hawait
    | true => cases hlength

theorem AtFile.returns_iff {ds : List Decl} (h : AtFile top builtin r s)
    (hrun : (Decl.eventsAll ds).foldlM Resolver.step r = .ok r') :
    r.Returns ds ↔ ∀ d ∈ ds, d.Settled := by
  induction ds generalizing r s with
  | nil => exact iff_of_true trivial (by simp)
  | cons d rest ih =>
    rw [Decl.eventsAll, List.foldlM_append] at hrun
    obtain ⟨r₁, hfirst, hrest⟩ := Except.bind_eq_ok.mp hrun
    obtain ⟨s₁, _, hcursor, hnext⟩ := h.walked hfirst
    rw [List.forall_mem_cons]
    constructor
    · intro hreturns
      obtain ⟨hback, hmore⟩ := hreturns r₁ hfirst
      have hd := hcursor.mp hback
      exact ⟨hd, (ih (hnext hd) hrest).mp hmore⟩
    · rintro ⟨hd, hmore⟩ r₂ hr₂
      obtain rfl : r₁ = r₂ := Except.ok.inj (hfirst.symm.trans hr₂)
      exact ⟨hcursor.mpr hd, (ih (hnext hd) hrest).mpr hmore⟩

/-- Where bodies are blocks, and parameters variables, all scopes are closed in time. -/
theorem AtFile.returns_of_plain {ds : List Decl} (h : AtFile top builtin r s)
    (hplain : Event.Plain (Decl.eventsAll ds)) : r.Returns ds := by
  induction ds generalizing r s with
  | nil => trivial
  | cons d rest ih =>
    intro r₁ hrun
    have htracks := d.tracks hplain.left r s h.represents h.flag
    rw [hrun] at htracks
    obtain ⟨s₁, _, hfollows⟩ := htracks.exists_of_ok
    have hinner : s₁.inner = [] := by
      rw [← List.length_eq_zero_iff, hfollows.length_eq, h.inner, List.length_nil]
    exact ⟨hfollows.represents.current_eq_file_iff.mpr hinner,
      ih ⟨hfollows.represents, hinner, hfollows.flag_eq⟩ hplain.right⟩

/-- Declarations that a use inside of a top-level declaration can stand for. -/
def Program.Admits (p : Program) (d d' : Decl) : Prop :=
  d' ∈ Decl.builtins ∨ d' ∈ p.file ∨ .enter (.decl d') ∈ d.events

/-- Whether an event enters a declaration. -/
def Event.enters (d : Decl) : Event → Bool
  | .enter (.decl d') => d' = d
  | _ => false

theorem Event.any_enters {d : Decl} : events.any (Event.enters d) ↔ .enter (.decl d) ∈ events := by
  rw [List.any_eq_true]
  constructor
  · rintro ⟨event, hevent, henters⟩
    unfold Event.enters at henters
    split at henters
    · exact of_decide_eq_true henters ▸ hevent
    · cases henters
  · intro hmem
    exact ⟨_, hmem, decide_eq_true rfl⟩

instance (d : Decl) (events : List Event) : Decidable (.enter (.decl d) ∈ events) :=
  decidable_of_iff _ Event.any_enters

instance (p : Program) (d d' : Decl) : Decidable (p.Admits d d') :=
  inferInstanceAs (Decidable (_ ∨ _))

/-- The uses of names after one top-level declaration: its own ones are new, the others are as
they were. -/
theorem AtFile.uses {p : Program} {d : Decl} {r r' : Resolver}
    (h : AtFile (Decl.bindingOf p.file) (Decl.bindingOf Decl.builtins) r s)
    (hrun : d.events.foldlM Resolver.step r = .ok r') (id : IdentId) :
    if id ∈ Event.useIds d.events then
      ∃ d', r'.resolution.idents[id]? = some d' ∧ p.Admits d d'
    else r'.resolution.idents[id]? = r.resolution.idents[id]? := by
  obtain ⟨s', hwalked, _⟩ := h.walked hrun
  obtain ⟨new, huses, hids, hseen⟩ := hwalked.uses
  have hmem : id ∈ Event.useIds d.events ↔ id ∈ new.map Prod.fst := by
    rw [hids, List.mem_reverse]
  rw [hwalked.represents.uses, h.represents.uses, huses, List.lookup_append]
  cases hfound : new.lookup id with
  | none =>
    have hnot : id ∉ Event.useIds d.events := by
      rw [hmem, List.mem_map]
      rintro ⟨use, huse, rfl⟩
      exact List.lookup_eq_none_iff.mp hfound use huse |> bne_iff_ne.mp |> (· rfl)
    rw [if_neg hnot, Option.none_or]
  | some d' =>
    have huse : (id, d') ∈ new := by
      obtain ⟨before, after, rfl, _⟩ := List.lookup_eq_some_iff.mp hfound
      simp
    rw [if_pos (hmem.mpr (List.mem_map_of_mem huse)), Option.some_or]
    refine ⟨d', rfl, ?_⟩
    rcases hseen _ huse with hinside | ⟨_, htop⟩ | ⟨_, hbuiltin⟩
    · exact .inr (.inr hinside)
    · exact .inr (.inl (Decl.mem_of_bindingOf htop).1)
    · exact .inl (Decl.mem_of_bindingOf hbuiltin).1

theorem AtFile.usesAll {p : Program} {ds : List Decl} {r r' : Resolver}
    (h : AtFile (Decl.bindingOf p.file) (Decl.bindingOf Decl.builtins) r s)
    (hsettled : ∀ d ∈ ds, d.Settled) (hids : (Event.useIds (Decl.eventsAll ds)).Nodup)
    (hrun : (Decl.eventsAll ds).foldlM Resolver.step r = .ok r') :
    (∀ d ∈ ds, ∀ id ∈ Event.useIds d.events,
      ∃ d', r'.resolution.idents[id]? = some d' ∧ p.Admits d d') ∧
    ∀ id, id ∉ Event.useIds (Decl.eventsAll ds) →
      r'.resolution.idents[id]? = r.resolution.idents[id]? := by
  induction ds generalizing r s with
  | nil =>
    obtain rfl := Except.ok.inj hrun
    exact ⟨by simp, fun _ _ => rfl⟩
  | cons d rest ih =>
    rw [Decl.eventsAll, List.foldlM_append] at hrun
    rw [Decl.eventsAll, Event.useIds_append] at hids ⊢
    obtain ⟨_, hrestIds, hdisjoint⟩ := List.nodup_append.mp hids
    obtain ⟨r₁, hfirst, hrest⟩ := Except.bind_eq_ok.mp hrun
    obtain ⟨s₁, _, _, hnext⟩ := h.walked hfirst
    obtain ⟨hinside, hothers⟩ := ih (hnext (hsettled d List.mem_cons_self))
      (fun d' hd' => hsettled d' (List.mem_cons_of_mem _ hd')) hrestIds hrest
    have huses := h.uses hfirst
    constructor
    · intro d' hd' id hid
      rcases List.mem_cons.mp hd' with rfl | hmem
      · have hown := huses id
        rw [if_pos hid] at hown
        rw [hothers id fun hlater => hdisjoint id hid id hlater rfl]
        exact hown
      · exact hinside d' hmem id hid
    · intro id hid
      rw [List.mem_append, not_or] at hid
      have hold := huses id
      rw [if_neg hid.1] at hold
      exact (hothers id hid.2).trans hold

end

namespace Program

/-- Names do not leak out of the top-level declarations of a program: each use stays inside of
its own one or at file level, and the cursor comes back. -/
structure Confined (p : Program) (r : Resolution) : Prop where
  uses : ∀ d ∈ p.file, ∀ ident, .enter (.ident ident) ∈ d.events →
    ∃ d', r.declOf? ident = some d' ∧ p.Admits d d'
  cursor : ∀ start, p.openFile = .ok start → start.Returns p.file

/-- Names are confined exactly in the programs in which every function with a body meets a block
in time, so in all programs whose bodies are blocks. -/
theorem confined_iff_settled (p : Program) (htree : p.TreeShaped) (hparams : p.VariableParams)
    (r : Resolution) (hr : p.resolve = .ok r) :
    (p.Confined r ↔ p.Settled) ∧ (p.BlockBodies → p.Settled) := by
  obtain ⟨start, hstart, hrest⟩ := Except.bind_eq_ok.mp hr
  obtain ⟨final, hwalk, hfinal⟩ := Except.bind_eq_ok.mp hrest
  cases hfinal
  have hopen := openFile_agree htree.file_ids_nodup
  rw [hstart] at hopen
  obtain ⟨_, _, hflag, hrepresents⟩ := hopen.exists_of_ok
  have hfile : AtFile (Decl.bindingOf p.file) (Decl.bindingOf Decl.builtins) start {} :=
    ⟨hrepresents, rfl, hflag⟩
  have hreturns : start.Returns p.file ↔ p.Settled := hfile.returns_iff hwalk
  refine ⟨⟨fun h => hreturns.mp (h.cursor start hstart), fun hsettled => ?_⟩, fun hbodies => ?_⟩
  · constructor
    · intro d hd ident hident
      exact (hfile.usesAll hsettled htree.useIds_nodup hwalk).1 d hd ident.id
        (Event.mem_useIds hident)
    · intro start' hstart'
      obtain rfl := Except.ok.inj (hstart.symm.trans hstart')
      exact hreturns.mpr hsettled
  · have hplain : Event.Plain p.events := fun n hn => ⟨hbodies n hn, hparams n hn⟩
    exact hreturns.mp (hfile.returns_of_plain hplain)

/-- A function whose body is a loop over a block: `int f(int n) while (n) { return n; }`. -/
def loopBody : Program := Build.finish do
  let intType ← Build.namedType "int"
  let n ← Build.param intType "n"
  let cond ← Build.name "n"
  let n' ← Build.name "n"
  let result ← Build.ret (some n')
  let block ← Build.block [.stmt result]
  let body ← Build.loop cond block
  let intType ← Build.namedType "int"
  Build.push (← Build.func "f" intType [n] (some body))

/-- A body need not be a block for names to stay inside. -/
theorem confined_iff_settled_loopBody : ¬ loopBody.BlockBodies ∧
    ∃ r, loopBody.resolve = .ok r ∧ loopBody.Confined r := by
  obtain ⟨r, hr, _⟩ : ∃ r, loopBody.resolve = .ok r ∧ true :=
    Except.exists_of_any (by decide +kernel)
  have hsettled := confined_iff_settled loopBody (by decide +kernel) (by decide +kernel) r hr
  exact ⟨by decide +kernel, r, hr, hsettled.1.mpr (by decide +kernel)⟩

/-- A function whose body holds no block, and another one after it that uses the parameter of
the first: `int f(int count) return count; int g(void) { return count; }`. -/
def leakingParam : Program := Build.finish do
  let intType ← Build.namedType "int"
  let count ← Build.param intType "count"
  let use ← Build.name "count"
  let body ← Build.ret (some use)
  let intType ← Build.namedType "int"
  Build.push (← Build.func "f" intType [count] (some body))
  let use ← Build.name "count"
  let result ← Build.ret (some use)
  let body ← Build.block [.stmt result]
  let intType ← Build.namedType "int"
  Build.push (← Build.func "g" intType [] (some body))

/-- A use that leaks, found by going through the program. -/
theorem exists_leak {p : Program} (h : p.resolve.toOption.any fun r => p.file.any fun d =>
    (Event.identUses d.events).any fun ident => (r.declOf? ident).any fun d' =>
      ¬ p.Admits d d') :
    ∃ r, p.resolve = .ok r ∧ ∃ d ∈ p.file, ∃ ident, .enter (.ident ident) ∈ d.events ∧
      ∃ d', r.declOf? ident = some d' ∧ ¬ p.Admits d d' := by
  obtain ⟨r, hr, h⟩ := Except.exists_of_any h
  obtain ⟨d, hd, huses⟩ := List.any_eq_true.mp h
  obtain ⟨ident, hident, hdecl⟩ := List.any_eq_true.mp huses
  obtain ⟨d', hd', hnot⟩ := Option.any_eq_true _ _ |>.mp hdecl
  exact ⟨r, hr, d, hd, ident, Event.mem_identUses.mp hident, d', hd', of_decide_eq_true hnot⟩

/-- A cursor that is not back at file level after the first declaration. -/
theorem exists_not_returns {p : Program} (h : p.openFile.toOption.any fun start =>
    p.file.head?.any fun d => (d.events.foldlM Resolver.step start).toOption.any fun r =>
      r.current ≠ r.resolution.file) :
    ∃ start, p.openFile = .ok start ∧ ¬ start.Returns p.file := by
  obtain ⟨start, hstart, h⟩ := Except.exists_of_any h
  obtain ⟨d, hd, h⟩ := Option.any_eq_true _ _ |>.mp h
  obtain ⟨r, hrun, hne⟩ := Except.exists_of_any h
  obtain ⟨rest, hfile⟩ := List.head?_eq_some_iff.mp hd
  refine ⟨start, hstart, ?_⟩
  rw [hfile]
  intro hreturns
  exact of_decide_eq_true hne (hreturns r hrun).1

/-- The parameter of one function is visible in the next one, and the cursor is not back at file
level in between. -/
theorem leakingParam_not_confined : leakingParam.TreeShaped ∧ leakingParam.VariableParams ∧
    (∃ r, leakingParam.resolve = .ok r ∧
      ∃ d ∈ leakingParam.file, ∃ ident, .enter (.ident ident) ∈ d.events ∧
        ∃ d', r.declOf? ident = some d' ∧ ¬ leakingParam.Admits d d') ∧
    ∃ start, leakingParam.openFile = .ok start ∧ ¬ start.Returns leakingParam.file :=
  ⟨by decide +kernel, by decide +kernel, exists_leak (by decide +kernel),
    exists_not_returns (by decide +kernel)⟩

end Program

end MicroC
