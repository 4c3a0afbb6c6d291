import MicroC.Proofs.Scope.Lexical
import MicroC.Proofs.Scope.Tree
import MicroC.Proofs.Syntax.Shape

/-!
Resolution is lexical scoping. A resolver represents a chain of environments if the scopes
from its cursor outwards hold them one by one. Every piece of the traversal keeps this in
step with the recursion on the program: a function opens the scope that the block which is
its body closes, and the cursor is back where it was after each declaration and statement.
-/

namespace MicroC

/-- Two runs agree if both succeed with related results, or both fail for the same reason. -/
inductive Agree {α β : Type} (R : α → β → Prop) :
    Except ResolveError α → Except ResolveError β → Prop
  | ok {a : α} {b : β} : R a b → Agree R (.ok a) (.ok b)
  | error {e e' : ResolveError} :
    e.withoutSuggestions = e'.withoutSuggestions → Agree R (.error e) (.error e')

namespace Agree

variable {α β γ δ : Type} {R : α → β → Prop} {S : γ → δ → Prop}

theorem bind {x : Except ResolveError α} {y : Except ResolveError β}
    {f : α → Except ResolveError γ} {g : β → Except ResolveError δ}
    (h : Agree R x y) (hnext : ∀ a b, R a b → Agree S (f a) (g b)) :
    Agree S (x >>= f) (y >>= g) := by
  cases h with
  | ok hab => exact hnext _ _ hab
  | error he => exact .error he

theorem mono {R' : α → β → Prop} {x : Except ResolveError α} {y : Except ResolveError β}
    (h : Agree R x y) (hmono : ∀ a b, R a b → R' a b) : Agree R' x y := by
  cases h with
  | ok hab => exact .ok (hmono _ _ hab)
  | error he => exact .error he

theorem exists_of_ok {a : α} {y : Except ResolveError β} (h : Agree R (.ok a) y) :
    ∃ b, y = .ok b ∧ R a b := by
  cases h with
  | ok hab => exact ⟨_, rfl, hab⟩

theorem exists_of_ok_right {x : Except ResolveError α} {b : β} (h : Agree R x (.ok b)) :
    ∃ a, x = .ok a ∧ R a b := by
  cases h with
  | ok hab => exact ⟨_, rfl, hab⟩

end Agree

private theorem bind_ok {α : Type} (x : Except ResolveError α) : (x >>= fun a => .ok a) = x := by
  cases x <;> rfl

namespace ScopeTree

/-- The scopes from `s` outwards, up to that of the file, hold the given environments. -/
def Shows (t : ScopeTree) (file : Nat) : Nat → List Env → Prop
  | s, [] => s = file
  | s, env :: rest =>
    s ≠ file ∧ ∃ (scope : Scope) (outer : Nat), t.get? s = some scope ∧ scope.kind ≠ .file ∧
      (∀ name, scope.get? name = env name) ∧ scope.parent = some outer ∧ outer < s ∧
      t.Shows file outer rest

/-- The scopes of the file and of the built-in names hold the given environments. -/
def ShowsOuter (t : ScopeTree) (file : Nat) (top builtin : Env) : Prop :=
  ∃ (scope : Scope) (root : Nat) (outer : Scope), t.get? file = some scope ∧ scope.kind = .file ∧
    (∀ name, scope.get? name = top name) ∧ scope.parent = some root ∧ root < file ∧
    t.get? root = some outer ∧ (∀ name, outer.get? name = builtin name) ∧ outer.parent = none

variable {t t' : ScopeTree} {file s : Nat} {top builtin : Env}

/-- Only the scopes up to `s` matter for what they show. -/
theorem Shows.congr {envs : List Env} (h : t.Shows file s envs)
    (heq : ∀ i : Nat, i ≤ s → t'.get? i = t.get? i) : t'.Shows file s envs := by
  induction envs generalizing s with
  | nil => exact h
  | cons env rest ih =>
    obtain ⟨hne, scope, outer, hget, hkind, henv, hparent, hlt, hrest⟩ := h
    refine ⟨hne, scope, outer, ?_, hkind, henv, hparent, hlt, ?_⟩
    · rw [heq s (Nat.le_refl s), hget]
    · exact ih hrest fun i hi => heq i (by omega)

theorem ShowsOuter.congr (h : t.ShowsOuter file top builtin)
    (heq : ∀ i : Nat, i ≤ file → t'.get? i = t.get? i) : t'.ShowsOuter file top builtin := by
  obtain ⟨scope, root, outer, hfile, hkind, htop, hparent, hlt, hroot, hbuiltin, hnone⟩ := h
  refine ⟨scope, root, outer, ?_, hkind, htop, hparent, hlt, ?_, hbuiltin, hnone⟩
  · rw [heq file (Nat.le_refl file), hfile]
  · rw [heq root (by omega), hroot]

theorem ShowsOuter.lt_size (h : t.ShowsOuter file top builtin) : file < t.size := by
  obtain ⟨scope, _, _, hfile, _⟩ := h
  exact lt_size_of_get? hfile

theorem Shows.lt_size {envs : List Env} (h : t.Shows file s envs) (hfile : file < t.size) :
    s < t.size := by
  cases envs with
  | nil => exact h ▸ hfile
  | cons env rest =>
    obtain ⟨_, scope, _, hget, _⟩ := h
    exact lt_size_of_get? hget

theorem Shows.file_le {envs : List Env} (h : t.Shows file s envs) : file ≤ s := by
  induction envs generalizing s with
  | nil => exact Nat.le_of_eq (show s = file from h).symm
  | cons env rest ih =>
    obtain ⟨_, _, outer, _, _, _, _, hlt, hrest⟩ := h
    have hle := ih hrest
    omega

/-- What is found on the way outwards is what the first environment that has the name says. -/
theorem Shows.lookup_chain {envs : List Env} (h : t.Shows file s envs)
    (houter : t.ShowsOuter file top builtin) (name : String) {n : Nat} (hn : s < n) :
    ((t.chain n s).findSome? fun i => (t.get? i).bind (·.get? name)) =
      (envs ++ [top, builtin]).findSome? (· name) := by
  induction envs generalizing s n with
  | nil =>
    obtain rfl : s = file := h
    obtain ⟨scope, root, outer, hfile, _, htop, hparent, hlt, hroot, hbuiltin, hnone⟩ := houter
    obtain ⟨m, rfl⟩ : ∃ m, n = m + 2 := ⟨n - 2, by omega⟩
    have hs : t.parent? s = some root := by simp [parent?, hfile, hparent]
    have hr : t.parent? root = none := by simp [parent?, hroot, hnone]
    simp only [chain, hs, hr, List.findSome?_cons, hfile, hroot, Option.bind_some, htop, hbuiltin,
      List.nil_append, List.findSome?_nil]
  | cons env rest ih =>
    obtain ⟨_, scope, outer, hget, _, henv, hparent, hlt, hrest⟩ := h
    obtain ⟨m, rfl⟩ : ∃ m, n = m + 1 := ⟨n - 1, by omega⟩
    have hs : t.parent? s = some outer := by simp [parent?, hget, hparent]
    have htail := ih hrest (n := m) (by omega)
    simp only [chain, hs, List.findSome?_cons, hget, Option.bind_some, henv, List.cons_append]
    rw [htail]

theorem Shows.lookup_eq {envs : List Env} (h : t.Shows file s envs)
    (houter : t.ShowsOuter file top builtin) (name : String) :
    t.lookup s name = (envs ++ [top, builtin]).findSome? (· name) :=
  h.lookup_chain houter name (h.lt_size houter.lt_size)

end ScopeTree

/-- The scopes of a resolver hold the open environments, and its table the uses so far. -/
structure Represents (top builtin : Env) (r : Resolver) (s : Lexical) : Prop where
  outermost : r.resolution.scopes.ShowsOuter r.resolution.file top builtin
  chain : r.resolution.scopes.Shows r.resolution.file r.current s.inner
  uses : ∀ id : IdentId, r.resolution.idents[id]? = s.uses.lookup id

/-- A resolver represents a chain that is as long as that of `s`. The flag is what the
resolver remembers about a function whose body is still to come. -/
structure Follows (top builtin : Env) (flag : Bool) (s : Lexical) (r' : Resolver) (s' : Lexical) :
    Prop where
  represents : Represents top builtin r' s'
  flag_eq : r'.sharesScope = flag
  length_eq : s'.inner.length = s.inner.length

/-- A piece of the traversal does what a step of the recursion does. -/
def Tracks (top builtin : Env) (flag : Bool) (events : List Event)
    (f : Lexical → Except ResolveError Lexical) : Prop :=
  ∀ r s, Represents top builtin r s → r.sharesScope = flag →
    Agree (Follows top builtin flag s) (events.foldlM Resolver.step r) (f s)

section

variable {top builtin : Env} {flag : Bool} {r : Resolver} {s : Lexical}

namespace Represents

theorem enterScope (h : Represents top builtin r s) (kind : ScopeKind) (hkind : kind ≠ .file) :
    Represents top builtin (r.enterScope kind) s.enter := by
  have hfile := h.outermost.lt_size
  have hcurrent := h.chain.lt_size hfile
  have hold : ∀ i : Nat, i < r.resolution.scopes.size →
      (r.enterScope kind).resolution.scopes.get? i = r.resolution.scopes.get? i := by
    intro i hi
    have hne : i ≠ r.resolution.scopes.size := by omega
    exact (ScopeTree.get?_create _ _ i).trans (if_neg hne)
  refine ⟨?_, ?_, h.uses⟩
  · exact h.outermost.congr fun i hi => hold i (by omega)
  · refine ⟨?_, { parent := some r.current, kind }, r.current, ?_, hkind, ?_, rfl, hcurrent, ?_⟩
    · exact Nat.ne_of_gt hfile
    · exact (ScopeTree.get?_create _ _ _).trans (if_pos rfl)
    · intro name
      rfl
    · exact h.chain.congr fun i hi => hold i (by omega)

theorem leaveScope (h : Represents top builtin r s) (hinner : s.inner ≠ []) :
    Represents top builtin r.leaveScope s.leave := by
  obtain ⟨inner, uses⟩ := s
  cases inner with
  | nil => exact absurd rfl hinner
  | cons env rest =>
    obtain ⟨_, scope, outer, hget, _, _, hparent, _, hrest⟩ := h.chain
    have hp : r.resolution.scopes.parent? r.current = some outer := by
      simp [ScopeTree.parent?, hget, hparent]
    have hleave : r.leaveScope = { r with current := outer } := by
      simp only [Resolver.leaveScope, hp]
    rw [hleave]
    exact ⟨h.outermost, hrest, h.uses⟩

/-- Binding a name in the innermost scope binds it in the innermost environment. -/
theorem bind (h : Represents top builtin r s) {env env' : Env} {rest : List Env} {scope : Scope}
    (scope' : Scope) (hinner : s.inner = env :: rest)
    (hget : r.resolution.scopes.get? r.current = some scope)
    (hparent : scope'.parent = scope.parent) (hkind : scope'.kind = scope.kind)
    (henv : ∀ name, scope'.get? name = env' name) :
    Represents top builtin
      { r with resolution.scopes := r.resolution.scopes.update r.current scope' }
      { s with inner := env' :: rest } := by
  have hchain := h.chain
  rw [hinner] at hchain
  obtain ⟨hne, old, outer, hold, hkindOld, _, hparentOld, hlt, hrest⟩ := hchain
  obtain rfl : old = scope := Option.some.inj (hold.symm.trans hget)
  have hother : ∀ i : Nat, i < r.current →
      (r.resolution.scopes.update r.current scope').get? i = r.resolution.scopes.get? i :=
    fun i hi => ScopeTree.get?_update_of_ne (Nat.ne_of_lt hi)
  have hfile := hrest.file_le
  refine ⟨?_, ?_, h.uses⟩
  · exact h.outermost.congr fun i hi => hother i (by omega)
  · refine ⟨hne, scope', outer, ScopeTree.get?_update_self hget, ?_, henv, ?_, hlt, ?_⟩
    · rw [hkind]
      exact hkindOld
    · rw [hparent]
      exact hparentOld
    · exact hrest.congr fun i hi => hother i (by omega)

/-- A declaration inside a function, and the absence of an effect outside of one. -/
theorem declare (h : Represents top builtin r s) (hflag : r.sharesScope = flag) (d : Decl) :
    Agree (Follows top builtin flag s) (r.declare d) (s.declare d) := by
  unfold Resolver.declare Lexical.declare
  cases hinner : s.inner with
  | nil =>
    have hchain := h.chain
    rw [hinner] at hchain
    have hcurrent : r.current = r.resolution.file := hchain
    rw [if_pos hcurrent]
    exact .ok ⟨h, hflag, by simp [hinner]⟩
  | cons env rest =>
    have hchain := h.chain
    rw [hinner] at hchain
    obtain ⟨hne, scope, outer, hget, hkind, henv, _⟩ := hchain
    rw [if_neg hne, ScopeTree.insert_eq hget, Scope.put_of_kind_ne_file hkind, henv d.name]
    simp only
    cases hname : env d.name with
    | none =>
      have hfree : scope.get? d.name = none := (henv d.name).trans hname
      have hbind : ∀ name, (scope.bind d).get? name = env.bind d name := by
        intro name
        rw [Scope.get?_bind hfree, Env.bind, henv]
      exact .ok ⟨h.bind (scope.bind d) hinner hget rfl rfl hbind, hflag, by simp [hinner]⟩
    | some old =>
      by_cases hid : old.id = d.id
      · simp only [hid, if_true]
        have hsame := h.bind scope hinner hget rfl rfl henv
        rw [← hinner] at hsame
        exact .ok ⟨hsame, hflag, by simp [hinner]⟩
      · simp only [hid, if_false]
        exact .error rfl

theorem use (h : Represents top builtin r s) (hflag : r.sharesScope = flag) (ident : Ident) :
    Agree (Follows top builtin flag s) (r.use ident) (s.use [top, builtin] ident) := by
  unfold Resolver.use Lexical.use
  rw [h.chain.lookup_eq h.outermost ident.name]
  cases (s.inner ++ [top, builtin]).findSome? (· ident.name) with
  | none => exact .error rfl
  | some d =>
    refine .ok ⟨⟨h.outermost, h.chain, ?_⟩, hflag, rfl⟩
    intro id
    simp only [Std.TreeMap.getElem?_insert, h.uses, List.lookup_cons, Nat.compare_eq_eq]
    by_cases hid : ident.id = id
    · simp [hid]
    · have hne : (id == ident.id) = false := by simpa using Ne.symm hid
      simp [hid, hne]

end Represents

theorem foldlM_around (n : Node) (events : List Event) (r : Resolver) :
    (n.around events).foldlM Resolver.step r =
      r.step (.enter n) >>= fun r => events.foldlM Resolver.step r >>= (·.step (.leave n)) := by
  simp only [Node.around, List.cons_append, List.foldlM_cons, List.foldlM_append, List.foldlM_nil,
    bind_pure]

namespace Tracks

variable {events events' : List Event} {f g : Lexical → Except ResolveError Lexical}

theorem nil : Tracks top builtin flag [] .ok := by
  intro r s h hflag
  exact .ok ⟨h, hflag, rfl⟩

theorem append (hf : Tracks top builtin flag events f) (hg : Tracks top builtin flag events' g) :
    Tracks top builtin flag (events ++ events') (fun s => f s >>= g) := by
  intro r s h hflag
  rw [List.foldlM_append]
  refine (hf r s h hflag).bind ?_
  intro r₁ s₁ h₁
  refine (hg r₁ s₁ h₁.represents h₁.flag_eq).mono ?_
  intro r₂ s₂ h₂
  exact ⟨h₂.represents, h₂.flag_eq, h₂.length_eq.trans h₁.length_eq⟩

/-- A node whose effect is all in its entering. -/
theorem enterWith {n : Node} (act : Lexical → Except ResolveError Lexical)
    (henter : ∀ r s, Represents top builtin r s → r.sharesScope = flag →
      Agree (Follows top builtin flag s) (r.step (.enter n)) (act s))
    (hf : Tracks top builtin flag events f)
    (hleave : ∀ r : Resolver, r.step (.leave n) = .ok r) :
    Tracks top builtin flag (n.around events) (fun s => act s >>= f) := by
  intro r s h hflag
  rw [foldlM_around]
  refine (henter r s h hflag).bind ?_
  intro r₁ s₁ h₁
  simp only [hleave, bind_ok]
  refine (hf r₁ s₁ h₁.represents h₁.flag_eq).mono ?_
  intro r₂ s₂ h₂
  exact ⟨h₂.represents, h₂.flag_eq, h₂.length_eq.trans h₁.length_eq⟩

/-- A node without any effect of its own. -/
theorem around {n : Node} (hf : Tracks top builtin flag events f)
    (henter : ∀ r : Resolver, r.step (.enter n) = .ok r)
    (hleave : ∀ r : Resolver, r.step (.leave n) = .ok r) :
    Tracks top builtin flag (n.around events) f :=
  enterWith .ok (fun r _ h hflag => henter r ▸ .ok ⟨h, hflag, rfl⟩) hf hleave

/-- A node without children. -/
theorem leaf {n : Node} {act : Lexical → Except ResolveError Lexical}
    (henter : ∀ r s, Represents top builtin r s → r.sharesScope = flag →
      Agree (Follows top builtin flag s) (r.step (.enter n)) (act s))
    (hleave : ∀ r : Resolver, r.step (.leave n) = .ok r) :
    Tracks top builtin flag (n.around []) act := by
  have h := enterWith act henter nil hleave
  simpa only [bind_ok] using h

theorem ident (i : Ident) : Tracks top builtin flag i.events (·.use [top, builtin] i) :=
  .leaf (fun _ _ h hflag => h.use hflag i) (fun _ => rfl)

end Tracks

mutual

theorem Expr.tracks : (e : Expr) → Tracks top builtin flag e.events (e.resolveIn [top, builtin])
  | .literal .. => .around .nil (fun _ => rfl) (fun _ => rfl)
  | .binary _ _ _ lhs rhs => .around (lhs.tracks.append rhs.tracks) (fun _ => rfl) (fun _ => rfl)
  | .call _ callee _ args _ =>
    .around ((Tracks.ident callee).append (Expr.tracksAll args)) (fun _ => rfl) (fun _ => rfl)
  | .name _ ident => .around (.ident ident) (fun _ => rfl) (fun _ => rfl)
  | .index _ array _ position _ =>
    .around ((Tracks.ident array).append position.tracks) (fun _ => rfl) (fun _ => rfl)
  | .paren _ _ inner _ => .around inner.tracks (fun _ => rfl) (fun _ => rfl)
  | .unary _ _ _ operand => .around operand.tracks (fun _ => rfl) (fun _ => rfl)

theorem Expr.tracksAll :
    (es : List Expr) → Tracks top builtin flag (Expr.eventsAll es) (Expr.resolveAllIn [top, builtin] es)
  | [] => .nil
  | e :: rest => e.tracks.append (Expr.tracksAll rest)

end

/-- The nodes of a traversal have the shapes on which functions and their bodies agree. -/
def Event.Plain (events : List Event) : Prop :=
  ∀ n, .enter n ∈ events → n.bodyIsBlock ∧ n.paramsAreVars

theorem Event.Plain.left {xs ys : List Event} (h : Event.Plain (xs ++ ys)) : Event.Plain xs :=
  fun n hn => h n (List.mem_append_left _ hn)

theorem Event.Plain.right {xs ys : List Event} (h : Event.Plain (xs ++ ys)) : Event.Plain ys :=
  fun n hn => h n (List.mem_append_right _ hn)

theorem Event.Plain.inside {n : Node} {events : List Event} (h : Event.Plain (n.around events)) :
    Event.Plain events :=
  fun m hm => h m (Node.enter_mem_around.mpr (Or.inr hm))

theorem Event.Plain.self {n : Node} {events : List Event} (h : Event.Plain (n.around events)) :
    n.bodyIsBlock ∧ n.paramsAreVars :=
  h n (Node.enter_mem_around.mpr (Or.inl rfl))

/-- Entering a declaration other than a function just declares it. -/
theorem Represents.enterDecl (h : Represents top builtin r s) (hflag : r.sharesScope = flag)
    {d : Decl} (hstep : r.step (.enter (.decl d)) = (r.declare d >>= fun r => .ok r)) :
    Agree (Follows top builtin flag s) (r.step (.enter (.decl d))) (s.declare d) := by
  rw [hstep, bind_ok]
  exact h.declare hflag d

mutual

theorem TypeExpr.tracks : (t : TypeExpr) → Event.Plain t.events →
    Tracks top builtin flag t.events (t.resolveIn [top, builtin])
  | .named _ ident, _ => .around (.ident ident) (fun _ => rfl) (fun _ => rfl)
  | .array _ elem _ _ _, h => .around (elem.tracks h.inside) (fun _ => rfl) (fun _ => rfl)
  | .func _ result _ params _, h =>
    .around ((result.tracks h.inside.left).append
      (Decl.tracksParams params (List.all_eq_true.mp h.self.2) h.inside.right)) (fun _ => rfl) (fun _ => rfl)

/-- A variable opens no scope and does not touch the flag. -/
theorem Decl.tracksVar : (d : Decl) → d.isVar → Event.Plain d.events →
    Tracks top builtin flag d.events (d.resolveIn [top, builtin])
  | .var _ _ _ type none, _, h =>
    .enterWith _ (fun _ _ hr hflag => hr.enterDecl hflag rfl) (type.tracks h.inside) (fun _ => rfl)
  | .var _ _ _ type (some init), _, h =>
    .enterWith _ (fun _ _ hr hflag => hr.enterDecl hflag rfl)
      ((type.tracks h.inside.left).append init.tracks) (fun _ => rfl)
  | .func .., hvar, _ | .basic .., hvar, _ | .typedef .., hvar, _ => by simp [Decl.isVar] at hvar

theorem Decl.tracksParams : (ds : List Decl) → (∀ d ∈ ds, d.isVar) →
    Event.Plain (Decl.eventsAll ds) →
    Tracks top builtin flag (Decl.eventsAll ds) (Decl.resolveAllIn [top, builtin] ds)
  | [], _, _ => .nil
  | d :: rest, hvars, h =>
    (d.tracksVar (hvars d List.mem_cons_self) h.left).append
      (Decl.tracksParams rest (fun d hd => hvars d (List.mem_cons_of_mem _ hd)) h.right)

end

theorem Represents.enterFunction (h : Represents top builtin r s) (id : DeclId) (hasBody : Bool) :
    Represents top builtin (r.enterFunction id hasBody) s.enter := by
  have hflagged : Represents top builtin { r with sharesScope := hasBody } s :=
    ⟨h.outermost, h.chain, h.uses⟩
  have hopened := hflagged.enterScope .function (by decide)
  exact ⟨hopened.outermost, hopened.chain, hopened.uses⟩

/-- What was opened between `s` and `s'` is closed again. -/
theorem Follows.leaveScope {s' : Lexical} (h : Follows top builtin flag s.enter r s') :
    Follows top builtin flag s r.leaveScope s'.leave := by
  have hinner : s'.inner ≠ [] := by
    intro hnil
    have hlength := h.length_eq
    simp [hnil, Lexical.enter] at hlength
  refine ⟨h.represents.leaveScope hinner, ?_, ?_⟩
  · have hkeep : r.leaveScope.sharesScope = r.sharesScope := by
      unfold Resolver.leaveScope
      cases r.resolution.scopes.parent? r.current <;> rfl
    exact hkeep.trans h.flag_eq
  · have hlength := h.length_eq
    simp only [Lexical.enter, List.length_cons] at hlength
    simp [Lexical.leave, hlength]

namespace Tracks

variable {id : DeclId} {name : String} {span : Span} {signature : TypeExpr}

/-- A function without a body opens and closes the scope of its parameters itself. -/
theorem prototype
    (hsig : Tracks top builtin false signature.events (signature.resolveIn [top, builtin])) :
    Tracks top builtin false (Decl.func id name span signature none).events
      ((Decl.func id name span signature none).resolveIn [top, builtin]) := by
  intro r s h hflag
  rw [Decl.events, foldlM_around]
  simp only [Resolver.step, Decl.resolveIn, bind_assoc, pure_bind]
  refine (h.declare hflag _).bind ?_
  intro r₁ s₁ h₁
  refine (hsig _ _ (h₁.represents.enterFunction id false) rfl).bind ?_
  intro r₂ s₂ h₂
  have hclosed := h₂.leaveScope
  exact .ok ⟨hclosed.represents, hclosed.flag_eq, hclosed.length_eq.trans h₁.length_eq⟩

/-- The block that is the body of a function goes on in the scope of the parameters, and
closes it. -/
theorem definition {block : StmtId} {lbrace rbrace : Span} {items : List Item}
    (hsig : Tracks top builtin true signature.events (signature.resolveIn [top, builtin]))
    (hitems : Tracks top builtin false (Item.eventsAll items)
      (Item.resolveAllIn [top, builtin] items)) :
    Tracks top builtin false
      (Decl.func id name span signature (some (.block block lbrace items rbrace))).events
      ((Decl.func id name span signature (some (.block block lbrace items rbrace))).resolveIn
        [top, builtin]) := by
  intro r s h hflag
  rw [Decl.events, foldlM_around, Stmt.events]
  simp only [List.foldlM_append, foldlM_around, Resolver.step, Decl.resolveIn, bind_assoc, pure_bind]
  refine (h.declare hflag _).bind ?_
  intro r₁ s₁ h₁
  refine (hsig _ _ (h₁.represents.enterFunction id true) rfl).bind ?_
  intro r₂ s₂ h₂
  have hblock : r₂.enterBlock block = { r₂ with sharesScope := false } := by
    simp [Resolver.enterBlock, h₂.flag_eq]
  have hinside : Represents top builtin { r₂ with sharesScope := false } s₂ :=
    ⟨h₂.represents.outermost, h₂.represents.chain, h₂.represents.uses⟩
  rw [hblock]
  refine (hitems _ _ hinside rfl).bind ?_
  intro r₃ s₃ h₃
  have hwhole : Follows top builtin false s₁.enter r₃ s₃ :=
    ⟨h₃.represents, h₃.flag_eq, h₃.length_eq.trans h₂.length_eq⟩
  have hclosed := hwhole.leaveScope
  exact .ok ⟨hclosed.represents, hclosed.flag_eq, hclosed.length_eq.trans h₁.length_eq⟩

/-- Any other block has a scope of its own. -/
theorem block {block : StmtId} {lbrace rbrace : Span} {items : List Item}
    (hitems : Tracks top builtin false (Item.eventsAll items)
      (Item.resolveAllIn [top, builtin] items)) :
    Tracks top builtin false (Stmt.block block lbrace items rbrace).events
      ((Stmt.block block lbrace items rbrace).resolveIn [top, builtin]) := by
  intro r s h hflag
  rw [Stmt.events, foldlM_around]
  have hopened := h.enterScope .block (by decide)
  have hinside : Represents top builtin (r.enterBlock block) s.enter := by
    simp only [Resolver.enterBlock, hflag, Bool.false_eq_true, if_false]
    exact ⟨hopened.outermost, hopened.chain, hopened.uses⟩
  have hkeep : (r.enterBlock block).sharesScope = false := by
    simp only [Resolver.enterBlock, hflag, Bool.false_eq_true, if_false]
    exact hflag
  refine (hitems _ _ hinside hkeep).bind ?_
  intro r₁ s₁ h₁
  exact .ok h₁.leaveScope

end Tracks

mutual

theorem Decl.tracks : (d : Decl) → Event.Plain d.events →
    Tracks top builtin false d.events (d.resolveIn [top, builtin])
  | .func _ _ _ signature none, h => .prototype (signature.tracks h.inside)
  | .func _ _ _ signature (some (.block _ _ items _)), h =>
    .definition (signature.tracks h.inside.left) (Item.tracksAll items h.inside.right.inside)
  | .func _ _ _ _ (some (.empty ..)), h | .func _ _ _ _ (some (.expr ..)), h
  | .func _ _ _ _ (some (.branch ..)), h | .func _ _ _ _ (some (.ret ..)), h
  | .func _ _ _ _ (some (.loop ..)), h => by
    have hbody := h.self.1
    simp [Node.bodyIsBlock, Stmt.isBlock] at hbody
  | .var id name span type init, h =>
    (Decl.var id name span type init).tracksVar rfl h
  | .basic .., _ => .leaf (fun _ _ hr hflag => hr.enterDecl hflag rfl) (fun _ => rfl)
  | .typedef _ _ _ target, h =>
    .enterWith _ (fun _ _ hr hflag => hr.enterDecl hflag rfl) (target.tracks h.inside)
      (fun _ => rfl)

theorem Stmt.tracks : (t : Stmt) → Event.Plain t.events →
    Tracks top builtin false t.events (t.resolveIn [top, builtin])
  | .block _ _ items _, h => .block (Item.tracksAll items h.inside)
  | .empty .., _ => .around .nil (fun _ => rfl) (fun _ => rfl)
  | .expr _ value, _ => .around value.tracks (fun _ => rfl) (fun _ => rfl)
  | .branch _ _ cond onTrue none, h =>
    .around (cond.tracks.append (onTrue.tracks h.inside.right)) (fun _ => rfl) (fun _ => rfl)
  | .branch _ _ cond onTrue (some onFalse), h => by
    have hcond : Tracks top builtin false cond.events _ := cond.tracks
    have hparts := (hcond.append (onTrue.tracks h.inside.left.right)).append
      (onFalse.tracks h.inside.right)
    simp only [bind_assoc] at hparts
    exact .around hparts (fun _ => rfl) (fun _ => rfl)
  | .ret _ _ none, _ => .around .nil (fun _ => rfl) (fun _ => rfl)
  | .ret _ _ (some value), _ => .around value.tracks (fun _ => rfl) (fun _ => rfl)
  | .loop _ _ cond body, h =>
    .around (cond.tracks.append (body.tracks h.inside.right)) (fun _ => rfl) (fun _ => rfl)

theorem Item.tracks : (i : Item) → Event.Plain i.events →
    Tracks top builtin false i.events (i.resolveIn [top, builtin])
  | .decl d, h => d.tracks h
  | .stmt t, h => t.tracks h

theorem Item.tracksAll : (items : List Item) → Event.Plain (Item.eventsAll items) →
    Tracks top builtin false (Item.eventsAll items) (Item.resolveAllIn [top, builtin] items)
  | [], _ => .nil
  | item :: rest, h => (item.tracks h.left).append (Item.tracksAll rest h.right)

end

theorem Decl.tracksAll : (ds : List Decl) → Event.Plain (Decl.eventsAll ds) →
    Tracks top builtin false (Decl.eventsAll ds) (Decl.resolveAllIn [top, builtin] ds)
  | [], _ => .nil
  | d :: rest, h => (d.tracks h.left).append (Decl.tracksAll rest h.right)

end

end MicroC
