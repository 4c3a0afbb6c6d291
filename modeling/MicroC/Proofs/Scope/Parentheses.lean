import MicroC.Proofs.Scope.Tree
import MicroC.Proofs.Syntax.Parentheses

/-!
Names of programs that differ in parentheses. The two traversals are gone through side by side: a
pair of parentheses adds events that the resolver passes over, and at all other events both
resolvers do the same. So both resolutions fail with the same error, but for its position, or give
each name declarations that are alike.
-/

namespace MicroC

/-- The error without its positions. -/
def ResolveError.unplaced : ResolveError → ResolveError
  | .undeclared name _ suggestions => .undeclared name Span.builtin suggestions
  | .redeclaration name _ _ => .redeclaration name Span.builtin Span.builtin

/-- Related results, or the same error at another place. -/
abbrev ResolvesAlike {α β : Type} (Q : α → β → Prop) (x : Except ResolveError α)
    (y : Except ResolveError β) : Prop :=
  Except.Rel (fun e e' => e.unplaced = e'.unplaced) Q x y

/-! Scopes. -/

structure Scope.Alike (s s' : Scope) : Prop where
  parent : s.parent = s'.parent
  kind : s.kind = s'.kind
  names : s.defs.map Prod.fst = s'.defs.map Prod.fst
  get? : ∀ name, Option.Rel Decl.Alike (s.get? name) (s'.get? name)

namespace Scope.Alike

variable {s s' : Scope} {d d' : Decl}

theorem bind (h : s.Alike s') (hd : d.Alike d') (hfree : s.get? d.name = none)
    (hfree' : s'.get? d'.name = none) : (s.bind d).Alike (s'.bind d') := by
  refine ⟨h.parent, h.kind, ?_, ?_⟩
  · simp [Scope.bind, h.names, hd.name_eq]
  · intro name
    rw [get?_bind hfree, get?_bind hfree', hd.name_eq]
    split
    · exact .some hd
    · exact h.get? name

theorem rebind_names (s : Scope) (d : Decl) : (s.rebind d).defs.map Prod.fst = s.defs.map Prod.fst := by
  unfold Scope.rebind
  rw [List.map_map]
  refine List.map_congr_left fun entry _ => ?_
  dsimp only [Function.comp_apply]
  split <;> rfl

theorem rebind (h : s.Alike s') (hd : d.Alike d') {old old' : Decl}
    (hold : s.get? d.name = some old) (hold' : s'.get? d'.name = some old') :
    (s.rebind d).Alike (s'.rebind d') := by
  refine ⟨h.parent, h.kind, ?_, ?_⟩
  · rw [rebind_names, rebind_names]
    exact h.names
  · intro name
    rw [get?_rebind hold, get?_rebind hold', hd.name_eq]
    split
    · exact .some hd
    · exact h.get? name

theorem put (h : s.Alike s') (hd : d.Alike d') :
    ResolvesAlike (fun _ _ => True) (s.put d).1 (s'.put d').1 ∧ (s.put d).2.Alike (s'.put d').2 := by
  have hget : Option.Rel Decl.Alike (s.get? d.name) (s'.get? d'.name) := by
    rw [← hd.name_eq]
    exact h.get? d.name
  unfold Scope.put
  rcases Option.rel_cases hget with ⟨hfree, hfree'⟩ | ⟨old, old', hold, hold', halike⟩
  · rw [hfree, hfree']
    exact ⟨.ok trivial, h.bind hd hfree hfree'⟩
  · rw [hold, hold']
    dsimp only
    rw [halike.id_eq, hd.id_eq, h.kind, halike.sameSort_eq hd, halike.isDefinition_eq,
      hd.isDefinition_eq]
    have herror : (ResolveError.redeclaration d.name old.span d.span).unplaced =
        (ResolveError.redeclaration d'.name old'.span d'.span).unplaced := by
      simp only [ResolveError.unplaced, hd.name_eq]
    split
    · exact ⟨.ok trivial, h⟩
    · split
      · split
        · exact ⟨.error herror, h⟩
        · exact ⟨.ok trivial, h.rebind hd hold hold'⟩
        · exact ⟨.ok trivial, h⟩
      · exact ⟨.error herror, h⟩

end Scope.Alike

/-! Scope trees. -/

structure ScopeTree.Alike (t t' : ScopeTree) : Prop where
  size : t.size = t'.size
  get? : ∀ i, Option.Rel Scope.Alike (t.get? i) (t'.get? i)

namespace ScopeTree.Alike

variable {t t' : ScopeTree} {i : ScopeId}

theorem create (h : t.Alike t') (parent : Option ScopeId) (kind : ScopeKind) :
    (t.create parent kind).2.Alike (t'.create parent kind).2 := by
  refine ⟨?_, ?_⟩
  · simp only [ScopeTree.create, ScopeTree.size, Array.size_push]
    exact congrArg Nat.succ h.size
  · intro j
    rw [get?_create, get?_create, h.size]
    split
    · exact .some ⟨rfl, rfl, rfl, fun _ => .none⟩
    · exact h.get? j

theorem update (h : t.Alike t') {scope scope' new new' : Scope} (hscope : t.get? i = some scope)
    (hscope' : t'.get? i = some scope') (hnew : new.Alike new') :
    (t.update i new).Alike (t'.update i new') := by
  refine ⟨?_, ?_⟩
  · simp only [ScopeTree.update, ScopeTree.size, Array.size_setIfInBounds]
    exact h.size
  · intro j
    by_cases hj : j = i
    · rw [hj, get?_update_self hscope, get?_update_self hscope']
      exact .some hnew
    · rw [get?_update_of_ne hj, get?_update_of_ne hj]
      exact h.get? j

theorem insert (h : t.Alike t') (i : ScopeId) {d d' : Decl} (hd : d.Alike d') :
    ResolvesAlike (fun out out' => out.2.Alike out'.2) (t.insert i d) (t'.insert i d') := by
  rcases Option.rel_cases (h.get? i) with ⟨hnone, hnone'⟩ | ⟨scope, scope', hscope, hscope', halike⟩
  · simp only [ScopeTree.insert, ScopeTree.put, hnone, hnone']
    exact .ok h
  · rw [insert_eq hscope, insert_eq hscope']
    obtain ⟨hresult, hnew⟩ := halike.put hd
    rcases hresult.eq_cases with ⟨_, _, hok, hok', _⟩ | ⟨_, _, herror, herror', hunplaced⟩
    · rw [hok, hok']
      exact .ok (h.update hscope hscope' hnew)
    · rw [herror, herror']
      exact .error hunplaced

theorem insertAll (h : t.Alike t') (i : ScopeId) {ds ds' : List Decl} (hds : Decl.AllAlike ds ds') :
    ResolvesAlike ScopeTree.Alike (t.insertAll i ds) (t'.insertAll i ds') := by
  unfold ScopeTree.insertAll
  induction ds generalizing t t' ds' with
  | nil =>
    cases hds
    exact .ok h
  | cons d rest ih =>
    cases hds with
    | cons hd hrest =>
      rw [List.foldlM_cons, List.foldlM_cons]
      refine ((h.insert i hd).bind (R := ScopeTree.Alike) ?_).bind ?_
      · exact fun _ _ hout => .ok hout
      · intro next next' hnext
        exact ih hnext hrest

theorem parent?_eq (h : t.Alike t') (i : ScopeId) : t.parent? i = t'.parent? i := by
  unfold ScopeTree.parent?
  rcases Option.rel_cases (h.get? i) with ⟨hnone, hnone'⟩ | ⟨scope, scope', hscope, hscope', halike⟩
  · rw [hnone, hnone']
  · rw [hscope, hscope']
    exact halike.parent

theorem chain_eq (h : t.Alike t') (n : Nat) (i : ScopeId) : t.chain n i = t'.chain n i := by
  induction n generalizing i with
  | zero => rfl
  | succ n ih =>
    rw [ScopeTree.chain, ScopeTree.chain, h.parent?_eq]
    cases t'.parent? i with
    | none => rfl
    | some outer => exact congrArg (i :: ·) (ih outer)

theorem ancestors_eq (h : t.Alike t') (i : ScopeId) : t.ancestors i = t'.ancestors i := by
  rw [ScopeTree.ancestors, ScopeTree.ancestors, h.size, h.chain_eq]

theorem get?_bind (h : t.Alike t') (i : ScopeId) (name : String) :
    Option.Rel Decl.Alike ((t.get? i).bind (·.get? name)) ((t'.get? i).bind (·.get? name)) := by
  rcases Option.rel_cases (h.get? i) with ⟨hnone, hnone'⟩ | ⟨scope, scope', hscope, hscope', halike⟩
  · rw [hnone, hnone']
    exact .none
  · rw [hscope, hscope']
    exact halike.get? name

theorem lookup (h : t.Alike t') (i : ScopeId) (name : String) :
    Option.Rel Decl.Alike (t.lookup i name) (t'.lookup i name) := by
  unfold ScopeTree.lookup
  rw [h.ancestors_eq]
  induction t'.ancestors i with
  | nil => exact .none
  | cons outer rest ih =>
    rw [List.findSome?_cons, List.findSome?_cons]
    rcases Option.rel_cases (h.get?_bind outer name) with ⟨hnone, hnone'⟩ | ⟨d, d', hd, hd', halike⟩
    · rw [hnone, hnone']
      exact ih
    · rw [hd, hd']
      exact .some halike

theorem visibleNames_eq (h : t.Alike t') (i : ScopeId) : t.visibleNames i = t'.visibleNames i := by
  unfold ScopeTree.visibleNames
  rw [h.ancestors_eq]
  refine congrArg (List.flatMap · (t'.ancestors i)) (funext fun outer => ?_)
  unfold ScopeTree.boundNames
  rcases Option.rel_cases (h.get? outer) with ⟨hnone, hnone'⟩ | ⟨scope, scope', hscope, hscope', halike⟩
  · rw [hnone, hnone']
  · rw [hscope, hscope']
    exact halike.names

end ScopeTree.Alike

/-! Resolutions. -/

structure Resolution.Matches (r r' : Resolution) : Prop where
  scopes : r.scopes.Alike r'.scopes
  file : r.file = r'.file
  size : r.idents.size = r'.idents.size
  idents : ∀ id : IdentId, Option.Rel Decl.Alike r.idents[id]? r'.idents[id]?

theorem Resolution.Matches.declOf? {r r' : Resolution} (h : r.Matches r') {ident ident' : Ident}
    (hident : ident.Alike ident') : Option.Rel Decl.Alike (r.declOf? ident) (r'.declOf? ident') := by
  rw [Resolution.declOf?, Resolution.declOf?, hident.id_eq]
  exact h.idents ident'.id

theorem Resolution.Matches.fileBinding? {r r' : Resolution} (h : r.Matches r') (name : String) :
    Option.Rel Decl.Alike (r.fileBinding? name) (r'.fileBinding? name) := by
  rw [Resolution.fileBinding?, Resolution.fileBinding?, h.file]
  exact h.scopes.get?_bind r'.file name

structure Resolver.Alike (r r' : Resolver) : Prop where
  resolution : r.resolution.Matches r'.resolution
  current : r.current = r'.current
  sharesScope : r.sharesScope = r'.sharesScope

namespace Resolver.Alike

variable {r r' : Resolver}

/-- A step that changes only scopes and the place in them. -/
theorem of_scopes (h : r.Alike r') {next next' : Resolver}
    (hscopes : next.resolution.scopes.Alike next'.resolution.scopes)
    (hfile : next.resolution.file = r.resolution.file)
    (hfile' : next'.resolution.file = r'.resolution.file)
    (hidents : next.resolution.idents = r.resolution.idents)
    (hidents' : next'.resolution.idents = r'.resolution.idents)
    (hcurrent : next.current = next'.current) (hshares : next.sharesScope = next'.sharesScope) :
    next.Alike next' := by
  refine ⟨⟨hscopes, ?_, ?_, ?_⟩, hcurrent, hshares⟩
  · rw [hfile, hfile', h.resolution.file]
  · rw [hidents, hidents', h.resolution.size]
  · rw [hidents, hidents']
    exact h.resolution.idents

theorem enterScope (h : r.Alike r') (kind : ScopeKind) :
    (r.enterScope kind).Alike (r'.enterScope kind) := by
  refine h.of_scopes ?_ rfl rfl rfl rfl h.resolution.scopes.size h.sharesScope
  unfold Resolver.enterScope
  rw [h.current]
  exact h.resolution.scopes.create (some r'.current) kind

theorem leaveScope (h : r.Alike r') : r.leaveScope.Alike r'.leaveScope := by
  unfold Resolver.leaveScope
  rw [h.current, h.resolution.scopes.parent?_eq]
  split
  · exact h.of_scopes h.resolution.scopes rfl rfl rfl rfl rfl h.sharesScope
  · exact h

theorem declare (h : r.Alike r') {d d' : Decl} (hd : d.Alike d') :
    ResolvesAlike Resolver.Alike (r.declare d) (r'.declare d') := by
  unfold Resolver.declare
  rw [h.current, h.resolution.file]
  split
  · exact .ok h
  · refine (h.resolution.scopes.insert r'.current hd).bind ?_
    intro out out' hout
    exact .ok (h.of_scopes hout rfl rfl rfl rfl rfl h.sharesScope)

theorem enterFunction (h : r.Alike r') (id : DeclId) (hasBody : Bool) :
    (r.enterFunction id hasBody).Alike (r'.enterFunction id hasBody) := by
  have hflagged : Resolver.Alike { r with sharesScope := hasBody }
      { r' with sharesScope := hasBody } :=
    ⟨h.resolution, h.current, rfl⟩
  have hopened := hflagged.enterScope .function
  exact hopened.of_scopes hopened.resolution.scopes rfl rfl rfl rfl hopened.current rfl

theorem enterBlock (h : r.Alike r') (id id' : StmtId) :
    (r.enterBlock id).Alike (r'.enterBlock id') := by
  unfold Resolver.enterBlock
  rw [h.sharesScope]
  split
  · exact ⟨h.resolution, h.current, rfl⟩
  · have hopened := h.enterScope .block
    exact hopened.of_scopes hopened.resolution.scopes rfl rfl rfl rfl hopened.current
      hopened.sharesScope

theorem use (h : r.Alike r') {ident ident' : Ident} (hident : ident.Alike ident') :
    ResolvesAlike Resolver.Alike (r.use ident) (r'.use ident') := by
  have hlookup := h.resolution.scopes.lookup r'.current ident'.name
  unfold Resolver.use
  rw [h.current, hident.name_eq, hident.id_eq, h.resolution.scopes.visibleNames_eq]
  rcases Option.rel_cases hlookup with ⟨hnone, hnone'⟩ | ⟨d, d', hd, hd', halike⟩
  · rw [hnone, hnone']
    exact .error rfl
  · rw [hd, hd']
    refine .ok ⟨⟨h.resolution.scopes, h.resolution.file, ?_, ?_⟩, rfl, h.sharesScope⟩
    · have hcontains : r.resolution.idents.contains ident'.id =
          r'.resolution.idents.contains ident'.id := by
        rw [Std.TreeMap.contains_eq_isSome_getElem?, Std.TreeMap.contains_eq_isSome_getElem?]
        rcases Option.rel_cases (h.resolution.idents ident'.id) with
          ⟨hfree, hfree'⟩ | ⟨_, _, hbound, hbound', _⟩
        · rw [hfree, hfree']
        · rw [hbound, hbound']
          rfl
      simp only [Std.TreeMap.size_insert, hcontains, h.resolution.size]
    · intro id
      simp only [Std.TreeMap.getElem?_insert]
      split
      · exact .some halike
      · exact h.resolution.idents id

end Resolver.Alike

/-! Traversals. -/

/-- Two parts of traversals that take resolvers that are alike to ones that are. -/
def Event.Parallel (xs ys : List Event) : Prop :=
  ∀ r r' : Resolver, r.Alike r' →
    ResolvesAlike Resolver.Alike (xs.foldlM Resolver.step r) (ys.foldlM Resolver.step r')

namespace Event.Parallel

variable {xs ys xs' ys' : List Event}

theorem nil : Event.Parallel [] [] := fun _ _ h => .ok h

theorem append (h : Event.Parallel xs ys) (h' : Event.Parallel xs' ys') :
    Event.Parallel (xs ++ xs') (ys ++ ys') := by
  intro r r' hr
  rw [List.foldlM_append, List.foldlM_append]
  exact (h r r' hr).bind h'

/-- Two nodes, given what happens when they are entered and left. -/
theorem around {n n' : Node}
    (henter : ∀ r r' : Resolver, r.Alike r' →
      ResolvesAlike Resolver.Alike (r.step (.enter n)) (r'.step (.enter n')))
    (h : Event.Parallel xs ys)
    (hleave : ∀ r r' : Resolver, r.Alike r' →
      ResolvesAlike Resolver.Alike (r.step (.leave n)) (r'.step (.leave n'))) :
    Event.Parallel (n.around xs) (n'.around ys) := by
  have hone : ∀ event event' : Event, (∀ r r' : Resolver, r.Alike r' →
      ResolvesAlike Resolver.Alike (r.step event) (r'.step event')) →
      Event.Parallel [event] [event'] := by
    intro event event' hstep r r' hr
    rw [List.foldlM_cons, List.foldlM_cons]
    exact (hstep r r' hr).bind fun _ _ hnext => .ok hnext
  exact (hone _ _ henter).append (h.append (hone _ _ hleave))

theorem ident {ident ident' : Ident} (h : ident.Alike ident') :
    Event.Parallel ident.events ident'.events :=
  nil.around (fun _ _ hr => hr.use h) fun _ _ hr => .ok hr

/-- Nodes that the resolver passes over. -/
theorem passed {n n' : Node} (henter : ∀ r : Resolver, r.step (.enter n) = .ok r)
    (hleave : ∀ r : Resolver, r.step (.leave n) = .ok r)
    (henter' : ∀ r : Resolver, r.step (.enter n') = .ok r)
    (hleave' : ∀ r : Resolver, r.step (.leave n') = .ok r) (h : Event.Parallel xs ys) :
    Event.Parallel (n.around xs) (n'.around ys) := by
  refine h.around ?_ ?_
  · intro r r' hr
    rw [henter, henter']
    exact .ok hr
  · intro r r' hr
    rw [hleave, hleave']
    exact .ok hr

theorem expr {e e' : Expr} (h : Event.Parallel xs ys) :
    Event.Parallel ((Node.expr e).around xs) ((Node.expr e').around ys) :=
  h.passed (fun _ => rfl) (fun _ => rfl) (fun _ => rfl) (fun _ => rfl)

theorem type {t t' : TypeExpr} (h : Event.Parallel xs ys) :
    Event.Parallel ((Node.type t).around xs) ((Node.type t').around ys) :=
  h.passed (fun _ => rfl) (fun _ => rfl) (fun _ => rfl) (fun _ => rfl)

theorem foldlM_around_expr (e : Expr) (xs : List Event) (r : Resolver) :
    ((Node.expr e).around xs).foldlM Resolver.step r = xs.foldlM Resolver.step r := by
  change (xs ++ [Event.leave (.expr e)]).foldlM Resolver.step r = _
  rw [List.foldlM_append]
  cases xs.foldlM Resolver.step r <;> rfl

/-- Parentheses on one side only. -/
theorem opened {e : Expr} (h : Event.Parallel xs ys) :
    Event.Parallel ((Node.expr e).around xs) ys := by
  intro r r' hr
  rw [foldlM_around_expr]
  exact h r r' hr

theorem wrapped {e : Expr} (h : Event.Parallel xs ys) :
    Event.Parallel xs ((Node.expr e).around ys) := by
  intro r r' hr
  rw [foldlM_around_expr]
  exact h r r' hr

/-- A declaration is declared, and a function opens its scope. -/
theorem decl {d d' : Decl} (hd : d.Alike d') (h : Event.Parallel xs ys) :
    Event.Parallel ((Node.decl d).around xs) ((Node.decl d').around ys) := by
  refine h.around ?_ ?_
  · intro r r' hr
    refine (hr.declare hd).bind ?_
    intro next next' hnext
    cases hd with
    | prototype _ | definition _ _ => exact .ok (hnext.enterFunction _ _)
    | plain _ | initialized _ _ | basic | typedef _ => exact .ok hnext
  · intro r r' hr
    cases hd with
    | prototype _ => exact .ok hr.leaveScope
    | definition _ _ | plain _ | initialized _ _ | basic | typedef _ => exact .ok hr

/-- A block opens a scope and closes it; other statements are passed over. -/
theorem stmt {s s' : Stmt} (hs : s.Alike s') (h : Event.Parallel xs ys) :
    Event.Parallel ((Node.stmt s).around xs) ((Node.stmt s').around ys) := by
  cases hs with
  | block _ =>
    exact h.around (fun _ _ hr => .ok (hr.enterBlock _ _)) fun _ _ hr => .ok hr.leaveScope
  | empty | expr _ | branch _ _ | branchElse _ _ _ | ret | retValue _ | loop _ _ =>
    exact h.passed (fun _ => rfl) (fun _ => rfl) (fun _ => rfl) (fun _ => rfl)

end Event.Parallel

open Event

mutual

theorem Expr.Alike.parallel {e e' : Expr} : e.Alike e' → Parallel e.events e'.events
  | .literal => Parallel.nil.expr
  | .binary hlhs hrhs => (hlhs.parallel.append hrhs.parallel).expr
  | .call hcallee hargs => ((Parallel.ident hcallee).append hargs.parallel).expr
  | .name hident => (Parallel.ident hident).expr
  | .index harray hposition => ((Parallel.ident harray).append hposition.parallel).expr
  | .unary hoperand => hoperand.parallel.expr
  | .opened hinner => hinner.parallel.opened
  | .wrapped hinner => hinner.parallel.wrapped

theorem Expr.AllAlike.parallel {es es' : List Expr} :
    Expr.AllAlike es es' → Parallel (Expr.eventsAll es) (Expr.eventsAll es')
  | .nil => .nil
  | .cons he hrest => he.parallel.append hrest.parallel

end

mutual

theorem TypeExpr.Alike.parallel {t t' : TypeExpr} : t.Alike t' → Parallel t.events t'.events
  | .named hident => (Parallel.ident hident).type
  | .array helem => helem.parallel.type
  | .func hresult hparams => (hresult.parallel.append hparams.parallel).type

theorem Decl.Alike.parallel {d d' : Decl} : d.Alike d' → Parallel d.events d'.events
  | h@(.prototype hsignature) => .decl h hsignature.parallel
  | h@(.definition hsignature hbody) => .decl h (hsignature.parallel.append hbody.parallel)
  | h@(.plain htype) => .decl h htype.parallel
  | h@(.initialized htype hinit) => .decl h (htype.parallel.append hinit.parallel)
  | h@.basic => .decl h .nil
  | h@(.typedef htarget) => .decl h htarget.parallel

theorem Decl.AllAlike.parallel {ds ds' : List Decl} :
    Decl.AllAlike ds ds' → Parallel (Decl.eventsAll ds) (Decl.eventsAll ds')
  | .nil => .nil
  | .cons hd hrest => hd.parallel.append hrest.parallel

theorem Stmt.Alike.parallel {s s' : Stmt} : s.Alike s' → Parallel s.events s'.events
  | h@(.block hitems) => .stmt h hitems.parallel
  | h@.empty => .stmt h .nil
  | h@(.expr hvalue) => .stmt h hvalue.parallel
  | h@(.branch hcond honTrue) => .stmt h (hcond.parallel.append honTrue.parallel)
  | h@(.branchElse hcond honTrue honFalse) =>
    .stmt h ((hcond.parallel.append honTrue.parallel).append honFalse.parallel)
  | h@.ret => .stmt h .nil
  | h@(.retValue hvalue) => .stmt h hvalue.parallel
  | h@(.loop hcond hbody) => .stmt h (hcond.parallel.append hbody.parallel)

theorem Item.Alike.parallel {item item' : Item} :
    item.Alike item' → Parallel item.events item'.events
  | .decl hd => hd.parallel
  | .stmt hs => hs.parallel

theorem Item.AllAlike.parallel {items items' : List Item} :
    Item.AllAlike items items' → Parallel (Item.eventsAll items) (Item.eventsAll items')
  | .nil => .nil
  | .cons hitem hrest => hitem.parallel.append hrest.parallel

end

namespace Program

variable {p p' : Program}

theorem openFile_alike (h : Decl.AllAlike p.file p'.file) :
    ResolvesAlike Resolver.Alike p.openFile p'.openFile := by
  have hstart : ScopeTree.Alike {} {} := ⟨rfl, fun _ => .none⟩
  refine ((hstart.create none .universal).insertAll _ (.refl Decl.builtins)).bind ?_
  intro scopes scopes' hscopes
  have hfile := (hscopes.create (some 0) .file).insertAll scopes.size h
  have hopened : ResolvesAlike ScopeTree.Alike
      ((scopes.create (some 0) .file).2.insertAll scopes.size p.file)
      ((scopes'.create (some 0) .file).2.insertAll scopes'.size p'.file) := by
    rw [← hscopes.size]
    exact hfile
  refine hopened.bind fun tree tree' htree => ?_
  exact .ok ⟨⟨htree, hscopes.size, rfl, fun _ => .none⟩, hscopes.size, rfl⟩

/-- The two resolutions agree. -/
theorem resolve_alike (h : Decl.AllAlike p.file p'.file) :
    ResolvesAlike Resolution.Matches p.resolve p'.resolve := by
  refine (openFile_alike h).bind fun start start' hstart => ?_
  refine (h.parallel start start' hstart).bind fun final final' hfinal => ?_
  exact .ok hfinal.resolution

end Program

end MicroC
