import MicroC.Proofs.Syntax.Shape

/-!
Decidable coherence. Trees are compared node by node, numbers and positions included, so that
it can be computed whether each node of a traversal is the one under its number.
-/

namespace MicroC

mutual

/-- Whether two expressions are the same tree. -/
def Expr.same : Expr → Expr → Bool
  | .literal i v s, .literal j w t => i == j && v == w && s == t
  | .binary i op s l r, .binary j oq t m q => i == j && op == oq && s == t && l.same m && r.same q
  | .call i c s es u, .call j d t fs v => i == j && c == d && s == t && u == v && Expr.sameAll es fs
  | .name i m, .name j n => i == j && m == n
  | .index i m s e u, .index j n t f v => i == j && m == n && s == t && u == v && e.same f
  | .paren i s e u, .paren j t f v => i == j && s == t && u == v && e.same f
  | .unary i op s e, .unary j oq t f => i == j && op == oq && s == t && e.same f
  | _, _ => false

def Expr.sameAll : List Expr → List Expr → Bool
  | [], [] => true
  | e :: es, f :: fs => e.same f && Expr.sameAll es fs
  | _, _ => false

end

private theorem Expr.eq_of_same_mutual : (∀ e f : Expr, e.same f → e = f) ∧
    ∀ es fs : List Expr, Expr.sameAll es fs → es = fs := by
  apply Expr.same.mutual_induct (fun e f => e.same f → e = f)
    (fun es fs => Expr.sameAll es fs → es = fs) <;>
  · intros
    simp_all [Expr.same, Expr.sameAll]

mutual

theorem Expr.same_self : (e : Expr) → e.same e = true
  | .literal .. | .name .. => by simp [Expr.same]
  | .binary _ _ _ lhs rhs => by simp [Expr.same, lhs.same_self, rhs.same_self]
  | .call _ _ _ args _ => by simp [Expr.same, Expr.sameAll_self args]
  | .index _ _ _ position _ => by simp [Expr.same, position.same_self]
  | .paren _ _ inner _ => by simp [Expr.same, inner.same_self]
  | .unary _ _ _ operand => by simp [Expr.same, operand.same_self]

theorem Expr.sameAll_self : (es : List Expr) → Expr.sameAll es es = true
  | [] => rfl
  | e :: es => by simp [Expr.sameAll, e.same_self, Expr.sameAll_self es]

end

theorem Expr.same_iff {e f : Expr} : e.same f = true ↔ e = f :=
  ⟨Expr.eq_of_same_mutual.1 e f, fun h => h ▸ e.same_self⟩

instance : DecidableEq Expr := fun _ _ => decidable_of_iff _ Expr.same_iff

mutual

def TypeExpr.same : TypeExpr → TypeExpr → Bool
  | .named i m, .named j n => i == j && m == n
  | .array i e s l u, .array j f t k v => i == j && s == t && l == k && u == v && e.same f
  | .func i r s ds u, .func j q t es v => i == j && s == t && u == v && r.same q && Decl.sameAll ds es
  | _, _ => false
termination_by structural x => x

def Decl.same : Decl → Decl → Bool
  | .func i m s t (some b), .func j n u v (some c) =>
    i == j && m == n && s == u && t.same v && b.same c
  | .func i m s t none, .func j n u v none => i == j && m == n && s == u && t.same v
  | .var i m s t (some e), .var j n u v (some f) => i == j && m == n && s == u && t.same v && e.same f
  | .var i m s t none, .var j n u v none => i == j && m == n && s == u && t.same v
  | .basic i m s k, .basic j n t l => i == j && m == n && s == t && k == l
  | .typedef i m s t, .typedef j n u v => i == j && m == n && s == u && t.same v
  | _, _ => false
termination_by structural x => x

def Decl.sameAll : List Decl → List Decl → Bool
  | [], [] => true
  | d :: ds, e :: es => d.same e && Decl.sameAll ds es
  | _, _ => false
termination_by structural x => x

def Stmt.same : Stmt → Stmt → Bool
  | .block i s xs u, .block j t ys v => i == j && s == t && u == v && Item.sameAll xs ys
  | .empty i s, .empty j t => i == j && s == t
  | .expr i e, .expr j f => i == j && e.same f
  | .branch i s c x (some y), .branch j t d z (some w) =>
    i == j && s == t && c.same d && x.same z && y.same w
  | .branch i s c x none, .branch j t d z none => i == j && s == t && c.same d && x.same z
  | .ret i s (some e), .ret j t (some f) => i == j && s == t && e.same f
  | .ret i s none, .ret j t none => i == j && s == t
  | .loop i s c x, .loop j t d y => i == j && s == t && c.same d && x.same y
  | _, _ => false
termination_by structural x => x

def Item.same : Item → Item → Bool
  | .decl d, .decl e => d.same e
  | .stmt s, .stmt t => s.same t
  | _, _ => false
termination_by structural x => x

def Item.sameAll : List Item → List Item → Bool
  | [], [] => true
  | x :: xs, y :: ys => x.same y && Item.sameAll xs ys
  | _, _ => false
termination_by structural x => x

end

private theorem Decl.eq_of_same_mutual : (∀ s t : TypeExpr, s.same t → s = t) ∧
    (∀ ds es : List Decl, Decl.sameAll ds es → ds = es) ∧ (∀ d e : Decl, d.same e → d = e) ∧
    (∀ s t : Stmt, s.same t → s = t) ∧ (∀ xs ys : List Item, Item.sameAll xs ys → xs = ys) ∧
    ∀ x y : Item, x.same y → x = y := by
  apply TypeExpr.same.mutual_induct (fun s t => s.same t → s = t)
    (fun ds es => Decl.sameAll ds es → ds = es) (fun d e => d.same e → d = e)
    (fun s t => s.same t → s = t) (fun xs ys => Item.sameAll xs ys → xs = ys)
    (fun x y => x.same y → x = y) <;>
  · intros
    simp_all [TypeExpr.same, Decl.same, Decl.sameAll, Stmt.same, Item.same, Item.sameAll,
      Expr.same_iff]

mutual

theorem TypeExpr.same_self : (t : TypeExpr) → t.same t = true
  | .named .. => by simp [TypeExpr.same]
  | .array _ elem _ _ _ => by simp [TypeExpr.same, elem.same_self]
  | .func _ result _ params _ => by
    simp [TypeExpr.same, result.same_self, Decl.sameAll_self params]

theorem Decl.same_self : (d : Decl) → d.same d = true
  | .func _ _ _ signature (some body) => by simp [Decl.same, signature.same_self, body.same_self]
  | .func _ _ _ signature none => by simp [Decl.same, signature.same_self]
  | .var _ _ _ type (some init) => by simp [Decl.same, type.same_self, init.same_self]
  | .var _ _ _ type none => by simp [Decl.same, type.same_self]
  | .basic .. => by simp [Decl.same]
  | .typedef _ _ _ target => by simp [Decl.same, target.same_self]

theorem Decl.sameAll_self : (ds : List Decl) → Decl.sameAll ds ds = true
  | [] => rfl
  | d :: ds => by simp [Decl.sameAll, d.same_self, Decl.sameAll_self ds]

theorem Stmt.same_self : (s : Stmt) → s.same s = true
  | .block _ _ items _ => by simp [Stmt.same, Item.sameAll_self items]
  | .empty .. | .ret _ _ none => by simp [Stmt.same]
  | .expr _ value | .ret _ _ (some value) => by simp [Stmt.same, value.same_self]
  | .branch _ _ cond onTrue (some onFalse) => by
    simp [Stmt.same, cond.same_self, onTrue.same_self, onFalse.same_self]
  | .branch _ _ cond onTrue none => by simp [Stmt.same, cond.same_self, onTrue.same_self]
  | .loop _ _ cond body => by simp [Stmt.same, cond.same_self, body.same_self]

theorem Item.same_self : (x : Item) → x.same x = true
  | .decl d => by simp [Item.same, d.same_self]
  | .stmt s => by simp [Item.same, s.same_self]

theorem Item.sameAll_self : (xs : List Item) → Item.sameAll xs xs = true
  | [] => rfl
  | x :: xs => by simp [Item.sameAll, x.same_self, Item.sameAll_self xs]

end

instance : DecidableEq TypeExpr := fun s t =>
  decidable_of_iff _ ⟨Decl.eq_of_same_mutual.1 s t, fun h => h ▸ s.same_self⟩

instance : DecidableEq Decl := fun d e =>
  decidable_of_iff _ ⟨Decl.eq_of_same_mutual.2.2.1 d e, fun h => h ▸ d.same_self⟩

instance : DecidableEq Stmt := fun s t =>
  decidable_of_iff _ ⟨Decl.eq_of_same_mutual.2.2.2.1 s t, fun h => h ▸ s.same_self⟩

namespace Program

instance (p : Program) : (n : Node) → Decidable (p.Holds n)
  | .decl _ | .stmt _ | .expr _ | .type _ | .ident _ =>
    inferInstanceAs (Decidable (_ = some _))

instance (p : Program) : Decidable p.Coherent :=
  decidable_of_iff ((∀ d ∈ Decl.builtins, p.Holds (.decl d)) ∧ p.Everywhere (fun n => p.Holds n)) <| by
    simp only [Everywhere, decide_eq_true_eq]
    exact ⟨fun h => ⟨h.1, h.2⟩, fun h => ⟨h.builtins, h.reached⟩⟩

end Program

end MicroC
