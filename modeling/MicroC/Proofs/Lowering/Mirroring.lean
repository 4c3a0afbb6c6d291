import MicroC.Proofs.Lowering.Blocks
import MicroC.Proofs.Lowering.Emission
import MicroC.Proofs.Lowering.Redeclaration

/-!
Code from two analyses. A use of a name is lowered by the name, the sort and the machine type of
what it stands for, and by what is bound to it. Two declarations of one name at file level differ
in none of these, since nothing is bound to either of them. So two analyses that give twins to
every name give the same code.
-/

namespace MicroC

open LowerM

/-- Nothing is bound to some declarations. -/
def Ir.Builder.Lacks (decls : List Decl) (b : Ir.Builder) : Prop :=
  ∀ d ∈ decls, b.binding? d.id = none

/-- Two analyses of the functions in which a traversal runs: what a name stands for, and the types
of the variables that are declared there. -/
structure Analysis.Mirrors (decls : List Decl) (events : List Event) (a a' : Analysis) : Prop where
  idents : ∀ (ident : Ident) (d d' : Decl) (type type' : Ty), ident.HasType a d type →
    ident.HasType a' d' type' → d.Twins decls d' ∧ type.outline = type'.outline
  exprs : ∀ e : Expr, .enter (.expr e) ∈ events →
    (∃ type, e.HasType a type) ∧ ∃ type, e.HasType a' type
  locals : ∀ d : Decl, d.isVar → .enter (.decl d) ∈ events →
    (∀ g ∈ decls, g.id ≠ d.id) ∧ a'.typeOf d = a.typeOf d

section

variable {decls : List Decl} {events : List Event} {a a' : Analysis} {d d' : Decl} {type type' : Ty}
  {b : Ir.Builder}

/-! Names. -/

/-- The address of a declaration, by what matters for it. -/
theorem Decl.address_eq {b : Ir.Builder} {span : Span} (htype : a.types.decl? d = some type) :
    d.address a span b =
      match b.binding? d.id with
      | some value => .ok (value, b)
      | none =>
        if d.isVar then .ok (.global d.name (.ptr type.machine), b)
        else .error (LowerError.unexpected d "variable" span) := by
  unfold Decl.address
  change (match b.binding? d.id with
    | some value => (pure value : LowerM Ir.Value)
    | none => _) b = _
  cases b.binding? d.id with
  | some value => rfl
  | none =>
    simp only [Analysis.Consistent.typeOf_eq htype]
    cases d <;> rfl

/-- A function as an operand, by what matters for it. -/
theorem Decl.functionValue_eq {span : Span} {result : Ty} {params : List Ty}
    (htype : a.types.decl? d = some (.func result params)) :
    d.functionValue a span =
      if d.isFunc then .ok (.function d.name (Ty.func result params).machine, result.machine)
      else .error (LowerError.unexpected d "function" span) := by
  simp only [Decl.functionValue, Analysis.Consistent.typeOf_eq htype]
  cases d <;> rfl

/-- Twins have the same address where nothing is bound to either of them. -/
theorem Decl.address_twins (htwins : d.Twins decls d') (htype : a.types.decl? d = some type)
    (htype' : a'.types.decl? d' = some type') (houtline : type.outline = type'.outline)
    (hb : b.Lacks decls) (span : Span) : d'.address a' span b = d.address a span b := by
  have hplace : b.binding? d'.id = b.binding? d.id := by
    cases htwins with
    | self => rfl
    | other hmem hmem' _ _ _ _ => rw [hb d hmem, hb d' hmem']
  rw [Decl.address_eq htype, Decl.address_eq htype', hplace, htwins.repeats.isVar_eq,
    Ty.machine_of_outline houtline, htwins.name_eq, LowerError.unexpected, LowerError.unexpected,
    htwins.name_eq]

theorem Decl.functionValue_twins {result : Ty} {params : List Ty} (htwins : d.Twins decls d')
    (htype : a.types.decl? d = some (.func result params)) (htype' : a'.types.decl? d' = some type')
    (houtline : (Ty.func result params).outline = type'.outline) (span : Span) :
    d'.functionValue a' span = d.functionValue a span := by
  have hmachine := Ty.machine_of_outline houtline
  obtain ⟨params', rfl, _⟩ := Ty.exists_of_outline_func houtline
  rw [Decl.functionValue_eq htype, Decl.functionValue_eq htype', hmachine,
    htwins.repeats.isFunc_eq, htwins.name_eq, LowerError.unexpected, LowerError.unexpected,
    htwins.name_eq]

/-- Two steps that only read the tables, before steps that do the same. -/
theorem LowerM.liftBind_congr {α β : Type} {x x' : Except LowerError α} {v v' : α}
    {f f' : α → LowerM β} (hx : x = .ok v) (hx' : x' = .ok v') (hf : f' v' b = f v b) :
    (liftM x' >>= f' : LowerM β) b = (liftM x >>= f : LowerM β) b := by
  subst hx hx'
  exact hf

theorem Ident.read_twins (hm : a.Mirrors decls events a') {ident : Ident}
    (h : ident.HasType a d type) (h' : ident.HasType a' d' type') (hb : b.Lacks decls) :
    ident.read a' b = ident.read a b := by
  obtain ⟨htwins, houtline⟩ := hm.idents ident d d' type type' h h'
  have haddress := Decl.address_twins htwins h.typeOf h'.typeOf houtline hb ident.span
  refine LowerM.liftBind_congr (Analysis.Consistent.declOf_eq h)
    (Analysis.Consistent.declOf_eq h') ?_
  refine LowerM.liftBind_congr (Analysis.Consistent.typeOf_eq h.typeOf)
    (Analysis.Consistent.typeOf_eq h'.typeOf) ?_
  cases type with
  | func result params =>
    have hvalue := Decl.functionValue_twins htwins h.typeOf h'.typeOf houtline ident.span
    obtain ⟨params', rfl, _⟩ := Ty.exists_of_outline_func houtline
    simp only [hvalue]
  | array elem len =>
    obtain rfl := Ty.eq_of_outline houtline (by simp)
    cases len with
    | none => exact haddress
    | some len => exact LowerM.bind_congr_left _ haddress
  | basic kind =>
    obtain rfl := Ty.eq_of_outline houtline (by simp)
    exact LowerM.bind_congr_left _ haddress

theorem Ident.elementAddress_twins (hm : a.Mirrors decls events a') {array : Ident}
    {elem elem' : Ty} {len len' : Option Nat} {index index' : LowerM Ir.Value}
    (h : array.HasType a d (.array elem len)) (h' : array.HasType a' d' (.array elem' len'))
    (hb : b.Lacks decls) (hindex : index' b = index b) :
    array.elementAddress a' index' b = array.elementAddress a index b := by
  obtain ⟨htwins, houtline⟩ := hm.idents array d d' _ _ h h'
  have haddress := Decl.address_twins htwins h.typeOf h'.typeOf houtline hb array.span
  obtain ⟨rfl, rfl⟩ := Ty.array.inj (Ty.eq_of_outline houtline (by simp))
  refine LowerM.liftBind_congr (Analysis.Consistent.declOf_eq h)
    (Analysis.Consistent.declOf_eq h') ?_
  refine LowerM.liftBind_congr (Analysis.Consistent.typeOf_eq h.typeOf)
    (Analysis.Consistent.typeOf_eq h'.typeOf) ?_
  refine LowerM.bind_congr haddress (Decl.address_ensures a d array.span) ?_
  rintro base _ rfl
  exact LowerM.bind_congr_left _ hindex

/-- The second analysis comes to what the first one says. -/
theorem Analysis.Mirrors.mimics (hm : a.Mirrors decls events a') {typed : Prop} :
    a'.guide.Mimics a typed events (Ir.Builder.Lacks decls) := by
  have hname : ∀ {id : ExprId} {ident : Ident}, .enter (.expr (.name id ident)) ∈ events →
      ∃ d type d' type', ident.HasType a d type ∧ ident.HasType a' d' type' := by
    intro id ident hin
    obtain ⟨⟨_, h⟩, _, h'⟩ := hm.exprs _ hin
    cases h with
    | name h => cases h' with
      | name h' => exact ⟨_, _, _, _, h, h'⟩
  refine ⟨?_, ?_, ?_, ?_, ?_, fun _ hcode _ => hcode⟩
  · intro b id ident hb hin
    obtain ⟨_, _, _, _, h, h'⟩ := hname hin
    exact Ident.read_twins hm h h' hb
  · intro b id ident hb hin
    obtain ⟨_, _, _, _, h, h'⟩ := hname hin
    obtain ⟨htwins, houtline⟩ := hm.idents _ _ _ _ _ h h'
    refine LowerM.liftBind_congr (Analysis.Consistent.declOf_eq h)
      (Analysis.Consistent.declOf_eq h') ?_
    exact Decl.address_twins htwins h.typeOf h'.typeOf houtline hb _
  · intro b id array lbracket rbracket position index index' hb hin hindex
    obtain ⟨⟨_, h⟩, _, h'⟩ := hm.exprs _ hin
    cases h with
    | index h _ _ => cases h' with
      | index h' _ _ => exact Ident.elementAddress_twins hm h h' hb hindex
  · intro id callee lparen rparen args hin
    obtain ⟨⟨_, h⟩, _, h'⟩ := hm.exprs _ hin
    cases h with
    | call h _ => cases h' with
      | call h' _ =>
        obtain ⟨htwins, houtline⟩ := hm.idents _ _ _ _ _ h h'
        change (a'.declOf callee >>= _) = (a.declOf callee >>= _)
        rw [Analysis.Consistent.declOf_eq h, Analysis.Consistent.declOf_eq h']
        exact Decl.functionValue_twins htwins h.typeOf h'.typeOf houtline _
  · intro d hin hvar
    exact (hm.locals d hvar hin).2

/-- No variable is one of those declarations. -/
def Analysis.Mirrors.setting (hm : a.Mirrors decls events a') : Setting where
  a := a
  g := a'
  lexical := False
  events := events
  inv := Ir.Builder.Lacks decls
  result := .void
  R := ⟨fun _ => True, fun d _ => ∀ g ∈ decls, g.id ≠ d.id, fun d _ => ∀ g ∈ decls, g.id ≠ d.id, 0,
    False⟩
  mimics := hm.mimics
  permits := a.permits_any
  bound := fun _ _ => trivial
  declares := fun hin hvar _ _ => (hm.locals _ hvar hin).1
  keep := by
    refine ⟨?_, ?_, ?_⟩
    · intro b b' hb hbindings d hd
      rw [Ir.Builder.binding?, hbindings]
      exact hb d hd
    · intro b d type hid hb g hg
      rw [Ir.Builder.withLocal_binding?, if_neg (hid g hg).symm]
      exact hb g hg
    · intro b d index type hid hb g hg
      rw [Ir.Builder.binding?_bind, if_neg (hid g hg).symm]
      exact hb g hg
  firm := False.elim

/-- A function body is lowered to the same code. -/
theorem Stmt.lowerBody_copies (hm : a.Mirrors decls events a') {body : Stmt}
    {params : List (Decl × Ty)} (hin : body.events ⊆ events)
    (hids : ∀ param ∈ params, ∀ g ∈ decls, g.id ≠ param.1.id) (name : String) (ret : Ty) :
    body.lowerBody a' params (Decl.startBuilder name ret params) =
      body.lowerBody a params (Decl.startBuilder name ret params) := by
  have htakes : ∀ param ∈ params, hm.setting.Takes param.1 param.2 := fun param hparam =>
    Setting.takes_of_untyped not_false (fun _ => hids param hparam) (fun _ => hids param hparam) _
  have hempty : (Decl.startBuilder name ret params).Lacks decls :=
    fun d _ => Decl.startBuilder_binding? name ret params d.id
  exact (Stmt.lowerBody_follows (F := hm.setting) name ret ⟨False.elim, False.elim, hin⟩ htakes
    False.elim (Nat.zero_le _) hempty False.elim).1

end

end MicroC
