import MicroC.Lowering.Module
import MicroC.Proofs.Lowering.Blocks

/-!
Code after a `return`. Lowering leaves the cursor closed exactly after the statements that always
return, whatever has been built before, so the analysis of return paths and the code agree. The
rest of a block behind such a statement leaves no trace: a function body can be cut there, at any
depth, and the function stays the same.
-/

namespace MicroC

/-! Bodies without the parts that are never reached. -/

mutual

/-- A statement without what stands behind statements that always return. -/
def Stmt.live : Stmt → Stmt
  | .block id lbrace items rbrace => .block id lbrace (Item.liveAll items) rbrace
  | .branch id span cond onTrue none => .branch id span cond onTrue.live none
  | .branch id span cond onTrue (some onFalse) =>
    .branch id span cond onTrue.live (some onFalse.live)
  | .loop id span cond body => .loop id span cond body.live
  | s@(.empty ..) | s@(.expr ..) | s@(.ret ..) => s

def Item.live : Item → Item
  | .decl d => .decl d
  | .stmt s => .stmt s.live

def Item.liveAll : List Item → List Item
  | [] => []
  | item :: rest => item.live :: if item.alwaysReturns then [] else Item.liveAll rest

end

/-- Behind a statement that always returns the items do not matter. -/
theorem Item.liveAll_behind {s : Stmt} (hs : s.alwaysReturns) (before after after' : List Item) :
    Item.liveAll (before ++ .stmt s :: after) = Item.liveAll (before ++ .stmt s :: after') := by
  induction before with
  | nil => simp [Item.liveAll, Item.alwaysReturns, hs]
  | cons item rest ih => simp [Item.liveAll, ih]

section

variable {a : Analysis} {b : Ir.Builder}

open LowerM

/-! Where the cursor is. -/

/-- Selecting a block opens the cursor, wherever it was. -/
theorem LowerM.selectBlock_opens (block : Ir.BlockId) (b : Ir.Builder) :
    (selectBlock block).Ensures b fun _ b' => b'.current.isSome :=
  selectBlock_ensures fun _ => rfl

/-- The cursor is closed behind a statement if and only if the statement always returns. -/
theorem Stmt.lower_leaves (s : Stmt) (hb : b.current.isSome) :
    (s.lower a).Ensures b fun _ b' => b'.current.isSome = !s.alwaysReturns := by
  have hs : (a.free s.events 0).Ready [] (.blank b) := Analysis.setting_ready hb (Nat.zero_le _)
  refine Run.mono (s.lower_follows _ ⟨False.elim, False.elim, List.Subset.refl _⟩ hs).draws ?_
  rintro _ _ ⟨s', rfl, hends⟩
  exact hends.isOpen

theorem Item.lower_leaves (item : Item) (hb : b.current.isSome) :
    (item.lower a).Ensures b fun _ b' => b'.current.isSome = !item.alwaysReturns := by
  cases item with
  | stmt s => exact s.lower_leaves hb
  | decl d =>
    have hs : (a.free d.events 0).Ready [] (.blank b) := Analysis.setting_ready hb (Nat.zero_le _)
    refine Run.mono (d.lowerLocal_follows hs ⟨False.elim, False.elim, List.Subset.refl _⟩).draws ?_
    rintro _ _ ⟨s', rfl, hends, _⟩
    exact hends.isOpen

/-! Dead code. -/

/-- Two blocks whose first items do the same, if the rest does the same from there. -/
theorem Item.lowerAll_cons_congr {item item' : Item} {rest rest' : List Item} (b : Ir.Builder)
    (hitem : b.current.isSome → item'.lower a b = item.lower a b)
    (hrest : ∀ b', b'.current.isSome = !item.alwaysReturns →
      Item.lowerAll a rest' b' = Item.lowerAll a rest b') :
    Item.lowerAll a (item' :: rest') b = Item.lowerAll a (item :: rest) b := by
  cases hcurrent : b.current with
  | none => rw [Item.lowerAll_of_closed _ _ hcurrent, Item.lowerAll_of_closed _ _ hcurrent]
  | some id =>
    have hopen : b.current.isSome := by rw [hcurrent]; rfl
    rw [Item.lowerAll, Item.lowerAll, isOpen_bind_apply, isOpen_bind_apply, if_pos hopen,
      if_pos hopen]
    exact LowerM.bind_congr (hitem hopen) (item.lower_leaves hopen) fun _ b' hb' => hrest b' hb'

/-- What stands behind a statement that always returns is not lowered. -/
theorem Item.lowerAll_behind {s : Stmt} (hs : s.alwaysReturns) (before after after' : List Item)
    (b : Ir.Builder) : Item.lowerAll a (before ++ .stmt s :: after) b =
      Item.lowerAll a (before ++ .stmt s :: after') b := by
  induction before generalizing b with
  | nil =>
    refine Item.lowerAll_cons_congr b (fun _ => rfl) ?_
    intro b' hb'
    have hclosed : b'.current = none := by simpa [Item.alwaysReturns, hs] using hb'
    rw [Item.lowerAll_of_closed _ _ hclosed, Item.lowerAll_of_closed _ _ hclosed]
  | cons item rest ih => exact Item.lowerAll_cons_congr b (fun _ => rfl) fun b' _ => ih b'

/-- A condition that chooses between two new blocks, before steps that do the same from the first of
them on. -/
theorem LowerM.test_congr {α : Type} {cond : LowerM Ir.Value} {trueLabel falseLabel : String}
    {f f' : Ir.BlockId → Ir.BlockId → LowerM α}
    (hf : ∀ onTrue onFalse (b' : Ir.Builder), b'.current.isSome →
      f' onTrue onFalse b' = f onTrue onFalse b') :
    (do let value ← cond
        let onTrue ← newBlock trueLabel
        let onFalse ← newBlock falseLabel
        terminate (.condBr value onTrue onFalse)
        selectBlock onTrue
        f' onTrue onFalse : LowerM α) b =
    (do let value ← cond
        let onTrue ← newBlock trueLabel
        let onFalse ← newBlock falseLabel
        terminate (.condBr value onTrue onFalse)
        selectBlock onTrue
        f onTrue onFalse : LowerM α) b := by
  refine LowerM.bind_congr_right fun value b₁ => LowerM.bind_congr_right fun onTrue b₂ => ?_
  refine LowerM.bind_congr_right fun onFalse b₃ => LowerM.bind_congr_right fun _ b₄ => ?_
  exact LowerM.bind_congr rfl (selectBlock_opens _ b₄) fun _ b' hb' => hf onTrue onFalse b' hb'

mutual

/-- Without its dead code a statement is lowered as before. -/
theorem Stmt.lower_live : (s : Stmt) → ∀ {b : Ir.Builder}, b.current.isSome →
    s.live.lower a b = s.lower a b
  | .block _ _ items _, b, _ => Item.lowerAll_live items b
  | .empty .., _, _ | .expr .., _, _ | .ret .., _, _ => rfl
  | .branch _ _ cond onTrue none, b, hb => by
    refine LowerM.test_congr fun thenBlock endBlock b' hb' => ?_
    exact LowerM.bind_congr_left _ (onTrue.lower_live hb')
  | .branch _ _ cond onTrue (some onFalse), b, hb => by
    refine LowerM.test_congr fun thenBlock elseBlock b' hb' => ?_
    refine LowerM.bind_congr (onTrue.lower_live hb') (onTrue.lower_leaves hb') fun _ b₁ _ => ?_
    refine LowerM.bind_congr_right fun merge b₂ => ?_
    refine LowerM.bind_congr rfl (selectBlock_opens _ b₂) fun _ b₃ hb₃ => ?_
    exact LowerM.bind_congr_left _ (onFalse.lower_live hb₃)
  | .loop _ _ cond body, b, hb => by
    refine LowerM.bind_congr_right fun header b₁ => ?_
    refine LowerM.bind_congr_right fun _ b₂ => LowerM.bind_congr_right fun _ b₃ => ?_
    refine LowerM.test_congr fun bodyBlock endBlock b' hb' => ?_
    exact LowerM.bind_congr_left _ (body.lower_live hb')

theorem Item.lower_live : (item : Item) → ∀ {b : Ir.Builder}, b.current.isSome →
    item.live.lower a b = item.lower a b
  | .decl _, _, _ => rfl
  | .stmt s, _, hb => s.lower_live hb

theorem Item.lowerAll_live : (items : List Item) → ∀ b : Ir.Builder,
    Item.lowerAll a (Item.liveAll items) b = Item.lowerAll a items b
  | [], _ => rfl
  | item :: rest, b => by
    rw [Item.liveAll]
    refine Item.lowerAll_cons_congr b (item.lower_live) ?_
    intro b' hb'
    cases hreturns : item.alwaysReturns with
    | true =>
      have hclosed : b'.current = none := by simpa [hreturns] using hb'
      rw [Item.lowerAll_of_closed _ _ hclosed, Item.lowerAll_of_closed _ _ hclosed]
    | false => exact Item.lowerAll_live rest b'

end

/-! Functions. -/

theorem LowerM.startBody_opens (b : Ir.Builder) :
    (discard (build (·.startBody)) : LowerM Unit).Ensures b fun _ b' => b'.current.isSome := by
  refine Run.discard_iff.mpr (LowerM.Ensures.build fun id b' hop => ?_)
  unfold Ir.Builder.startBody at hop
  split at hop
  · cases hop
    rfl
  · cases hop

theorem Decl.spillParams_staysOpen (params : List (Decl × Ty)) (index : Nat)
    (hb : b.current.isSome) :
    (Decl.spillParams index params).Ensures b fun _ b' => b'.current.isSome := by
  induction params generalizing index b with
  | nil => exact hb
  | cons param rest ih =>
    obtain ⟨d, type⟩ := param
    unfold Decl.spillParams
    refine Run.bind_iff.mpr (Run.get_iff.mpr ?_)
    split
    · exact hb
    · split
      · exact ih (index + 1) hb
      · refine Run.bind_iff.mpr (allocate_some_ensures ?_)
        exact Run.bind_iff.mpr (Run.discard_iff.mpr (emit_ensures fun _ _ => ih (index + 1) hb))

theorem Stmt.lowerBody_live (params : List (Decl × Ty)) (body : Stmt) (b : Ir.Builder) :
    body.live.lowerBody a params b = body.lowerBody a params b := by
  refine LowerM.bind_congr rfl (startBody_opens b) fun _ b₁ hb₁ => ?_
  refine LowerM.bind_congr rfl (Decl.spillParams_staysOpen params 0 hb₁) fun _ b₂ hb₂ => ?_
  refine LowerM.bind_congr (body.lower_live hb₂) (body.lower_leaves hb₂) ?_
  exact fun _ _ _ => rfl

theorem Decl.lowerFunction_live (id : DeclId) (name : String) (span : Span) (signature : TypeExpr)
    (body : Stmt) : (Decl.func id name span signature (some body.live)).lowerFunction a =
      (Decl.func id name span signature (some body)).lowerFunction a := by
  have hbody : ∀ params b, (body.live.lowerBody a params).run b = (body.lowerBody a params).run b :=
    fun params b => Stmt.lowerBody_live params body b
  simp only [Decl.lowerFunction, Decl.lowerFunctionBy, hbody]
  rfl

end

/-- After the code of a statement the cursor is closed if and only if the statement always returns.
What stands behind such a statement in a block adds nothing to the function under construction,
whatever it is; wherever the block stands in a function body, the function is the same with any
other items there. -/
theorem Stmt.lower_closes_iff_alwaysReturns (a : Analysis) :
    (∀ (s : Stmt) (b b' : Ir.Builder), b.current.isSome → (s.lower a).run b = .ok ((), b') →
      (b'.current = none ↔ s.alwaysReturns)) ∧
    (∀ s : Stmt, s.alwaysReturns → ∀ (before after after' : List Item),
      (∀ b, (Item.lowerAll a (before ++ .stmt s :: after)).run b =
        (Item.lowerAll a (before ++ .stmt s :: after')).run b) ∧
      ∀ id lbrace rbrace, (Stmt.block id lbrace (before ++ .stmt s :: after) rbrace).live =
        (Stmt.block id lbrace (before ++ .stmt s :: after') rbrace).live) ∧
    ∀ (body body' : Stmt), body.live = body'.live → ∀ id name span signature,
      (Decl.func id name span signature (some body)).lowerFunction a =
        (Decl.func id name span signature (some body')).lowerFunction a := by
  refine ⟨?_, ?_, ?_⟩
  · intro s b b' hb hrun
    have hends : (s.lower a).Ensures b fun _ b' => b'.current.isSome = !s.alwaysReturns :=
      s.lower_leaves hb
    have hleaves := hends.of_ok hrun
    cases hcurrent : b'.current <;> cases hreturns : s.alwaysReturns <;>
      simp [hcurrent, hreturns] at hleaves ⊢
  · intro s hs before after after'
    refine ⟨Item.lowerAll_behind hs before after after', ?_⟩
    intro id lbrace rbrace
    rw [Stmt.live, Stmt.live, Item.liveAll_behind hs before after after']
  · intro body body' hlive id name span signature
    rw [← Decl.lowerFunction_live id name span signature body, hlive, Decl.lowerFunction_live]

/-- The body `{ if (1) { return 1; … } else return 2; … }` with given items behind the returns. -/
def Stmt.bothReturn (inner outer : List Item) : Stmt :=
  let one := Expr.literal 0 (.int 1) ⟨4, 5⟩
  let first := Stmt.ret 0 ⟨8, 14⟩ (some one)
  let second := Stmt.ret 1 ⟨20, 26⟩ (some (.literal 1 (.int 2) ⟨27, 28⟩))
  let test := Stmt.branch 3 ⟨1, 3⟩ one (.block 2 ⟨7, 8⟩ (.stmt first :: inner) ⟨15, 16⟩) (some second)
  .block 4 ⟨0, 1⟩ (.stmt test :: outer) ⟨30, 31⟩

/-- Names are not resolved; declaration 3 is a function without parameters. -/
def Analysis.intFunction : Analysis where
  resolution := { scopes := {}, root := 0, file := 0 }
  types := ({} : TypeTable).setDecl 3 (.func .int [])

def Ir.Builder.intFunction : Ir.Builder := (Ir.Builder.new "f" .i32 []).startBody.2

/-- Items that could not be lowered themselves do no harm where they are not reached. -/
theorem Stmt.lower_closes_iff_alwaysReturns_bothReturn :
    let stray := Item.stmt (.expr 5 (.name 2 ⟨0, "x", ⟨40, 41⟩⟩))
    let function := fun body => (Decl.func 3 "f" ⟨0, 1⟩
      (.func 1 (.named 0 ⟨1, "int", ⟨0, 1⟩⟩) ⟨0, 1⟩ [] ⟨0, 1⟩) (some body)).lowerFunction .intFunction
    (∃ b', ((Stmt.bothReturn [stray] [stray]).lower Analysis.intFunction).run .intFunction = .ok ((), b') ∧
      b'.current = none) ∧
    ∃ f, function (.bothReturn [stray] [stray]) = .ok f ∧ function (.bothReturn [] []) = .ok f := by
  intro stray function
  have hreturns := Stmt.lower_closes_iff_alwaysReturns .intFunction
  constructor
  · obtain ⟨⟨_, b'⟩, hrun, _⟩ : ∃ out, ((Stmt.bothReturn [stray] [stray]).lower Analysis.intFunction).run
        .intFunction = .ok out ∧ true := Except.exists_of_any (by decide +kernel)
    exact ⟨b', hrun, (hreturns.1 _ _ b' rfl hrun).mpr rfl⟩
  · obtain ⟨f, hf, _⟩ : ∃ f, function (.bothReturn [] []) = .ok f ∧ true :=
      Except.exists_of_any (by decide +kernel)
    have hlive : (Stmt.bothReturn [stray] [stray]).live = (Stmt.bothReturn [] []).live := rfl
    exact ⟨f, (hreturns.2.2 _ _ hlive _ _ _ _).trans hf, hf⟩

end MicroC
