import MicroC.Proofs.Ir.TypeText
import MicroC.Proofs.Typing.Completeness

/-!
Reading types, with a stack as for machine types. The text of a type starts with a basic type;
lengths and lists of parameters follow, each of which applies to all that stands before it. An empty
list is written like the list of just `void`, and is read as the empty one; apart from that no text
stands for two types. The types that the checker admits have no parameter `void`.
-/

namespace MicroC

namespace Ty

/-- What a list of parameters stands for: just `void` stands for no parameters. -/
def listed : List Ty → List Ty
  | [.basic .void] => []
  | params => params

/-- What waits on the stack of the reader. -/
inductive Frame where
  | type (t : Ty)
  /-- An array whose length may have further digits. -/
  | length (elem : Ty) (len : Option Nat)
  /-- A function that lacks further parameters. -/
  | params (result : Ty) (before : List Ty)

/-- The pieces that the texts of types are made from. -/
inductive Token where
  | base (kind : BasicKind)
  | bracket | closeBracket | paren | comma | closeParen
  | digit (c : Char)

def Token.push : Token → List Frame → Option (List Frame)
  | base kind, stack => some (.type (basic kind) :: stack)
  | bracket, .type t :: stack => some (.length t none :: stack)
  | digit c, .length t len :: stack =>
    some (.length t (some (10 * len.getD 0 + (c.toNat - '0'.toNat))) :: stack)
  | closeBracket, .length t len :: stack => some (.type (array t len) :: stack)
  | paren, .type t :: stack => some (.params t [] :: stack)
  | comma, .type t :: .params result before :: stack => some (.params result (before ++ [t]) :: stack)
  | closeParen, .type t :: .params result before :: stack =>
    some (.type (func result (listed (before ++ [t]))) :: stack)
  | _, _ => none

def read : List Char → List Frame → Option (List Frame)
  | [], stack => some stack
  | 'c' :: 'h' :: 'a' :: 'r' :: rest, stack => (Token.base .char).push stack >>= read rest
  | 'i' :: 'n' :: 't' :: rest, stack => (Token.base .int).push stack >>= read rest
  | 'v' :: 'o' :: 'i' :: 'd' :: rest, stack => (Token.base .void).push stack >>= read rest
  | '[' :: rest, stack => Token.bracket.push stack >>= read rest
  | ']' :: rest, stack => Token.closeBracket.push stack >>= read rest
  | '(' :: rest, stack => Token.paren.push stack >>= read rest
  | ',' :: ' ' :: rest, stack => Token.comma.push stack >>= read rest
  | ')' :: rest, stack => Token.closeParen.push stack >>= read rest
  | c :: rest, stack => if c.isDigit then (Token.digit c).push stack >>= read rest else none

mutual

/-- The type that is read from the text of a type. -/
def written : Ty → Ty
  | basic kind => basic kind
  | array elem len => array elem.written len
  | func result params => func result.written (listed (writtenAll params))

def writtenAll : List Ty → List Ty
  | [] => []
  | param :: params => param.written :: writtenAll params

end

section

variable (rest : List Char) (stack : List Frame)

theorem read_digit {c : Char} (hc : c.isDigit) :
    read (c :: rest) stack = (Token.digit c).push stack >>= read rest := by
  rw [read, if_pos hc]
  all_goals simp [Ir.Ty.ne_of_isDigit hc]

theorem read_digits {digits : List Char} (hdigits : ∀ c ∈ digits, c.isDigit) (elem : Ty) (len : Nat) :
    read (digits ++ rest) (.length elem (some len) :: stack) =
      read rest (.length elem (some (Nat.ofDigitChars 10 digits len)) :: stack) := by
  induction digits generalizing len with
  | nil => rfl
  | cons c digits ih =>
    obtain ⟨hc, hdigits⟩ := List.forall_mem_cons.mp hdigits
    rw [List.cons_append, read_digit _ _ hc, Nat.ofDigitChars_cons]
    exact ih hdigits _

/-- The digits of a number. -/
theorem read_toString (elem : Ty) (len : Nat) :
    read ((toString len).toList ++ rest) (.length elem none :: stack) =
      read rest (.length elem (some len) :: stack) := by
  have hdigits : ∀ c ∈ (toString len).toList, c.isDigit := fun _ => Ir.Builder.isDigit_of_mem_toString
  have hsome := read_digits rest stack hdigits elem 0
  have hne : (toString len).toList ≠ [] := by
    rw [Nat.toString_eq_repr, Nat.toList_repr]
    exact Nat.toDigits_ne_nil
  obtain ⟨c, cs, hcs⟩ := List.exists_cons_of_ne_nil hne
  -- The first digit makes a length out of none, as it does out of zero.
  have hfirst : read ((toString len).toList ++ rest) (.length elem none :: stack) =
      read ((toString len).toList ++ rest) (.length elem (some 0) :: stack) := by
    rw [hcs] at hdigits ⊢
    rw [List.cons_append, read_digit _ _ (hdigits c List.mem_cons_self),
      read_digit _ _ (hdigits c List.mem_cons_self)]
    rfl
  rw [hfirst, hsome, Nat.toString_eq_repr, Nat.toList_repr, Nat.ofDigitChars_ten_toDigits]

end

mutual

/-- The text of a type pushes the type that it stands for, whatever follows and whatever is on the
stack. -/
theorem read_text (rest : List Char) (stack : List Frame) : (t : Ty) →
    read (t.text.toList ++ rest) stack = read rest (.type t.written :: stack)
  | basic kind => by cases kind <;> rfl
  | array elem (some len) => by
    have htext : (array elem (some len)).text.toList ++ rest = elem.text.toList ++
        '[' :: ((toString len).toList ++ ']' :: rest) := by simp [text]
    calc read ((array elem (some len)).text.toList ++ rest) stack
        = read ((toString len).toList ++ ']' :: rest) (.length elem.written none :: stack) := by
          rw [htext, read_text _ _ elem]
          rfl
      _ = read rest (.type (array elem (some len)).written :: stack) := read_toString _ _ _ len
  | array elem none => by
    have htext : (array elem none).text.toList ++ rest = elem.text.toList ++ '[' :: ']' :: rest := by
      simp [text]
    rw [htext, read_text _ _ elem]
    rfl
  | func result [] => by
    have htext : (func result []).text.toList ++ rest =
        result.text.toList ++ '(' :: 'v' :: 'o' :: 'i' :: 'd' :: ')' :: rest := by simp [text]
    rw [htext, read_text _ _ result]
    rfl
  | func result (param :: params) => by
    have htext : (func result (param :: params)).text.toList ++ rest = result.text.toList ++
        '(' :: (param.text.toList ++ ((textRest params).toList ++ ')' :: rest)) := by
      simp [text]
    calc read ((func result (param :: params)).text.toList ++ rest) stack
        = read (param.text.toList ++ ((textRest params).toList ++ ')' :: rest))
            (.params result.written [] :: stack) := by
          rw [htext, read_text _ _ result]
          rfl
      _ = read ((textRest params).toList ++ ')' :: rest)
            (.type param.written :: .params result.written [] :: stack) := read_text _ _ param
      _ = read rest (.type (func result (param :: params)).written :: stack) :=
          read_textRest rest stack result.written [] param.written params

/-- The parameters after the first, up to the parenthesis. -/
theorem read_textRest (rest : List Char) (stack : List Frame) (result : Ty) (before : List Ty)
    (param : Ty) : (params : List Ty) →
    read ((textRest params).toList ++ ')' :: rest) (.type param :: .params result before :: stack) =
      read rest (.type (func result (listed (before ++ param :: writtenAll params))) :: stack)
  | [] => rfl
  | next :: params => by
    have htext : (textRest (next :: params)).toList ++ ')' :: rest =
        ',' :: ' ' :: (next.text.toList ++ ((textRest params).toList ++ ')' :: rest)) := by
      simp [textRest]
    have hbefore : before ++ param :: writtenAll (next :: params) =
        before ++ [param] ++ next.written :: writtenAll params := by simp [writtenAll]
    rw [hbefore, ← read_textRest rest stack result (before ++ [param]) next.written params,
      ← read_text _ _ next, htext]
    rfl

end

theorem read_text_self (t : Ty) : read t.text.toList [] = some [.type t.written] := by
  have h := read_text [] [] t
  rw [List.append_nil] at h
  exact h

/-! Types that can be told apart. -/

theorem text_listed (result : Ty) (params : List Ty) :
    (func result (listed params)).text = (func result params).text := by
  unfold listed
  split
  · simp only [text, textRest, String.append_assoc]
    rfl
  · rfl

mutual

theorem text_written : (t : Ty) → t.written.text = t.text
  | basic kind => rfl
  | array elem (some len) => by simp only [written, text, text_written elem]
  | array elem none => by simp only [written, text, text_written elem]
  | func result [] => by
    rw [written, text_listed]
    simp only [writtenAll, text, text_written result]
  | func result (param :: params) => by
    rw [written, text_listed]
    simp only [writtenAll, text, text_written result, text_written param, textRest_written params]

theorem textRest_written : (params : List Ty) → textRest (writtenAll params) = textRest params
  | [] => rfl
  | param :: params => by
    simp only [writtenAll, textRest, text_written param, textRest_written params]

end

/-- Two types have the same text just when they differ only in lists that stand for no
parameters. -/
theorem text_eq_iff {s t : Ty} : s.text = t.text ↔ s.written = t.written := by
  constructor
  · intro h
    have hs := s.read_text_self
    rw [h, t.read_text_self] at hs
    exact (Frame.type.inj (List.cons.inj (Option.some.inj hs)).1).symm
  · intro h
    rw [← text_written s, h, text_written]

/-- No list of parameters, at any depth, has `void` in it. -/
inductive VoidFree : Ty → Prop
  | basic {kind : BasicKind} : VoidFree (basic kind)
  | array {elem : Ty} {len : Option Nat} : VoidFree elem → VoidFree (array elem len)
  | func {result : Ty} {params : List Ty} : VoidFree result → void ∉ params →
    (∀ param ∈ params, VoidFree param) → VoidFree (func result params)

theorem listed_of_not_mem {params : List Ty} (h : void ∉ params) : listed params = params := by
  unfold listed
  split
  · exact absurd List.mem_cons_self h
  · rfl

theorem writtenAll_eq_map (params : List Ty) : writtenAll params = params.map written := by
  induction params with
  | nil => rfl
  | cons param params ih => rw [writtenAll, ih, List.map_cons]

theorem VoidFree.written_eq {t : Ty} (h : t.VoidFree) : t.written = t := by
  induction h with
  | basic => rfl
  | array _ ih => rw [written, ih]
  | @func result params _ hvoid _ ihresult ihparams =>
    have hparams : writtenAll params = params := by
      rw [writtenAll_eq_map]
      exact (List.map_congr_left ihparams).trans (List.map_id' params)
    rw [written, ihresult, hparams, listed_of_not_mem hvoid]

/-- What can be passed is not `void`, and no function. -/
theorem VoidFree.of_isParam {t : Ty} (h : t.isParam) : t ≠ void ∧ t.VoidFree := by
  have hscalar : ∀ t : Ty, t.isScalar → t ≠ void ∧ t.VoidFree := by
    intro t ht
    cases t with
    | basic kind =>
      refine ⟨?_, .basic⟩
      rintro ⟨⟩
      cases ht
    | array _ _ | func _ _ => cases ht
  cases t with
  | array elem _ => exact ⟨nofun, .array (hscalar elem h).2⟩
  | basic _ | func _ _ => exact hscalar _ h

theorem VoidFree.result {result : Ty} {params : List Ty} (h : (Ty.func result params).VoidFree) :
    result.VoidFree := by
  cases h
  assumption

theorem VoidFree.elem {elem : Ty} {len : Option Nat} (h : (Ty.array elem len).VoidFree) :
    elem.VoidFree := by
  cases h
  assumption

end Ty

/-! The types of a program. -/

section

variable {r : Resolution}

mutual

theorem TypeExpr.Means.voidFree {type : Ty} : {written : TypeExpr} → written.Means r type →
    type.VoidFree
  | _, .named _ _ h => h.voidFree
  | _, .array h _ => .array h.voidFree
  | _, .func h hparams => by
    have hpassed := fun param hparam => Ty.VoidFree.of_isParam (hparams.isParam param hparam)
    exact .func h.voidFree (fun hvoid => (hpassed _ hvoid).1 rfl) fun param hparam =>
      (hpassed param hparam).2

theorem Decl.Means.voidFree {type : Ty} : {d : Decl} → d.Means r type → type.VoidFree
  | _, .func h _ | _, .var h | _, .typedef h => h.voidFree
  | _, .basic => .basic

end

theorem Ident.OfType.voidFree {ident : Ident} {type : Ty} (h : ident.OfType r type) :
    type.VoidFree := by
  obtain ⟨d, _, _, hmeans⟩ := h
  exact hmeans.voidFree

theorem Expr.OfType.voidFree {type : Ty} : {e : Expr} → e.OfType r type → type.VoidFree
  | .literal _ (.int _) _, h => h.2 ▸ .basic
  | .literal _ (.char _) _, h => Eq.symm h ▸ .basic
  | .name _ _, h => Ident.OfType.voidFree h
  | .paren _ _ inner _, h => Expr.OfType.voidFree (e := inner) h
  | .unary _ .neg _ _, h => h.1.voidFree
  | .unary _ .not _ _, h => h.1 ▸ .basic
  | .binary _ _ _ _ _, h => h.1.voidFree
  | .call _ _ _ _ _, h => by
    obtain ⟨_, hcallee, _⟩ := h
    exact hcallee.voidFree.result
  | .index _ _ _ _ _, h => by
    obtain ⟨_, _, harray, _⟩ := h
    exact harray.voidFree.elem

end

/-- The types that a table has for a program have no parameter `void`. -/
structure TypeTable.VoidFree (p : Program) (t : TypeTable) : Prop where
  decls : ∀ d type, p.Declares d → t.decl? d = some type → type.VoidFree
  exprs : ∀ e type, .enter (.expr e) ∈ p.events → t.expr? e = some type → type.VoidFree

theorem Program.check_voidFree {p : Program} {r : Resolution} {t : TypeTable} (hp : p.Coherent)
    (hr : p.resolve = .ok r) (ht : p.check r = .ok t) : t.VoidFree p := by
  have hexact := p.check_exact hp (p.resolve_covers hr) ht
  exact ⟨fun d type hd htype => (hexact.decls d type hd htype).1.voidFree,
    fun e type he htype => (hexact.exprs e type he htype).1.voidFree⟩

/-- The text of a type says which type it is: for all machine types, and for all types without a
parameter `void`, as all types of a program are that passes the checker. -/
theorem text_unambiguous :
    (∀ s t : Ir.Ty, s.text = t.text → s = t) ∧
    (∀ s t : Ty, s.VoidFree → t.VoidFree → s.text = t.text → s = t) ∧
    ∀ (p : Program) (r : Resolution) (t : TypeTable), p.Coherent → p.resolve = .ok r →
      p.check r = .ok t → t.VoidFree p := by
  refine ⟨fun _ _ => Ir.Ty.text_inj, ?_, fun _ _ _ => Program.check_voidFree⟩
  intro s t hs ht htext
  rw [← hs.written_eq, ← ht.written_eq]
  exact Ty.text_eq_iff.mp htext

/-- A text that comes apart in one way only, for either kind of types, and a program whose types
have no parameter `void`. -/
theorem text_unambiguous_arraySum :
    (∀ t : Ir.Ty, t.text = "[3 x i8]* (i32)" → t = .func (.ptr (.array .i8 3)) [.i32]) ∧
    (∀ t : Ty, t.VoidFree → t.text = "void(int[])" → t = .func .void [.array .int none]) ∧
    ∃ r t, Samples.arraySum.resolve = .ok r ∧ Samples.arraySum.check r = .ok t ∧
      t.VoidFree Samples.arraySum := by
  obtain ⟨hir, hty, hcheck⟩ := text_unambiguous
  have hfree : (Ty.func .void [.array .int none]).VoidFree :=
    .func .basic (by decide) (by simpa using .array .basic)
  obtain ⟨r, hr, hchecked⟩ : ∃ r, Samples.arraySum.resolve = .ok r ∧
      (Samples.arraySum.check r).toOption.any fun _ => true :=
    Except.exists_of_any (by decide +kernel)
  obtain ⟨t, ht, _⟩ := Except.exists_of_any hchecked
  exact ⟨fun t ht => hir _ _ (ht.trans (by decide)),
    fun t hvoid ht => hty _ _ hvoid hfree (ht.trans (by decide)),
    r, t, hr, ht, hcheck _ r t (by decide +kernel) hr ht⟩

/-- Without the condition a text is ambiguous. -/
example : (Ty.func .int [.void]).text = (Ty.func .int []).text := by decide

end MicroC
