import Termwise.Concretization
import Termwise.Proofs.Casts.NumericText
import Termwise.Proofs.Outcome

/-!
# The float of an integer literal

A literal with the text of an integer becomes a float in two ways: at once, as the argument of a
parameter that takes floats, or as the integer that it settles as, when the call around it turns
out to be one of floats. Both ways lead to the same float, also where it is only the nearest one.
The exception is zero behind a minus sign, for no integer is a negative zero.

## Main definitions

* `Text.NegativeZero`: the texts of zero behind a minus sign
* `Compilation.Leaves`: an action leaves an expression in some form

## Main results

* `Text.SignedNumeral.toFloat`: the float that is read off the text of an integer
* `float_of_integerText`: both ways from the text of an integer to a float
-/

namespace Termwise

namespace Text

/-- Zeros behind a minus sign. -/
def NegativeZero (text : List Char) : Prop := ∃ n, text = '-' :: List.replicate (n + 1) '0'

variable {digits text : List Char} {n : Nat} {z : Int}

/-! ## Zeros -/

/-- What denotes zero are zeros. -/
theorem Numeral.eq_zeros (h : Numeral digits 0) : ∃ n, digits = List.replicate (n + 1) '0' := by
  generalize hzero : 0 = value at h
  induction h with
  | digit hd =>
    subst hzero
    exact ⟨0, rfl⟩
  | @append digits m d h hd ih =>
    obtain ⟨rfl, rfl⟩ : m = 0 ∧ d = 0 := by omega
    obtain ⟨n, rfl⟩ := ih rfl
    exact ⟨n + 1, List.replicate_succ'.symm⟩

theorem numeral_zeros (n : Nat) : Numeral (List.replicate (n + 1) '0') 0 := by
  induction n with
  | zero => exact .digit (d := 0) (by decide)
  | succ n ih =>
    rw [List.replicate_succ']
    exact ih.append (d := 0) (by decide)

/-! ## Floats of integers -/

/-- The float nearest to a natural number. -/
theorem Decimal.nearest_natural (n : Nat) : nearest n 0 = Float.ofNat n := by
  by_cases hn : n = 0
  · rw [hn]
    rfl
  · have hlarge : ¬ (0 + (n.log2 : Int) < -400) := by omega
    rw [nearest, if_neg hn, if_neg (by decide), if_neg hlarge]
    rfl

/-- **The float of an integer's text** is the one nearest to the integer, but for negative zeros,
which denote the integer zero. -/
theorem SignedNumeral.toFloat (h : SignedNumeral text z) :
    ∃ d, NumericText text d ∧ (¬ NegativeZero text → d.toFloat = Float.ofInt z) ∧
      (NegativeZero text → d.toFloat = -0 ∧ z = 0) := by
  cases h with
  | unsigned h =>
    refine ⟨_, h.numericText .none, fun _ => Decimal.nearest_natural _, ?_⟩
    rintro ⟨m, rfl⟩
    cases h.isDigit '-' List.mem_cons_self
  | plus h =>
    refine ⟨_, h.numericText .plus, fun _ => Decimal.nearest_natural _, ?_⟩
    rintro ⟨m, hm⟩
    simp at hm
  | @minus digits n h =>
    -- a float keeps the sign of a zero and an integer does not
    refine ⟨_, h.numericText .minus, fun hzero => ?_, ?_⟩
    · cases n with
      | zero =>
        obtain ⟨m, rfl⟩ := h.eq_zeros
        exact (hzero ⟨m, rfl⟩).elim
      | succ n => exact congrArg Neg.neg (Decimal.nearest_natural (n + 1))
    · rintro ⟨m, hm⟩
      obtain rfl := List.tail_eq_of_cons_eq hm
      rw [← readDigits_eq_some_iff] at h
      obtain rfl := Option.some.inj (h.symm.trans (readDigits_eq_some_iff.2 (numeral_zeros m)))
      exact ⟨rfl, rfl⟩

end Text

open Text

/-- The action ends, with an expression left in the given form and none appended. -/
structure Compilation.Leaves (c : Compilation) (action : CheckM Unit) (id : ExprId)
    (e : Expression) : Prop where
  ends : Outcome action c
    (fun _ c' => c'.arena.exprs.size = c.arena.exprs.size ∧ c'.arena.expr id = e) fun _ _ => False

variable {c : Compilation} {id : ExprId} {declared : Option Ty} {span : Span} {text : String}
  {i : Int64}

@[simp] theorem Expression.kind_known (v : Value) (type : Builtin) :
    (Expression.known v type declared span).kind = .value v := rfl

@[simp] theorem Expression.ty_known (v : Value) (type : Builtin) :
    (Expression.known v type declared span).ty = .builtin type := rfl

/-- Two actions in turn. -/
theorem Compilation.Leaves.bind {first next : CheckM Unit} {e e' : Expression}
    (h : c.Leaves first id e)
    (hnext : ∀ c' : Compilation, c'.arena.exprs.size = c.arena.exprs.size →
      c'.arena.expr id = e → c'.Leaves next id e') :
    c.Leaves (do first; next) id e' := by
  refine ⟨outcome_bind.2 (h.ends.mono (fun _ c' h => ?_) fun _ _ h => h)⟩
  have hends := (hnext c' h.1 h.2).ends
  rwa [h.1] at hends

/-- A literal is coerced to the float that its text denotes. -/
theorem leaves_coerceArg (hid : id.index < c.arena.exprs.size)
    (he : c.arena.expr id = .known (.string text) .numberLiteral declared span) {x : Float}
    (hx : readFloat? text = some x) :
    c.Leaves (coerceArg id .float) id (.known (.float x) .float declared span) := by
  have hcast := @cast_text_float declared span .numberLiteral (by simp) text
  rw [hx, Option.map_some] at hcast
  have hcoerce : (c.arena.expr id).coerce .float =
      .ok (.known (.float x) .float declared span) := by
    rw [he]
    simp [Expression.coerce_eq, ExprKind.isMissingArg, ExprKind.isValue, hcast]
  constructor
  simp only [coerceArg_eq, outcome_bind, outcome_expr, hcoerce, outcome_modifyExpr]
  exact ⟨Arena.size_modifyExpr .., Arena.expr_modifyExpr_self hid _⟩

/-- A literal is settled as the integer that its text denotes. -/
theorem leaves_concretizeValue (hid : id.index < c.arena.exprs.size)
    (he : c.arena.expr id = .known (.string text) .numberLiteral declared span)
    (hi : Integer.read text = some i) :
    c.Leaves (concretizeValue id) id (.known (.int i) .int declared span) := by
  have hcast := @cast_text declared span .numberLiteral (by simp) text
  have hsettle := @settle_text declared span .numberLiteral (by simp) text
  rw [hi, Option.map_some] at hcast
  dsimp only at hsettle
  rw [Expression.ty_known, hcast, Option.some_or] at hsettle
  have hnative : (Ty.builtin .numberLiteral).native ≠ .yes := by decide
  constructor
  simp only [concretizeValue_eq, outcome_bind, outcome_expr, he, Expression.ty_known, if_neg hnative,
    hsettle, outcome_modifyExpr, outcome_emit]
  exact ⟨Arena.size_modifyExpr .., Arena.expr_modifyExpr_self hid _⟩

/-- An integer is widened to its float. -/
theorem leaves_widen (hid : id.index < c.arena.exprs.size)
    (he : c.arena.expr id = .known (.int i) .int declared span) :
    c.Leaves (widen id) id (.known (.float (Value.floatOfInt i)) .float declared span) := by
  obtain ⟨n, hn⟩ := Nat.exists_eq_add_one_of_ne_zero (Nat.ne_zero_of_lt hid)
  have hcast : (c.arena.expr id).cast? .int .float =
      some (.known (.float (Value.floatOfInt i)) .float declared span) := by
    rw [he]
    rfl
  have hkind : (c.arena.expr id).kind = .value (.int i) := by rw [he, Expression.kind_known]
  have hty : (c.arena.expr id).ty ≠ .float := by simp [he]
  constructor
  rw [widen, outcome_bind, outcome_arena, hn, widenWithin_succ]
  simp only [outcome_bind, outcome_get, if_neg hty, hkind, hcast, outcome_modifyExpr, ← hn]
  exact ⟨Arena.size_modifyExpr .., Arena.expr_modifyExpr_self hid _⟩

/-- **Both ways to a float** from a literal with the text of an integer, coerced as the argument of
a parameter that takes floats, or settled as an integer that is then widened, lead to the same
float with the same text, unless the literal is a zero behind a minus sign: that is coerced to the
negative zero and widened to the other one. -/
theorem float_of_integerText (hid : id.index < c.arena.exprs.size)
    (he : c.arena.expr id = .known (.string text) .numberLiteral declared span)
    (htext : SignedNumeral text.toList i.toInt) :
    ∃ coerced widened : Float,
      c.Leaves (coerceArg id .float) id (.known (.float coerced) .float declared span) ∧
      c.Leaves (concretizeValue id) id (.known (.int i) .int declared span) ∧
      c.Leaves (do concretizeValue id; widen id) id
        (.known (.float widened) .float declared span) ∧
      (¬ NegativeZero text.toList →
        coerced = widened ∧ (Value.float coerced).text = (Value.float widened).text) ∧
      (NegativeZero text.toList →
        (Value.float coerced).text = "-0" ∧ (Value.float widened).text = "0") := by
  obtain ⟨d, hd, hsame, hzero⟩ := htext.toFloat
  have hsettled := leaves_concretizeValue hid he (Integer.read_eq_some_iff.2 htext)
  refine ⟨d.toFloat, Value.floatOfInt i,
    leaves_coerceArg hid he (readFloat?_eq_some_iff.2 ⟨d, hd, rfl⟩), hsettled, ?_,
    fun h => ?_, fun h => ?_⟩
  · exact hsettled.bind fun c' hsize he' => leaves_widen (hsize ▸ hid) he'
  · rw [hsame h]
    exact ⟨rfl, rfl⟩
  · obtain ⟨hd, hi⟩ := hzero h
    rw [hd, Value.floatOfInt, hi]
    decide +kernel

/-- A program that consists of one literal. -/
def literalProgram (text : String) : Compilation :=
  (Compilation.new.allocExpr (.known (.string text) .numberLiteral none .origin)).2

/-- Where the literal stands. -/
def literalId : ExprId := ⟨Compilation.new.arena.exprs.size⟩

theorem literalId_lt_size (text : String) :
    literalId.index < (literalProgram text).arena.exprs.size := by
  simp [literalProgram, literalId, Compilation.allocExpr, Arena.allocExpr]

theorem expr_literalId (text : String) :
    (literalProgram text).arena.expr literalId =
      .known (.string text) .numberLiteral none .origin :=
  Arena.expr_allocExpr_self ..

/-- The least natural number that is no float is rounded in the same way on both ways. -/
theorem float_of_integerText_rounded :
    ∃ x : Float,
      (literalProgram "9007199254740993").Leaves (coerceArg literalId .float) literalId
        (.known (.float x) .float none .origin) ∧
      (literalProgram "9007199254740993").Leaves (do concretizeValue literalId; widen literalId)
        literalId (.known (.float x) .float none .origin) := by
  have hread : Integer.readUnbounded "9007199254740993".toList = some 9007199254740993 := by
    decide +kernel
  have htext := Integer.readUnbounded_eq_some_iff.1 hread
  rw [← Integer.toInt_ofInt_of_fits (by decide : Integer.Fits 9007199254740993)] at htext
  obtain ⟨coerced, widened, hcoerced, -, hwidened, hsame, -⟩ :=
    float_of_integerText (literalId_lt_size "9007199254740993")
      (expr_literalId "9007199254740993") htext
  have hpositive : ¬ NegativeZero "9007199254740993".toList := by
    rintro ⟨n, hn⟩
    exact absurd (List.head_eq_of_cons_eq hn) (by decide)
  obtain ⟨rfl, -⟩ := hsame hpositive
  exact ⟨coerced, hcoerced, hwidened⟩

/-- A zero behind a minus sign becomes the negative zero if it is coerced to a float, and the
other one if it settles as an integer before. -/
theorem float_of_negativeZero :
    SignedNumeral "-0".toList (0 : Int64).toInt ∧
      (literalProgram "-0").Leaves (coerceArg literalId .float) literalId
        (.known (.float (-0)) .float none .origin) ∧
      (literalProgram "-0").Leaves (do concretizeValue literalId; widen literalId) literalId
        (.known (.float 0) .float none .origin) ∧
      (-0 : Float) ≠ 0 ∧ (Value.float (-0)).text ≠ (Value.float 0).text := by
  have hid := literalId_lt_size "-0"
  have he := expr_literalId "-0"
  have hread : Integer.readUnbounded "-0".toList = some (0 : Int64).toInt := by decide +kernel
  have htext := Integer.readUnbounded_eq_some_iff.1 hread
  have hfloat : readFloat? "-0" = some (-0) := by
    have h : Decimal.read? "-0" = some (.number true 0 0) := by decide +kernel
    rw [readFloat?, h]
    rfl
  refine ⟨htext, leaves_coerceArg hid he hfloat, ?_, by decide, by decide +kernel⟩
  have hsettled := leaves_concretizeValue hid he (Integer.read_eq_some_iff.2 htext)
  exact hsettled.bind fun c' hsize he' => leaves_widen (hsize ▸ hid) he'

end Termwise
