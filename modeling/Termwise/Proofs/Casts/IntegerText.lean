import Mathlib.Algebra.Group.Int.Defs
import Mathlib.Data.List.Induction
import Termwise.Proofs.Casts.Forms

/-!
# Integers and their texts

An integer becomes text and a text becomes an integer without loss. What counts as the text of an
integer is said by a grammar of its own, digit by digit; reading accepts exactly the words of the
grammar whose number fits into 64 bits, and writing produces one of them.

## Main definitions

* `Text.Numeral`: a run of digits and the number that it denotes
* `Text.SignedNumeral`: the same after at most one sign

## Main results

* `Text.Integer.read_eq_some_iff`: what is read is what the grammar denotes
* `Text.Integer.read_write`: what was written is read back
* `cast_integerText`: casts between integers and texts
-/

namespace Termwise

namespace Text

/-- A run of ASCII digits and the number that it denotes. -/
inductive Numeral : (digits : List Char) → (n : Nat) → Prop where
  | digit {d : Nat} (hd : d < 10) : Numeral [d.digitChar] d
  | append {digits : List Char} {n d : Nat} (h : Numeral digits n) (hd : d < 10) :
    Numeral (digits ++ [d.digitChar]) (10 * n + d)

/-- A run of ASCII digits after at most one sign, and the integer that it denotes. -/
inductive SignedNumeral : (text : List Char) → (z : Int) → Prop where
  | unsigned {digits : List Char} {n : Nat} (h : Numeral digits n) : SignedNumeral digits n
  | plus {digits : List Char} {n : Nat} (h : Numeral digits n) : SignedNumeral ('+' :: digits) n
  | minus {digits : List Char} {n : Nat} (h : Numeral digits n) :
    SignedNumeral ('-' :: digits) (-n)

variable {digits text : List Char} {n : Nat} {z : Int}

/-! ## Runs of digits -/

/-- An ASCII digit is the digit of a number below ten. -/
theorem exists_digitChar {c : Char} (hc : c.isDigit = true) : ∃ d, d < 10 ∧ c = d.digitChar := by
  have hbounds : 48 ≤ c.toNat ∧ c.toNat ≤ 57 := by
    simpa [Char.isDigit, UInt32.le_iff_toNat_le] using hc
  refine ⟨c.toNat - 48, by omega, Char.toNat_inj.1 ?_⟩
  rw [Nat.toNat_digitChar_of_lt_ten (by omega)]
  omega

theorem Numeral.isDigit (h : Numeral digits n) : ∀ c ∈ digits, c.isDigit = true := by
  induction h with
  | digit hd => simp [Nat.isDigit_digitChar, hd]
  | append _ hd ih =>
    refine List.forall_mem_append.2 ⟨ih, ?_⟩
    simp [Nat.isDigit_digitChar, hd]

theorem Numeral.ne_nil (h : Numeral digits n) : digits ≠ [] := by
  cases h <;> simp

theorem Numeral.value_eq (h : Numeral digits n) : Nat.ofDigitChars 10 digits 0 = n := by
  induction h with
  | digit hd => simp [Nat.ofDigitChars_cons_digitChar_of_lt_ten hd]
  | append _ hd ih =>
    rw [Nat.ofDigitChars_append, ih, Nat.ofDigitChars_cons_digitChar_of_lt_ten hd,
      Nat.ofDigitChars_nil]

/-- Every run of digits denotes a number. -/
theorem numeral_ofDigitChars (hne : digits ≠ []) (hdigits : ∀ c ∈ digits, c.isDigit = true) :
    Numeral digits (Nat.ofDigitChars 10 digits 0) := by
  induction digits using List.reverseRecOn with
  | nil => exact (hne rfl).elim
  | append_singleton rest c ih =>
    obtain ⟨hrest, hc⟩ := List.forall_mem_append.1 hdigits
    obtain ⟨d, hd, rfl⟩ := exists_digitChar (hc c (List.mem_singleton_self c))
    rw [Nat.ofDigitChars_append, Nat.ofDigitChars_cons_digitChar_of_lt_ten hd, Nat.ofDigitChars_nil]
    rcases eq_or_ne rest [] with rfl | hrest'
    · simpa using Numeral.digit hd
    · exact (ih hrest' hrest).append hd

/-- **Runs of digits** are read as what they denote, and nothing else is read. -/
theorem readDigits_eq_some_iff : readDigits digits = some n ↔ Numeral digits n := by
  unfold readDigits
  constructor
  · intro h
    split at h
    · cases h
    · rename_i hdigits
      simp only [Bool.or_eq_true, Bool.not_eq_true', not_or, Bool.not_eq_true, Bool.not_eq_false,
        List.isEmpty_eq_false_iff, List.all_eq_true] at hdigits
      cases h
      exact numeral_ofDigitChars hdigits.1 hdigits.2
  · intro h
    rw [if_neg, h.value_eq]
    simpa using ⟨h.ne_nil, h.isDigit⟩

/-! ## Signs -/

theorem Numeral.splitSign_eq (h : Numeral digits n) : splitSign digits = (false, digits) := by
  unfold splitSign
  split
  · cases h.isDigit '+' List.mem_cons_self
  · cases h.isDigit '-' List.mem_cons_self
  · rfl

namespace Integer

/-- Integers of any size are read as what the grammar says. -/
theorem readUnbounded_eq_some_iff : readUnbounded text = some z ↔ SignedNumeral text z := by
  constructor
  · intro h
    simp only [readUnbounded, Option.map_eq_some_iff, Option.bind_eq_bind, Option.bind_eq_some_iff,
      Option.pure_def, Option.some.injEq, readDigits_eq_some_iff] at h
    obtain ⟨_, ⟨n, hn, rfl⟩, rfl⟩ := h
    unfold splitSign at hn ⊢
    split at hn
    · exact .plus hn
    · exact .minus hn
    · exact .unsigned hn
  · intro h
    cases h with
    | unsigned h => simp [readUnbounded, h.splitSign_eq, readDigits_eq_some_iff.2 h]
    | plus h => simp [readUnbounded, splitSign, readDigits_eq_some_iff.2 h]
    | minus h => simp [readUnbounded, splitSign, readDigits_eq_some_iff.2 h]

theorem fits_toInt (i : Int64) : Fits i.toInt := ⟨i.minValue_le_toInt, i.toInt_le⟩

theorem toInt_ofInt_of_fits (h : Fits z) : (Int64.ofInt z).toInt = z :=
  Int64.toInt_ofInt_of_le h.1 (Int.lt_add_one_of_le h.2)

/-- **A text is read** as the integer that the grammar says it denotes, if that fits into 64 bits;
otherwise it is not read at all. -/
theorem read_eq_some_iff {text : String} {i : Int64} :
    read text = some i ↔ SignedNumeral text.toList i.toInt := by
  simp only [read, Option.bind_eq_some_iff, readUnbounded_eq_some_iff]
  constructor
  · rintro ⟨z, hz, h⟩
    split at h
    · rename_i hfits
      cases h
      rwa [toInt_ofInt_of_fits hfits]
    · cases h
  · intro h
    exact ⟨i.toInt, h, by rw [if_pos (fits_toInt i), Int64.ofInt_toInt]⟩

/-! ## Writing -/

theorem numeral_natText (n : Nat) : Numeral (natText n).toList n := by
  have h := @numeral_ofDigitChars (Nat.toDigits 10 n) Nat.toDigits_ne_nil
    fun c hc => Nat.isDigit_of_mem_toDigits (by decide) (by decide) hc
  rw [Nat.ofDigitChars_ten_toDigits] at h
  simpa [natText] using h

/-- **The text of an integer** denotes it. -/
theorem signedNumeral_write (i : Int64) : SignedNumeral (write i).toList i.toInt := by
  have h := numeral_natText i.toInt.natAbs
  simp only [write]
  split
  · rename_i hneg
    rw [String.toList_append]
    have := SignedNumeral.minus h
    rwa [← Int.eq_neg_natAbs_of_nonpos (Int.le_of_lt hneg)] at this
  · rename_i hneg
    have := SignedNumeral.unsigned h
    rwa [Int.natAbs_of_nonneg (Int.not_lt.1 hneg)] at this

/-- **What was written** is read back. -/
@[simp] theorem read_write (i : Int64) : read (write i) = some i :=
  read_eq_some_iff.2 (signedNumeral_write i)

end Integer

end Text

open Text

/-- A known value typed as one of the builtin types. -/
def Expression.known (v : Value) (type : Builtin) (declared : Option Ty) (span : Span) :
    Expression := ⟨.value v, .builtin type, declared, span⟩

section

variable (declared : Option Ty) (span : Span)

/-- An integer is cast to its text and back. -/
theorem cast_write (i : Int64) :
    (Expression.known (.int i) .int declared span).cast? .int .string =
        some (.known (.string (Integer.write i)) .string declared span) ∧
      (Expression.known (.string (Integer.write i)) .string declared span).cast? .string .int =
        some (.known (.int i) .int declared span) := by
  constructor
  · rfl
  · simp [Expression.cast?_eq, Expression.converted?, Expression.value?, Expression.known,
      Value.convert?, Expression.withValue]

/-- **A text is cast to an integer** if it is read as one, whether it is a text or a number that
is still open. -/
theorem cast_text {type : Builtin} (htype : type ∈ [.string, .number, .numberLiteral])
    (text : String) :
    (Expression.known (.string text) type declared span).cast? (.builtin type) .int =
      (Integer.read text).map fun i => .known (.int i) .int declared span := by
  simp only [List.mem_cons, List.not_mem_nil, or_false] at htype
  rcases htype with rfl | rfl | rfl <;>
    simp [Expression.cast?_eq, Expression.converted?, Expression.value?, Expression.known,
      Value.convert?, Value.convertNumber?, Expression.withValue, Function.comp_def]

/-- An open number with the text of an integer settles as that integer. -/
theorem settle_write {type : Builtin} (htype : type ∈ [.number, .numberLiteral]) (i : Int64) :
    (Expression.known (.string (Integer.write i)) type declared span).settle? (.builtin type) =
      some (.known (.int i) .int declared span) := by
  simp only [List.mem_cons, List.not_mem_nil, or_false] at htype
  rcases htype with rfl | rfl <;>
    simp [Expression.settle?_eq, Expression.known, Expression.value?, Value.settle?,
      Value.convertNumber?, Expression.withValue]

/-- **Integers and texts** are cast into each other without loss: an integer is what its text is
cast back to, and what an open number with this text settles as; and a text, or an open number, is
cast to an integer exactly if it is a run of digits after at most one sign that denotes a number of
64 bits, which is the integer that it is cast to. -/
theorem cast_integerText :
    (∀ i : Int64,
      (Expression.known (.int i) .int declared span).cast? .int .string =
          some (.known (.string (Integer.write i)) .string declared span) ∧
        (Expression.known (.string (Integer.write i)) .string declared span).cast? .string .int =
          some (.known (.int i) .int declared span) ∧
        ∀ type ∈ [Builtin.number, .numberLiteral],
          (Expression.known (.string (Integer.write i)) type declared span).settle?
              (.builtin type) =
            some (.known (.int i) .int declared span)) ∧
    ∀ text : String, ∀ type ∈ [Builtin.string, .number, .numberLiteral],
      ((∃ e, (Expression.known (.string text) type declared span).cast? (.builtin type) .int =
          some e) ↔ ∃ z, SignedNumeral text.toList z ∧ -2 ^ 63 ≤ z ∧ z ≤ 2 ^ 63 - 1) ∧
      ∀ e, (Expression.known (.string text) type declared span).cast? (.builtin type) .int =
          some e →
        ∃ i : Int64, e = .known (.int i) .int declared span ∧
          ∀ z, SignedNumeral text.toList z ↔ z = i.toInt := by
  refine ⟨fun i => ?_, fun text type htype => ⟨?_, fun e he => ?_⟩⟩
  · obtain ⟨hto, hback⟩ := cast_write declared span i
    exact ⟨hto, hback, fun type htype => settle_write declared span htype i⟩
  · rw [cast_text declared span htype]
    simp only [Option.map_eq_some_iff]
    constructor
    · rintro ⟨_, i, hi, rfl⟩
      obtain ⟨hlow, hhigh⟩ := Integer.fits_toInt i
      exact ⟨i.toInt, Integer.read_eq_some_iff.1 hi, hlow, hhigh⟩
    · rintro ⟨z, hz, hlow, hhigh⟩
      rw [← Integer.toInt_ofInt_of_fits ⟨hlow, hhigh⟩] at hz
      exact ⟨_, Int64.ofInt z, Integer.read_eq_some_iff.2 hz, rfl⟩
  · rw [cast_text declared span htype] at he
    obtain ⟨i, hi, rfl⟩ := Option.map_eq_some_iff.1 he
    have hnumeral := Integer.read_eq_some_iff.1 hi
    refine ⟨i, rfl, fun z => ⟨fun hz => ?_, fun hz => hz ▸ hnumeral⟩⟩
    rw [← Integer.readUnbounded_eq_some_iff] at hz hnumeral
    exact Option.some.inj (hz.symm.trans hnumeral)

end

/-- The least integer has a text that is cast back to it; the text of the number after the greatest
one is refused, while one with a sign and leading zeros is not. -/
theorem cast_integerText_bounds :
    (Expression.known (.string "-9223372036854775808") .string none .origin).cast? .string .int =
        some (.known (.int Int64.minValue) .int none .origin) ∧
      (¬ ∃ e, (Expression.known (.string "9223372036854775808") .string none .origin).cast?
          .string .int = some e) ∧
      ∃ e, (Expression.known (.string "+007") .numberLiteral none .origin).cast?
          .numberLiteral .int = some e := by
  have htext := cast_integerText none .origin
  refine ⟨(htext.1 Int64.minValue).2.1, ?_, ?_⟩
  · rw [(htext.2 "9223372036854775808" .string (by simp)).1]
    rintro ⟨z, hz, -, hhigh⟩
    have hnumeral : Integer.readUnbounded "9223372036854775808".toList = some (2 ^ 63) := by
      decide +kernel
    obtain rfl := Option.some.inj ((Integer.readUnbounded_eq_some_iff.2 hz).symm.trans hnumeral)
    exact absurd hhigh (by decide)
  · rw [(htext.2 "+007" .numberLiteral (by simp)).1]
    refine ⟨7, Integer.readUnbounded_eq_some_iff.1 ?_, by decide, by decide⟩
    decide +kernel

end Termwise
