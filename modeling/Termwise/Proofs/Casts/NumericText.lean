import Mathlib.Data.Option.Basic
import Termwise.Proofs.Casts.IntegerText

/-!
# Numbers and their texts

What counts as the text of a number is said by a grammar: digits with or without a point, perhaps
an exponent, or one of the words for infinity and for the value that is no number, each after at
most one sign. A literal settles exactly if its text is a word of the grammar. It becomes an
integer if it can be cast to one and a float otherwise, and in either case what the cast makes of
it.

## Main definitions

* `Text.NumericText`: the texts of numbers, and what they denote

## Main results

* `Text.Decimal.read?_eq_some_iff`: what is read is what the grammar says
* `settle_numericText`: which literals settle, and as what
-/

namespace Termwise

namespace Text

/-- At most one sign, and whether it is a minus. -/
inductive Sign : (text : List Char) → (negative : Bool) → Prop where
  | none : Sign [] false
  | plus : Sign ['+'] false
  | minus : Sign ['-'] true

/-- Digits, with a point between, before or behind them or with none: the number that they denote
without the point, and how many of them stand behind it. -/
inductive Significand : (text : List Char) → (n places : Nat) → Prop where
  | whole {digits : List Char} {n : Nat} (h : Numeral digits n) : Significand digits n 0
  | pointed {whole fraction : List Char} {n : Nat} (h : Numeral (whole ++ fraction) n) :
    Significand (whole ++ '.' :: fraction) n fraction.length

/-- The exponent at the end of a number, if there is one. -/
inductive Exponent : (text : List Char) → (z : Int) → Prop where
  | none : Exponent [] 0
  | some {c : Char} {text : List Char} {z : Int} (hc : c = 'e' ∨ c = 'E')
    (h : SignedNumeral text z) : Exponent (c :: text) z

/-- **The text of a number**, and what it denotes. Letters may be in either case. -/
inductive NumericText : (text : List Char) → Decimal → Prop where
  | number {sign digits exponent : List Char} {negative : Bool} {n places : Nat} {z : Int}
    (hsign : Sign sign negative) (hdigits : Significand digits n places)
    (hexponent : Exponent exponent z) :
    NumericText (sign ++ (digits ++ exponent)) (.number negative n (z - places))
  | infinity {sign word : List Char} {negative : Bool} (hsign : Sign sign negative)
    (hword : word.map Char.toLower ∈ ["inf".toList, "infinity".toList]) :
    NumericText (sign ++ word) (.infinity negative)
  | notANumber {sign word : List Char} {negative : Bool} (hsign : Sign sign negative)
    (hword : word.map Char.toLower = "nan".toList) : NumericText (sign ++ word) .notANumber

variable {text body digits fraction exponent rest sign : List Char} {n places : Nat} {z : Int}
  {negative : Bool}

/-! ## Signs -/

/-- Any text is a sign and the rest of it. -/
theorem exists_sign (text : List Char) :
    ∃ sign, Sign sign (splitSign text).1 ∧ text = sign ++ (splitSign text).2 := by
  unfold splitSign
  split
  · exact ⟨['+'], .plus, rfl⟩
  · exact ⟨['-'], .minus, rfl⟩
  · exact ⟨[], .none, rfl⟩

/-- A sign is split from what does not start with one. -/
theorem Sign.splitSign_append (h : Sign sign negative) (body : List Char)
    (hbody : ∀ c ∈ body.head?, c ≠ '+' ∧ c ≠ '-') :
    splitSign (sign ++ body) = (negative, body) := by
  cases h with
  | none =>
    rw [List.nil_append]
    unfold splitSign
    split
    · exact absurd rfl (hbody '+' rfl).1
    · exact absurd rfl (hbody '-' rfl).2
    · rfl
  | plus | minus => rfl

/-! ## Digits -/

/-- A run of digits ends before the first character that is none. -/
theorem takeWhile_isDigit (hdigits : ∀ c ∈ digits, c.isDigit = true)
    (hrest : ∀ c ∈ rest.head?, c.isDigit = false) :
    (digits ++ rest).takeWhile Char.isDigit = digits := by
  rw [List.takeWhile_append_of_pos hdigits]
  cases rest with
  | nil => simp
  | cons c rest => simp [hrest c rfl]

theorem dropWhile_isDigit (hdigits : ∀ c ∈ digits, c.isDigit = true)
    (hrest : ∀ c ∈ rest.head?, c.isDigit = false) :
    (digits ++ rest).dropWhile Char.isDigit = rest := by
  rw [List.dropWhile_append_of_pos hdigits]
  cases rest with
  | nil => rfl
  | cons c rest => simp [hrest c rfl]

/-- Any text is a run of digits, which may be empty, and a rest that starts with no digit. -/
theorem exists_digits (text : List Char) :
    ∃ digits rest, text = digits ++ rest ∧ (∀ c ∈ digits, c.isDigit = true) ∧
      ∀ c ∈ rest.head?, c.isDigit = false := by
  refine ⟨text.takeWhile Char.isDigit, text.dropWhile Char.isDigit,
    List.takeWhile_append_dropWhile.symm, List.all_eq_true.1 List.all_takeWhile, fun c hc => ?_⟩
  have := List.head?_dropWhile_not Char.isDigit text
  rw [hc] at this
  simpa using this

/-- Digits with a point start with a digit or with the point. -/
theorem Significand.head (h : Significand digits n places) :
    ∃ c rest, digits = c :: rest ∧ (c.isDigit = true ∨ c = '.') := by
  cases h with
  | whole h =>
    obtain ⟨c, rest, rfl⟩ := List.exists_cons_of_ne_nil h.ne_nil
    exact ⟨c, rest, rfl, .inl (h.isDigit c List.mem_cons_self)⟩
  | @pointed whole fraction _ h =>
    cases whole with
    | nil => exact ⟨'.', fraction, rfl, .inr rfl⟩
    | cons c whole => exact ⟨c, _, rfl, .inl (h.isDigit c (by simp))⟩

/-- A number does not start with a second sign. -/
theorem Significand.not_sign (h : Significand digits n places) (exponent : List Char) :
    ∀ c ∈ (digits ++ exponent).head?, c ≠ '+' ∧ c ≠ '-' := by
  obtain ⟨c, rest, rfl, hc⟩ := h.head
  rintro _ ⟨⟩
  constructor <;> rintro rfl <;> simp at hc

/-- An exponent starts neither with a digit nor with a point. -/
theorem Exponent.head (h : Exponent exponent z) :
    ∀ c ∈ exponent.head?, c.isDigit = false ∧ c ≠ '.' := by
  cases h with
  | none => simp
  | some hc _ => rcases hc with rfl | rfl <;> simp

namespace Decimal

/-! ## Unsigned numbers -/

theorem readExponent?_eq_some_iff : readExponent? exponent = some z ↔ Exponent exponent z := by
  constructor
  · intro h
    cases exponent with
    | nil =>
      cases h
      exact .none
    | cons c text =>
      simp only [readExponent?, Bool.or_eq_true, beq_iff_eq] at h
      split_ifs at h with hc
      exact .some hc (Integer.readUnbounded_eq_some_iff.1 h)
  · intro h
    cases h with
    | none => rfl
    | some hc h =>
      simp only [readExponent?, Bool.or_eq_true, beq_iff_eq, if_pos hc]
      exact Integer.readUnbounded_eq_some_iff.2 h

/-- What is read of digits without a point. -/
theorem readNumber?_whole (hdigits : ∀ c ∈ digits, c.isDigit = true)
    (hrest : ∀ c ∈ rest.head?, c.isDigit = false ∧ c ≠ '.') :
    readNumber? (digits ++ rest) = (readDigits digits).bind fun n =>
      (readExponent? rest).map fun z => (n, z) := by
  have htake := takeWhile_isDigit hdigits fun c hc => (hrest c hc).1
  have hdrop := dropWhile_isDigit hdigits fun c hc => (hrest c hc).1
  simp only [readNumber?, htake, hdrop]
  cases rest with
  | nil => simp [Option.map_eq_bind]
  | cons c rest => simp [(hrest c rfl).2, Option.map_eq_bind]

/-- What is read of digits with a point. -/
theorem readNumber?_pointed (hdigits : ∀ c ∈ digits, c.isDigit = true)
    (hfraction : ∀ c ∈ fraction, c.isDigit = true)
    (hrest : ∀ c ∈ rest.head?, c.isDigit = false) :
    readNumber? (digits ++ '.' :: (fraction ++ rest)) = (readDigits (digits ++ fraction)).bind
      fun n => (readExponent? rest).map fun z => (n, z - (fraction.length : Int)) := by
  have hpoint : ∀ c ∈ ('.' :: (fraction ++ rest)).head?, c.isDigit = false := by simp
  have htake := takeWhile_isDigit hdigits hpoint
  have hdrop := dropWhile_isDigit hdigits hpoint
  simp [readNumber?, htake, hdrop, takeWhile_isDigit hfraction hrest,
    dropWhile_isDigit hfraction hrest, Option.map_eq_bind]

/-- **Unsigned numbers** are read as what the grammar says they denote. -/
theorem readNumber?_eq_some_iff : readNumber? body = some (n, z) ↔
    ∃ digits exponent places e, body = digits ++ exponent ∧ Significand digits n places ∧
      Exponent exponent e ∧ z = e - places := by
  constructor
  · intro h
    obtain ⟨digits, rest, rfl, hdigits, hrest⟩ := exists_digits body
    -- the first run of digits ends at a point, or the number has none
    by_cases hpoint : ∃ after, rest = '.' :: after
    · obtain ⟨after, rfl⟩ := hpoint
      obtain ⟨fraction, tail, rfl, hfraction, htail⟩ := exists_digits after
      rw [readNumber?_pointed hdigits hfraction htail] at h
      simp only [Option.bind_eq_some_iff, Option.map_eq_some_iff, readDigits_eq_some_iff,
        readExponent?_eq_some_iff, Prod.mk.injEq] at h
      obtain ⟨n, hn, e, he, rfl, rfl⟩ := h
      exact ⟨digits ++ '.' :: fraction, tail, fraction.length, e, by simp, .pointed hn, he, rfl⟩
    · rw [readNumber?_whole hdigits fun c hc => ⟨hrest c hc, ?_⟩] at h
      · simp only [Option.bind_eq_some_iff, Option.map_eq_some_iff, readDigits_eq_some_iff,
          readExponent?_eq_some_iff, Prod.mk.injEq] at h
        obtain ⟨n, hn, e, he, rfl, rfl⟩ := h
        exact ⟨digits, rest, 0, e, rfl, .whole hn, he, by simp⟩
      · rintro rfl
        obtain ⟨after, hafter⟩ := List.head?_eq_some_iff.1 hc
        exact hpoint ⟨after, hafter⟩
  · rintro ⟨digits, exponent, places, e, rfl, hdigits, hexponent, rfl⟩
    have hread := readExponent?_eq_some_iff.2 hexponent
    cases hdigits with
    | whole h =>
      rw [readNumber?_whole h.isDigit hexponent.head, readDigits_eq_some_iff.2 h, hread]
      simp
    | @pointed whole fraction _ h =>
      obtain ⟨hwhole, hfraction⟩ := List.forall_mem_append.1 h.isDigit
      rw [List.append_assoc, List.cons_append,
        readNumber?_pointed hwhole hfraction fun c hc => (hexponent.head c hc).1,
        readDigits_eq_some_iff.2 h, hread]
      rfl

/-! ## Words -/

/-- A number starts like none of the words. -/
theorem not_word_of_significand (h : Significand digits n places) (exponent : List Char) :
    (digits ++ exponent).map Char.toLower ∉ ["inf".toList, "infinity".toList, "nan".toList] := by
  obtain ⟨c, rest, rfl, hc⟩ := h.head
  suffices c.toLower ≠ 'i' ∧ c.toLower ≠ 'n' by simp [this]
  rcases hc with hc | rfl
  · obtain ⟨d, hd, rfl⟩ := exists_digitChar hc
    exact (by decide : ∀ d < 10, d.digitChar.toLower ≠ 'i' ∧ d.digitChar.toLower ≠ 'n') d hd
  · decide

/-- The words start with a letter, so they have no sign. -/
theorem not_sign_of_word
    (h : body.map Char.toLower ∈ ["inf".toList, "infinity".toList, "nan".toList]) :
    ∀ c ∈ body.head?, c ≠ '+' ∧ c ≠ '-' := by
  intro c hc
  obtain ⟨rest, rfl⟩ := List.head?_eq_some_iff.1 hc
  constructor <;> rintro rfl <;> simp at h

/-- **A text is read** as what the grammar says it denotes, and is not read if it is none of its
words. -/
theorem read?_eq_some_iff {text : String} {d : Decimal} :
    read? text = some d ↔ NumericText text.toList d := by
  constructor
  · intro h
    obtain ⟨sign, hsign, htext⟩ := exists_sign text.toList
    rw [htext]
    unfold read? at h
    generalize splitSign text.toList = split at h hsign ⊢
    obtain ⟨negative, body⟩ := split
    simp only at h
    split_ifs at h with hinfinity hnan
    · cases h
      exact .infinity hsign (by simpa using hinfinity)
    · cases h
      exact .notANumber hsign (by simpa using hnan)
    · obtain ⟨⟨n, z⟩, hread, rfl⟩ := Option.map_eq_some_iff.1 h
      obtain ⟨digits, exponent, places, e, rfl, hdigits, hexponent, rfl⟩ :=
        readNumber?_eq_some_iff.1 hread
      exact .number hsign hdigits hexponent
  · intro h
    generalize htext : text.toList = chars at h
    -- what follows the sign has none itself, so it is split off as the grammar has it
    cases h with
    | @number sign digits exponent _ _ _ _ hsign hdigits hexponent =>
      have hsplit := hsign.splitSign_append _ (hdigits.not_sign exponent)
      have hword := not_word_of_significand hdigits exponent
      have hread := readNumber?_eq_some_iff.2 ⟨_, _, _, _, rfl, hdigits, hexponent, rfl⟩
      simp only [List.mem_cons, List.not_mem_nil, or_false, not_or, ← beq_eq_false_iff_ne]
        at hword
      simp only [read?, htext, hsplit, hread, hword]
      rfl
    | @infinity sign word _ hsign hword =>
      have hsplit := hsign.splitSign_append _
        (not_sign_of_word (List.mem_append_left ["nan".toList] hword))
      simp only [read?, htext, hsplit]
      rw [if_pos (by simpa using hword)]
    | @notANumber sign word _ hsign hword =>
      have hsplit := hsign.splitSign_append word (not_sign_of_word (by simp [hword]))
      simp only [read?, htext, hsplit, hword]
      rfl

end Decimal

/-- A float is read off exactly the texts of numbers. -/
theorem readFloat?_eq_some_iff {text : String} {x : Float} :
    readFloat? text = some x ↔ ∃ d, NumericText text.toList d ∧ d.toFloat = x := by
  simp only [readFloat?, Option.map_eq_some_iff, Decimal.read?_eq_some_iff]

/-- A run of digits after at most one sign is the text of a number. -/
theorem Numeral.numericText (h : Numeral digits n) (hsign : Sign sign negative) :
    NumericText (sign ++ digits) (.number negative n 0) := by
  simpa using NumericText.number hsign (.whole h) .none

/-- **The text of an integer** is the text of a number. -/
theorem SignedNumeral.numericText (h : SignedNumeral text z) : ∃ d, NumericText text d := by
  cases h with
  | unsigned h => exact ⟨_, h.numericText .none⟩
  | plus h => exact ⟨_, h.numericText .plus⟩
  | minus h => exact ⟨_, h.numericText .minus⟩

end Text

open Text

section

variable (declared : Option Ty) (span : Span) {type : Builtin}

/-- An open number is cast to a float if its text is read as one. -/
theorem cast_text_float (htype : type ∈ [.number, .numberLiteral]) (text : String) :
    (Expression.known (.string text) type declared span).cast? (.builtin type) .float =
      (readFloat? text).map fun x => .known (.float x) .float declared span := by
  simp only [List.mem_cons, List.not_mem_nil, or_false] at htype
  rcases htype with rfl | rfl <;>
    simp [Expression.cast?_eq, Expression.converted?, Expression.value?, Expression.known,
      Value.convert?, Value.convertNumber?, Expression.withValue, Function.comp_def]

/-- An open number settles as what the cast to an integer makes of it, or else the cast to a
float. -/
theorem settle_text (htype : type ∈ [.number, .numberLiteral]) (text : String) :
    let literal := Expression.known (.string text) type declared span
    literal.settle? literal.ty =
      (literal.cast? literal.ty .int).or (literal.cast? literal.ty .float) := by
  intro literal
  have hint : literal.cast? literal.ty .int = _ :=
    cast_text declared span (List.mem_cons_of_mem _ htype) text
  have hfloat : literal.cast? literal.ty .float = _ := cast_text_float declared span htype text
  rw [hint, hfloat]
  simp only [List.mem_cons, List.not_mem_nil, or_false] at htype
  rcases htype with rfl | rfl <;> cases hread : Integer.read text <;>
    simp [literal, Expression.settle?_eq, Expression.known, Expression.value?, Value.settle?,
      Value.convertNumber?, Expression.withValue, Function.comp_def, hread]

/-- **Literals settle** exactly if their texts are those of numbers, which is when they can be cast
to floats. One that can be cast to an integer settles as the integer that the cast makes of it, any
other one as the float that the cast makes of it. -/
theorem settle_numericText (htype : type ∈ [.number, .numberLiteral]) (text : String) :
    let literal := Expression.known (.string text) type declared span
    ((∃ e, literal.settle? literal.ty = some e) ↔
        ∃ e, literal.cast? literal.ty .float = some e) ∧
      (∀ e, literal.cast? literal.ty .float = some e ↔
        ∃ d, NumericText text.toList d ∧ e = .known (.float d.toFloat) .float declared span) ∧
      (∀ e, literal.settle? literal.ty = some e →
        (e.ty = .int ↔ ∃ e', literal.cast? literal.ty .int = some e')) ∧
      (∀ e, literal.cast? literal.ty .int = some e → literal.settle? literal.ty = some e) ∧
      ∀ e, literal.settle? literal.ty = some e → e.ty ≠ .int →
        e.ty = .float ∧ literal.cast? literal.ty .float = some e := by
  intro literal
  have hsettle : literal.settle? literal.ty = _ := settle_text declared span htype text
  have hint : literal.cast? literal.ty .int = _ :=
    cast_text declared span (List.mem_cons_of_mem _ htype) text
  have hfloat : ∀ e, literal.cast? literal.ty .float = some e ↔
      ∃ d, NumericText text.toList d ∧ e = .known (.float d.toFloat) .float declared span := by
    intro e
    have hcast : literal.cast? literal.ty .float = _ := cast_text_float declared span htype text
    rw [hcast]
    simp only [Option.map_eq_some_iff, readFloat?_eq_some_iff]
    constructor
    · rintro ⟨_, ⟨d, hd, rfl⟩, rfl⟩
      exact ⟨d, hd, rfl⟩
    · rintro ⟨d, hd, rfl⟩
      exact ⟨_, ⟨d, hd, rfl⟩, rfl⟩
  cases hread : Integer.read text with
  | none =>
    rw [hread, Option.map_none] at hint
    rw [hint, Option.none_or] at hsettle
    rw [hsettle, hint]
    refine ⟨Iff.rfl, hfloat, fun e he => ?_, by simp, fun e he _ => ?_⟩
    · obtain ⟨d, -, rfl⟩ := (hfloat e).1 he
      simp [Expression.known]
    · obtain ⟨d, -, rfl⟩ := (hfloat e).1 he
      exact ⟨rfl, he⟩
  | some i =>
    rw [hread, Option.map_some] at hint
    rw [hint, Option.some_or] at hsettle
    rw [hsettle, hint]
    -- every integer is also read as a float, so the order of the two casts refuses nothing
    obtain ⟨d, hnumber⟩ := (Integer.read_eq_some_iff.1 hread).numericText
    refine ⟨iff_of_true ⟨_, rfl⟩ ⟨_, (hfloat _).2 ⟨_, hnumber, rfl⟩⟩, hfloat, ?_, by simp, ?_⟩
    · rintro e ⟨⟩
      exact iff_of_true rfl ⟨_, rfl⟩
    · rintro e ⟨⟩ hne
      exact absurd rfl hne

end

/-- An integer of 65 bits becomes a float, one of 64 stays an integer whatever its sign, and what
has two points is refused. -/
theorem settle_numericText_forms :
    (∃ e, (Expression.known (.string "9223372036854775808") .numberLiteral none .origin).settle?
        .numberLiteral = some e ∧ e.ty = .float) ∧
      (∃ e, (Expression.known (.string "+007") .number none .origin).settle? .number = some e ∧
        e.ty = .int) ∧
      ¬ ∃ e, (Expression.known (.string "3.4.5") .numberLiteral none .origin).settle?
        .numberLiteral = some e := by
  have hlarge := @settle_numericText none .origin .numberLiteral (by simp) "9223372036854775808"
  have hsigned := @settle_numericText none .origin .number (by simp) "+007"
  have htwo := @settle_numericText none .origin .numberLiteral (by simp) "3.4.5"
  refine ⟨?_, ?_, ?_⟩
  · have hread : Decimal.read? "9223372036854775808" =
        some (.number false 9223372036854775808 0) := by decide +kernel
    obtain ⟨e, he⟩ := hlarge.1.2 ⟨_, (hlarge.2.1 _).2 ⟨_, Decimal.read?_eq_some_iff.1 hread, rfl⟩⟩
    refine ⟨e, he, (hlarge.2.2.2.2 e he fun hty => ?_).1⟩
    have hint := cast_text none .origin (by simp : Builtin.numberLiteral ∈ _) "9223372036854775808"
    have hnone : Integer.read "9223372036854775808" = none := by decide +kernel
    obtain ⟨e', he'⟩ := (hlarge.2.2.1 e he).1 hty
    rw [hnone] at hint
    exact absurd (hint.symm.trans he') (by simp)
  · have hint := cast_text none .origin (by simp : Builtin.number ∈ _) "+007"
    have hseven : Integer.read "+007" = some 7 := by decide +kernel
    rw [hseven] at hint
    exact ⟨_, hsigned.2.2.2.1 _ hint, rfl⟩
  · rintro ⟨e, he⟩
    obtain ⟨e', he'⟩ := htwo.1.1 ⟨e, he⟩
    obtain ⟨d, hd, -⟩ := (htwo.2.1 e').1 he'
    have hnone : Decimal.read? "3.4.5" = none := by decide +kernel
    exact absurd (hnone.symm.trans (Decimal.read?_eq_some_iff.2 hd)) (by simp)

end Termwise
