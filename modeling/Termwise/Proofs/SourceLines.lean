import Mathlib.Data.Nat.Count
import Mathlib.Data.Nat.Find
import Termwise.Proofs.Locations
import Termwise.Source.Lines

/-!
# Places and the lines that hold them

A report counts places in characters and knows more line ends than the line feed; a span counts
bytes, and its position goes by line feeds alone. Where a line starts is said here for single
places, without splitting the text: behind a character that ends lines, as long as there is text
left, and not between a carriage return and its line feed. The line that holds a place is the last
one that starts up to it, and its number is how many start before. The two positions of one number
agree as long as the lines of the one start where the line feeds of the other are; in a text of
ASCII characters without other line ends they do.

## Main definitions

* `startsLine`: whether a line starts at a place
* `Position.ofPlace`: the position of a place, counted in characters
* `SourceLine.Holds`: the line is the one that holds the place
* `PlainUpTo`: ASCII characters, and lines that end with line feeds

## Main results

* `lineAt?_of_le`: each place up to the end of a text has the line that holds it
* `Position.ofBytes_eq_ofPlace`: where the two ways to count agree
* `PlainUpTo.ofOffset_eq_ofPlace`: they do in plain text
-/

namespace Termwise

variable {text rest line : List Char} {c : Char} {i p s place : Nat}

/-! ## Where lines start -/

/-- **Whether a line starts at a place**: the first place starts a line, and so does a place of the
text behind a character that ends lines, unless the two are a carriage return and its line feed. -/
def startsLine (text : List Char) : (place : Nat) → Bool
  | 0 => true
  | p + 1 =>
    match text[p]?, text[p + 1]? with
    | some c, some d => Text.endsLine c && !(c == '\r' && d == '\n')
    | _, _ => false

theorem startsLine_zero (text : List Char) : startsLine text 0 = true := rfl

theorem startsLine_cons (c : Char) (text : List Char) (p : Nat) :
    startsLine (c :: text) (p + 2) = startsLine text (p + 1) := rfl

theorem startsLine_one (c d : Char) (text : List Char) :
    startsLine (c :: d :: text) 1 = (Text.endsLine c && !(c == '\r' && d == '\n')) := rfl

/-- No line starts behind a character that ends none. -/
theorem startsLine_one_of_not_endsLine (hc : Text.endsLine c = false) (text : List Char) :
    startsLine (c :: text) 1 = false := by
  cases text with
  | nil => rfl
  | cons d text => rw [startsLine_one, hc, Bool.false_and]

/-- No line starts behind the text. -/
theorem startsLine_of_length_le (hp : text.length ≤ p) (hpos : 0 < p) :
    startsLine text p = false := by
  cases p with
  | zero => exact absurd hpos (Nat.lt_irrefl 0)
  | succ q =>
    simp only [startsLine, List.getElem?_eq_none hp]
    cases text[q]? <;> rfl

/-- The starts of lines in the rest of a text. -/
theorem startsLine_drop (text : List Char) (s : Nat) (hpos : 0 < p) :
    startsLine (text.drop s) p = startsLine text (s + p) := by
  cases p with
  | zero => exact absurd hpos (Nat.lt_irrefl 0)
  | succ q =>
    rw [← Nat.add_assoc]
    simp only [startsLine, List.getElem?_drop, ← Nat.add_assoc]

/-! ## Splitting off a line -/

/-- **The first line of a text**: it goes up to the next place where a line starts. -/
structure IsFirstLine (text line rest : List Char) : Prop where
  append : line ++ rest = text
  ne_nil : text ≠ [] → line ≠ []
  inside : ∀ p, 0 < p → p < line.length → startsLine text p = false
  next : rest ≠ [] → startsLine text line.length = true

/-- A line of one character. -/
theorem isFirstLine_singleton (hc : Text.endsLine c = true)
    (hpair : ∀ text, c = '\r' → rest ≠ '\n' :: text) : IsFirstLine (c :: rest) [c] rest where
  append := rfl
  ne_nil _ := by simp
  inside p hpos hp := by
    rw [List.length_singleton] at hp
    omega
  next hrest := by
    obtain ⟨d, text, rfl⟩ := List.exists_cons_of_ne_nil hrest
    rw [List.length_singleton, startsLine_one, hc, Bool.true_and, Bool.not_eq_true',
      Bool.and_eq_false_iff, beq_eq_false_iff_ne, beq_eq_false_iff_ne]
    by_contra h
    simp only [ne_eq, not_or, not_not] at h
    exact hpair text h.1 (by rw [h.2])

/-- A line goes on behind a character that does not end it. -/
theorem IsFirstLine.cons (h : IsFirstLine text line rest) (hc : Text.endsLine c = false) :
    IsFirstLine (c :: text) (c :: line) rest where
  append := congrArg (c :: ·) h.append
  ne_nil _ := by simp
  inside p hpos hp := by
    match p, hpos, hp with
    | 1, _, _ => exact startsLine_one_of_not_endsLine hc text
    | q + 2, _, hp =>
      rw [startsLine_cons]
      exact h.inside (q + 1) q.succ_pos (Nat.lt_of_succ_lt_succ hp)
  next hrest := by
    have htext : text ≠ [] := by
      rw [← h.append]
      exact List.append_ne_nil_of_right_ne_nil _ hrest
    obtain ⟨d, tail, hline⟩ := List.exists_cons_of_ne_nil (h.ne_nil htext)
    have hnext := h.next hrest
    rw [hline, List.length_cons] at hnext
    rwa [hline, List.length_cons, List.length_cons, startsLine_cons]

theorem isFirstLine_splitLine (text : List Char) :
    IsFirstLine text (splitLine text).1 (splitLine text).2 := by
  fun_induction splitLine text with
  | case1 => exact ⟨rfl, fun h => h, fun p _ h => by simp at h, fun h => (h rfl).elim⟩
  | case2 rest =>
    -- A carriage return and its line feed end a line together, so no line starts between them.
    refine ⟨rfl, fun _ => by simp, fun p hpos hp => ?_, fun hrest => ?_⟩
    · obtain rfl : p = 1 := by
        simp at hp
        omega
      rfl
    · obtain ⟨d, rest, rfl⟩ := List.exists_cons_of_ne_nil hrest
      rfl
  | case3 c rest hpair hc => exact isFirstLine_singleton hc hpair
  | case4 c rest hpair hc line rest' hsplit ih =>
    rw [hsplit] at ih
    exact ih.cons (by simpa using hc)

/-! ## The line that holds a place -/

/-- **The line holds the place**: it is the last one that starts up to there, its number is how many
start before it, and it reaches over the place unless the text ends there. -/
structure SourceLine.Holds (text : List Char) (place : Nat) (line : SourceLine) : Prop where
  start_le : line.start ≤ place
  starts : startsLine text line.start = true
  latest : ∀ p, line.start < p → p ≤ place → startsLine text p = false
  index : Nat.count (startsLine text · = true) (line.start + 1) = line.index + 1
  stop_le : line.stop ≤ text.length
  reaches : place < line.stop ∨ line.stop = text.length

/-- No further line starts between two places: as many start up to the one as up to the other. -/
theorem count_startsLine_eq (hs : s ≤ place)
    (hlatest : ∀ p, s < p → p ≤ place → startsLine text p = false) :
    Nat.count (startsLine text · = true) (place + 1) =
      Nat.count (startsLine text · = true) (s + 1) := by
  obtain ⟨k, rfl⟩ := Nat.exists_eq_add_of_le hs
  have hnone : Nat.count (fun j => startsLine text (s + 1 + j) = true) k = 0 :=
    Nat.count_of_forall_not fun j hj => by simp [hlatest (s + 1 + j) (by omega) (by omega)]
  rw [show s + k + 1 = s + 1 + k by omega, Nat.count_add, hnone, Nat.add_zero]

/-- Lines are numbered from a place on. -/
theorem start_le_of_mem_numberLines {lines : List (List Char)} {line : SourceLine}
    (h : line ∈ numberLines i s lines) : s ≤ line.start := by
  induction lines generalizing i s with
  | nil => cases h
  | cons chars lines ih =>
    rcases List.mem_cons.1 h with rfl | h
    · exact Nat.le_refl _
    · exact Nat.le_trans (Nat.le_add_right _ _) (ih h)

/-- No line starts up to a place if the lines start later, or if there are none. -/
theorem find?_numberLines_eq_none {fuel : Nat} (h : place < s ∨ text.length ≤ s) :
    (numberLines i s (splitLines fuel (text.drop s))).reverse.find?
      (fun line => line.start ≤ place) = none := by
  rcases h with hlt | hend
  · rw [List.find?_eq_none]
    intro line hline
    have := start_le_of_mem_numberLines (List.mem_reverse.1 hline)
    simp only [decide_eq_true_eq]
    omega
  · have hlines : splitLines fuel (text.drop s) = [] := by
      rw [List.drop_eq_nil_of_le hend]
      cases fuel <;> rfl
    rw [hlines]
    rfl

/-- **The line at a place of the text** goes up to the next line start, or to the end. -/
theorem splitLines_drop (fuel : Nat) (hs : s < text.length) :
    ∃ chars, splitLines (fuel + 1) (text.drop s) =
        chars :: splitLines fuel (text.drop (s + chars.length)) ∧
      0 < chars.length ∧ s + chars.length ≤ text.length ∧
      (∀ p, s < p → p < s + chars.length → startsLine text p = false) ∧
      (s + chars.length < text.length → startsLine text (s + chars.length) = true) := by
  obtain ⟨happend, hne, hinside, hnext⟩ := isFirstLine_splitLine (text.drop s)
  obtain ⟨c, tail, hdrop⟩ : ∃ c tail, text.drop s = c :: tail :=
    List.exists_cons_of_ne_nil (by simpa using hs)
  have hlines : splitLines (fuel + 1) (text.drop s) =
      (splitLine (text.drop s)).1 :: splitLines fuel (splitLine (text.drop s)).2 := by
    rw [hdrop, splitLines]
    simp
  -- What is known of the rest of the text is carried over to the places of the whole text.
  generalize (splitLine (text.drop s)).1 = chars at *
  generalize (splitLine (text.drop s)).2 = rest at *
  have hrest : text.drop (s + chars.length) = rest := by
    rw [← List.drop_drop, ← happend, List.drop_left]
  have hpos : 0 < chars.length := List.length_pos_of_ne_nil (hne (by simp [hdrop]))
  have hlength : chars.length + rest.length = text.length - s := by
    rw [← List.length_append, happend, List.length_drop]
  refine ⟨chars, by rw [hlines, hrest], hpos, by omega, fun p hp hp' => ?_, fun hlt => ?_⟩
  · have := hinside (p - s) (by omega) (by omega)
    rwa [startsLine_drop _ _ (by omega), Nat.add_sub_cancel' hp.le] at this
  · have := hnext (List.ne_nil_of_length_pos (by omega))
    rwa [startsLine_drop _ _ hpos] at this

/-- **From a line start on**, the last line that starts up to a place is the one that holds it. -/
theorem find?_numberLines {fuel : Nat} (hfuel : text.length - s ≤ fuel) (hs : s < text.length)
    (hstarts : startsLine text s = true)
    (hindex : Nat.count (startsLine text · = true) (s + 1) = i + 1) (hplace : s ≤ place) :
    ∃ line, (numberLines i s (splitLines fuel (text.drop s))).reverse.find?
        (fun line => line.start ≤ place) = some line ∧ line.Holds text place := by
  -- From one line start to the next: the number of the line counts the starts so far.
  induction fuel generalizing i s with
  | zero => omega
  | succ fuel ih =>
    obtain ⟨chars, hlines, hpos, hle, hinside, hnext⟩ := splitLines_drop fuel hs
    rw [hlines, numberLines, List.reverse_cons, List.find?_append]
    by_cases hlater : s + chars.length ≤ place ∧ s + chars.length < text.length
    · -- A later line starts up to the place.
      obtain ⟨hplace', hlt⟩ := hlater
      have hindex' : Nat.count (startsLine text · = true) (s + chars.length + 1) = i + 1 + 1 := by
        have hlatest (p : Nat) (hp : s < p) (hp' : p ≤ s + chars.length - 1) :
            startsLine text p = false := hinside p hp (by omega)
        have hsame := count_startsLine_eq (by omega) hlatest
        rw [Nat.sub_add_cancel (by omega)] at hsame
        rw [Nat.count_succ, hsame, hindex, if_pos (hnext hlt)]
      obtain ⟨line, hfind, hholds⟩ := ih (by omega) hlt (hnext hlt) hindex' hplace'
      exact ⟨line, by rw [hfind, Option.some_or], hholds⟩
    · -- This line is the last one up to the place, or the last one of all.
      refine ⟨⟨i, s, chars⟩, ?_, hplace, hstarts, fun p hp hp' => ?_, hindex, hle, ?_⟩
      · rw [find?_numberLines_eq_none (by omega), Option.none_or]
        simp [hplace]
      · by_cases hp'' : p < s + chars.length
        · exact hinside p hp hp''
        · exact startsLine_of_length_le (by omega) (by omega)
      · simp only [SourceLine.stop]
        omega

/-- The first place starts the first line. -/
theorem count_startsLine_one (text : List Char) : Nat.count (startsLine text · = true) 1 = 1 := by
  rw [Nat.count_succ, Nat.count_zero, if_pos (startsLine_zero text)]

theorem sourceLines_of_ne_nil (htext : text ≠ []) :
    sourceLines text = numberLines 0 0 (splitLines text.length text) := by
  obtain ⟨fuel, hfuel⟩ := Nat.exists_eq_succ_of_ne_zero (mt List.length_eq_zero_iff.1 htext)
  obtain ⟨chars, hlines, -⟩ := splitLines_drop fuel (List.length_pos_of_ne_nil htext)
  rw [List.drop_zero] at hlines
  rw [sourceLines, hfuel, Nat.succ_eq_add_one, hlines]

/-- **Every place** up to the end of a text has the line that holds it. -/
theorem lineAt?_of_le (hplace : place ≤ text.length) :
    ∃ line, lineAt? text place = some line ∧ line.Holds text place := by
  rw [lineAt?, if_neg (Nat.not_lt.2 hplace)]
  rcases eq_or_ne text [] with rfl | htext
  · obtain rfl : place = 0 := Nat.le_zero.1 hplace
    exact ⟨⟨0, 0, []⟩, rfl, ⟨Nat.le_refl _, rfl, fun p hp hp' => by omega,
      count_startsLine_one [], Nat.le_refl _, .inr rfl⟩⟩
  · rw [sourceLines_of_ne_nil htext]
    exact find?_numberLines (s := 0) (Nat.le_refl _) (List.length_pos_of_ne_nil htext)
      (startsLine_zero text) (count_startsLine_one text) (Nat.zero_le _)

/-- A place behind a text has no line. -/
theorem lineAt?_of_lt (hplace : text.length < place) : lineAt? text place = none := if_pos hplace

/-! ## Positions of places -/

/-- **The position of a place**, counted in characters: how many lines start up to there, and how
far the place is behind the last of these starts. -/
def Position.ofPlace (text : List Char) (place : Nat) : Position where
  line := Nat.count (startsLine text · = true) (place + 1)
  column := place - Nat.findGreatest (startsLine text · = true) place + 1

/-- The position of a place is told by the line that holds it. -/
theorem SourceLine.Holds.ofPlace_eq {line : SourceLine} (h : line.Holds text place) :
    Position.ofPlace text place = ⟨line.index + 1, place - line.start + 1⟩ := by
  have hgreatest : Nat.findGreatest (startsLine text · = true) place = line.start :=
    Nat.findGreatest_eq_iff.2 ⟨h.start_le, fun _ => h.starts, fun p hp hp' =>
      by simp [h.latest p hp hp']⟩
  rw [Position.ofPlace, hgreatest, count_startsLine_eq h.start_le h.latest, h.index]

/-- **One place further**, either a line starts or the next column. -/
theorem Position.ofPlace_succ (text : List Char) (place : Nat) :
    ofPlace text (place + 1) =
      if startsLine text (place + 1) then ⟨(ofPlace text place).line + 1, 1⟩
      else ⟨(ofPlace text place).line, (ofPlace text place).column + 1⟩ := by
  have hle := Nat.findGreatest_le (P := (startsLine text · = true)) place
  simp only [ofPlace, Nat.count_succ _ (place + 1), Nat.findGreatest_succ]
  split
  · simp
  · simp only [Nat.add_zero, Position.mk.injEq, true_and]
    omega

/-- **Bytes and characters agree** on the position of a number, if up to there the lines of the one
start exactly behind the line feeds of the other. -/
theorem Position.ofBytes_eq_ofPlace {bytes : List UInt8} (hplace : place ≤ bytes.length)
    (h : ∀ p < place, bytes[p]? = some lineFeed ↔ startsLine text (p + 1) = true) :
    ofBytes bytes place = ofPlace text place := by
  induction place with
  | zero => simp [ofBytes_zero, ofPlace, count_startsLine_one]
  | succ place ih =>
    have hlt : place < bytes.length := hplace
    have hfeed : bytes[place] = lineFeed ↔ startsLine text (place + 1) = true := by
      rw [← h place (Nat.lt_succ_self _), List.getElem?_eq_getElem hlt, Option.some.injEq]
    rw [ofBytes_succ hlt, ofPlace_succ, ih (by omega) fun p hp => h p (by omega)]
    simp only [hfeed]

/-! ## Plain text -/

/-- **Plain text**: up to `stop` all characters are ASCII, and up to `start` lines end with line
feeds only, with a carriage return before them or none. -/
structure PlainUpTo (text : List Char) (start stop : Nat) : Prop where
  ascii : ∀ c ∈ text.take stop, c.toNat < 128
  feeds : ∀ p < start, ∀ c ∈ text[p]?, Text.endsLine c = true →
    c = '\n' ∨ c = '\r' ∧ text[p + 1]? = some '\n'

instance {start stop : Nat} : Decidable (PlainUpTo text start stop) :=
  decidable_of_iff
    ((text.take stop).all (·.toNat < 128) = true ∧
      ∀ p < start, text[p]?.all (fun c => !Text.endsLine c ||
        (c == '\n' || c == '\r' && text[p + 1]? == some '\n')) = true)
    ⟨fun h => ⟨by simpa using h.1, fun p hp c hc hends => by
        simpa [Option.mem_def.1 hc, hends] using h.2 p hp⟩,
      fun h => ⟨by simpa using h.ascii, fun p hp => by
        cases hc : text[p]? with
        | none => rfl
        | some c => simpa [Classical.or_iff_not_imp_left] using h.feeds p hp c hc⟩⟩

/-- The byte of an ASCII character is a line feed only if the character is. -/
theorem ofNat_toNat_eq_lineFeed (hc : c.toNat < 128) :
    UInt8.ofNat c.toNat = lineFeed ↔ c = '\n' := by
  rw [UInt8.ofNat_eq_iff_mod_eq_toNat, Nat.mod_eq_of_lt (by omega), ← Char.toNat_inj]
  rfl

namespace PlainUpTo

variable {source : String} {start stop : Nat}

/-- In plain text no place within the bytes lies behind the characters. -/
theorem stop_le_length (h : PlainUpTo source.toList start stop)
    (hstop : stop ≤ source.utf8ByteSize) : stop ≤ source.toList.length := by
  by_contra hlt
  have hall : ∀ c ∈ source.toList, c.toNat < 128 := by
    have := h.ascii
    rwa [List.take_of_length_le (by omega)] at this
  have hbytes : source.toUTF8.data.toList.length = source.toList.length := by
    rw [toList_toUTF8, flatMap_utf8EncodeChar_of_ascii hall, List.length_map]
  have hsize : source.toUTF8.data.toList.length = source.utf8ByteSize := by simp
  omega

/-- In plain text a byte is a line feed where the character is one. -/
theorem getElem?_bytes (h : PlainUpTo source.toList start stop) (hp : p < stop)
    (hc : source.toList[p]? = some c) :
    source.toUTF8.data.toList[p]? = some lineFeed ↔ c = '\n' := by
  obtain ⟨hlt, hget⟩ := List.getElem?_eq_some_iff.1 hc
  -- Behind `stop` the characters may be wider, but all bytes up to there come from before it.
  have hbytes : source.toUTF8.data.toList[p]? = some (UInt8.ofNat c.toNat) := by
    rw [toList_toUTF8, ← List.take_append_drop stop source.toList, List.flatMap_append,
      flatMap_utf8EncodeChar_of_ascii h.ascii, List.getElem?_append_left (by simp; omega)]
    simp [hp, hc]
  rw [hbytes, Option.some.injEq, ofNat_toNat_eq_lineFeed]
  exact h.ascii c (List.mem_take_iff_getElem.2 ⟨p, by simp; omega, hget⟩)

/-- In plain text a line starts only behind a line feed. -/
theorem startsLine_succ (h : PlainUpTo source.toList start stop) (hp : p < start)
    (hlast : start < source.toList.length) (hc : source.toList[p]? = some c) :
    startsLine source.toList (p + 1) = true ↔ c = '\n' := by
  have hd : source.toList[p + 1]? = some source.toList[p + 1] :=
    List.getElem?_eq_getElem (by omega)
  simp only [startsLine, hc, hd]
  constructor
  · intro hstarts
    obtain ⟨hends, hpair⟩ := Bool.and_eq_true_iff.1 hstarts
    rcases h.feeds p hp c hc hends with hfeed | ⟨hreturn, hfeed⟩
    · exact hfeed
    · rw [hd, Option.some.injEq] at hfeed
      simp [hreturn, hfeed] at hpair
  · rintro rfl
    rfl

/-- **In plain text** a number stands for one position, as an offset in bytes and as a place in
characters. -/
theorem ofOffset_eq_ofPlace (h : PlainUpTo source.toList start stop) (hstart : start < stop)
    (hstop : stop ≤ source.utf8ByteSize) :
    Position.ofOffset source start = Position.ofPlace source.toList start := by
  have hlength := h.stop_le_length hstop
  have hsize : source.toUTF8.data.toList.length = source.utf8ByteSize := by simp
  refine Position.ofBytes_eq_ofPlace (by omega) fun p hp => ?_
  have hc : source.toList[p]? = some source.toList[p] := List.getElem?_eq_getElem (by omega)
  rw [h.getElem?_bytes (hp.trans hstart) hc, h.startsLine_succ hp (by omega) hc]

end PlainUpTo

end Termwise
