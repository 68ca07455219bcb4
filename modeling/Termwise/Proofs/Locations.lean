import Mathlib.Algebra.Order.SuccPred
import Mathlib.Data.List.TakeWhile
import Mathlib.Data.Nat.SuccPred
import Mathlib.Order.Interval.Set.Monotone
import Termwise.Source.Span

/-!
# Offsets and locations

Up to the end of a text, offsets and their positions correspond one to one, and in the same order.
The way back goes by line starts: a position is so many bytes after the start of its line as its
column says, and its line is the rest of the text after so many line feeds as its number says. So
positions can be compared and put in order in place of the offsets that they come from.

A location is a position in numbers of 32 bits, and so is the offset. Lines and columns are counted
from one, so that the greatest of all offsets has no location if everything before it is one line,
or if every byte before it ends one. All that is true of positions is true of locations otherwise.

## Main definitions

* `afterLineFeeds`: where a text goes on after its first line feeds
* `Position.OnLine`: an offset is on the line of a position, as far behind its start as it says

## Main results

* `Position.ofBytes_succ`: how the position changes from one offset to the next
* `Position.onLine_ofBytes`: every offset is on the line of its position
* `Location.ofBytes?_eq_some_iff`, `Location.ofBytes?_eq_none_iff`: which offsets have a location
* `Location.ofOffset_faithful`: offsets and locations
-/

namespace Termwise

variable {bytes rest : List UInt8} {n : Nat}

/-! ## Bytes of a text -/

/-- The bytes of a text are those of its characters. -/
theorem toList_toUTF8 (source : String) :
    source.toUTF8.data.toList = source.toList.flatMap String.utf8EncodeChar := by
  rw [String.toUTF8_eq_toByteArray, ← String.utf8Encode_toList, List.utf8Encode,
    List.data_toByteArray]

/-- An ASCII character is one byte. -/
theorem utf8EncodeChar_of_ascii {c : Char} (hc : c.toNat < 128) :
    String.utf8EncodeChar c = [UInt8.ofNat c.toNat] := by
  have hle : c.toNat ≤ 127 := Nat.le_of_lt_succ hc
  simp [String.utf8EncodeChar, hle]

theorem flatMap_utf8EncodeChar_of_ascii {text : List Char}
    (htext : ∀ c ∈ text, c.toNat < 128) :
    text.flatMap String.utf8EncodeChar = text.map fun c => UInt8.ofNat c.toNat := by
  induction text with
  | nil => rfl
  | cons c text ih =>
    obtain ⟨hc, htext⟩ := List.forall_mem_cons.1 htext
    rw [List.flatMap_cons, utf8EncodeChar_of_ascii hc, ih htext, List.map_cons,
      List.singleton_append]

/-! ## Lines and their starts -/

/-- The offset just after the first `k` line feeds; zero for none. -/
def afterLineFeeds : (k : Nat) → List UInt8 → Nat
  | 0, _ | _, [] => 0
  | k + 1, b :: bytes =>
    if b = lineFeed then afterLineFeeds k bytes + 1 else afterLineFeeds (k + 1) bytes + 1

/-- A line starts after the line feed before it. -/
theorem afterLineFeeds_append (before rest : List UInt8) :
    afterLineFeeds (before.count lineFeed + 1) (before ++ lineFeed :: rest) =
      before.length + 1 := by
  induction before with
  | nil => simp [afterLineFeeds]
  | cons b before ih =>
    by_cases hb : b = lineFeed
    · simp [afterLineFeeds, hb, ih]
    · simp [afterLineFeeds, hb, ih]

/-- No more line feeds stand before an offset than bytes of the text. -/
theorem feedsBefore_le (bytes : List UInt8) (n : Nat) :
    feedsBefore bytes n ≤ min n bytes.length := by
  rw [← List.length_take]
  exact List.count_le_length

theorem bytesBefore_le (bytes : List UInt8) (n : Nat) :
    bytesBefore bytes n ≤ min n bytes.length := by
  rw [← List.length_take, ← List.length_reverse]
  exact (List.takeWhile_prefix _).length_le

/-- As many line feeds as bytes stand before an offset if all of them are. -/
theorem feedsBefore_eq_iff (hn : n ≤ bytes.length) :
    feedsBefore bytes n = n ↔ ∀ b ∈ bytes.take n, b = lineFeed := by
  have hcount := List.count_eq_length (a := lineFeed) (l := bytes.take n)
  rw [List.length_take_of_le hn] at hcount
  simp only [feedsBefore, hcount, eq_comm]

/-- A line reaches back to the start of the text if none of the bytes before is a line feed. -/
theorem bytesBefore_eq_iff (hn : n ≤ bytes.length) :
    bytesBefore bytes n = n ↔ ∀ b ∈ bytes.take n, b ≠ lineFeed := by
  have hlength : (bytes.take n).reverse.length = n := by
    rw [List.length_reverse, List.length_take_of_le hn]
  have hall : bytesBefore bytes n = n ↔
      (bytes.take n).reverse.takeWhile (· != lineFeed) = (bytes.take n).reverse := by
    constructor
    · intro h
      exact (List.takeWhile_prefix _).eq_of_length (h.trans hlength.symm)
    · intro h
      rw [bytesBefore, h, hlength]
  simp [hall, List.takeWhile_eq_self_iff]

namespace Position

/-! ## The order of positions -/

instance : LT Position where
  lt a b := a.line < b.line ∨ a.line = b.line ∧ a.column < b.column

instance : LE Position where
  le a b := a.line < b.line ∨ a.line = b.line ∧ a.column ≤ b.column

theorem lt_def {a b : Position} :
    a < b ↔ a.line < b.line ∨ a.line = b.line ∧ a.column < b.column := Iff.rfl

theorem le_def {a b : Position} :
    a ≤ b ↔ a.line < b.line ∨ a.line = b.line ∧ a.column ≤ b.column := Iff.rfl

instance : PartialOrder Position where
  le_refl a := le_def.2 (.inr ⟨rfl, Nat.le_refl _⟩)
  le_trans a b c := by
    simp only [le_def]
    omega
  le_antisymm a b := by
    simp only [le_def, Position.ext_iff]
    omega
  lt_iff_le_not_ge a b := by
    simp only [lt_def, le_def]
    omega

/-! ## From one offset to the next -/

theorem ofBytes_zero (bytes : List UInt8) : ofBytes bytes 0 = ⟨1, 1⟩ := by
  simp [ofBytes, feedsBefore, bytesBefore]

/-- **One byte further**, a line feed starts the next line and any other byte the next column. -/
theorem ofBytes_succ (hn : n < bytes.length) :
    ofBytes bytes (n + 1) =
      if bytes[n] = lineFeed then ⟨(ofBytes bytes n).line + 1, 1⟩
      else ⟨(ofBytes bytes n).line, (ofBytes bytes n).column + 1⟩ := by
  have htake : bytes.take (n + 1) = bytes.take n ++ [bytes[n]] :=
    (List.take_append_getElem hn).symm
  simp only [ofBytes, feedsBefore, bytesBefore, htake, List.count_append, List.count_singleton,
    List.reverse_append, List.reverse_singleton, List.singleton_append, List.takeWhile_cons]
  by_cases hb : bytes[n] = lineFeed <;> simp [hb]

/-- All offsets past the end have the position of the end. -/
theorem ofBytes_min (bytes : List UInt8) (n : Nat) :
    ofBytes bytes (min n bytes.length) = ofBytes bytes n := by
  simp only [ofBytes, feedsBefore, bytesBefore, ← List.take_eq_take_min]

/-- **The next position** is a greater one. -/
theorem ofBytes_lt_succ (hn : n < bytes.length) : ofBytes bytes n < ofBytes bytes (n + 1) := by
  rw [ofBytes_succ hn, lt_def]
  split
  · exact .inl (Nat.lt_succ_self _)
  · exact .inr ⟨rfl, Nat.lt_succ_self _⟩

/-- Positions are in the order of their offsets. -/
theorem strictMonoOn_ofBytes (bytes : List UInt8) :
    StrictMonoOn (ofBytes bytes) (Set.Iic bytes.length) :=
  strictMonoOn_Iic_of_lt_succ fun _ hn => ofBytes_lt_succ hn

/-! ## Back to the offset -/

/-- The offset lies on the line of its position, as far behind its start as the column says. -/
structure OnLine (bytes : List UInt8) (n : Nat) (place : Position) : Prop where
  one_le_line : 1 ≤ place.line
  one_le_column : 1 ≤ place.column
  offset : afterLineFeeds (place.line - 1) bytes + (place.column - 1) = n
  unbroken : ∀ i, afterLineFeeds (place.line - 1) bytes ≤ i → i < n → bytes[i]? ≠ some lineFeed
  bound : place.line + place.column ≤ n + 2

/-- The line after a line feed starts behind it. -/
theorem lineStart_of_lineFeed (hn : n < bytes.length) (hfeed : bytes[n] = lineFeed) :
    afterLineFeeds (ofBytes bytes n).line bytes = n + 1 := by
  have hbytes : bytes.take n ++ lineFeed :: bytes.drop (n + 1) = bytes := by
    rw [← hfeed, ← List.drop_eq_getElem_cons hn, List.take_append_drop]
  have hstart := afterLineFeeds_append (bytes.take n) (bytes.drop (n + 1))
  rwa [hbytes, List.length_take_of_le hn.le] at hstart

/-- **One byte further**, the offset is again on the line of its position. -/
theorem OnLine.succ (h : OnLine bytes n (ofBytes bytes n)) (hn : n < bytes.length) :
    OnLine bytes (n + 1) (ofBytes bytes (n + 1)) := by
  obtain ⟨hline, hcolumn, hoffset, hunbroken, hbound⟩ := h
  rw [ofBytes_succ hn]
  split
  -- a line feed makes the next offset the start of a line, any other byte leaves the start as it is
  · rename_i hfeed
    have hstart := lineStart_of_lineFeed hn hfeed
    constructor <;> simp only [Nat.add_sub_cancel, hstart] <;> omega
  · rename_i hother
    refine ⟨hline, by simp, ?_, fun i hi hin => ?_, ?_⟩
    · simp only
      omega
    · rcases Nat.lt_succ_iff_lt_or_eq.1 hin with hin | rfl
      · exact hunbroken i hi hin
      · simpa [List.getElem?_eq_getElem hn] using hother
    · simp only
      omega

/-- **Every offset** of a text is on the line of its position. -/
theorem onLine_ofBytes (hn : n ≤ bytes.length) : OnLine bytes n (ofBytes bytes n) := by
  induction n with
  | zero =>
    rw [ofBytes_zero]
    constructor <;> simp [afterLineFeeds]
  | succ n ih => exact (ih (by omega)).succ hn

end Position

namespace Location

variable {offset : UInt32} {place : Location}

/-! ## The order of locations -/

theorem position_injective : Function.Injective position := by
  intro a b h
  injection h with hline hcolumn
  exact Location.ext (UInt32.toNat_inj.1 hline) (UInt32.toNat_inj.1 hcolumn)

theorem position_lt_iff {a b : Location} : a.position < b.position ↔ a < b := by
  rw [lt_def, Position.lt_def, UInt32.lt_iff_toNat_lt, UInt32.lt_iff_toNat_lt, ← UInt32.toNat_inj]
  rfl

theorem position_le_iff {a b : Location} : a.position ≤ b.position ↔ a ≤ b := by
  rw [le_def, Position.le_def, UInt32.lt_iff_toNat_lt, UInt32.le_iff_toNat_le, ← UInt32.toNat_inj]
  rfl

instance : LinearOrder Location where
  le_refl a := position_le_iff.1 (le_refl _)
  le_trans a b c h h' := position_le_iff.1 ((position_le_iff.2 h).trans (position_le_iff.2 h'))
  le_antisymm a b h h' :=
    position_injective ((position_le_iff.2 h).antisymm (position_le_iff.2 h'))
  le_total a b := by
    simp only [← position_le_iff, Position.le_def]
    omega
  lt_iff_le_not_ge a b := by
    simp only [← position_le_iff, ← position_lt_iff, lt_iff_le_not_ge]
  toDecidableLE := inferInstance

/-! ## Which offsets have a location -/

/-- The sum overflows for the greatest number of 32 bits only. -/
theorem oneAfter?_eq_some_iff {count : Nat} (hcount : count < 2 ^ 32) {number : UInt32} :
    oneAfter? count = some number ↔ number.toNat = count + 1 := by
  have htoNat : (UInt32.ofNat count).toNat = count := UInt32.toNat_ofNat_of_lt' hcount
  have hlt := number.toNat_lt
  rw [oneAfter?, htoNat]
  split
  · rename_i hfits
    rw [Option.some.injEq, ← UInt32.toNat_inj, UInt32.toNat_add, htoNat, UInt32.toNat_one,
      Nat.mod_eq_of_lt hfits, eq_comm]
  · rename_i hover
    refine iff_of_false nofun fun heq => hover ?_
    exact heq ▸ hlt

/-- **A location** is the position of its offset, if this has numbers of 32 bits. -/
theorem ofBytes?_eq_some_iff :
    ofBytes? bytes offset = some place ↔
      place.position = Position.ofBytes bytes offset.toNat := by
  have hlt := offset.toNat_lt
  have hfeeds : feedsBefore bytes offset.toNat < 2 ^ 32 := by
    have := feedsBefore_le bytes offset.toNat
    omega
  have hbytes : bytesBefore bytes offset.toNat < 2 ^ 32 := by
    have := bytesBefore_le bytes offset.toNat
    omega
  simp only [ofBytes?, Option.bind_eq_bind, Option.bind_eq_some_iff, Option.pure_def,
    Option.some.injEq, oneAfter?_eq_some_iff hfeeds, oneAfter?_eq_some_iff hbytes]
  constructor
  · rintro ⟨line, hline, column, hcolumn, rfl⟩
    simp only [position, hline, hcolumn, Position.ofBytes]
  · intro h
    injection h with hline hcolumn
    exact ⟨place.line, hline, place.column, hcolumn, rfl⟩

/-- An offset has a location if the numbers of its position are less than `2 ^ 32`. -/
theorem exists_ofBytes?_iff :
    (∃ place, ofBytes? bytes offset = some place) ↔
      feedsBefore bytes offset.toNat + 1 < 2 ^ 32 ∧
        bytesBefore bytes offset.toNat + 1 < 2 ^ 32 := by
  simp only [ofBytes?_eq_some_iff]
  constructor
  · rintro ⟨place, h⟩
    injection h with hline hcolumn
    exact ⟨hline ▸ place.line.toNat_lt, hcolumn ▸ place.column.toNat_lt⟩
  · rintro ⟨hline, hcolumn⟩
    refine ⟨⟨.ofNat (feedsBefore bytes offset.toNat + 1),
      .ofNat (bytesBefore bytes offset.toNat + 1)⟩, ?_⟩
    rw [position, UInt32.toNat_ofNat_of_lt' hline, UInt32.toNat_ofNat_of_lt' hcolumn]
    rfl

/-- **The offset without a location** is the greatest one, if the text goes on up to there, and
either all bytes before it are line feeds or none of them is one. -/
theorem ofBytes?_eq_none_iff :
    ofBytes? bytes offset = none ↔
      offset.toNat = 2 ^ 32 - 1 ∧ offset.toNat ≤ bytes.length ∧
        ((∀ b ∈ bytes.take offset.toNat, b = lineFeed) ∨
          ∀ b ∈ bytes.take offset.toNat, b ≠ lineFeed) := by
  have hlt := offset.toNat_lt
  have hfeeds := feedsBefore_le bytes offset.toNat
  have hbytes := bytesBefore_le bytes offset.toNat
  rw [← Option.not_isSome_iff_eq_none, Option.isSome_iff_exists, exists_ofBytes?_iff]
  constructor
  · intro h
    -- One of the two counts is the greatest number, so it is the offset.
    have hlength : offset.toNat ≤ bytes.length := by omega
    rw [← feedsBefore_eq_iff hlength, ← bytesBefore_eq_iff hlength]
    omega
  · rintro ⟨hoffset, hlength, hsame⟩
    rw [← feedsBefore_eq_iff hlength, ← bytesBefore_eq_iff hlength] at hsame
    omega

/-! ## Offsets and locations of a text -/

/-- **Offsets and locations** correspond one to one and in order up to the end of the text, and
every later offset has the location of the end. The way back is to go to the start of the line and
then as far as the column says, which passes no line feed. Every offset has a location, but for the
greatest one of 32 bits, which has none in a text that goes on up to there, if either all bytes
before it are line feeds or none of them is one. -/
theorem ofOffset_faithful (source : String) :
    (∀ offset offset' place place', ofOffset? source offset = some place →
      ofOffset? source offset' = some place' → offset < offset' →
        offset'.toNat ≤ source.utf8ByteSize → place < place') ∧
      (∀ offset offset', source.utf8ByteSize ≤ offset.toNat →
        source.utf8ByteSize ≤ offset'.toNat →
          ofOffset? source offset = ofOffset? source offset') ∧
      ∀ offset,
        let bytes := source.toUTF8.data.toList
        let clamped := min offset.toNat source.utf8ByteSize
        (ofOffset? source offset = none ↔
          offset.toNat = 2 ^ 32 - 1 ∧ offset.toNat ≤ source.utf8ByteSize ∧
            ((∀ b ∈ bytes.take offset.toNat, b = lineFeed) ∨
              ∀ b ∈ bytes.take offset.toNat, b ≠ lineFeed)) ∧
          ∀ place, ofOffset? source offset = some place →
            let lineStart := afterLineFeeds (place.line.toNat - 1) bytes
            1 ≤ place.line ∧ 1 ≤ place.column ∧
              lineStart + (place.column.toNat - 1) = clamped ∧
              ∀ i, lineStart ≤ i → i < clamped → bytes[i]? ≠ some lineFeed := by
  obtain ⟨bytes, hbytes⟩ : ∃ bytes, source.toUTF8.data.toList = bytes := ⟨_, rfl⟩
  have hsize : bytes.length = source.utf8ByteSize := by simp [← hbytes]
  simp only [ofOffset?, hbytes, ← hsize]
  refine ⟨fun a b p q hp hq hab hb => ?_, fun a b ha hb => ?_, fun offset =>
    ⟨ofBytes?_eq_none_iff, fun place h => ?_⟩⟩
  · rw [← position_lt_iff, ofBytes?_eq_some_iff.1 hp, ofBytes?_eq_some_iff.1 hq]
    have hab' := UInt32.lt_iff_toNat_lt.1 hab
    exact Position.strictMonoOn_ofBytes bytes (hab'.le.trans hb) hb hab'
  · -- Both offsets stand for the end, so they have one position.
    have hsame : Position.ofBytes bytes a.toNat = Position.ofBytes bytes b.toNat := by
      rw [← Position.ofBytes_min bytes a.toNat, ← Position.ofBytes_min bytes b.toNat,
        min_eq_right ha, min_eq_right hb]
    refine Option.ext fun place => ?_
    exact ofBytes?_eq_some_iff.trans (hsame ▸ ofBytes?_eq_some_iff.symm)
  · have hposition := ofBytes?_eq_some_iff.1 h
    rw [← Position.ofBytes_min] at hposition
    obtain ⟨hline, hcolumn, hoffset, hunbroken, -⟩ :=
      Position.onLine_ofBytes (min_le_right offset.toNat bytes.length)
    rw [← hposition] at hline hcolumn hoffset hunbroken
    exact ⟨UInt32.le_iff_toNat_le.2 hline, UInt32.le_iff_toNat_le.2 hcolumn, hoffset, hunbroken⟩

/-- A text of as many letters as the greatest offset says has no location at its end. -/
theorem ofOffset?_replicate {n : Nat} (hn : n = 2 ^ 32 - 1) {offset : UInt32}
    (hoffset : offset.toNat = n) :
    (String.ofList (List.replicate n 'a')).utf8ByteSize = n ∧
      ofOffset? (String.ofList (List.replicate n 'a')) offset = none := by
  have hascii : ∀ c ∈ List.replicate n 'a', c.toNat < 128 := by
    intro c hc
    rw [(List.mem_replicate.1 hc).2]
    decide
  have hbytes :
      (String.ofList (List.replicate n 'a')).toUTF8.data.toList = List.replicate n 97 := by
    rw [toList_toUTF8, String.toList_ofList, flatMap_utf8EncodeChar_of_ascii hascii,
      List.map_replicate]
    rfl
  refine ⟨?_, ?_⟩
  · rw [String.utf8ByteSize, ← ByteArray.size_data, ← Array.length_toList]
    exact (congrArg List.length hbytes).trans List.length_replicate
  · rw [ofOffset?, hbytes, ofBytes?_eq_none_iff]
    refine ⟨hoffset.trans hn, by simp [hoffset], .inr fun b hb => ?_⟩
    rw [(List.mem_replicate.1 (List.mem_of_mem_take hb)).2]
    decide

/-- **The end of a long line may have no location**: its column would be `2 ^ 32`. -/
theorem ofOffset?_longest :
    let source := String.ofList (List.replicate (2 ^ 32 - 1) 'a')
    source.utf8ByteSize < 2 ^ 32 ∧
      (4294967295 : UInt32).toNat ≤ source.utf8ByteSize ∧
      ofOffset? source 4294967295 = none := by
  obtain ⟨hsize, hnone⟩ := ofOffset?_replicate (n := 2 ^ 32 - 1) rfl
    (show (4294967295 : UInt32).toNat = 2 ^ 32 - 1 from rfl)
  refine ⟨?_, ?_, hnone⟩
  · rw [hsize]
    decide
  · rw [hsize]
    decide

end Location

end Termwise
