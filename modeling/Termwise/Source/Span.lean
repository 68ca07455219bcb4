/-!
# Spans and locations in source text

A span is a range of byte offsets into the text of a program; every node and every
diagnostic carries one. A location is a line and a column, both counted from one, and
is worked out from an offset when somebody asks for it. Offsets, lines and columns are numbers of
32 bits, so that the greatest offset may have no location: its line or its column would be one
more than it.

## Main definitions

* `Span`: a range of byte offsets whose bounds are in order
* `Span.merge`: the smallest span over two others
* `Position`: a line and a column
* `Location`: a position in numbers of 32 bits, ordered by line first
* `Location.ofOffset?`: the location of a byte offset
-/

namespace Termwise

/-- A range of byte offsets. `start` lies inside and `stop` is the first offset after it. -/
@[ext] structure Span where
  start : Nat
  stop : Nat
  start_le_stop : start ≤ stop := by omega
deriving DecidableEq

namespace Span

/-- The empty span at offset zero, for nodes that stand nowhere in the text. -/
def origin : Span where
  start := 0
  stop := 0

instance : Inhabited Span := ⟨origin⟩

/-- The span between two bounds, if they are in order. -/
def ofBounds? (start stop : Nat) : Option Span :=
  if h : start ≤ stop then some ⟨start, stop, h⟩ else none

/-- How many bytes the span holds. -/
def length (s : Span) : Nat := s.stop - s.start

/-- Whether the span holds no byte. -/
def isEmpty (s : Span) : Bool := s.start == s.stop

/-- The smallest span that covers both. -/
def merge (s t : Span) : Span where
  start := min s.start t.start
  stop := max s.stop t.stop
  start_le_stop := by
    have := s.start_le_stop
    omega

/-- Every byte of `t` lies in `s`, and so do the bounds of `t`. -/
def Covers (s t : Span) : Prop := s.start ≤ t.start ∧ t.stop ≤ s.stop

instance (s t : Span) : Decidable (s.Covers t) := inferInstanceAs (Decidable (_ ∧ _))

theorem Covers.refl (s : Span) : s.Covers s := ⟨Nat.le_refl _, Nat.le_refl _⟩

theorem Covers.trans {s t u : Span} (h : s.Covers t) (k : t.Covers u) : s.Covers u :=
  ⟨Nat.le_trans h.1 k.1, Nat.le_trans k.2 h.2⟩

theorem merge_covers_left (s t : Span) : (s.merge t).Covers s := by
  constructor <;> simp only [merge] <;> omega

theorem merge_covers_right (s t : Span) : (s.merge t).Covers t := by
  constructor <;> simp only [merge] <;> omega

end Span

/-- A line and a column of a text, both counted from one. -/
@[ext] structure Position where
  line : Nat
  column : Nat
deriving DecidableEq, Inhabited

/-- A position in numbers of 32 bits. -/
@[ext] structure Location where
  line : UInt32
  column : UInt32
deriving DecidableEq, Inhabited

/-! ## Bytes before an offset -/

/-- The byte that ends a line. -/
def lineFeed : UInt8 := 10

/-- How many line feeds stand before an offset. -/
def feedsBefore (bytes : List UInt8) (offset : Nat) : Nat := (bytes.take offset).count lineFeed

/-- How many bytes stand before an offset, back to the last line feed. -/
def bytesBefore (bytes : List UInt8) (offset : Nat) : Nat :=
  ((bytes.take offset).reverse.takeWhile (· != lineFeed)).length

namespace Position

/-- The position of an offset in a run of bytes: lines end after a line feed, columns count
bytes, and an offset past the end stands for the end. -/
def ofBytes (bytes : List UInt8) (offset : Nat) : Position :=
  ⟨feedsBefore bytes offset + 1, bytesBefore bytes offset + 1⟩

/-- The position of a byte offset in a text. -/
def ofOffset (source : String) (offset : Nat) : Position :=
  ofBytes source.toUTF8.data.toList offset

end Position

namespace Location

/-- The place before every other one, where settings that hold for a whole file stand. -/
def start : Location := ⟨0, 0⟩

instance : LT Location where
  lt a b := a.line < b.line ∨ a.line = b.line ∧ a.column < b.column

instance : LE Location where
  le a b := a.line < b.line ∨ a.line = b.line ∧ a.column ≤ b.column

instance (a b : Location) : Decidable (a < b) :=
  inferInstanceAs (Decidable (a.line < b.line ∨ a.line = b.line ∧ a.column < b.column))

instance (a b : Location) : Decidable (a ≤ b) :=
  inferInstanceAs (Decidable (a.line < b.line ∨ a.line = b.line ∧ a.column ≤ b.column))

theorem lt_def {a b : Location} :
    a < b ↔ a.line < b.line ∨ a.line = b.line ∧ a.column < b.column := Iff.rfl

theorem le_def {a b : Location} :
    a ≤ b ↔ a.line < b.line ∨ a.line = b.line ∧ a.column ≤ b.column := Iff.rfl

/-- The position that a location stands for. -/
def position (place : Location) : Position := ⟨place.line.toNat, place.column.toNat⟩

/-- A count as a number of 32 bits, plus one; none if the sum overflows. -/
def oneAfter? (count : Nat) : Option UInt32 :=
  let n := UInt32.ofNat count
  if n.toNat + 1 < UInt32.size then some (n + 1) else none

/-- The location of an offset in a run of bytes, if its line and its column do not overflow. -/
def ofBytes? (bytes : List UInt8) (offset : UInt32) : Option Location := do
  let line ← oneAfter? (feedsBefore bytes offset.toNat)
  let column ← oneAfter? (bytesBefore bytes offset.toNat)
  return ⟨line, column⟩

/-- The location of a byte offset in a text. -/
def ofOffset? (source : String) (offset : UInt32) : Option Location :=
  ofBytes? source.toUTF8.data.toList offset

end Location

end Termwise
