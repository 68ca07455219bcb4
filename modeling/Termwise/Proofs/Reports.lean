import Mathlib.Data.List.TakeWhile
import Termwise.Proofs.Casts.IntegerText
import Termwise.Proofs.SourceLines
import Termwise.Report.Layout

/-!
# What a report shows of its place

A report takes the range of a diagnostic, which is held within the bytes of the source, for places
in characters. So it shows where the diagnostic is, with line, column and label, if the text up to
there is plain; and elsewhere it may show another place, or none. How much it shows goes by the
number of characters alone: a range that ends up to there has its position and its label, one that
ends a place further has its position only, and any other one has neither.

This is all that has to be known of a layout, and the standard one is shown to be like that.

## Main definitions

* `Layout.CountsCharacters`: a layout that takes ranges for places in characters
* `Diagnostic.ShowsPosition`, `Diagnostic.ShowsLabel`: what stands in the rows of a report
* `Diagnostic.SaysPlace`: what stands in its text

## Main results

* `Span.clamp_range`: the range of a report within a length
* `Excerpt.of?_of_le`, `Excerpt.of?_eq_none`: which ranges have an excerpt
* `Layout.countsCharacters_standard`: the standard layout counts characters
* `Diagnostic.render_place`: what a report shows, and that it is right in plain text
-/

namespace Termwise

variable {s range : Span} {length : Nat} {text : List Char} {label source : String}
variable {place : Position} {x : Excerpt} {d : Diagnostic} {r : Report}

/-! ## Ranges within a length -/

namespace Span

theorem clamp_start (s : Span) (length : Nat) : (s.clamp length).start = min s.start length := by
  simp only [clamp]
  split <;> rfl

/-- The range ends where the span does, but at least one place behind its start, and not behind the
length. -/
theorem clamp_stop (s : Span) (length : Nat) :
    (s.clamp length).stop = min (max s.stop (s.start + 1)) length := by
  have := s.start_le_stop
  simp only [clamp]
  split <;> simp only <;> omega

theorem isEmpty_eq_false (h : s.start < s.stop) : s.isEmpty = false := by
  simpa [isEmpty] using h.ne

/-- **The range of a span within a length**: it starts where the span does, or at the end if the
span starts behind it, and never passes the end. It is empty exactly for a span that starts at the
end or behind it, for which there is no place left to be widened to. It holds the places of the span
within the length, and the first place of an empty one; so it is the span itself exactly if this
ends within the length and is not empty, or is the empty one at the end. -/
theorem clamp_range (s : Span) (length : Nat) :
    let range := s.clamp length
    range.stop ≤ length ∧ range.start = min s.start length ∧
      (range.isEmpty = true ↔ length ≤ s.start) ∧
      (∀ p, (range.start ≤ p ∧ p < range.stop) ↔
        p < length ∧ (s.start ≤ p ∧ p < s.stop ∨ p = s.start)) ∧
      (range = s ↔ s.stop ≤ length ∧ (s.isEmpty = true → s.start = length)) := by
  have := s.start_le_stop
  simp only [Span.ext_iff, isEmpty, beq_iff_eq, clamp_start, clamp_stop, true_and]
  refine ⟨by omega, by omega, fun p => by omega, by omega⟩

/-- An empty span at the end of a text is not widened. -/
theorem clamp_at_end :
    0 < "1 + ".utf8ByteSize ∧ (clamp ⟨4, 4, Nat.le_refl 4⟩ "1 + ".utf8ByteSize).isEmpty = true := by
  decide +kernel

end Span

/-! ## Excerpts -/

namespace Excerpt

/-- A range that ends more than a place behind the text has no excerpt. -/
theorem of?_eq_none (hrange : range.start < range.stop) (hstop : text.length + 1 < range.stop) :
    of? text range = none := by
  simp only [of?, Span.isEmpty_eq_false hrange, Bool.false_eq_true, if_false,
    lineAt?_of_lt (show text.length < range.stop - 1 by omega)]
  cases lineAt? text range.start <;> rfl

/-- **A range up to the end of a text**, or one place further, has an excerpt. It ends in its last
line unless it ends behind the text. -/
theorem of?_of_le (hrange : range.start < range.stop) (hstop : range.stop ≤ text.length + 1) :
    ∃ x, of? text range = some x ∧ x.position = Position.ofPlace text range.start ∧
      (x.endsInLine = true ↔ range.stop ≤ text.length) := by
  obtain ⟨first, hfirst, hholds⟩ := lineAt?_of_le (show range.start ≤ text.length by omega)
  obtain ⟨last, hlast, hholds'⟩ := lineAt?_of_le (show range.stop - 1 ≤ text.length by omega)
  refine ⟨⟨range, first, last⟩, ?_, hholds.ofPlace_eq.symm, ?_⟩
  · simp only [of?, Span.isEmpty_eq_false hrange, Bool.false_eq_true, if_false, hfirst, hlast]
    rfl
  · have hle := hholds'.stop_le
    have hreaches := hholds'.reaches
    simp only [endsInLine, decide_eq_true_eq]
    omega

end Excerpt

/-! ## Mute pieces

A piece is mute if it is drawn or blank. Margins, strokes and source are made of such pieces, and
the label is none, so it is in no row of margins, strokes and source. -/

/-- A piece that holds no words: it has a part of its own to play, or is blank. -/
def Piece.Mute (piece : Piece) : Prop := piece.ink = .plain → ∀ c ∈ piece.text.toList, c = ' '

theorem mute_of_ne_plain {ink : Ink} {text : String} (h : ink ≠ .plain) :
    (⟨ink, text⟩ : Piece).Mute := fun hink => (h hink).elim

theorem mute_frame (text : String) : (⟨.frame, text⟩ : Piece).Mute := mute_of_ne_plain (by decide)

theorem mute_blanks (n : Nat) : (Piece.blanks n).Mute := by
  intro _ c hc
  rw [Piece.blanks, Piece.plain, String.toList_ofList] at hc
  exact (List.mem_replicate.1 hc).2

theorem mute_strokes (text : String) : ∀ piece ∈ strokes text, piece.Mute := by
  intro piece hpiece
  obtain ⟨c, -, rfl⟩ := List.mem_map.1 hpiece
  exact mute_of_ne_plain (by decide)

theorem mute_sourcePieces (x : Excerpt) (line : SourceLine) :
    ∀ piece ∈ sourcePieces x line, piece.Mute := by
  intro piece hpiece
  obtain ⟨⟨c, column⟩, -, hpiece⟩ := List.mem_flatMap.1 hpiece
  obtain ⟨d, -, rfl⟩ := List.mem_map.1 hpiece
  refine mute_of_ne_plain ?_
  split <;> decide

theorem mute_numberMargin (x : Excerpt) (line : SourceLine) :
    ∀ piece ∈ numberMargin x line, piece.Mute := by
  simp only [numberMargin, List.forall_mem_cons]
  exact ⟨mute_blanks 1, mute_frame _, mute_blanks 1, List.forall_mem_nil _⟩

theorem mute_emptyMargin (x : Excerpt) (mark : Char) :
    ∀ piece ∈ emptyMargin x mark, piece.Mute := by
  simp only [emptyMargin, List.forall_mem_cons]
  exact ⟨mute_blanks 1, mute_of_ne_plain (by decide), mute_blanks 1, List.forall_mem_nil _⟩

/-- The rows that show the source are mute if the range does not end in its last line. -/
theorem mute_excerpt (hends : x.endsInLine = false) (label : String) :
    ∀ row ∈ (if x.isSingle then singleRows x label else multiRows x label),
      ∀ piece ∈ row, piece.Mute := by
  split
  · simp only [singleRows, hends, Bool.false_eq_true, if_false, List.forall_mem_singleton]
    exact mute_emptyMargin x _
  · simp only [multiRows, omitsLines, hends, Bool.not_false, Bool.or_true, if_true,
      Bool.false_eq_true, if_false, List.append_nil, List.singleton_append, List.forall_mem_cons,
      List.forall_mem_append]
    exact ⟨⟨⟨mute_numberMargin x _, mute_strokes _⟩, mute_sourcePieces x _⟩,
      ⟨⟨mute_emptyMargin x _, mute_strokes _⟩, mute_blanks 3, List.forall_mem_nil _⟩,
      List.forall_mem_nil _⟩

/-! ## The label -/

/-- A number starts with a digit. -/
theorem head?_natText (n : Nat) :
    ∃ c, (Text.natText n).toList.head? = some c ∧ c.isAlphanum = true := by
  have hnumeral := Text.Integer.numeral_natText n
  obtain ⟨c, rest, h⟩ := List.exists_cons_of_ne_nil hnumeral.ne_nil
  have hc : c.isDigit = true := hnumeral.isDigit c (h ▸ List.mem_cons_self)
  exact ⟨c, by rw [h, List.head?_cons], by simp [Char.isAlphanum, hc]⟩

/-- A label starts with a letter or a digit. -/
theorem head?_label (cause : Cause) :
    ∃ c, cause.label.toList.head? = some c ∧ c.isAlphanum = true := by
  cases cause with
  | arityShortfall callee expected found =>
    obtain ⟨c, hc, hdigit⟩ := head?_natText found
    exact ⟨c, by simp [Cause.label, hc], hdigit⟩
  | _ => simp [Cause.label]

/-- The label of a report starts with a letter or a digit. -/
def Report.Worded (r : Report) : Prop :=
  ∃ c, r.label.toList.head? = some c ∧ c.isAlphanum = true

theorem worded_report (d : Diagnostic) (source : String) : (d.report source).Worded :=
  head?_label d.error.cause

/-- The label as a piece of the report. -/
def Report.labelPiece (r : Report) : Piece := .plain (" " ++ r.label)

/-- A plain piece that starts otherwise is not the label. -/
theorem labelPiece_ne_plain {text : String} (hr : r.Worded)
    (htext : ∀ c : Char, c.isAlphanum = true → text.toList.take 2 ≠ [' ', c]) :
    r.labelPiece ≠ .plain text := by
  obtain ⟨c, hc, halphanum⟩ := hr
  obtain ⟨rest, hlabel⟩ := List.head?_eq_some_iff.1 hc
  intro h
  injection h with _ h
  refine htext c halphanum ?_
  rw [← h, String.toList_append, hlabel]
  rfl

/-- **The label is not mute**. -/
theorem not_mute_labelPiece (hr : r.Worded) : ¬ r.labelPiece.Mute := by
  obtain ⟨c, hc, halphanum⟩ := hr
  intro hmute
  obtain rfl : c = ' ' := hmute rfl c (by
    simpa [Report.labelPiece, Piece.plain] using .inr (List.mem_of_mem_head? hc))
  exact absurd halphanum (by decide)

/-- No mute row holds the label. -/
theorem labelPiece_not_mem_of_mute {row : List Piece} (hrow : ∀ piece ∈ row, piece.Mute)
    (hr : r.Worded) : r.labelPiece ∉ row :=
  fun h => not_mute_labelPiece hr (hrow _ h)

theorem labelPiece_ne_of_mute {piece : Piece} (hpiece : piece.Mute) (hr : r.Worded) :
    r.labelPiece ≠ piece :=
  fun h => not_mute_labelPiece hr (h ▸ hpiece)

/-! ## The row with the position -/

/-- Numbers with the same text are the same. -/
theorem natText_inj {m n : Nat} (h : Text.natText m = Text.natText n) : m = n := by
  rw [← (Text.Integer.numeral_natText m).value_eq, h, (Text.Integer.numeral_natText n).value_eq]

/-- The digits of a number end at a colon. -/
theorem takeWhile_natText (n : Nat) (rest : List Char) :
    ((Text.natText n).toList ++ ':' :: rest).takeWhile Char.isDigit = (Text.natText n).toList := by
  rw [List.takeWhile_append_of_pos (Text.Integer.numeral_natText n).isDigit,
    List.takeWhile_cons_of_neg (by decide), List.append_nil]

theorem Position.toList_text (a : Position) :
    a.text.toList = (Text.natText a.line).toList ++ ':' :: (Text.natText a.column).toList := by
  simp [text]

/-- **Positions with the same text** are the same. -/
theorem Position.text_inj {a b : Position} (h : a.text = b.text) : a = b := by
  have htext := congrArg String.toList h
  rw [toList_text, toList_text] at htext
  -- The line goes up to the colon, and what is left is the column.
  have hline := congrArg (List.takeWhile Char.isDigit) htext
  rw [takeWhile_natText, takeWhile_natText] at hline
  rw [hline] at htext
  have hcolumn := List.tail_eq_of_cons_eq (List.append_cancel_left htext)
  exact Position.ext (natText_inj (String.toList_inj.1 hline))
    (natText_inj (String.toList_inj.1 hcolumn))

/-- **The row tells the position**. -/
theorem place_eq_of_positionRow_eq {width width' : Nat} {place place' : Position}
    (h : positionRow width place = positionRow width' place') : place = place' := by
  simp only [positionRow, Piece.plain, List.cons.injEq, Piece.mk.injEq, true_and, and_true] at h
  have htext := congrArg String.toList h.2
  simp only [String.toList_append, List.append_assoc, List.append_cancel_left_eq,
    List.append_cancel_right_eq] at htext
  exact Position.text_inj (String.toList_inj.1 htext)

/-- The row with the position does not hold the label. -/
theorem labelPiece_not_mem_positionRow (width : Nat) (place : Position) (hr : r.Worded) :
    r.labelPiece ∉ positionRow width place := by
  have hplace : r.labelPiece ≠ .plain (" <unknown>:" ++ place.text ++ " ") := by
    refine labelPiece_ne_plain hr fun c hc h => ?_
    simp only [String.toList_append] at h
    obtain rfl : '<' = c := List.head_eq_of_cons_eq (List.tail_eq_of_cons_eq h)
    exact absurd hc (by decide)
  have hblanks := labelPiece_ne_of_mute (mute_blanks (width + 2)) hr
  have hframe (text : String) := labelPiece_ne_of_mute (mute_frame text) hr
  simp [positionRow, hplace, hblanks, hframe]

/-! ## Layouts that count characters -/

/-- **A layout counts characters** if it takes the bounds of a range, one that is not empty, for
places in characters of the source. -/
structure Layout.CountsCharacters (layout : Layout) : Prop where
  /-- A range that ends more than a place behind the text leaves the report its head alone. -/
  bare : ∀ (r : Report) (source : String), r.range.start < r.range.stop →
    source.toList.length + 1 < r.range.stop → layout r source = [r.titleRow]
  /-- Below the head of any other report stands the position where its range begins. -/
  position : ∀ (r : Report) (source : String), r.range.start < r.range.stop →
    r.range.stop ≤ source.toList.length + 1 →
      ∃ width below, layout r source =
        r.titleRow :: positionRow width (Position.ofPlace source.toList r.range.start) :: below
  /-- The label ends a row below the head if the range ends within the text, and only then. -/
  label : ∀ (r : Report) (source : String), r.Worded → r.range.start < r.range.stop →
    r.range.stop ≤ source.toList.length + 1 →
      ((∃ pointer, pointer ++ [r.labelPiece] ∈ (layout r source).tail) ↔
        r.range.stop ≤ source.toList.length)

/-! ## The standard layout -/

/-- The label stands below a source line that the range ends in. -/
theorem exists_pointer (hends : x.endsInLine = true) (r : Report) :
    ∃ pointer, pointer ++ [r.labelPiece] ∈
      if x.isSingle then singleRows x r.label else multiRows x r.label := by
  split
  · rw [singleRows, if_pos hends, underlinedRows]
    exact ⟨_, List.mem_cons_of_mem _ (List.mem_cons_of_mem _ List.mem_cons_self)⟩
  · rw [multiRows, if_pos hends, closingRows]
    exact ⟨_, List.mem_append_right _
      (List.mem_cons_of_mem _ (List.mem_cons_of_mem _ List.mem_cons_self))⟩

/-- The rows of advice do not hold the label. -/
theorem labelPiece_not_mem_helpRows (x : Excerpt) (length : Nat) (help : String)
    (hr : r.Worded) : ∀ row ∈ helpRows x length help, r.labelPiece ∉ row := by
  have hindent : ∀ piece ∈ (if x.isSingle then []
      else if x.range.start = length then strokes "│" ++ [.blanks 3] else [.blanks 4]),
      Piece.Mute piece := by
    split
    · exact List.forall_mem_nil _
    · split
      · exact List.forall_mem_append.2 ⟨mute_strokes _, List.forall_mem_singleton.2 (mute_blanks 3)⟩
      · exact List.forall_mem_singleton.2 (mute_blanks 4)
  have hmargin : ∀ piece ∈ emptyMargin x '│' ++ _, Piece.Mute piece :=
    List.forall_mem_append.2 ⟨mute_emptyMargin x '│', hindent⟩
  have hadvice : r.labelPiece ≠ .plain (": " ++ help) := by
    refine labelPiece_ne_plain hr fun c _ h => ?_
    rw [String.toList_append] at h
    exact absurd (List.head_eq_of_cons_eq h) (by decide)
  have hword : r.labelPiece ≠ ⟨.help, "Help"⟩ :=
    labelPiece_ne_of_mute (mute_of_ne_plain (by decide)) hr
  simp only [helpRows, List.forall_mem_cons]
  refine ⟨labelPiece_not_mem_of_mute hmargin hr, fun h => ?_, List.forall_mem_nil _⟩
  rcases List.mem_append.1 h with h | h
  · exact labelPiece_not_mem_of_mute hmargin hr h
  · simp [hadvice, hword] at h

/-- **The label stands** in the last place of a row, if the range ends in its last line; and in no
row, if it does not. -/
theorem mem_excerptRows (x : Excerpt) (length : Nat) (hr : r.Worded) :
    (∃ pointer, pointer ++ [r.labelPiece] ∈ excerptRows x length r.label r.help?) ↔
      x.endsInLine = true := by
  constructor
  · rintro ⟨pointer, hrow⟩
    by_contra hends
    rw [Bool.not_eq_true] at hends
    have hlabel : r.labelPiece ∈ pointer ++ [r.labelPiece] :=
      List.mem_append_right _ (List.mem_singleton_self _)
    have hframe (text : String) := labelPiece_ne_of_mute (mute_frame text) hr
    -- The position, an empty row, the source, the advice and the bottom: the label is in none.
    simp only [excerptRows, List.mem_append, List.mem_cons, List.not_mem_nil, or_false] at hrow
    rcases hrow with (((hrow | hrow) | hrow) | hrow) | hrow
    · exact labelPiece_not_mem_positionRow _ _ hr (hrow ▸ hlabel)
    · have hblanks := labelPiece_ne_of_mute (mute_blanks (x.numberWidth + 2)) hr
      rw [hrow] at hlabel
      simp [hframe, hblanks] at hlabel
    · exact labelPiece_not_mem_of_mute (mute_excerpt hends _ _ hrow) hr hlabel
    · split at hrow
      · exact labelPiece_not_mem_helpRows x length _ hr _ hrow hlabel
      · cases hrow
    · rw [hrow] at hlabel
      simp [hframe] at hlabel
  · intro hends
    obtain ⟨pointer, hrow⟩ := exists_pointer hends r
    refine ⟨pointer, ?_⟩
    simp only [excerptRows, List.mem_append]
    exact .inl (.inl (.inr hrow))

/-- **The standard layout counts characters**: what it draws of a range is its excerpt. -/
theorem Layout.countsCharacters_standard : Layout.standard.CountsCharacters where
  bare r source hrange hstop := by
    simp only [standard, Excerpt.of?_eq_none hrange hstop]
  position r source hrange hstop := by
    obtain ⟨x, hx, hposition, -⟩ := Excerpt.of?_of_le hrange hstop
    simp only [standard, hx, ← hposition]
    exact ⟨x.numberWidth, _, rfl⟩
  label r source hr hrange hstop := by
    obtain ⟨x, hx, -, hends⟩ := Excerpt.of?_of_le hrange hstop
    simp only [standard, hx, List.tail_cons, mem_excerptRows x _ hr, hends]

/-! ## Reports -/

namespace Diagnostic

/-- The row below the head of the report has the position. -/
def ShowsPosition (layout : Layout) (d : Diagnostic) (source : String) (place : Position) : Prop :=
  let r := d.report source
  ∃ width below, layout r source = r.titleRow :: positionRow width place :: below

/-- A row below the head of the report ends with the label. -/
def ShowsLabel (layout : Layout) (d : Diagnostic) (source : String) : Prop :=
  let r := d.report source
  ∃ above pointer below,
    layout r source = r.titleRow :: above ++ (pointer ++ [r.labelPiece]) :: below

/-- **The text of the report says the place**: its head is followed by a line with the position, and
further below a line ends with the label. -/
def SaysPlace (layout : Layout) (settings : Settings) (source : String) (d : Diagnostic)
    (place : Position) : Prop :=
  ∃ (width : Nat) (above below : String),
    d.renderIn layout settings source =
      renderRows settings.diagnosticColor d.severity
          [(d.report source).titleRow, positionRow width place] ++
        above ++ " " ++ d.error.cause.label ++ "\n" ++ below

/-! ### The rows of a report

The diagnostic is about a range that is not empty. -/

section Rows

variable {layout : Layout} (hlayout : layout.CountsCharacters)
  (hd : d.error.span.clamp source.utf8ByteSize = range) (hrange : range.start < range.stop)
include hlayout hd hrange

/-- **The position** that is shown is the one of the place, and it is shown if the range ends at
most a place behind the text. -/
theorem showsPosition_iff (place : Position) :
    d.ShowsPosition layout source place ↔ range.stop ≤ source.toList.length + 1 ∧
      place = Position.ofPlace source.toList range.start := by
  subst hd
  by_cases hstop : (d.report source).range.stop ≤ source.toList.length + 1
  · obtain ⟨width, below, hrows⟩ := hlayout.position _ source hrange hstop
    constructor
    · rintro ⟨width', below', hrows'⟩
      have hrow := List.tail_eq_of_cons_eq (hrows'.symm.trans hrows)
      exact ⟨hstop, place_eq_of_positionRow_eq (List.head_eq_of_cons_eq hrow)⟩
    · rintro ⟨-, rfl⟩
      exact ⟨width, below, hrows⟩
  · refine iff_of_false ?_ fun h => hstop h.1
    rintro ⟨width, below, hrows⟩
    rw [hlayout.bare _ source hrange (Nat.lt_of_not_le hstop)] at hrows
    cases hrows

/-- **The label** is shown if the range ends within the text. -/
theorem showsLabel_iff : d.ShowsLabel layout source ↔ range.stop ≤ source.toList.length := by
  subst hd
  by_cases hstop : (d.report source).range.stop ≤ source.toList.length + 1
  · obtain ⟨width, below, hrows⟩ := hlayout.position _ source hrange hstop
    have hlabel := hlayout.label _ source (worded_report d source) hrange hstop
    refine Iff.trans ?_ hlabel
    constructor
    · rintro ⟨above, pointer, below', hrows'⟩
      refine ⟨pointer, ?_⟩
      rw [hrows', List.cons_append, List.tail_cons]
      exact List.mem_append_right _ List.mem_cons_self
    · rintro ⟨pointer, hrow⟩
      obtain ⟨above, below', hsplit⟩ := List.append_of_mem hrow
      refine ⟨above, pointer, below', ?_⟩
      rw [List.cons_append, ← hsplit, hrows]
      rfl
  · refine iff_of_false ?_ fun h => hstop (Nat.le_succ_of_le h)
    rintro ⟨above, pointer, below, hrows⟩
    rw [hlayout.bare _ source hrange (Nat.lt_of_not_le hstop)] at hrows
    simp at hrows

end Rows

/-! ### The text of a report -/

/-- **The text of some rows** is that of the first ones before that of the others. -/
theorem renderRows_append (colour : Bool) (severity : Severity) (rows rows' : List (List Piece)) :
    renderRows colour severity (rows ++ rows') =
      renderRows colour severity rows ++ renderRows colour severity rows' := by
  simp [renderRows, String.join_append]

/-- A row that ends with the label is a line that does. -/
theorem renderRows_labelRow (colour : Bool) (severity : Severity) (r : Report)
    (pointer : List Piece) :
    ∃ text : String, renderRows colour severity [pointer ++ [r.labelPiece]] =
      text ++ " " ++ r.label ++ "\n" := by
  refine ⟨String.join (pointer.map (·.render colour severity)), ?_⟩
  cases colour <;>
    simp [renderRows, String.join_append, Report.labelPiece, Piece.plain, Piece.render, Ink.code?,
      String.append_assoc]

/-- **What the rows show**, the text of the report says. -/
theorem saysPlace_of_shows {layout : Layout} (settings : Settings)
    (hposition : d.ShowsPosition layout source place) (hlabel : d.ShowsLabel layout source) :
    d.SaysPlace layout settings source place := by
  obtain ⟨width, below, hrows⟩ := hposition
  obtain ⟨above, pointer, below', hrows'⟩ := hlabel
  have hsplit := List.tail_eq_of_cons_eq (hrows.symm.trans hrows')
  -- The row with the position is not the one with the label, so it stands above that one.
  obtain ⟨above, rfl⟩ : ∃ above', above = positionRow width place :: above' := by
    cases above with
    | nil =>
      have hrow := List.head_eq_of_cons_eq hsplit
      refine (labelPiece_not_mem_positionRow width place (worded_report d source) ?_).elim
      rw [hrow]
      exact List.mem_append_right _ (List.mem_singleton_self _)
    | cons row above => exact ⟨above, by rw [List.head_eq_of_cons_eq hsplit]⟩
  obtain ⟨text, htext⟩ :=
    renderRows_labelRow settings.diagnosticColor d.severity (d.report source) pointer
  refine ⟨width, renderRows settings.diagnosticColor d.severity above ++ text,
    renderRows settings.diagnosticColor d.severity below', ?_⟩
  have hall : layout (d.report source) source =
      [(d.report source).titleRow, positionRow width place] ++ above ++
        [pointer ++ [(d.report source).labelPiece]] ++ below' := by
    rw [hrows']
    simp
  rw [renderIn, hall]
  simp only [renderRows_append, htext, String.append_assoc]
  rfl

/-- **What a report says of its place**, for a diagnostic that starts within its source, in a layout
that counts characters. The report shows a position, which is that of the place with the number of
the offset, if the range ends at most a place behind the text, and the label, if the range ends
within the text. In plain text it always shows and says the position of the offset, and the label;
and the location of an offset stands for its position. -/
theorem render_place (layout : Layout) (hlayout : layout.CountsCharacters) (settings : Settings)
    (source : String) (d : Diagnostic) (hstart : d.error.span.start < source.utf8ByteSize) :
    let text := source.toList
    let start := d.error.span.start
    let stop := (d.error.span.clamp source.utf8ByteSize).stop
    (∀ place, d.ShowsPosition layout source place ↔
      stop ≤ text.length + 1 ∧ place = Position.ofPlace text start) ∧
      (d.ShowsLabel layout source ↔ stop ≤ text.length) ∧
      (stop ≤ text.length →
        d.SaysPlace layout settings source (Position.ofPlace text start)) ∧
      (PlainUpTo text start stop →
        d.ShowsPosition layout source (Position.ofOffset source start) ∧
          d.ShowsLabel layout source ∧
          d.SaysPlace layout settings source (Position.ofOffset source start)) ∧
      ∀ offset place, offset.toNat = start → Location.ofOffset? source offset = some place →
        place.position = Position.ofOffset source start := by
  intro text start stop
  obtain ⟨range, hd⟩ : ∃ range, d.error.span.clamp source.utf8ByteSize = range := ⟨_, rfl⟩
  have hbegin : range.start = start := by
    rw [← hd, Span.clamp_start]
    exact min_eq_left hstart.le
  have hend : range.stop = stop := by rw [← hd]
  have hsize : stop ≤ source.utf8ByteSize := by
    simp only [stop, Span.clamp_stop]
    exact min_le_right _ _
  have hrange : range.start < range.stop := by
    rw [hbegin, hend]
    simp only [stop, Span.clamp_stop]
    omega
  -- The report knows the range only, whose start is the one of the span.
  have hposition := showsPosition_iff hlayout hd hrange
  have hlabel := showsLabel_iff hlayout hd hrange
  rw [hbegin, hend] at hposition hrange
  rw [hend] at hlabel
  have hsays (hstop : stop ≤ text.length) :
      d.SaysPlace layout settings source (Position.ofPlace text start) :=
    saysPlace_of_shows settings ((hposition _).2 ⟨Nat.le_succ_of_le hstop, rfl⟩) (hlabel.2 hstop)
  refine ⟨hposition, hlabel, hsays, fun hplain => ?_, fun offset place hoffset hplace => ?_⟩
  · have hstop := hplain.stop_le_length hsize
    rw [hplain.ofOffset_eq_ofPlace hrange hsize]
    exact ⟨(hposition _).2 ⟨Nat.le_succ_of_le hstop, rfl⟩, hlabel.2 hstop, hsays hstop⟩
  · rw [← hoffset]
    exact Location.ofBytes?_eq_some_iff.1 hplace

/-- A name in the second line of a text is shown there. -/
theorem render_secondLine :
    let source := "let x = 1\nfrob x"
    let d : Diagnostic := ⟨.error, ⟨.unknownIdentifier "frob", ⟨10, 14, by decide⟩⟩⟩
    10 < source.utf8ByteSize ∧ PlainUpTo source.toList 10 14 ∧
      Location.ofOffset? source 10 = some ⟨2, 1⟩ ∧ d.ShowsPosition .standard source ⟨2, 1⟩ ∧
      d.ShowsLabel .standard source ∧ d.SaysPlace .standard default source ⟨2, 1⟩ := by
  intro source d
  have hstart : d.error.span.start < source.utf8ByteSize := by decide +kernel
  have hplain : PlainUpTo source.toList 10 14 := by decide +kernel
  have hplace : Location.ofOffset? source 10 = some ⟨2, 1⟩ := by decide +kernel
  have hstop : (d.error.span.clamp source.utf8ByteSize).stop = 14 := by decide +kernel
  obtain ⟨-, -, -, hshown, hlocation⟩ :=
    render_place .standard Layout.countsCharacters_standard default source d hstart
  have hposition : (⟨2, 1⟩ : Position) = Position.ofOffset source d.error.span.start :=
    hlocation 10 _ rfl hplace
  rw [hstop] at hshown
  have hshown := hshown hplain
  rw [← hposition] at hshown
  exact ⟨hstart, hplain, hplace, hshown⟩

/-- **Where characters are wider than a byte**, a place may lie behind the text, so that its report
is the head alone, and another one may lie in a later line than its offset. A carriage return of its
own ends a line for the report alone. -/
theorem rows_misplaced :
    let atName : Diagnostic := ⟨.error, ⟨.unknownIdentifier "λ", ⟨5, 7, by decide⟩⟩⟩
    let atSecondLine : Diagnostic := ⟨.error, ⟨.unexpectedTerm "x", ⟨5, 6, by decide⟩⟩⟩
    let behindReturn : Diagnostic := ⟨.error, ⟨.unexpectedTerm "b", ⟨2, 3, by decide⟩⟩⟩
    5 < "é + λ".utf8ByteSize ∧ (∀ place, ¬ atName.ShowsPosition .standard "é + λ" place) ∧
      ¬ atName.ShowsLabel .standard "é + λ" ∧
      Location.ofOffset? "éé\nx\ny" 5 = some ⟨2, 1⟩ ∧
      atSecondLine.ShowsPosition .standard "éé\nx\ny" ⟨3, 1⟩ ∧
      Location.ofOffset? "a\rb" 2 = some ⟨1, 3⟩ ∧
      behindReturn.ShowsPosition .standard "a\rb" ⟨2, 1⟩ := by
  intro atName atSecondLine behindReturn
  have hrows : Layout.standard (atName.report "é + λ") "é + λ" =
      [(atName.report "é + λ").titleRow] := by decide +kernel
  refine ⟨by decide +kernel, ?_, ?_, by decide +kernel, ?_, by decide +kernel, ?_⟩
  · rintro place ⟨width, below, h⟩
    rw [hrows] at h
    cases h
  · rintro ⟨above, pointer, below, h⟩
    rw [hrows] at h
    simp at h
  · exact ⟨1, (Layout.standard (atSecondLine.report "éé\nx\ny") "éé\nx\ny").drop 2,
      by decide +kernel⟩
  · exact ⟨1, (Layout.standard (behindReturn.report "a\rb") "a\rb").drop 2, by decide +kernel⟩

end Diagnostic

end Termwise
