import Termwise.Compilation.Basic
import Termwise.Report.Ink
import Termwise.Source.Lines

/-!
# The layout of reports

A report shows a diagnostic against its source: a head with code, kind and message, the place in
a frame, the source lines where the place begins and ends, and a label that points at it. What it
says is made from the diagnostic; how it is drawn is up to a layout.

The bounds of a span are held within the byte length of the source, and the standard layout counts
them in characters. Where a source has characters of several bytes a place may so lie behind the
text. A report whose first or last place does is its head alone. The place right at the end of the
text belongs to no line: a report that has it as its last place draws its frame, but neither the
last line nor the label.

## Main definitions

* `Span.clamp`: a span held within a length
* `Report`, `Diagnostic.report`: what a report says, and of a diagnostic
* `Layout`, `Layout.standard`: how reports are drawn
* `Excerpt`: the lines that a report shows
* `Diagnostic.render`: a diagnostic as a drawn report
* `renderAll`: all diagnostics
-/

namespace Termwise

/-- The span held within a length. An empty span is widened to one place, if there is one after
it. -/
def Span.clamp (s : Span) (length : Nat) : Span :=
  let start := min s.start length
  let stop := max (min s.stop length) start
  if start = stop then
    ⟨start, min (start + 1) length, by omega⟩
  else
    ⟨start, stop, by omega⟩

/-! ## What a report says -/

/-- What a report says: its code, kind and message, the range of places that it is about, and the
label and the advice that belong to the range. -/
structure Report where
  severity : Severity
  code : String
  message : String
  range : Span
  label : String
  help? : Option String

/-- How reports are drawn against their sources. -/
abbrev Layout := Report → (source : String) → List (List Piece)

/-- The report of a diagnostic against a source. -/
def Diagnostic.report (d : Diagnostic) (source : String) : Report where
  severity := d.severity
  code := d.error.cause.code
  message := d.error.message
  range := d.error.span.clamp source.utf8ByteSize
  label := d.error.cause.label
  help? := d.error.cause.help?

/-- A diagnostic as a report against its source, drawn in a layout. -/
def Diagnostic.renderIn (layout : Layout) (settings : Settings) (source : String)
    (d : Diagnostic) : String :=
  renderRows settings.diagnosticColor d.severity (layout (d.report source) source)

/-! ## Excerpts -/

/-- What a report shows of its source: the range of places, in characters, the line where it
begins and the line where it ends. -/
structure Excerpt where
  range : Span
  first : SourceLine
  last : SourceLine
deriving DecidableEq

namespace Excerpt

/-- The excerpt for a range; none if its first or its last place lies behind the text. -/
def of? (text : List Char) (range : Span) : Option Excerpt := do
  let first ← lineAt? text range.start
  let last ← if range.isEmpty then some first else lineAt? text (range.stop - 1)
  return ⟨range, first, last⟩

/-- The position where the range begins. -/
def position (x : Excerpt) : Position := ⟨x.first.index + 1, x.range.start - x.first.start + 1⟩

/-- Whether the range begins and ends on one line. -/
def isSingle (x : Excerpt) : Bool := x.first.index == x.last.index

/-- Whether the range ends inside its last line. The only one that does not has the end of the
text as its last place. -/
def endsInLine (x : Excerpt) : Bool := x.range.stop ≤ x.last.stop

/-- Whether a place lies in the range. -/
def holds (x : Excerpt) (place : Nat) : Bool := x.range.start ≤ place && place < x.range.stop

/-- The width of the greatest line number. -/
def numberWidth (x : Excerpt) : Nat := (Nat.toDigits 10 (x.last.index + 1)).length

end Excerpt

/-! ## Shown source -/

/-- A character as it is drawn: a tab reaches to the next column that is a multiple of four, and
any other blank is one blank. -/
def drawnChar (column : Nat) (c : Char) : List Char :=
  if c = '\t' then List.replicate (4 - column % 4) ' '
  else if Text.isBlank c then [' ']
  else [c]

/-- The shown characters of a line, each drawn character a piece. -/
def sourcePieces (x : Excerpt) (line : SourceLine) : List Piece :=
  line.shown.zipIdx.flatMap fun (c, column) =>
    let ink := if x.holds (line.start + column) then Ink.label else Ink.source
    (drawnChar column c).map fun d => ⟨ink, d.toString⟩

/-- How wide the cell below a character is; one beyond the shown characters. -/
def cellWidth (line : SourceLine) (column : Nat) : Nat :=
  match line.shown[column]? with
  | some c => (drawnChar column c).length
  | none => 1

/-- A cell: one drawn character, and another to fill the rest of its width. -/
def cell (width : Nat) (head tail : Char) : List Piece :=
  (head :: List.replicate (width - 1) tail).map fun c =>
    ⟨if c = ' ' then .plain else .label, c.toString⟩

/-- The cells below the first characters of a line. -/
def cells (line : SourceLine) (count : Nat) (draw : Nat → Char × Char) : List Piece :=
  (List.range count).flatMap fun column =>
    let (head, tail) := draw column
    cell (cellWidth line column) head tail

/-! ## Rows -/

/-- Text behind blanks, to a width. -/
def paddedLeft (width : Nat) (text : List Char) : String :=
  String.ofList (List.replicate (width - text.length) ' ' ++ text)

/-- The margin beside a source line, which holds its number. -/
def numberMargin (x : Excerpt) (line : SourceLine) : List Piece :=
  [.blanks 1, ⟨.frame, paddedLeft x.numberWidth (Nat.toDigits 10 (line.index + 1)) ++ " │"⟩,
    .blanks 1]

/-- The margin beside a row without source, with a mark of its own where lines are left out. -/
def emptyMargin (x : Excerpt) (mark : Char) : List Piece :=
  [.blanks 1, ⟨.dimFrame, paddedLeft (x.numberWidth + 2) [mark]⟩, .blanks 1]

/-- Single characters that point at the place. -/
def strokes (text : String) : List Piece := text.toList.map fun c => ⟨.label, c.toString⟩

/-- How many cells lie below a range on a line: up to its end and two more. -/
def arrowLength (x : Excerpt) (line : SourceLine) : Nat := x.range.stop - line.start + 2

/-- The rows of a range on one line that it ends in: the line, the range underlined, and the
label. -/
def underlinedRows (x : Excerpt) (label : String) : List (List Piece) :=
  let line := x.first
  let anchor := max ((x.range.start + x.range.stop) / 2) x.range.start - line.start
  let inside := fun column => x.holds (line.start + column)
  let underline := fun column =>
    if column = anchor then (if inside column then ('┬', '─') else ('│', ' '))
    else if inside column then ('─', '─')
    else (' ', ' ')
  let pointer := fun column =>
    if column < anchor then (' ', ' ') else if column = anchor then ('╰', '─') else ('─', '─')
  [ numberMargin x line ++ sourcePieces x line,
    emptyMargin x '│' ++ cells line (arrowLength x line) underline,
    emptyMargin x '│' ++ cells line (arrowLength x line) pointer ++ [.plain (" " ++ label)] ]

/-- The rows of a range on one line; a single empty one if the range does not end in the line. -/
def singleRows (x : Excerpt) (label : String) : List (List Piece) :=
  if x.endsInLine then underlinedRows x label else [emptyMargin x '│']

/-- The rows below a range over several lines that ends in the last of them: this line, and the
label. -/
def closingRows (x : Excerpt) (label : String) : List (List Piece) :=
  let count := x.last.chars.length + 2
  [ numberMargin x x.last ++ strokes "├─▶ " ++ sourcePieces x x.last,
    emptyMargin x '│' ++ strokes "│" ++ [.blanks 3] ++ cells x.last count fun _ => (' ', ' '),
    emptyMargin x '│' ++ strokes "╰───" ++ (cells x.last count fun _ => ('─', '─'))
      ++ [.plain (" " ++ label)] ]

/-- Whether lines after the first are left out: those before the last, and the last itself if the
range does not end in it. -/
def omitsLines (x : Excerpt) : Bool := x.first.index + 1 < x.last.index || !x.endsInLine

/-- The rows of a range over several lines: the first line, one mark for all lines left out, and
the rows that close the range. -/
def multiRows (x : Excerpt) (label : String) : List (List Piece) :=
  [numberMargin x x.first ++ strokes "╭─▶ " ++ sourcePieces x x.first]
    ++ (if omitsLines x then [emptyMargin x '┆' ++ strokes "┆" ++ [.blanks 3]] else [])
    ++ (if x.endsInLine then closingRows x label else [])

/-- The rows of advice. Below several lines they are indented, beside the stroke of a range that
begins exactly at the end of the first line of the source. -/
def helpRows (x : Excerpt) (firstLineLength : Nat) (help : String) : List (List Piece) :=
  let indent :=
    if x.isSingle then []
    else if x.range.start = firstLineLength then strokes "│" ++ [.blanks 3]
    else [.blanks 4]
  [ emptyMargin x '│' ++ indent,
    emptyMargin x '│' ++ indent ++ [⟨.help, "Help"⟩, .plain (": " ++ help)] ]

/-- The row with the position where a range begins. -/
def positionRow (width : Nat) (place : Position) : List Piece :=
  [.blanks (width + 2), ⟨.frame, "╭"⟩, ⟨.frame, "─"⟩, ⟨.frame, "["⟩,
    .plain (" <unknown>:" ++ place.text ++ " "), ⟨.frame, "]"⟩]

/-- The rows that show the place: a frame with the position, the source, the label and advice. -/
def excerptRows (x : Excerpt) (firstLineLength : Nat) (label : String) (help : Option String) :
    List (List Piece) :=
  [ positionRow x.numberWidth x.position,
    [.blanks (x.numberWidth + 2), ⟨.frame, "│"⟩] ]
    ++ (if x.isSingle then singleRows x label else multiRows x label)
    ++ (match help with
      | some help => helpRows x firstLineLength help
      | none => [])
    ++ [[⟨.frame, String.ofList (List.replicate (x.numberWidth + 2) '─') ++ "╯"⟩]]

/-! ## The standard layout -/

/-- The word for a severity in the head of a report. -/
def Severity.kind : Severity → String
  | note => "Advice"
  | warning => "Warning"
  | error => "Error"

/-- The head of a report. -/
def Report.titleRow (r : Report) : List Piece :=
  [⟨.title, "[" ++ r.code ++ "] " ++ r.severity.kind ++ ":"⟩, .plain (" " ++ r.message)]

/-- The layout that counts in characters, and draws a head and, if its range has an excerpt, a
frame around that. -/
def Layout.standard : Layout := fun r source =>
  let text := source.toList
  match Excerpt.of? text r.range with
  | none => [r.titleRow]
  | some x => r.titleRow :: excerptRows x (splitLine text).1.length r.label r.help?

/-- A diagnostic as a report against its source. -/
def Diagnostic.render (settings : Settings) (source : String) (d : Diagnostic) : String :=
  d.renderIn .standard settings source

/-- Every diagnostic as a report, an empty line between two. -/
def renderAll (settings : Settings) (source : String) (diagnostics : List Diagnostic) : String :=
  "\n".intercalate (diagnostics.map (·.render settings source))

end Termwise
