import Termwise.Severity

/-!
# Coloured text

A report is made of pieces, each with the part that it plays. Without colours only the text of
the pieces counts; with them a piece is wrapped in the escape sequences of its colour.

## Main definitions

* `Ink`: the parts that pieces play
* `Piece`: a text and its part
* `Piece.render`, `renderRows`: pieces and rows of pieces as text
-/

namespace Termwise

/-- The part that a piece of a report plays. -/
inductive Ink where
  /-- Never coloured. -/
  | plain
  /-- The code and the kind of the report. -/
  | title
  /-- Lines and numbers beside shown source, and the frame. -/
  | frame
  /-- Lines beside rows without source. -/
  | dimFrame
  /-- Source outside the place of the report. -/
  | source
  /-- The place of the report and all that points at it. -/
  | label
  /-- The word in front of advice. -/
  | help
deriving DecidableEq

namespace Ink

/-- The colour of what points at the place of a report. -/
def labelCode : Severity → String
  | .error => "31"
  | .warning => "33"
  | .note => "34"

/-- The colour of the head of a report. -/
def titleCode : Severity → String
  | .error => "31"
  | .warning => "33"
  | .note => "38;5;147"

/-- The colour of a part, if it has one. -/
def code? (severity : Severity) : Ink → Option String
  | plain => none
  | title => some (titleCode severity)
  | frame => some "38;5;246"
  | dimFrame => some "38;5;240"
  | source => some "38;5;249"
  | label => some (labelCode severity)
  | help => some "38;5;115"

end Ink

/-- A piece of a report. -/
structure Piece where
  ink : Ink
  text : String
deriving DecidableEq

namespace Piece

/-- A piece that is never coloured. -/
def plain (text : String) : Piece := ⟨.plain, text⟩

/-- A number of blanks, which are never coloured. -/
def blanks (n : Nat) : Piece := plain (String.ofList (List.replicate n ' '))

/-- The text of a piece, in its colour if colours are on. -/
def render (colour : Bool) (severity : Severity) (piece : Piece) : String :=
  match colour, piece.ink.code? severity with
  | true, some code => "\x1b[" ++ code ++ "m" ++ piece.text ++ "\x1b[0m"
  | _, _ => piece.text

end Piece

/-- Rows of pieces as text, each with a line feed behind it. -/
def renderRows (colour : Bool) (severity : Severity) (rows : List (List Piece)) : String :=
  String.join (rows.map fun row => String.join (row.map (·.render colour severity)) ++ "\n")

end Termwise
