import Termwise.Text.Blank

/-!
# Lines of a source text

A text as the lines that a report shows. A line ends after a character that ends lines, or after
a carriage return and a line feed together, and holds what ends it; a text that ends so has no
further line, and an empty text is one empty line. Places are counted in characters.

## Main definitions

* `SourceLine`: a line, with the place where it starts
* `sourceLines`: the lines of a text
* `lineAt?`: the line that holds a place
-/

namespace Termwise

/-- A line of a source text: its number from zero, the place of its first character, and its
characters with what ends it. -/
structure SourceLine where
  index : Nat
  start : Nat
  chars : List Char
deriving DecidableEq

namespace SourceLine

/-- The characters that a report shows: blanks at the end are left out. -/
def shown (line : SourceLine) : List Char := Text.trimRight line.chars

/-- The place after the last character. -/
def stop (line : SourceLine) : Nat := line.start + line.chars.length

end SourceLine

/-- The characters up to the end of the first line, and those after it. -/
def splitLine : List Char → List Char × List Char
  | [] => ([], [])
  | '\r' :: '\n' :: rest => (['\r', '\n'], rest)
  | c :: rest =>
    if Text.endsLine c then ([c], rest)
    else
      let (line, rest) := splitLine rest
      (c :: line, rest)

/-- The characters line by line, in at most a number of lines. -/
def splitLines : (fuel : Nat) → List Char → List (List Char)
  | 0, _ | _, [] => []
  | fuel + 1, text =>
    let (line, rest) := splitLine text
    line :: splitLines fuel rest

/-- Lines with their numbers and places. -/
def numberLines : (index start : Nat) → List (List Char) → List SourceLine
  | _, _, [] => []
  | index, start, chars :: rest =>
    ⟨index, start, chars⟩ :: numberLines (index + 1) (start + chars.length) rest

/-- The lines of a text; there is always one. No text has more lines than characters. -/
def sourceLines (text : List Char) : List SourceLine :=
  match splitLines text.length text with
  | [] => [⟨0, 0, []⟩]
  | lines => numberLines 0 0 lines

/-- The last line that starts at a place or before it; none if the place lies behind the text. -/
def lineAt? (text : List Char) (place : Nat) : Option SourceLine :=
  if text.length < place then none
  else (sourceLines text).reverse.find? fun line => line.start ≤ place

end Termwise
