import Termwise.Text.Decimal

/-!
# Reading TOML text

Readers take characters from the front of a text or refuse it. This module holds the readers of
the smallest parts: blanks, line ends, comments, and strings in their four forms.

## Main definitions

* `Reader`: takes characters from the front of a text
* `Reader.blanks`, `Reader.lineEnd`, `Reader.restOfLine`, `Reader.filler`: what stands between
  the parts of a document
* `Reader.string`: a string in any of its forms
-/

namespace Termwise.Toml

/-- Takes characters from the front of a text, or refuses it. -/
abbrev Reader := StateT (List Char) Option

namespace Reader

/-- The next character, which stays. -/
def peek : Reader (Option Char) := return (← get).head?

/-- Takes the characters up to the first without a property. -/
def takeWhile (p : Char → Bool) : Reader (List Char) := fun text =>
  some (text.takeWhile p, text.dropWhile p)

/-- Takes one character with a property. -/
def satisfy (p : Char → Bool) : Reader Char := fun text =>
  match text with
  | c :: rest => if p c then some (c, rest) else none
  | [] => none

/-- Takes one given character. -/
def char (c : Char) : Reader Unit := do let _ ← satisfy (· == c)

/-- Takes given characters if they come next. Says whether they did. -/
def skip? (expected : String) : Reader Bool := fun text =>
  let cs := expected.toList
  if cs.isPrefixOf text then some (true, text.drop cs.length) else some (false, text)

/-- Takes given characters. -/
def expect (expected : String) : Reader Unit := do guard (← skip? expected)

/-- Takes what a reader takes, or nothing where it refuses. -/
def optional {α : Type} (reader : Reader α) : Reader (Option α) := fun text =>
  match reader text with
  | some (a, rest) => some (some a, rest)
  | none => some (none, text)

/-- Takes as often as a reader does, at most a number of times. -/
def repeated {α : Type} (reader : Reader α) : (fuel : Nat) → Reader (List α)
  | 0 => return []
  | fuel + 1 => do
    match ← optional reader with
    | some a => return a :: (← repeated reader fuel)
    | none => return []

/-- Takes as often as a reader does. Each time takes a character or more. -/
def many {α : Type} (reader : Reader α) : Reader (List α) := do repeated reader (← get).length

/-- One or more parts with a separator between them. -/
def separated {α : Type} (part : Reader α) (separator : Char) : Reader (List α) := do
  let first ← part
  let rest ← many (do char separator; part)
  return first :: rest

/-! ## Between the parts -/

/-- Whether a character may stand in a comment or a string: no control character but the tab. -/
def isText (c : Char) : Bool := c == '\t' || (' ' ≤ c && c != '\x7f')

/-- Takes blanks and tabs. -/
def blanks : Reader Unit := do let _ ← takeWhile fun c => c == ' ' || c == '\t'

/-- Takes the end of a line: a line feed, perhaps with a carriage return before it. -/
def lineEnd : Reader Unit := do
  let _ ← skip? "\r"
  char '\n'

/-- Takes a comment. -/
def comment : Reader Unit := do
  char '#'
  let _ ← takeWhile isText

/-- Takes the end of a line or of the text. -/
def lineOrTextEnd : Reader Unit := do
  if (← get).isEmpty then return else lineEnd

/-- Takes what may stand behind a part on its line: blanks and a comment. -/
def restOfLine : Reader Unit := do
  blanks
  let _ ← optional comment
  lineOrTextEnd

/-- The first reader that takes anything. -/
def firstOf {α : Type} : List (Reader α) → Reader α
  | [] => failure
  | reader :: rest => fun text => (reader text).orElse fun _ => firstOf rest text

/-- Takes one blank or tab. -/
def blank : Reader Unit := do let _ ← satisfy fun c => c == ' ' || c == '\t'

/-- Takes blanks, comments and line ends between the values of an array. -/
def filler : Reader Unit := do
  let _ ← many (firstOf [blank, lineEnd, do comment; lineEnd])

/-! ## Strings -/

/-- The value of hexadecimal digits. -/
def hexValue (digits : List Char) : Nat :=
  digits.foldl (fun n c => 16 * n + digit c) 0
where
  /-- The value of one hexadecimal digit. -/
  digit (c : Char) : Nat :=
    if c.isDigit then c.toNat - '0'.toNat
    else if 'a' ≤ c ∧ c ≤ 'f' then c.toNat - 'a'.toNat + 10
    else c.toNat - 'A'.toNat + 10

/-- Whether a character is a hexadecimal digit. -/
def isHexDigit (c : Char) : Bool :=
  c.isDigit || ('a' ≤ c && c ≤ 'f') || ('A' ≤ c && c ≤ 'F')

/-- A number of hexadecimal digits that name a character. -/
def codePoint (count : Nat) : Reader Char := do
  let digits := (← get).take count
  guard (digits.length = count && digits.all isHexDigit)
  modify (·.drop count)
  let n := hexValue digits
  guard n.isValidChar
  return Char.ofNat n

/-- What follows the backslash of an escape. -/
def escape : Reader Char := do
  match ← satisfy fun _ => true with
  | 'b' => return '\x08'
  | 't' => return '\t'
  | 'n' => return '\n'
  | 'f' => return '\x0c'
  | 'r' => return '\r'
  | '"' => return '"'
  | '\\' => return '\\'
  | 'u' => codePoint 4
  | 'U' => codePoint 8
  | _ => failure

/-- A string on one line with escapes. -/
def basicString : Reader String := do
  char '"'
  let content ← many do
    match ← satisfy fun c => isText c && c != '"' with
    | '\\' => escape
    | c => return c
  char '"'
  return String.ofList content

/-- A string on one line that is taken as it stands. -/
def literalString : Reader String := do
  char '\''
  let content ← takeWhile fun c => isText c && c != '\''
  char '\''
  return String.ofList content

/-- A backslash at the end of a line, which takes all blanks and line ends after it along. -/
def lineContinuation : Reader (List Char) := do
  char '\\'
  blanks
  lineEnd
  let _ ← many (firstOf [blank, lineEnd])
  return []

/-- One or two quotes inside a string over several lines, or right before its closing ones. A
longer row of quotes closes the string with its first three. -/
def innerQuotes (quote : Char) : Reader (List Char) := do
  let quotes := (← get).takeWhile (· == quote)
  let inside :=
    if quotes.length < 3 then quotes.length
    else if quotes.length ≤ 5 then quotes.length - 3
    else 0
  guard (0 < inside)
  modify (·.drop inside)
  return List.replicate inside quote

/-- A line end inside a string, which counts as a line feed. -/
def innerLineEnd : Reader (List Char) := do
  lineEnd
  return ['\n']

/-- A string over several lines: three quotes, perhaps a line end that does not count, the parts,
three quotes. -/
def multiLineString (quote : Char) (parts : List (Reader (List Char))) : Reader String := do
  let delimiter := String.ofList [quote, quote, quote]
  expect delimiter
  let _ ← optional lineEnd
  let content ← many (firstOf (parts ++ [innerLineEnd, innerQuotes quote]))
  expect delimiter
  return String.ofList content.flatten

/-- A string over several lines with escapes. -/
def basicMultiLine : Reader String :=
  multiLineString '"'
    [ lineContinuation,
      do char '\\'; return [← escape],
      do return [← satisfy fun c => isText c && c != '"' && c != '\\'] ]

/-- A string over several lines that is taken as it stands. -/
def literalMultiLine : Reader String :=
  multiLineString '\'' [do return [← satisfy fun c => isText c && c != '\'']]

/-- A string in any of its forms. -/
def string : Reader String :=
  fun text =>
    if "\"\"\"".toList.isPrefixOf text then basicMultiLine text
    else if "'''".toList.isPrefixOf text then literalMultiLine text
    else if "\"".toList.isPrefixOf text then basicString text
    else literalString text

end Reader

end Termwise.Toml
