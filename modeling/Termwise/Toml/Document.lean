import Termwise.Toml.Scalar

/-!
# TOML documents

A document is a sequence of lines: pairs of a key and a value, headers of tables, headers of
repeated tables, comments and empty lines. Values nest to a fixed depth, and dotted keys have
fewer parts than that.

## Main definitions

* `Reader.key`: a dotted key
* `Reader.value`: a value
* `Toml.Line`, `Reader.line`: the lines
* `Toml.parse?`: a whole document
-/

namespace Termwise.Toml

namespace Reader

/-- Arrays, tables in braces and dotted keys are less deep than this. -/
def depthLimit : Nat := 80

/-! ## Keys -/

/-- Whether a character may stand in a key without quotes. -/
def isBareKey (c : Char) : Bool := c.isAlphanum || c == '_' || c == '-'

/-- One part of a key: bare, or a string on one line. -/
def simpleKey : Reader String := do
  match ← peek with
  | some '"' => basicString
  | some '\'' => literalString
  | _ => do
    let name ← takeWhile isBareKey
    guard !name.isEmpty
    return String.ofList name

/-- The parts of a key with dots between them. -/
def key : Reader (List String) := do
  let parts ← separated (do blanks; let part ← simpleKey; blanks; return part) '.'
  guard (parts.length < depthLimit)
  return parts

/-- All parts but the last, and the last. -/
def splitLast : List String → List String × String
  | [] => ([], "")
  | [last] => ([], last)
  | part :: rest =>
    let (path, last) := splitLast rest
    (part :: path, last)

/-! ## Values -/

/-- A key and its value. -/
def pair (value : Reader Toml) : Reader (List String × Toml) := do
  let path ← key
  char '='
  blanks
  let v ← value
  return (path, v)

/-- The values of an array, after the opening bracket. -/
def arrayRest (value : Reader Toml) : Reader Toml := do
  let part : Reader Toml := do filler; let v ← value; filler; return v
  let values ← optional (separated part ',')
  if values.isSome then
    let _ ← skip? ","
  filler
  char ']'
  return .array (values.getD [])

/-- Puts pairs into an empty table one after the other. -/
def collect? (pairs : List (List String × Toml)) : Option Entries :=
  pairs.foldlM (fun entries (path, value) =>
    let (above, last) := splitLast path
    insertAt? entries above last value) []

/-- The pairs of a table in braces, after the opening brace. -/
def bracedRest (value : Reader Toml) : Reader Toml := do
  let pairs ← optional (separated (do let p ← pair value; blanks; return p) ',')
  blanks
  char '\x7d'
  match collect? (pairs.getD []) with
  | some entries => return .table .closed entries
  | none => failure

/-- A value with at most so many arrays and braces around its parts. -/
def valueWithin : (depth : Nat) → Reader Toml
  | 0 => scalar
  | depth + 1 => do
    match ← peek with
    | some '[' => do char '['; arrayRest (valueWithin depth)
    | some '\x7b' => do char '\x7b'; bracedRest (valueWithin depth)
    | _ => scalar
where
  /-- A value without parts. -/
  scalar : Reader Toml := do
    match ← peek with
    | some '"' | some '\'' => return .string (← string)
    | some 't' => do expect "true"; return .boolean true
    | some 'f' => do expect "false"; return .boolean false
    | _ => firstOf [dateTime, float, integer]

/-- A value. -/
def value : Reader Toml := valueWithin (depthLimit - 1)

end Reader

/-! ## Lines -/

/-- A line that says something. -/
inductive Line where
  | pair (path : List String) (value : Toml)
  | header (path : List String)
  | elementHeader (path : List String)

namespace Reader

/-- A line of a document. An empty line and a comment say nothing. -/
def line : Reader (Option Line) := do
  blanks
  match (← get) with
  | '#' :: _ => do
    comment
    lineOrTextEnd
    return none
  | '\n' :: _ | '\r' :: _ => do
    lineEnd
    return none
  | '[' :: '[' :: _ => do
    expect "[["
    let path ← key
    expect "]]"
    restOfLine
    return some (.elementHeader path)
  | '[' :: _ => do
    char '['
    let path ← key
    char ']'
    restOfLine
    return some (.header path)
  | _ => do
    let (path, v) ← pair value
    restOfLine
    return some (.pair path v)

/-- All lines of a document. -/
def document : Reader (List Line) := do
  let lines ← many line
  blanks
  guard (← get).isEmpty
  return lines.filterMap id

end Reader

/-! ## Tables -/

/-- A document as far as its lines were read: the finished part, and the table under the last
header. -/
structure Builder where
  document : Entries
  /-- The header of the open table and whether it is repeated; none at the start. -/
  header : Option (List String × Bool)
  entries : Entries

namespace Builder

/-- Puts the open table into the document. -/
def close? (b : Builder) : Option Entries :=
  match b.header with
  | none => some b.entries
  | some (path, repeats) =>
    let (above, last) := Reader.splitLast path
    if repeats then closeElement? b.document above last b.entries
    else closeTable? b.document above last b.entries

/-- Takes one line more. -/
def add? (b : Builder) : Line → Option Builder
  | .pair path value => do
    let (above, last) := Reader.splitLast path
    return { b with entries := ← insertAt? b.entries above last value }
  | .header path => do
    let document ← b.close?
    let (above, last) := Reader.splitLast path
    return ⟨document, some (path, false), ← openTable? document above last⟩
  | .elementHeader path => do
    let document ← b.close?
    let (above, last) := Reader.splitLast path
    return ⟨document, some (path, true), ← openElement? document above last⟩

end Builder

/-- The entries of a document; none if the text is no document. A mark of the byte order in front
is skipped. -/
def parse? (text : String) : Option Entries := do
  let cs := match text.toList with
    | '\ufeff' :: rest => rest
    | cs => cs
  let (lines, _) ← Reader.document cs
  let builder ← lines.foldlM Builder.add? ⟨[], none, []⟩
  builder.close?

end Termwise.Toml
