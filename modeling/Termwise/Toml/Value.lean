/-!
# TOML values

The values of a TOML document. A table remembers how it came about, because that decides what
may still be added to it.

## Main definitions

* `Toml`: a value
* `Toml.Origin`: how a table came about
* `Toml.insertAt?`: a key with a value in a table further down
-/

namespace Termwise

/-- How a table came about. -/
inductive Toml.Origin where
  /-- By its own header, or as the whole document. -/
  | header
  /-- By the header of a table inside it. -/
  | implied
  /-- By a dotted key. -/
  | dotted
  /-- In braces: nothing may be added. -/
  | closed
deriving DecidableEq, Inhabited

/-- A value of a TOML document. -/
inductive Toml where
  | string (value : String)
  | boolean (value : Bool)
  | integer (value : Int64)
  | float (value : Float)
  /-- A date, a time or both, in its normal form. -/
  | dateTime (text : String)
  | array (values : List Toml)
  | table (origin : Toml.Origin) (entries : List (String × Toml))
  /-- The tables of repeated headers in double brackets, the last one first. -/
  | tables (latest : List (String × Toml)) (earlier : List Toml)

namespace Toml

/-- The entries of a table, in the order of their insertion. -/
abbrev Entries := List (String × Toml)

/-- The value of a key. -/
def Entries.get? (entries : Entries) (key : String) : Option Toml :=
  (entries.find? fun (k, _) => k == key).map Prod.snd

/-- Gives a key a value: in its place if the key is there, at the end otherwise. -/
def Entries.put : Entries → String → Toml → Entries
  | [], key, value => [(key, value)]
  | (k, v) :: rest, key, value =>
    if k == key then (k, value) :: rest else (k, v) :: put rest key value

/-- Changes the table at the end of a path, which is made where it does not exist yet: with the
origin `made`. A path leads through tables and into the latest of repeated ones, never through
another value. A path of dotted keys does not lead through a table with a header of its own. -/
def descend? (made : Origin) (change : Origin → Entries → Option Entries) :
    (path : List String) → Origin → Entries → Option Entries
  | [], origin, entries => change origin entries
  | key :: path, _, entries =>
    match entries.get? key with
    | none => (descend? made change path made []).map fun inner =>
      entries.put key (.table made inner)
    | some (.table origin inner) =>
      if origin = .closed ∨ made = .dotted ∧ origin = .header then none
      else (descend? made change path origin inner).map fun inner =>
        entries.put key (.table origin inner)
    | some (.tables latest earlier) =>
      (descend? made change path .header latest).map fun inner =>
        entries.put key (.tables inner earlier)
    | some _ => none

/-- Adds a key with a value to a table below; all keys but the last were written before dots. A
key is given once, and a table that dotted keys reach was made by dotted keys. -/
def insertAt? (entries : Entries) (path : List String) (key : String) (value : Toml) :
    Option Entries :=
  descend? .dotted
    (fun origin inner =>
      if !path.isEmpty && origin ≠ .dotted then none
      else if (inner.get? key).isSome then none
      else some (inner.put key value))
    path .header entries

/-- Begins a table with a header: its entries so far. They may have come from headers of tables
inside it, and from nothing else. -/
def openTable? (document : Entries) (path : List String) (key : String) : Option Entries := do
  let parent ← find? path document
  match parent.get? key with
  | none => some []
  | some (.table .implied entries) => some entries
  | some _ => none
where
  /-- The table at the end of a path, empty if there is none yet. -/
  find? : List String → Entries → Option Entries
    | [], entries => some entries
    | key :: path, entries =>
      match entries.get? key with
      | none => some []
      | some (.table .closed _) => none
      | some (.table _ inner) => find? path inner
      | some (.tables latest _) => find? path latest
      | some _ => none

/-- Puts a table with a header into a document. -/
def closeTable? (document : Entries) (path : List String) (key : String) (entries : Entries) :
    Option Entries :=
  descend? .implied (fun _ parent => some (parent.put key (.table .header entries))) path .header
    document

/-- Begins a further table under a repeated header: it starts empty. -/
def openElement? (document : Entries) (path : List String) (key : String) : Option Entries := do
  let parent ← openTable?.find? path document
  match parent.get? key with
  | none | some (.tables ..) => some []
  | some _ => none

/-- Puts a further table under a repeated header into a document. -/
def closeElement? (document : Entries) (path : List String) (key : String) (entries : Entries) :
    Option Entries :=
  descend? .implied
    (fun _ parent =>
      match parent.get? key with
      | none => some (parent.put key (.tables entries []))
      | some (.tables latest earlier) =>
        some (parent.put key (.tables entries (.table .header latest :: earlier)))
      | some _ => none)
    path .header document

end Toml

end Termwise
