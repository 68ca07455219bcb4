import Termwise.Options
import Termwise.Pragma
import Termwise.Toml.Document

/-!
# Configuration

A configuration is a TOML document with a table of options and a table of pragmas; other keys are
ignored. An option is a truth value or a text, and either way ends up as the text that the options
hold; a pragma is a truth value. Names are checked when the settings are put to use, in the order
of the names.

## Main definitions

* `Config`: the settings of a document, ordered by name
* `Config.parse`: the reading of a document
* `Config.optionEntries`: the options as an override
* `Config.pragmaStore`: the pragmas as settings from the start of every file
-/

namespace Termwise

/-- The value of an option in a configuration. -/
inductive OptionValue where
  | boolean (value : Bool)
  | text (value : String)
deriving DecidableEq

/-- The text that an option holds. -/
def OptionValue.display : OptionValue → String
  | boolean b => Text.truthText b
  | text s => s

/-- Why a configuration cannot be used. -/
inductive ConfigError where
  /-- There is no file at the path. -/
  | missing (path : String)
  /-- The text is no document, or a setting has another kind of value than it should. -/
  | malformed
  | unknownOption (key : String)
  | unknownPragma (name : String)
deriving DecidableEq

namespace ConfigError

open Cause (quoted)

/-- The message for an unusable configuration. -/
def message : ConfigError → String
  | missing path =>
    "failed to read config: " ++ path ++ ": No such file or directory (os error 2)"
  | malformed => "failed to parse config"
  | unknownOption key => "unknown compiler option " ++ quoted key
  | unknownPragma name => "unknown pragma " ++ quoted name

end ConfigError

/-- The settings of a document, ordered by name. -/
structure Config where
  options : List (String × OptionValue)
  pragmas : List (String × Bool)
deriving DecidableEq

namespace Config

/-- Settings in the order of their names. -/
def byName {α : Type} (settings : List (String × α)) : List (String × α) :=
  settings.mergeSort fun a b => a.1 ≤ b.1

/-- The value of an option, if it is of the right kind. -/
def optionValue? : Toml → Option OptionValue
  | .boolean b => some (.boolean b)
  | .string s => some (.text s)
  | _ => none

/-- The value of a pragma, if it is of the right kind. -/
def pragmaValue? : Toml → Option Bool
  | .boolean b => some b
  | _ => none

/-- The key under which a date counts as a table of one text. -/
def dateKey : String := "$__toml_private_datetime"

/-- The entries of a table. -/
def entriesOf? : Toml → Option Toml.Entries
  | .table _ entries => some entries
  | .dateTime text => some [(dateKey, .string text)]
  | _ => none

/-- The settings in a table of a document, each read by `value?`; none are made if the document
does not have the table. -/
def settings? {α : Type} (document : Toml.Entries) (table : String) (value? : Toml → Option α) :
    Option (List (String × α)) :=
  match document.get? table with
  | none => some []
  | some t => do
    let entries ← entriesOf? t
    let settings ← entries.mapM fun (name, v) => (value? v).map fun value => (name, value)
    return byName settings

/-- The settings of a document. -/
def parse (text : String) : Except ConfigError Config :=
  let config : Option Config := do
    let document ← Toml.parse? text
    let options ← settings? document "options" optionValue?
    let pragmas ← settings? document "pragmas" pragmaValue?
    return ⟨options, pragmas⟩
  match config with
  | some config => .ok config
  | none => .error .malformed

/-- The options as an override; an error for the first unknown key. -/
def optionEntries (config : Config) : Except ConfigError Entries := do
  let settings ← config.options.mapM fun (key, value) =>
    match OptionKey.ofKey? key with
    | some option => .ok (option, value.display)
    | none => .error (.unknownOption key)
  return Entries.ofList settings

/-- The pragmas as settings in force from the start of every file; an error for the first unknown
name. -/
def pragmaStore (config : Config) : Except ConfigError PragmaStore :=
  config.pragmas.foldlM
    (fun store (name, value) =>
      match Flag.ofName? name with
      | some flag => .ok (store.insert ⟨flag, .start, value⟩)
      | none => .error (.unknownPragma name))
    .empty

end Config

end Termwise
