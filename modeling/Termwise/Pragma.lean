import Termwise.Event

/-!
# Pragmas

A pragma is a switch that holds from a place in the source on. Every setting is kept, so that the
value at any place can be asked for afterwards, in any order.

## Main definitions

* `Flag`: the known pragmas
* `PragmaStore`: the settings made so far
* `PragmaStore.set`, `PragmaStore.check?`: a new setting, and the value at a place
-/

namespace Termwise

/-- A known pragma. -/
inductive Flag where
  | topLevelEvaluation
  | mutableGlobalVariables
deriving DecidableEq, Inhabited

namespace Flag

/-- Every known pragma. -/
def all : List Flag := [topLevelEvaluation, mutableGlobalVariables]

/-- The name by which a program sets a pragma. -/
def name : Flag → String
  | topLevelEvaluation => "top-level evaluation"
  | mutableGlobalVariables => "mutable global variables"

/-- The value before any setting. -/
def defaultValue : Flag → Bool
  | topLevelEvaluation | mutableGlobalVariables => false

/-- The pragma with a name. -/
def ofName? (name : String) : Option Flag := all.find? fun flag => flag.name == name

end Flag

/-- A pragma was given a value from a place on. -/
structure PragmaSetting where
  flag : Flag
  location : Location
  value : Bool
deriving DecidableEq

/-- The settings in force, at most one for each pragma and place, the last made first. -/
structure PragmaStore where
  settings : List PragmaSetting
deriving DecidableEq

namespace PragmaStore

/-- No setting. -/
def empty : PragmaStore := ⟨[]⟩

/-- Makes a setting, which replaces an earlier one of the same pragma at the same place. -/
def insert (store : PragmaStore) (setting : PragmaSetting) : PragmaStore :=
  ⟨setting :: store.settings.filter fun s =>
    !(s.flag == setting.flag && s.location == setting.location)⟩

/-- Sets a pragma by name from a place on. An unknown name changes nothing. Comes with whether the
name is known and with the event to log. -/
def set (store : PragmaStore) (name : String) (value : Bool) (location : Location) :
    Bool × Event × PragmaStore :=
  match Flag.ofName? name with
  | none => (false, .unknownPragma location name, store)
  | some flag =>
    (true, .pragmaSet location flag.name value, store.insert ⟨flag, location, value⟩)

/-- The later of two settings by place; the first if they are at the same place. -/
def later (s t : PragmaSetting) : PragmaSetting := if s.location < t.location then t else s

/-- The setting of a pragma that holds at a place: the latest not after it. -/
def settingAt? (store : PragmaStore) (flag : Flag) (location : Location) :
    Option PragmaSetting :=
  let before := store.settings.filter fun s => s.flag == flag && s.location ≤ location
  before.foldl (fun best s => some (match best with | none => s | some b => later b s)) none

/-- The value of a pragma at a place; none for an unknown name. -/
def check? (store : PragmaStore) (name : String) (location : Location) : Option Bool :=
  (Flag.ofName? name).map fun flag =>
    match store.settingAt? flag location with
    | some setting => setting.value
    | none => flag.defaultValue

/-- How many settings are in force. -/
def size (store : PragmaStore) : Nat := store.settings.length

/-- Whether no setting is in force. -/
def isEmpty (store : PragmaStore) : Bool := store.size == 0

end PragmaStore

end Termwise
