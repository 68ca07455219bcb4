/-!
# Severities

How serious a diagnostic is. Only an error makes a compilation invalid; warnings and notes
are collected and shown.

## Main definitions

* `Severity`: note, warning or error, in this order
* `Level`: the levels under which events are logged
* `Severity.level`: the level under which a diagnostic is echoed
-/

namespace Termwise

/-- How serious a diagnostic is. -/
inductive Severity where
  | note
  | warning
  | error
deriving DecidableEq, Inhabited

/-- How prominent a logged event is. -/
inductive Level where
  | debug
  | info
  | warn
  | error
deriving DecidableEq, Inhabited

namespace Severity

/-- Severities are ordered by how serious they are. -/
def rank : Severity → Nat
  | note => 0
  | warning => 1
  | error => 2

instance : LE Severity := ⟨fun a b => a.rank ≤ b.rank⟩

instance (a b : Severity) : Decidable (a ≤ b) := inferInstanceAs (Decidable (a.rank ≤ b.rank))

/-- Whether a diagnostic of this severity makes a compilation invalid. -/
def isError : Severity → Bool
  | error => true
  | _ => false

/-- The level under which a diagnostic of this severity is echoed. -/
def level : Severity → Level
  | note => .info
  | warning => .warn
  | error => .error

/-- The word in front of a message. -/
def text : Severity → String
  | note => "note"
  | warning => "warning"
  | error => "error"

/-- The capitalised word by which a severity is stored. -/
def name : Severity → String
  | note => "Note"
  | warning => "Warning"
  | error => "Error"

end Severity

namespace Level

/-- The word in front of a logged event. -/
def text : Level → String
  | debug => "debug"
  | info => "info"
  | warn => "warn"
  | error => "error"

/-- The level's name in capitals. -/
def name : Level → String
  | debug => "DEBUG"
  | info => "INFO"
  | warn => "WARN"
  | error => "ERROR"

end Level

end Termwise
