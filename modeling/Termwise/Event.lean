import Termwise.Error

/-!
# Logged events

What the passes note down while they work, each with a level and a text.

## Main definitions

* `Event`: the events
* `Event.level`, `Event.text`: how an event is logged
-/

namespace Termwise

/-- Something worth a line in the log. -/
inductive Event where
  | reported (diagnostic : Diagnostic)
  /-- A run of terms was arranged into calls. -/
  | resolved (span : Span) (ty : Ty)
  /-- The queue of runs is empty. -/
  | drained (failures : Nat)
  /-- A numeric literal took its native type. -/
  | settled (span : Span) (ty : Ty)
  /-- A call of integers became one of floats. -/
  | widened (callee : String)
  | substituted (name : String)
  | substitutedCall (name : String)
  /-- A use was kept because its definition has no body. -/
  | keptUndefined (name : String)
  /-- A use was kept because its definition has an effect. -/
  | keptImpure (name : String)
  /-- A use was kept because it and its definition declare different types. -/
  | keptDeclared (name : String) (use definition : Ty)
  /-- Both passes ran; whether the program was valid after each. -/
  | checked (diagnostics : Nat) (afterRuns afterValues : Bool)
  | unknownPragma (location : Location) (name : String)
  | pragmaSet (location : Location) (name : String) (value : Bool)
deriving DecidableEq

/-- The bounds of a span with two dots between them. -/
def Span.text (s : Span) : String := Text.natText s.start ++ ".." ++ Text.natText s.stop

/-- A line and a column with a colon between them. -/
def Position.text (p : Position) : String := Text.natText p.line ++ ":" ++ Text.natText p.column

/-- A location with a colon in it. -/
def Location.text (l : Location) : String := l.position.text

namespace Event

open Cause (quoted)

/-- The level under which an event is logged. -/
def level : Event → Level
  | reported d => d.severity.level
  | keptDeclared .. => .warn
  | checked .. => .info
  | unknownPragma .. => .error
  | _ => .debug

/-- The text of an event. -/
def text : Event → String
  | reported d => d.error.span.text ++ ": " ++ d.error.message
  | resolved span ty => "resolved termed expression at " ++ span.text ++ " to " ++ ty.text
  | drained failures => "resolved worklist, " ++ Text.natText failures ++ " failures"
  | settled span ty => "concretized literal at " ++ span.text ++ " to " ++ ty.text
  | widened callee => "widened call to " ++ quoted callee ++ " to Float"
  | substituted name => "substituted value of " ++ quoted name
  | substitutedCall name => "inlined nullary call to " ++ quoted name
  | keptUndefined name => quoted name ++ " is undefined, not substituting"
  | keptImpure name => quoted name ++ " is impure, not substituting"
  | keptDeclared name use definition =>
    "not substituting " ++ quoted name ++ ": declared types differ (" ++ use.text ++ " != "
      ++ definition.text ++ ")"
  | checked diagnostics afterRuns afterValues =>
    "checked unit: " ++ Text.natText diagnostics ++ " diagnostics, resolved: "
      ++ Text.truthText afterRuns ++ ", concretized: " ++ Text.truthText afterValues
  | unknownPragma location name =>
    location.text ++ ": tried to set unknown pragma " ++ quoted name
  | pragmaSet location name value =>
    location.text ++ ": pragma " ++ (if value then "enable" else "disable") ++ " " ++ quoted name

/-- An event as a line of the log. -/
def line (e : Event) : String := e.level.text ++ ": " ++ e.text

end Event

end Termwise
