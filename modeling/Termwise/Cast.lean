import Termwise.Arena.Basic

/-!
# Casts

A cast brings an expression into another type, in place, and says whether it did. Each builtin
type has a cast function of its own. Only known values are ever converted; anything else is
refused, and a refusal leaves the expression as it was. An expression is settled when it takes the
nearest native type.

## Main definitions

* `EditM`: changes to one expression in place
* `EditM.castTo`: brings the expression into another type
* `EditM.settle`: brings the expression into a native type
-/

namespace Termwise

/-- Changes to one expression in place. -/
abbrev EditM := StateM Expression

namespace EditM

/-- The value that the expression is known to have. -/
def knownValue : EditM (Option Value) := return (← get).value?

/-- Gives the expression another value, of another type. -/
def setValue (value : Value) (ty : Ty) : EditM Unit :=
  modify fun e => { e with kind := .value value, ty }

/-- Gives the expression another type. -/
def setType (ty : Ty) : EditM Unit := modify fun e => { e with ty }

/-! ## Casts -/

/-- Casts a truth value. -/
def castBoolean (target : Ty) : EditM Bool := do
  match ← knownValue with
  | some (.boolean b) =>
    if target = .string then
      setValue (.string (Text.truthText b)) .string
      return true
    return false
  | _ => return false

/-- Casts an integer. -/
def castInt (target : Ty) : EditM Bool := do
  match ← knownValue with
  | some (.int i) =>
    match target with
    | .float => setValue (.float (Value.floatOfInt i)) .float
    | .string => setValue (.string (Text.Integer.write i)) .string
    | _ => return false
    return true
  | _ => return false

/-- Casts a float. -/
def castFloat (target : Ty) : EditM Bool := do
  match ← knownValue with
  | some (.float x) =>
    if target = .string then
      setValue (Value.ofFloatText x) .string
      return true
    return false
  | _ => return false

/-- Casts a text: it may denote a number. -/
def castString (target : Ty) : EditM Bool := do
  match ← knownValue with
  | some (.string text) =>
    match target with
    | .int =>
      match Text.Integer.read text with
      | some i => setValue (.int i) .int
      | none => return false
    | .float =>
      match Text.readFloat? text with
      | some x => setValue (.float x) .float
      | none => return false
    | _ => return false
    return true
  | _ => return false

/-- Casts a number whose representation is open. -/
def castNumber (target : Ty) : EditM Bool := do
  match ← knownValue with
  | some value =>
    let converted := match target with
      | .builtin b => value.convertNumber? b
      | _ => none
    match converted with
    | some value =>
      setValue value target
      return true
    | none => return false
  | none => return false

/-- The cast function of a builtin type. -/
def castFrom (source : Builtin) : Ty → EditM Bool :=
  match source with
  | .absurd | .hole | .void => fun _ => return false
  | .boolean => castBoolean
  | .int => castInt
  | .float => castFloat
  | .string => castString
  | .number | .numberLiteral => castNumber

/-- Brings the expression, which is typed `source`, into the type `target`. Nothing is ever cast
to a type that is not known or has no values; an expression already in the target type stays. -/
def castTo (source target : Ty) : EditM Bool := do
  if target = .hole ∨ target = .absurd then return false
  if source = target then return true
  match source with
  | .builtin b => castFrom b target
  | _ => return false

/-! ## Settlement -/

/-- Settles a number: as an integer if it can be one, otherwise as a float. -/
def settleNumber : EditM Bool := do
  if ← castNumber .int then return true
  castNumber .float

/-- Brings the expression, which is typed `source`, into its nearest native type. -/
def settle (source : Ty) : EditM Bool :=
  match source with
  | .builtin .void | .builtin .boolean | .builtin .int | .builtin .float | .builtin .string =>
    return true
  | .builtin .number | .builtin .numberLiteral => settleNumber
  | _ => return false

end EditM

end Termwise
