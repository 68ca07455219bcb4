import Termwise.Text.Decimal
import Termwise.Ty.Basic

/-!
# Known values

A known value is what a literal holds: an integer of 64 bits, a float, a truth value or a text.
A number whose representation is still open is held as its text, under the type of numeric
literals.

A numeric literal goes to integers and floats, if it can be read as one, and to text.

## Main definitions

* `Value`: a known value, and `Value.text`, how it is shown
* `Value.convertNumber?`: a numeric literal brought into a builtin type
-/

namespace Termwise

/-- A value known before the program runs. -/
inductive Value where
  | int (value : Int64)
  | float (value : Float)
  | boolean (value : Bool)
  | string (value : String)
deriving DecidableEq

namespace Value

/-- The number of decimal places of a float that becomes text. -/
def decimalPlaces : Nat := 6

/-- A float as the text that it becomes. -/
def ofFloatText (x : Float) : Value := .string (Text.fixedText decimalPlaces x)

/-- A value as the messages show it. -/
def text : Value → String
  | .int i => Text.Integer.write i
  | .float x => Text.floatText x
  | .boolean b => Text.truthText b
  | .string s => s

/-- The float of an integer, the nearest one where it is not exact. -/
def floatOfInt (i : Int64) : Float := Float.ofInt i.toInt

/-- A numeric literal brought into a builtin type. Literals hold their text, or a number that
was read before. -/
def convertNumber? : Value → Builtin → Option Value
  | .string s, .int => (Text.Integer.read s).map .int
  | .int i, .int => some (.int i)
  | .string s, .float => (Text.readFloat? s).map .float
  | .int i, .float => some (.float (floatOfInt i))
  | .float x, .float => some (.float x)
  | .string s, .string => some (.string s)
  | .int i, .string => some (.string (Text.Integer.write i))
  | .float x, .string => some (ofFloatText x)
  | _, _ => none

/-- The kinds of value that a type holds: numbers that are still open hold a text or a number. -/
def Fits : Value → Ty → Prop
  | .int _, .int | .float _, .float | .boolean _, .boolean | .string _, .string => True
  | .string _, .number | .int _, .number | .float _, .number => True
  | .string _, .numberLiteral | .int _, .numberLiteral | .float _, .numberLiteral => True
  | _, _ => False

end Value

end Termwise
