import Termwise.Text.Basic

/-!
# Integers as decimal text

Reading accepts an optional single sign and then one or more ASCII digits, for a value that
fits into 64 bits; nothing else, not even a blank. Writing produces a minus sign for negative
numbers and no leading zero.

## Main definitions

* `readDigits`: the value of a run of digits
* `Integer.read`, `Integer.write`: 64-bit integers from text and back
-/

namespace Termwise.Text

/-- The value of a run of ASCII digits; none for an empty run and for any other character. -/
def readDigits (digits : List Char) : Option Nat :=
  if digits.isEmpty || !digits.all Char.isDigit then none else some (Nat.ofDigitChars 10 digits 0)

/-- A sign in front of a number, if there is one: whether it is a minus, and what follows. -/
def splitSign : List Char → Bool × List Char
  | '+' :: rest => (false, rest)
  | '-' :: rest => (true, rest)
  | text => (false, text)

namespace Integer

/-- The integer that a sign and digits denote, of any size. -/
def readUnbounded (text : List Char) : Option Int :=
  let (negative, digits) := splitSign text
  (readDigits digits).map fun n => if negative then -(n : Int) else (n : Int)

/-- Whether an integer fits into 64 bits with a sign. -/
def Fits (i : Int) : Prop := Int64.minValue.toInt ≤ i ∧ i ≤ Int64.maxValue.toInt

instance (i : Int) : Decidable (Fits i) := inferInstanceAs (Decidable (_ ∧ _))

/-- The 64-bit integer that a text denotes; none if it has another form or does not fit. -/
def read (text : String) : Option Int64 :=
  (readUnbounded text.toList).bind fun i => if Fits i then some (Int64.ofInt i) else none

/-- Decimal digits, after a minus sign if the number is negative. -/
def write (i : Int64) : String :=
  let n := i.toInt
  if n < 0 then "-" ++ natText n.natAbs else natText n.natAbs

end Integer

end Termwise.Text
