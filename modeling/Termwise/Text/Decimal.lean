import Termwise.Text.Integer

/-!
# Floating-point numbers as decimal text

Three rules, each in exact integer arithmetic.

*Reading.* An optional sign, digits with an optional point (at least one digit in all), and an
optional exponent; or, in any letter case, one of the words for infinity and for the value that
is no number. The result is the float nearest to the denoted decimal, ties to even.

*Shortest digits.* The fewest significant digits that still read back as the number; of those
the digits nearest to it, and of two equally near the larger. They are always written
positionally, and a whole number has no point.

*Fixed places.* The exact value rounded to a number of decimal places, a half to the even side.

## Main definitions

* `Decimal`: what a numeric text denotes; `Decimal.read?`, `Decimal.toFloat`
* `Magnitude`: the exact value of a finite float without its sign
* `Magnitude.shortest`: the shortest digits that read back
* `Float.text`, `Float.fixedText`: a float as text, under the second and the third rule
-/

namespace Termwise.Text

/-- What a numeric text denotes. -/
inductive Decimal where
  /-- The number `significand * 10 ^ exponent`, with its sign. -/
  | number (negative : Bool) (significand : Nat) (exponent : Int)
  /-- Infinity, with its sign. -/
  | infinity (negative : Bool)
  /-- The value that is no number. -/
  | notANumber
deriving DecidableEq

namespace Decimal

/-- The exponent at the end of a numeric text: none written means zero. -/
def readExponent? : List Char → Option Int
  | [] => some 0
  | c :: rest => if c == 'e' || c == 'E' then Integer.readUnbounded rest else none

/-- An unsigned number: digits, perhaps a point and more digits, perhaps an exponent. -/
def readNumber? (text : List Char) : Option (Nat × Int) := do
  let whole := text.takeWhile Char.isDigit
  let rest := text.dropWhile Char.isDigit
  let fraction := match rest with
    | '.' :: after => after.takeWhile Char.isDigit
    | _ => []
  let tail := match rest with
    | '.' :: after => after.dropWhile Char.isDigit
    | _ => rest
  let significand ← readDigits (whole ++ fraction)
  let exponent ← readExponent? tail
  return (significand, exponent - fraction.length)

/-- The reading of a numeric text, if it is one. -/
def read? (text : String) : Option Decimal :=
  let (negative, body) := splitSign text.toList
  let word := body.map Char.toLower
  if word == "inf".toList || word == "infinity".toList then some (infinity negative)
  else if word == "nan".toList then some notANumber
  else (readNumber? body).map fun (significand, exponent) =>
    number negative significand exponent

/-- The float nearest to `significand * 10 ^ exponent`. Far outside the range of floats the
answer is known without forming the power. -/
def nearest (significand : Nat) (exponent : Int) : Float :=
  if significand = 0 then 0
  else if 400 < exponent then 1 / 0
  else if exponent + significand.log2 < -400 then 0
  else Float.ofScientific significand (exponent < 0) exponent.natAbs

/-- The float that a numeric text denotes. -/
def toFloat : Decimal → Float
  | number negative significand exponent =>
    if negative then -nearest significand exponent else nearest significand exponent
  | infinity negative => if negative then -(1 / 0) else 1 / 0
  | notANumber => 0 / 0

end Decimal

/-- The float that a numeric text denotes, if it is one. -/
def readFloat? (text : String) : Option Float := (Decimal.read? text).map Decimal.toFloat

/-- The exact value `significand * 2 ^ exponent` of a finite float without its sign.
`narrowBelow` marks a power of two, whose lower neighbour is half as far as the upper one. -/
structure Magnitude where
  significand : Nat
  exponent : Int
  narrowBelow : Bool
deriving DecidableEq

/-- A float taken apart: its sign, and its value if it is finite. -/
inductive FloatView where
  | finite (negative : Bool) (value : Magnitude)
  | infinity (negative : Bool)
  | notANumber
deriving DecidableEq

/-- The parts of a float, read off its bits: one for the sign, eleven for the exponent and 52
for the significand, whose leading one is left out unless the exponent is the least. -/
def FloatView.ofFloat (x : Float) : FloatView :=
  let bits : Nat := x.toBits.toNat
  let negative := bits / Nat.pow 2 63 == 1
  let exponent : Nat := bits / Nat.pow 2 52 % Nat.pow 2 11
  let fraction : Nat := bits % Nat.pow 2 52
  if exponent = 2047 then
    if fraction = 0 then .infinity negative else .notANumber
  else if exponent = 0 then
    .finite negative ⟨fraction, -1074, false⟩
  else
    .finite negative ⟨fraction + Nat.pow 2 52, (exponent : Int) - 1075, fraction == 0 && 1 < exponent⟩

/-- A positive number as a quotient of natural numbers. -/
structure Ratio where
  num : Nat
  den : Nat

namespace Magnitude

/-- The size of one unit of the significand, where that is a whole number, and one elsewhere. -/
def unit (v : Magnitude) : Nat := Nat.pow 2 v.exponent.toNat

/-- The value in units of `10 ^ power`. -/
def inUnits (v : Magnitude) (power : Int) : Ratio where
  num := v.significand * v.unit * Nat.pow 10 (-power).toNat
  den := Nat.pow 2 (-v.exponent).toNat * Nat.pow 10 power.toNat

/-- Whether `digits * 10 ^ power` lies in the interval of reals that round to the value: half a
unit to each side, a quarter below where the neighbour is nearer. The ends belong to it when the
significand is even. All is on the scale of four times the value in units of `10 ^ power`. -/
def holds (v : Magnitude) (digits : Nat) (power : Int) : Bool :=
  let q := v.inUnits power
  let quarter := v.unit * Nat.pow 10 (-power).toNat
  let low := 4 * q.num - (if v.narrowBelow then 1 else 2) * quarter
  let high := 4 * q.num + 2 * quarter
  let point := 4 * digits * q.den
  if v.significand % 2 = 0 then low ≤ point && point ≤ high else low < point && point < high

/-- The place of the first digit: `10 ^ (place - 1) ≤ value < 10 ^ place`. No float is less than
`10 ^ -350`. -/
def place (v : Magnitude) : Int :=
  let q := v.inUnits (-350)
  (Nat.toDigits 10 (q.num / q.den)).length - 350

/-- The point of the grid of multiples of `10 ^ power` nearest to the value among its two
neighbours that read back as it; of two equally near the larger. -/
def candidate? (v : Magnitude) (power : Int) : Option Nat :=
  let q := v.inUnits power
  let below := q.num / q.den
  let rest := q.num % q.den
  match v.holds below power, v.holds (below + 1) power with
  | true, true => some (if 2 * rest < q.den then below else below + 1)
  | true, false => some below
  | false, true => some (below + 1)
  | false, false => none

/-- The first grid, from `count` digits on, with a point that reads back. A point that ends in
zero also lies on the coarser grid; this happens only where the value rounds up to a power of
ten at the first digit. -/
def search (v : Magnitude) (place : Int) : (fuel count : Nat) → Nat × Int
  | 0, _ => (v.significand, 0)
  | fuel + 1, count =>
    match v.candidate? (place - count) with
    | some digits =>
      if digits % 10 = 0 then (digits / 10, place - count + 1) else (digits, place - count)
    | none => search v place fuel (count + 1)

/-- The shortest digits that read back as the value, and the power of ten they stand for.
Seventeen digits always suffice. -/
def shortest (v : Magnitude) : Nat × Int := v.search v.place 17 1

/-- The value in units of `10 ^ -places`, rounded to the nearest whole number and a half to the
even one. -/
def rounded (v : Magnitude) (places : Nat) : Nat :=
  let q := v.inUnits (-(places : Int))
  let below := q.num / q.den
  let rest := q.num % q.den
  if 2 * rest < q.den then below
  else if q.den < 2 * rest then below + 1
  else if below % 2 = 0 then below else below + 1

end Magnitude

/-- Digits written around a point that stands `places` digits from the right, at least one
digit before it. -/
def pointed (digits : Nat) (places : Nat) : List Char :=
  let text := Nat.toDigits 10 digits
  let padded := List.replicate (places + 1 - text.length) '0' ++ text
  let whole := padded.take (padded.length - places)
  let fraction := padded.drop (padded.length - places)
  if fraction.isEmpty then whole else whole ++ '.' :: fraction

/-- `digits * 10 ^ power` without an exponent. -/
def positional (digits : Nat) (power : Int) : List Char :=
  if 0 ≤ power then Nat.toDigits 10 (digits * Nat.pow 10 power.toNat)
  else pointed digits (-power).toNat

/-- Text after a minus sign if the number is negative. -/
def signed (negative : Bool) (text : List Char) : String :=
  String.ofList (if negative then '-' :: text else text)

/-- A float in the fewest digits that read back as it, without an exponent. -/
def floatText (x : Float) : String :=
  match FloatView.ofFloat x with
  | .notANumber => "NaN"
  | .infinity negative => signed negative "inf".toList
  | .finite negative v =>
    if v.significand = 0 then signed negative ['0']
    else
      let (digits, power) := v.shortest
      signed negative (positional digits power)

/-- A float with a fixed number of decimal places. -/
def fixedText (places : Nat) (x : Float) : String :=
  match FloatView.ofFloat x with
  | .notANumber => "NaN"
  | .infinity negative => signed negative "inf".toList
  | .finite negative v => signed negative (pointed (v.rounded places) places)

end Termwise.Text
