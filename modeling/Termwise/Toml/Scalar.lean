import Termwise.Toml.Reader
import Termwise.Toml.Value

/-!
# Numbers and dates in TOML

Numbers may have underscores between digits. Whole numbers have no leading zero and fit into 64
bits; they may be written in other bases without a sign. A float that is too large is refused if
it is positive and is infinite if it is negative. Dates must exist in the calendar.

## Main definitions

* `Reader.integer`, `Reader.float`: numbers
* `Reader.dateTime`: a date, a time or both, in normal form
-/

namespace Termwise.Toml.Reader

/-! ## Numbers -/

/-- Digits, perhaps with single underscores between them, which are left out. -/
def digitGroup (isDigit : Char → Bool) : Reader (List Char) := do
  let first ← satisfy isDigit
  let rest ← many (firstOf [satisfy isDigit, do char '_'; satisfy isDigit])
  return first :: rest

/-- A sign, if there is one. -/
def sign : Reader (List Char) := do
  match ← peek with
  | some '+' => do char '+'; return ['+']
  | some '-' => do char '-'; return ['-']
  | _ => return []

/-- A sign and digits without a leading zero. -/
def wholePart : Reader (List Char) := do
  let s ← sign
  match ← peek with
  | some '0' => do char '0'; return s ++ ['0']
  | _ => return s ++ (← digitGroup Char.isDigit)

/-- Digits after a point. -/
def fractionPart : Reader (List Char) := do
  char '.'
  return '.' :: (← digitGroup Char.isDigit)

/-- An exponent, which may have leading zeros. -/
def exponentPart : Reader (List Char) := do
  let _ ← satisfy fun c => c == 'e' || c == 'E'
  let s ← sign
  return 'e' :: s ++ (← digitGroup Char.isDigit)

/-- The digits of a float with a fraction, an exponent or both. -/
def floatDigits : Reader (List Char) := do
  let whole ← wholePart
  firstOf
    [ do return whole ++ (← exponentPart),
      do
        let fraction ← fractionPart
        let exponent ← optional exponentPart
        return whole ++ fraction ++ exponent.getD [] ]

/-- One of the words for infinity and for no number, perhaps with a sign. -/
def floatWord : Reader (List Char) := do
  let s ← sign
  firstOf [do expect "inf"; return s ++ "inf".toList, do expect "nan"; return s ++ "nan".toList]

/-- The float that a text denotes. -/
def toFloat (text : List Char) : Reader Float := do
  match Text.readFloat? (String.ofList text) with
  | some x => return x
  | none => failure

/-- A float in digits or as a word. Digits do not stand for positive infinity. -/
def float : Reader Toml :=
  firstOf
    [ do
        let x ← toFloat (← floatDigits)
        guard !(x == 1 / 0)
        return .float x,
      do return .float (← toFloat (← floatWord)) ]

/-- Digits of a base after its mark. -/
def based (mark : String) (base : Nat) (isDigit : Char → Bool) : Reader Toml := do
  expect mark
  let n := (← digitGroup isDigit).foldl (fun n c => base * n + hexValue.digit c) 0
  guard (Text.Integer.Fits n)
  return .integer (Int64.ofInt n)

/-- A whole number, in base ten with a sign or in base sixteen, eight or two without. -/
def integer : Reader Toml :=
  firstOf
    [ based "0x" 16 isHexDigit,
      based "0o" 8 fun c => '0' ≤ c && c ≤ '7',
      based "0b" 2 fun c => c == '0' || c == '1',
      do
        let digits ← wholePart
        match Text.Integer.read (String.ofList digits) with
        | some i => return .integer i
        | none => failure ]

/-! ## Dates and times -/

/-- A fixed number of digits with a value between two bounds. -/
def number (count low high : Nat) : Reader Nat := do
  let digits := (← get).take count
  guard (digits.length = count && digits.all Char.isDigit)
  modify (·.drop count)
  let n := Nat.ofDigitChars 10 digits 0
  guard (low ≤ n && n ≤ high)
  return n

/-- A number in at least so many digits. -/
def padded (count n : Nat) : String :=
  let digits := Nat.toDigits 10 n
  String.ofList (List.replicate (count - digits.length) '0' ++ digits)

/-- How many days a month has. -/
def daysInMonth (year month : Nat) : Nat :=
  if month = 2 then
    if year % 4 = 0 ∧ (year % 100 ≠ 0 ∨ year % 400 = 0) then 29 else 28
  else if month = 4 ∨ month = 6 ∨ month = 9 ∨ month = 11 then 30
  else 31

/-- A date. -/
def date : Reader String := do
  let year ← number 4 0 9999
  char '-'
  let month ← number 2 1 12
  char '-'
  let day ← number 2 1 (daysInMonth year month)
  return padded 4 year ++ "-" ++ padded 2 month ++ "-" ++ padded 2 day

/-- Parts of a second: nine digits count, zeros at the end are left out. -/
def secondFraction : Reader String := do
  char '.'
  let first ← satisfy Char.isDigit
  let rest ← takeWhile Char.isDigit
  let digits := (first :: rest).take 9
  let shown := (digits.reverse.dropWhile (· == '0')).reverse
  return if shown.isEmpty then "" else String.ofList ('.' :: shown)

/-- A time of day. A minute may have a leap second. -/
def time : Reader String := do
  let hour ← number 2 0 23
  char ':'
  let minute ← number 2 0 59
  char ':'
  let second ← number 2 0 60
  let fraction ← optional secondFraction
  return padded 2 hour ++ ":" ++ padded 2 minute ++ ":" ++ padded 2 second ++ fraction.getD ""

/-- The distance from universal time. -/
def offset : Reader String := do
  match ← satisfy fun _ => true with
  | 'Z' | 'z' => return "Z"
  | c => do
    guard (c == '+' || c == '-')
    let hour ← number 2 0 23
    char ':'
    let minute ← number 2 0 59
    let s := if c == '-' && 0 < hour + minute then "-" else "+"
    return s ++ padded 2 hour ++ ":" ++ padded 2 minute

/-- A date, a time, or a date and a time with or without an offset. -/
def dateTime : Reader Toml :=
  firstOf
    [ do
        let day ← date
        let rest ← optional do
          let _ ← satisfy fun c => c == 'T' || c == 't' || c == ' '
          let hours ← time
          let distance ← optional offset
          return "T" ++ hours ++ distance.getD ""
        return .dateTime (day ++ rest.getD ""),
      do return .dateTime (← time) ]

end Termwise.Toml.Reader
