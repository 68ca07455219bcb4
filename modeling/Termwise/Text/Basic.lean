/-!
# Plain text of small values

## Main definitions

* `Text.natText`: a natural number in decimal
* `Text.truthText`: a truth value as a word
-/

namespace Termwise.Text

/-- A natural number in decimal digits. -/
def natText (n : Nat) : String := String.ofList (Nat.toDigits 10 n)

/-- A truth value as a word. -/
def truthText (b : Bool) : String := if b then "true" else "false"

end Termwise.Text
