import ExactAlgebra.Text.Digit
import ExactAlgebra.Text.Edit

/-! Integers in text: blanks around, an optional sign, and digits of any script in groups. -/
namespace ExactAlgebra.Text

def maxIntegerDigits : Nat := 4300

/-- The value of digits in which single underscores may separate groups. -/
def groupedDigits? (s : List Char) : Option Nat :=
  let groups := splitAtChar '_' s
  let digits := groups.flatten
  if groups.all (fun group => !group.isEmpty && group.all isDecimal) &&
      digits.length ≤ maxIntegerDigits then
    some (naturalOf digits)
  else none

/-- An integer with blanks around it and an optional sign. -/
def integer? (text : String) : Option Int :=
  match strip text.toList with
  | '-' :: digits => (groupedDigits? digits).map fun n => -(n : Int)
  | '+' :: digits => (groupedDigits? digits).map Int.ofNat
  | digits => (groupedDigits? digits).map Int.ofNat

end ExactAlgebra.Text
