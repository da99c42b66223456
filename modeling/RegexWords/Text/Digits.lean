/-!
# Decimal numerals

## Main definitions

* `Text.decimalValue`: the number that decimal digits stand for.
-/

namespace RegexWords.Text

/-- The number that a list of decimal digits stands for, the most significant digit first. -/
def decimalValue (digits : List Char) : Nat :=
  digits.foldl (fun n c => 10 * n + (c.toNat - '0'.toNat)) 0

end RegexWords.Text
