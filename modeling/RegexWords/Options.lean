import RegexWords.CodeRange

/-!
# Options

What may be chosen for one enumeration.
-/

namespace RegexWords

/-- The **options** of an enumeration: after how many values it stops, if it does, and the
alphabet that `.` and negated classes draw from. -/
structure Options where
  limit : Option Nat := none
  alphabet : CodeRange := .printable
deriving DecidableEq, Repr

/-- The options that stop after `limit` values. -/
def Options.withLimit (limit : Nat) : Options :=
  { limit := some limit }

end RegexWords
