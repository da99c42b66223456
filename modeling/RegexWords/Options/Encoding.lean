import RegexWords.Json
import RegexWords.Options

/-!
# Options as JSON

Options are an object with the fields `limit` and `universe`, or an array of the same two values
in this order. Both may be missing, in an array from its end; other fields of an object are
passed over. A limit is `null` or fits 64 bits. A universe is an object with the code points
`from` and `to`, or an array of these two, and a code point fits 32 bits.

## Main definitions

* `Options.ofJson?`, `Options.toJson`: the reading and the writing.
-/

namespace RegexWords

/-- The value of a whole number below `bound`. -/
def Json.natBelow? (bound : Nat) : Json → Option Nat
  | integer n => if 0 ≤ n ∧ n < bound then some n.toNat else none
  | _ => none

/-- The range of code points between two values. -/
def CodeRange.ofEnds? (first last : Json) : Option CodeRange := do
  return ⟨← first.natBelow? UInt32.size, ← last.natBelow? UInt32.size⟩

/-- The range of code points that a value stands for. -/
def CodeRange.ofJson? : Json → Option CodeRange
  | .object fields => do ofEnds? (← fields.lookup "from") (← fields.lookup "to")
  | .array [first, last] => ofEnds? first last
  | _ => none

/-- The range of code points as a value. -/
def CodeRange.toJson (r : CodeRange) : Json :=
  .object [("from", .nat r.first), ("to", .nat r.last)]

namespace Options

/-- The limit that a value stands for: none if the value is missing or `null`. -/
def limitOfJson? : Option Json → Option (Option Nat)
  | none | some .null => some none
  | some v => (v.natBelow? UInt64.size).map some

/-- The alphabet that a value stands for: printable ASCII if the value is missing. -/
def alphabetOfJson? : Option Json → Option CodeRange
  | none => some .printable
  | some v => CodeRange.ofJson? v

/-- The options with the limit and the alphabet that two values stand for. -/
def ofParts? (limit alphabet : Option Json) : Option Options := do
  return { limit := ← limitOfJson? limit, alphabet := ← alphabetOfJson? alphabet }

/-- The options that a value stands for. -/
def ofJson? : Json → Option Options
  | .object fields => ofParts? (fields.lookup "limit") (fields.lookup "universe")
  | .array [] => ofParts? none none
  | .array [limit] => ofParts? (some limit) none
  | .array [limit, alphabet] => ofParts? (some limit) (some alphabet)
  | _ => none

/-- The options as a value. -/
def toJson (o : Options) : Json :=
  .object
    [("limit", match o.limit with
      | none => .null
      | some n => .nat n),
     ("universe", o.alphabet.toJson)]

end Options

end RegexWords
