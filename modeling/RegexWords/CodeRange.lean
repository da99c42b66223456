/-!
# Ranges of code points

The characters a pattern may draw from are given by inclusive ranges of code points. A
`CodeRange` may run backwards (then it is empty) or reach past the last code point and across
the surrogates; `CodeRange.chars` lists the characters it really contains.

## Main definitions

* `CodeRange.chars`: the characters of a range, ascending.
* `CodeRange.charsOutside`: the characters of a range that lie in none of the given ranges.
* `CodeRange.printable`: printable ASCII, the range `.` draws from unless told otherwise.
-/

namespace RegexWords

/-- The character with code point `n`, if there is one: surrogates and numbers past the last
code point have none. -/
def charOfCode? (n : Nat) : Option Char :=
  if n.isValidChar then some (Char.ofNat n) else none

/-- An **inclusive range** of code points, from `first` to `last`. -/
structure CodeRange where
  first : Nat
  last : Nat
deriving DecidableEq, Repr

namespace CodeRange

/-- Space through `~`, the printable characters of ASCII. -/
def printable : CodeRange := ⟨32, 126⟩

/-- The range that holds the one character `c`. -/
def single (c : Char) : CodeRange := ⟨c.toNat, c.toNat⟩

/-- Whether `c` lies in the range. -/
def contains (r : CodeRange) (c : Char) : Bool :=
  r.first ≤ c.toNat && c.toNat ≤ r.last

/-- The number of code points in the range. Nothing past the last code point there is counts. -/
def count (r : CodeRange) : Nat :=
  min r.last 0x10FFFF + 1 - r.first

/-- The characters of the range in ascending order. Code points without a character are left
out. -/
def chars (r : CodeRange) : List Char :=
  (List.range' r.first r.count).filterMap charOfCode?

/-- The characters of the range that lie in none of `excluded`, in ascending order. -/
def charsOutside (r : CodeRange) (excluded : List CodeRange) : List Char :=
  r.chars.filter fun c => !excluded.any (·.contains c)

end CodeRange

end RegexWords
