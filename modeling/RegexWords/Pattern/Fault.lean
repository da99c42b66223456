/-!
# Reading faults

What can be wrong with the text of a pattern. Positions count characters of the text that is
being read, from 0.

## Main definitions

* `Fault`: the causes, each with what a message needs to point at it.
* `Fault.message`: the wording.
-/

namespace RegexWords

/-- The largest bound that braces may hold. One value of a part repeated `n` times is made of `n`
draws, so the cap bounds the size of a single value. -/
def maxBound : Nat := 1000

/-- The cause of a failed reading. -/
inductive Fault
  /-- `c` closes nothing. -/
  | unexpectedChar (c : Char) (pos : Nat)
  /-- The text ends where `expected` has to follow. -/
  | unexpectedEnd (expected : Char) (pos : Nat)
  /-- A quantifier has nothing before it. -/
  | nothingToRepeat (pos : Nat)
  /-- The text ends with a backslash that escapes nothing. -/
  | danglingEscape
  /-- No kind of group begins like this. -/
  | invalidGroup (pos : Nat)
  /-- A bracket that was opened at `pos` is never closed. -/
  | unterminatedClass (pos : Nat)
  /-- A range of a class runs backwards. -/
  | reversedRange (first last : Char)
  /-- The bounds of a quantifier run backwards. -/
  | reversedBounds (min max : Nat)
  /-- The bounds that begin at `pos` go past `maxBound`. -/
  | boundTooLarge (bound pos : Nat)
deriving DecidableEq, Repr

/-- The text that reports a fault. -/
def Fault.message : Fault → String
  | unexpectedChar c pos =>
    "unexpected character '" ++ c.toString ++ "' at position " ++ toString pos
  | unexpectedEnd expected pos =>
    "expected '" ++ expected.toString ++ "' at position " ++ toString pos ++
      ", got end of pattern"
  | nothingToRepeat pos => "nothing to repeat at position " ++ toString pos
  | danglingEscape => "pattern ends with a dangling '\\'"
  | invalidGroup pos => "invalid group syntax after '(?' at position " ++ toString pos
  | unterminatedClass pos =>
    "unterminated character class starting at position " ++ toString pos
  | reversedRange first last =>
    "character class range " ++ first.toString ++ "-" ++ last.toString ++ " is out of order"
  | reversedBounds min max =>
    "repetition bounds \x7b" ++ toString min ++ "," ++ toString max ++ "\x7d are out of order"
  | boundTooLarge bound pos =>
    "repetition bound " ++ toString bound ++ " at position " ++ toString pos ++
      " exceeds the limit of " ++ toString maxBound

end RegexWords
