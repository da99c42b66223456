import RegexWords.Pattern
import RegexWords.Pattern.Fault
import RegexWords.Text.Digits

/-!
# The small pieces of a pattern's text

Readers for what is written without nesting: escapes, bracketed classes, quantifiers and the
opening of a group. Each takes the unread text and gives back what it read together with the
text after it; on a fault the text that is still unread comes back too. A position is counted
from the end: `size` is the length of the whole text, so the unread text `rest` begins at
position `size - rest.length`.

## Main results

* `length_lt_of_readClassItem`, `length_lt_of_readAtom`, `length_le_of_readSuffix`,
  `length_le_of_readOpening`: how much each reader consumes, which is why reading ends.
-/

namespace RegexWords

/-- The outcome of reading one piece: what was read with the text after it, or a fault with
the text that is left. -/
abbrev Lexed (α : Type) := Except (Fault × List Char) (α × List Char)

/-! ### Escapes -/

/-- The character that a backslash before `c` stands for when it stands for a character. -/
def unescape (c : Char) : Char :=
  match c with
  | 'n' => '\n'
  | 'r' => '\r'
  | 't' => '\t'
  | 'f' => '\x0c'
  | 'v' => '\x0b'
  | '0' => '\x00'
  | _ => c

/-- The shorthand class with the letter `c`. -/
def Shorthand.ofLetter? (c : Char) : Option Shorthand :=
  match c with
  | 'd' => some .digit
  | 'D' => some .nonDigit
  | 'w' => some .word
  | 'W' => some .nonWord
  | 's' => some .space
  | 'S' => some .nonSpace
  | _ => none

/-- What a backslash before `c` means outside brackets. -/
def Regex.ofEscape (c : Char) : Regex :=
  match Shorthand.ofLetter? c with
  | some kind => .shorthand kind
  | none =>
    if c = 'b' then .anchor .wordBoundary
    else if c = 'B' then .anchor .nonWordBoundary
    else if '1' ≤ c ∧ c ≤ '9' then .backreference (c.toNat - '0'.toNat)
    else .literal (unescape c)

/-- What a backslash before `c` means in brackets, where `\b` is a backspace. -/
def ClassMember.ofEscape (c : Char) : ClassMember :=
  match Shorthand.ofLetter? c with
  | some kind => .shorthand kind
  | none => .single (if c = 'b' then '\x08' else unescape c)

/-! ### Classes -/

/-- One member of a class, taken without regard to a dash after it. `start` is the position
of the opening bracket. -/
def readClassAtom (start : Nat) : List Char → Lexed ClassMember
  | [] => .error (.unterminatedClass start, [])
  | ['\\'] => .error (.unterminatedClass start, [])
  | '\\' :: c :: rest => .ok (.ofEscape c, rest)
  | c :: rest => .ok (.single c, rest)

/-- The next members of a class. A dash between two characters makes a range of them; a dash
before the closing bracket, or next to a shorthand, is a member of its own. -/
def readClassItem (start : Nat) (text : List Char) : Lexed (List ClassMember) :=
  match readClassAtom start text with
  | .error e => .error e
  | .ok (.single first, '-' :: c :: rest) =>
    if c = ']' then .ok ([.single first], '-' :: c :: rest)
    else
      match readClassAtom start (c :: rest) with
      | .error e => .error e
      | .ok (.single last, rest') =>
        if last < first then .error (.reversedRange first last, rest')
        else .ok ([.range first last], rest')
      | .ok (member, rest') => .ok ([.single first, .single '-', member], rest')
  | .ok (member, rest) => .ok ([member], rest)

theorem length_lt_of_readClassAtom {start : Nat} {text rest : List Char} {member : ClassMember}
    (h : readClassAtom start text = .ok (member, rest)) : rest.length < text.length := by
  unfold readClassAtom at h
  split at h <;> cases h <;> simp only [List.length_cons] <;> omega

theorem length_lt_of_readClassItem {start : Nat} {text rest : List Char}
    {members : List ClassMember} (h : readClassItem start text = .ok (members, rest)) :
    rest.length < text.length := by
  unfold readClassItem at h
  split at h
  · cases h
  · next first c rest₁ h₁ =>
    have l₁ := length_lt_of_readClassAtom h₁
    simp only [List.length_cons] at l₁
    split at h
    · cases h; simpa using l₁
    · split at h
      · cases h
      · next last rest₂ h₂ =>
        have l₂ := length_lt_of_readClassAtom h₂
        simp only [List.length_cons] at l₂
        split at h
        · cases h
        · cases h; omega
      · next member rest₂ _ h₂ =>
        have l₂ := length_lt_of_readClassAtom h₂
        simp only [List.length_cons] at l₂
        cases h; omega
  · next member rest₁ _ h₁ => cases h; exact length_lt_of_readClassAtom h₁

/-- The members up to the closing bracket, which is consumed. -/
def readClassMembers (start : Nat) (text : List Char) : Lexed (List ClassMember) :=
  if text.head? = some ']' then .ok ([], text.tail)
  else
    match h : readClassItem start text with
    | .error e => .error e
    | .ok (members, rest) =>
      have : rest.length < text.length := length_lt_of_readClassItem h
      match readClassMembers start rest with
      | .error e => .error e
      | .ok (more, rest') => .ok (members ++ more, rest')
termination_by text.length

/-- Whether a class begins with the caret that negates it, and what comes after that. -/
def readNegation : List Char → Bool × List Char
  | '^' :: rest => (true, rest)
  | text => (false, text)

/-- A closing bracket as first member is a member. -/
def readLeadingBracket : List Char → List ClassMember × List Char
  | ']' :: rest => ([.single ']'], rest)
  | text => ([], text)

/-- A class after its opening bracket at position `start`. -/
def readClass (start : Nat) (text : List Char) : Lexed Regex :=
  let (negated, text) := readNegation text
  let (leading, text) := readLeadingBracket text
  match readClassMembers start text with
  | .error e => .error e
  | .ok (members, rest) => .ok (.charClass (leading ++ members) negated, rest)

/-! ### Quantifiers -/

/-- The largest number that bounds tell apart: a longer numeral counts as this one. -/
def maxNumeral : Nat := UInt64.size - 1

/-- The value of decimal digits, capped at `maxNumeral`. -/
def numeral (digits : List Char) : Nat :=
  min maxNumeral (Text.decimalValue digits)

/-- The digits at the head of a text with the text after them, if there are any. -/
def readNumeral? (text : List Char) : Option (Nat × List Char) :=
  match text.takeWhile Char.isDigit with
  | [] => none
  | digits => some (numeral digits, text.dropWhile Char.isDigit)

/-- The quantifier in braces whose opening brace was just passed, if this is one: a number, a
number and a comma, or two numbers, and then the closing brace. -/
def readBraces? (text : List Char) : Option (Quantifier × List Char) :=
  match readNumeral? text with
  | none => none
  | some (n, '}' :: rest) => some (.exactly n, rest)
  | some (n, ',' :: '}' :: rest) => some (.atLeast n, rest)
  | some (n, ',' :: rest) =>
    match readNumeral? rest with
    | some (m, '}' :: rest') => some (.between n m, rest')
    | _ => none
  | some _ => none

/-- What is wrong with a quantifier in braces that begin at `pos`: a bound past the cap comes
before bounds out of order. -/
def Bounds.fault? (b : Bounds) (pos : Nat) : Option Fault :=
  let largest := Nat.max b.min (b.max.getD b.min)
  if maxBound < largest then some (.boundTooLarge largest pos)
  else match b.max with
    | some m => if m < b.min then some (.reversedBounds b.min m) else none
    | none => none

/-- A part with its quantifier. A question mark after the quantifier makes it lazy. -/
def quantify (part : Regex) (q : Quantifier) (text : List Char) : Regex × List Char :=
  match text with
  | '?' :: rest => (.repeated part q false, rest)
  | _ => (.repeated part q true, text)

/-- The part that was just read, with the quantifier after it if there is one. Braces that
hold no bounds are no quantifier and stay unread. -/
def readSuffix (size : Nat) (part : Regex) (text : List Char) : Lexed Regex :=
  match text with
  | '*' :: rest => .ok (quantify part .star rest)
  | '+' :: rest => .ok (quantify part .plus rest)
  | '?' :: rest => .ok (quantify part .question rest)
  | '{' :: rest =>
    match readBraces? rest with
    | none => .ok (part, text)
    | some (q, rest') =>
      match q.bounds.fault? (size - text.length) with
      | some fault => .error (fault, rest')
      | none => .ok (quantify part q rest')
  | _ => .ok (part, text)

/-! ### Atoms and groups -/

/-- One part that is neither a group nor a bar, without its quantifier. -/
def readAtom (size : Nat) (text : List Char) : Lexed Regex :=
  match text with
  | [] => .error (.unexpectedEnd ')' size, [])
  | '[' :: rest => readClass (size - text.length) rest
  | '*' :: _ | '+' :: _ | '?' :: _ => .error (.nothingToRepeat (size - text.length), text)
  | '.' :: rest => .ok (.dot, rest)
  | '^' :: rest => .ok (.anchor .start, rest)
  | '$' :: rest => .ok (.anchor .finish, rest)
  | ['\\'] => .error (.danglingEscape, [])
  | '\\' :: c :: rest => .ok (.ofEscape c, rest)
  | c :: rest => .ok (.literal c, rest)

/-- What a group does, as its first characters tell. -/
inductive Opening
  /-- Capture under a number. -/
  | capture (number : Nat)
  /-- Only group. -/
  | group
  /-- Assert what stands before or after. -/
  | look (direction : Direction) (positive : Bool)

/-- The node of a group with the given body. -/
def Opening.close : Opening → Option Regex → Regex
  | capture number, body => .capturing number body
  | group, body => .grouping body
  | look direction positive, body => .lookaround body direction positive

/-- The opening of a group whose parenthesis was just passed. A capturing group takes `number`;
after a question mark one of the other kinds has to follow. -/
def readOpening (size number : Nat) (text : List Char) : Lexed Opening :=
  match text with
  | '?' :: ':' :: rest => .ok (.group, rest)
  | '?' :: '=' :: rest => .ok (.look .ahead true, rest)
  | '?' :: '!' :: rest => .ok (.look .ahead false, rest)
  | '?' :: '<' :: '=' :: rest => .ok (.look .behind true, rest)
  | '?' :: '<' :: '!' :: rest => .ok (.look .behind false, rest)
  | '?' :: _ :: rest => .error (.invalidGroup (size - rest.length), rest)
  | ['?'] => .error (.invalidGroup size, [])
  | _ => .ok (.capture number, text)

/-! ### What is consumed -/

theorem length_lt_of_readClassMembers {start : Nat} {text rest : List Char}
    {members : List ClassMember} (h : readClassMembers start text = .ok (members, rest)) :
    rest.length < text.length := by
  fun_induction readClassMembers start text generalizing members rest with
  | case1 text hc =>
    cases h
    cases text <;> simp_all
  | case2 => cases h
  | case3 => cases h
  | case4 text _ items rest₁ h₁ l₁ more rest₂ h₂ ih =>
    cases h
    have := ih h₂
    omega

theorem length_readNegation_le (text : List Char) :
    (readNegation text).2.length ≤ text.length := by
  unfold readNegation
  split <;> simp

theorem length_readLeadingBracket_le (text : List Char) :
    (readLeadingBracket text).2.length ≤ text.length := by
  unfold readLeadingBracket
  split <;> simp

theorem length_lt_of_readClass {start : Nat} {text rest : List Char} {r : Regex}
    (h : readClass start text = .ok (r, rest)) : rest.length < text.length := by
  have l₁ := length_readNegation_le text
  have l₂ := length_readLeadingBracket_le (readNegation text).2
  simp only [readClass] at h
  split at h
  · cases h
  · next h₁ =>
    cases h
    have := length_lt_of_readClassMembers h₁
    omega

theorem length_lt_of_readNumeral? {text rest : List Char} {n : Nat}
    (h : readNumeral? text = some (n, rest)) : rest.length < text.length := by
  unfold readNumeral? at h
  split at h
  · cases h
  · next h₁ =>
    cases h
    have l : (text.takeWhile Char.isDigit ++ text.dropWhile Char.isDigit).length = text.length := by
      rw [List.takeWhile_append_dropWhile]
    have : (text.takeWhile Char.isDigit).length ≠ 0 := by
      simpa [List.length_eq_zero_iff] using h₁
    simp only [List.length_append] at l
    omega

theorem length_lt_of_readBraces? {text rest : List Char} {q : Quantifier}
    (h : readBraces? text = some (q, rest)) : rest.length < text.length := by
  unfold readBraces? at h
  split at h
  · cases h
  · next h₁ => cases h; have := length_lt_of_readNumeral? h₁; simp at this; omega
  · next h₁ => cases h; have := length_lt_of_readNumeral? h₁; simp at this; omega
  · next h₁ =>
    have l₁ := length_lt_of_readNumeral? h₁
    split at h
    · next h₂ =>
      cases h
      have l₂ := length_lt_of_readNumeral? h₂
      simp at l₁ l₂; omega
    · cases h
  · cases h

theorem length_quantify_le (part : Regex) (q : Quantifier) (text : List Char) :
    (quantify part q text).2.length ≤ text.length := by
  unfold quantify
  split <;> simp

theorem length_le_of_readSuffix {size : Nat} {part r : Regex} {text rest : List Char}
    (h : readSuffix size part text = .ok (r, rest)) : rest.length ≤ text.length := by
  have key : ∀ (q : Quantifier) (t : List Char), t.length ≤ text.length →
      (Except.ok (quantify part q t) : Lexed Regex) = .ok (r, rest) →
      rest.length ≤ text.length := by
    intro q t ht hq
    have := length_quantify_le part q t
    have : (quantify part q t).2 = rest := by injection hq with hq; rw [hq]
    subst this
    omega
  unfold readSuffix at h
  split at h
  · exact key _ _ (by simp) h
  · exact key _ _ (by simp) h
  · exact key _ _ (by simp) h
  · next tail =>
    split at h
    · cases h; exact Nat.le_refl _
    · next h₁ =>
      have l := length_lt_of_readBraces? h₁
      split at h
      · cases h
      · exact key _ _ (by simp only [List.length_cons]; omega) h
  · cases h; exact Nat.le_refl _

theorem length_lt_of_readAtom {size : Nat} {text rest : List Char} {r : Regex}
    (h : readAtom size text = .ok (r, rest)) : rest.length < text.length := by
  unfold readAtom at h
  split at h
  case h_2 => have := length_lt_of_readClass h; simp only [List.length_cons]; omega
  all_goals cases h
  all_goals simp only [List.length_cons]; omega

theorem length_le_of_readOpening {size number : Nat} {text rest : List Char} {o : Opening}
    (h : readOpening size number text = .ok (o, rest)) : rest.length ≤ text.length := by
  unfold readOpening at h
  split at h
  case h_8 => cases h; exact Nat.le_refl _
  all_goals cases h
  all_goals simp only [List.length_cons]; omega

end RegexWords
