import Mathlib.Data.List.Induction
import Mathlib.Data.List.TakeWhile
import Mathlib.Data.Nat.Digits.Defs
import RegexWords.Pattern.Lexeme

/-!
# Quantifiers in Braces

What stands between braces is a quantifier in three cases: a numeral, a numeral and a comma, or
two numerals with a comma between them. The reader knows no other case, and it knows each of them
whatever the numerals are: it takes all digits there are, and what comes after them decides. Since
it needs the closing brace, nothing that follows the brace has a say.

What a numeral stands for is said by the places of its digits, from the last one on. The reader
goes the other way and keeps a sum.

## Main definitions

* `IsNumeral`, `numeralValue`: the numerals, and what they stand for.
* `Braces`: what stands between braces, with its numbers and the quantifier it stands for.

## Main results

* `numeral_eq`: **the reader's sum is the value of the numeral**.
* `readNumeral?_eq_some_iff`: a numeral is read up to the first character that is no digit.
* `readBraces?_eq_some_iff`: **braces are read exactly if they hold one of the three forms**.
-/

namespace RegexWords

/-! ### Numerals -/

/-- A **numeral** is a run of digits, one at least. -/
def IsNumeral (digits : List Char) : Prop :=
  digits ≠ [] ∧ ∀ d ∈ digits, d.isDigit

/-- What a numeral **stands for**: the number that has these digits in base ten, the last one
lowest. A number that does not fit 64 bits counts as the largest that does. -/
def numeralValue (digits : List Char) : ℕ :=
  min (Nat.ofDigits 10 (digits.reverse.map fun d => d.toNat - '0'.toNat)) (2 ^ 64 - 1)

/-- The sum that is kept from the first digit on is the number with these digits. -/
theorem Text.decimalValue_eq (digits : List Char) :
    decimalValue digits = Nat.ofDigits 10 (digits.reverse.map fun d => d.toNat - '0'.toNat) := by
  induction digits using List.reverseRecOn with
  | nil => rfl
  | append_singleton digits d ih =>
      rw [List.reverse_append, List.reverse_singleton, List.singleton_append, List.map_cons,
        Nat.ofDigits_cons, ← ih, decimalValue, List.foldl_append, Nat.add_comm]
      rfl

/-- **The reader finds the value of a numeral.** -/
theorem numeral_eq (digits : List Char) : numeral digits = numeralValue digits := by
  rw [numeral, numeralValue, Text.decimalValue_eq, Nat.min_comm]
  rfl

/-- **A numeral is read up to the first character that is no digit.** -/
theorem readNumeral?_eq_some_iff {text rest : List Char} {n : ℕ} :
    readNumeral? text = some (n, rest) ↔
      ∃ digits, IsNumeral digits ∧ n = numeralValue digits ∧ text = digits ++ rest ∧
        ∀ c ∈ rest.head?, ¬ c.isDigit := by
  simp only [← numeral_eq]
  constructor
  · intro h
    unfold readNumeral? at h
    split at h
    · cases h
    · next hne =>
      cases h
      refine ⟨_, ⟨hne, fun d hd => List.mem_takeWhile_imp hd⟩, rfl,
        List.takeWhile_append_dropWhile.symm, fun c hc hdigit => ?_⟩
      have hstop := List.head?_dropWhile_not Char.isDigit text
      rw [Option.mem_def.1 hc] at hstop
      simp [hdigit] at hstop
  · rintro ⟨digits, ⟨hne, hdigits⟩, rfl, rfl, hrest⟩
    have htake : (digits ++ rest).takeWhile Char.isDigit = digits := by
      rw [List.takeWhile_append_of_pos hdigits]
      cases rest with
      | nil => exact List.append_nil digits
      | cons c rest => rw [List.takeWhile_cons_of_neg (hrest c rfl), List.append_nil]
    have hdrop : (digits ++ rest).dropWhile Char.isDigit = rest := by
      rw [List.dropWhile_append_of_pos hdigits]
      cases rest with
      | nil => rfl
      | cons c rest => exact List.dropWhile_cons_of_neg (hrest c rfl)
    rw [readNumeral?, htake, hdrop]
    split
    · exact absurd rfl hne
    · rfl

/-- A numeral is read before any character that is no digit. -/
theorem readNumeral?_append {digits : List Char} (h : IsNumeral digits) {c : Char}
    (hc : ¬ c.isDigit) (rest : List Char) :
    readNumeral? (digits ++ c :: rest) = some (numeralValue digits, c :: rest) := by
  refine readNumeral?_eq_some_iff.2 ⟨digits, h, rfl, rfl, ?_⟩
  rintro _ ⟨⟩
  exact hc

/-! ### Braces -/

/-- What stands **between braces**, with the lower and the upper number in it, and with the
quantifier it stands for. A number alone is both. -/
inductive Braces : List Char → ℕ → ℕ → Quantifier → Prop
  /-- A numeral. -/
  | exactly {least : List Char} : IsNumeral least →
      Braces least (numeralValue least) (numeralValue least) (.exactly (numeralValue least))
  /-- A numeral and a comma. -/
  | atLeast {least : List Char} : IsNumeral least →
      Braces (least ++ [',']) (numeralValue least) (numeralValue least)
        (.atLeast (numeralValue least))
  /-- Two numerals with a comma between them. -/
  | between {least most : List Char} : IsNumeral least → IsNumeral most →
      Braces (least ++ ',' :: most) (numeralValue least) (numeralValue most)
        (.between (numeralValue least) (numeralValue most))

/-- There are only digits and commas between braces. -/
theorem Braces.digit_or_comma {contents : List Char} {n m : ℕ} {q : Quantifier}
    (h : Braces contents n m q) : ∀ c ∈ contents, c.isDigit ∨ c = ',' := by
  intro c hc
  cases h with
  | exactly hleast => exact Or.inl (hleast.2 c hc)
  | atLeast hleast =>
      rcases List.mem_append.1 hc with hc | hc
      · exact Or.inl (hleast.2 c hc)
      · exact Or.inr (List.mem_singleton.1 hc)
  | between hleast hmost =>
      rcases List.mem_append.1 hc with hc | hc
      · exact Or.inl (hleast.2 c hc)
      · rcases List.mem_cons.1 hc with hc | hc
        · exact Or.inr hc
        · exact Or.inl (hmost.2 c hc)

/-- **Braces are read exactly if they hold one of the three forms.** -/
theorem readBraces?_eq_some_iff {text rest : List Char} {q : Quantifier} :
    readBraces? text = some (q, rest) ↔
      ∃ contents n m, Braces contents n m q ∧ text = contents ++ '}' :: rest := by
  constructor
  · intro h
    unfold readBraces? at h
    split at h
    · cases h
    · next n rest' hleast =>
      cases h
      obtain ⟨least, hnumeral, rfl, rfl, -⟩ := readNumeral?_eq_some_iff.1 hleast
      exact ⟨least, _, _, Braces.exactly hnumeral, rfl⟩
    · next n rest' hleast =>
      cases h
      obtain ⟨least, hnumeral, rfl, rfl, -⟩ := readNumeral?_eq_some_iff.1 hleast
      exact ⟨least ++ [','], _, _, Braces.atLeast hnumeral, by simp⟩
    · next n rest' _ hleast =>
      obtain ⟨least, hnumeral, rfl, rfl, -⟩ := readNumeral?_eq_some_iff.1 hleast
      split at h
      · next m rest' hmost =>
        cases h
        obtain ⟨most, hnumeral', rfl, rfl, -⟩ := readNumeral?_eq_some_iff.1 hmost
        exact ⟨least ++ ',' :: most, _, _, Braces.between hnumeral hnumeral', by simp⟩
      · cases h
    · cases h
  · rintro ⟨contents, n, m, hcontents, rfl⟩
    cases hcontents with
    | exactly hleast =>
        rw [readBraces?, readNumeral?_append hleast (by decide)]
        rfl
    | @atLeast least hleast =>
        have hnumeral := readNumeral?_append hleast (c := ',') (by decide) ('}' :: rest)
        rw [List.append_assoc, List.cons_append, List.nil_append, readBraces?, hnumeral]
        rfl
    | @between least most hleast hmost =>
        have hnumeral := readNumeral?_append hleast (c := ',') (by decide) (most ++ '}' :: rest)
        have hnumeral' := readNumeral?_append hmost (c := '}') (by decide) rest
        obtain ⟨d, most', rfl⟩ := List.exists_cons_of_ne_nil hmost.1
        -- the second numeral begins with a digit, so the comma does not end the braces
        have hd : d ≠ '}' := by
          rintro rfl
          exact absurd (hmost.2 '}' List.mem_cons_self) (by decide)
        rw [List.append_assoc, List.cons_append, readBraces?, hnumeral]
        split
        · next heq => cases heq
        · next heq => cases heq
        · next heq =>
          cases heq
          exact absurd rfl hd
        · next heq =>
          cases heq
          rw [hnumeral']
          rfl
        · next hcomma heq => exact absurd (Option.some.inj heq).symm (hcomma _ _)

end RegexWords
