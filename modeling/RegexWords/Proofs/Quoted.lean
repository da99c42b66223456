import Mathlib.Data.List.Basic
import RegexWords.Text.Quoted

/-!
# Quoted Text Can Be Read Back

Between quotes a character stands for itself, or it is written with a backslash and a letter after
it, or with its code point. Which characters are written in which way is laid down by an `Escaping`.
No such writing begins another one, and none begins with the closing quote, so the text between the
quotes is determined by what is written, and so is where it ends. In the outlines a line break is
never written as itself.

## Main definitions

* `Text.Escaping`: ways to write characters that can be told apart.
* `Text.Escaping.Writes`: what may be written for a character.
* `Text.escaping`: how characters are written in outlines.

## Main results

* `Text.Escaping.Writes.append_inj`: a character and where its writing ends are determined.
* `Text.Escaping.flatMap_append_inj`: so are characters before a closing quote.
* `Text.quoted_append_inj`: **a text and where its closing quote stands are determined**.
* `Text.newline_notMem_quoted`: quoted text is on one line.
-/

namespace RegexWords.Text

/-- What stands before the first delimiter is determined, and so is what stands after it. -/
theorem delimited_inj {α : Type} {a : α} {before before' after after' : List α}
    (hbefore : a ∉ before) (hbefore' : a ∉ before')
    (h : before ++ a :: after = before' ++ a :: after') : before = before' ∧ after = after' := by
  induction before generalizing before' with
  | nil =>
      cases before' with
      | nil => exact ⟨rfl, (List.cons.inj h).2⟩
      | cons b before' => exact absurd ((List.cons.inj h).1 ▸ List.mem_cons_self) hbefore'
  | cons b before ih =>
      cases before' with
      | nil => exact absurd ((List.cons.inj h).1 ▸ List.mem_cons_self) hbefore
      | cons b' before' =>
          obtain ⟨rfl, htail⟩ := List.cons.inj h
          obtain ⟨rfl, rfl⟩ := ih (mt (List.mem_cons_of_mem b) hbefore)
            (mt (List.mem_cons_of_mem b) hbefore') htail
          exact ⟨rfl, rfl⟩

/-! ### Code points -/

/-- Numbers in hexadecimal consist of digits. -/
theorem exists_digitChar_of_mem_toDigits {n : ℕ} {c : Char} (h : c ∈ Nat.toDigits 16 n) :
    ∃ d : ℕ, c = d.digitChar := by
  induction n using Nat.strongRecOn with
  | ind n ih =>
      rw [Nat.toDigits_eq_if (by decide)] at h
      split at h
      · exact ⟨n, List.mem_singleton.1 h⟩
      · rcases List.mem_append.1 h with h | h
        · exact ih (n / 16) (by omega) h
        · exact ⟨n % 16, List.mem_singleton.1 h⟩

/-- The number that a digit stands for is determined. -/
theorem digitChar_inj {d e : ℕ} (hd : d < 16) (he : e < 16) (h : d.digitChar = e.digitChar) :
    d = e := by
  have key : ∀ d < 16, ∀ e < 16, d.digitChar = e.digitChar → d = e := by decide
  exact key d hd e he h

/-- Numbers with the same hexadecimal digits are the same. -/
theorem toDigits_inj {n m : ℕ} (h : Nat.toDigits 16 n = Nat.toDigits 16 m) : n = m := by
  induction n using Nat.strongRecOn generalizing m with
  | ind n ih =>
      -- a number below the base is one of a single digit
      have hbase : ∀ k : ℕ, k < 16 ↔ (Nat.toDigits 16 k).length ≤ 1 := fun k =>
        (Nat.length_toDigits_le_iff (b := 16) (k := 1) (by decide) Nat.one_pos).symm
      have hsame : n < 16 ↔ m < 16 := by rw [hbase n, hbase m, h]
      by_cases hn : n < 16
      · have hm := hsame.1 hn
        rw [Nat.toDigits_of_lt_base hn, Nat.toDigits_of_lt_base hm] at h
        exact digitChar_inj hn hm (List.singleton_inj.1 h)
      · have hm := mt hsame.2 hn
        have hlast : ∀ k : ℕ, ¬ k < 16 →
            Nat.toDigits 16 k = Nat.toDigits 16 (k / 16) ++ [(k % 16).digitChar] := fun k hk =>
          Nat.toDigits_of_base_le (by decide) (Nat.not_lt.1 hk)
        rw [hlast n hn, hlast m hm] at h
        obtain ⟨hdiv, hmod⟩ := List.append_inj' h rfl
        have hdiv : n / 16 = m / 16 := ih (n / 16) (by omega) hdiv
        have hmod : n % 16 = m % 16 := digitChar_inj (Nat.mod_lt n (by decide))
          (Nat.mod_lt m (by decide)) (List.singleton_inj.1 hmod)
        omega

/-! ### Escaping -/

/-- How characters may be **escaped** between quotes: which of them never stand for themselves,
which are written by a letter after a backslash, and what comes after `\\u` for a character. The
letters and the codes can be told apart. -/
structure Escaping where
  special : List Char
  letters : List (Char × Char)
  Codes : Char → List Char → Prop
  quote_mem : '"' ∈ special
  backslash_mem : '\\' ∈ special
  letter_ne : ∀ pair ∈ letters, pair.2 ≠ 'u'
  letter_inj : ∀ pair ∈ letters, ∀ pair' ∈ letters, pair.2 = pair'.2 → pair.1 = pair'.1
  codes_inj : ∀ {c c' : Char} {text text' rest rest' : List Char}, Codes c text → Codes c' text' →
    text ++ rest = text' ++ rest' → c = c' ∧ rest = rest'

namespace Escaping

/-- What may be **written for a character** between quotes. -/
inductive Writes (x : Escaping) (c : Char) : List Char → Prop
  | plain : c ∉ x.special → Writes x c [c]
  | letter {l : Char} : (c, l) ∈ x.letters → Writes x c ['\\', l]
  | code {text : List Char} : x.Codes c text → Writes x c ('\\' :: 'u' :: text)

variable {x : Escaping} {c c' : Char} {text text' rest rest' : List Char}

/-- No writing begins with a closing quote. -/
theorem Writes.exists_cons (h : x.Writes c text) : ∃ d rest, text = d :: rest ∧ d ≠ '"' := by
  cases h with
  | plain hc => exact ⟨c, [], rfl, fun hquote => hc (hquote ▸ x.quote_mem)⟩
  | letter h => exact ⟨'\\', _, rfl, by decide⟩
  | code => exact ⟨'\\', _, rfl, by decide⟩

/-- **What is written for a character** is not the beginning of what is written for another one. -/
theorem Writes.append_inj (h : x.Writes c text) (h' : x.Writes c' text')
    (heq : text ++ rest = text' ++ rest') : c = c' ∧ rest = rest' := by
  cases h with
  | plain hc =>
      cases h' with
      | plain hc' => exact List.cons.inj heq
      | letter h' => exact absurd (List.cons.inj heq).1 fun h => hc (h ▸ x.backslash_mem)
      | code => exact absurd (List.cons.inj heq).1 fun h => hc (h ▸ x.backslash_mem)
  | letter h =>
      cases h' with
      | plain hc' => exact absurd (List.cons.inj heq).1.symm fun h => hc' (h ▸ x.backslash_mem)
      | letter h' =>
          obtain ⟨hl, hrest⟩ := List.cons.inj (List.cons.inj heq).2
          exact ⟨x.letter_inj _ h _ h' hl, hrest⟩
      | code => exact absurd (List.cons.inj (List.cons.inj heq).2).1 (x.letter_ne _ h)
  | code h =>
      cases h' with
      | plain hc' => exact absurd (List.cons.inj heq).1.symm fun h => hc' (h ▸ x.backslash_mem)
      | letter h' => exact absurd (List.cons.inj (List.cons.inj heq).2).1.symm (x.letter_ne _ h')
      | code h' => exact x.codes_inj h h' (List.cons.inj (List.cons.inj heq).2).2

/-- **The characters before a closing quote** are determined, and so is what follows the quote. -/
theorem flatMap_append_inj (x : Escaping) {write : Char → List Char}
    (hwrite : ∀ c, x.Writes c (write c)) {cs cs' rest rest' : List Char}
    (h : cs.flatMap write ++ '"' :: rest = cs'.flatMap write ++ '"' :: rest') :
    cs = cs' ∧ rest = rest' := by
  induction cs generalizing cs' with
  | nil =>
      cases cs' with
      | nil => exact ⟨rfl, (List.cons.inj h).2⟩
      | cons c' cs' =>
          obtain ⟨d, text, htext, hd⟩ := (hwrite c').exists_cons
          rw [List.flatMap_cons, htext] at h
          exact absurd (List.cons.inj h).1.symm hd
  | cons c cs ih =>
      cases cs' with
      | nil =>
          obtain ⟨d, text, htext, hd⟩ := (hwrite c).exists_cons
          rw [List.flatMap_cons, htext] at h
          exact absurd (List.cons.inj h).1 hd
      | cons c' cs' =>
          rw [List.flatMap_cons, List.flatMap_cons, List.append_assoc, List.append_assoc] at h
          obtain ⟨hc, h⟩ := (hwrite c).append_inj (hwrite c') h
          obtain ⟨hcs, hrest⟩ := ih h
          exact ⟨by rw [hc, hcs], hrest⟩

end Escaping

/-! ### Texts in outlines -/

/-- A code point in braces. -/
def bracedCode (c : Char) : List Char :=
  '\x7b' :: (Nat.toDigits 16 c.toNat ++ ['\x7d'])

/-- A code point in braces is determined: the digits end at the closing brace. -/
theorem bracedCode_append_inj {c c' : Char} {rest rest' : List Char}
    (h : bracedCode c ++ rest = bracedCode c' ++ rest') : c = c' ∧ rest = rest' := by
  have hbrace : ∀ n, '\x7d' ∉ Nat.toDigits 16 n := by
    intro n h
    obtain ⟨d, hd⟩ := exists_digitChar_of_mem_toDigits h
    exact Nat.digitChar_ne '\x7d' (by decide) hd.symm
  simp only [bracedCode, List.cons_append, List.append_assoc, List.cons.injEq, true_and,
    List.nil_append] at h
  obtain ⟨hdigits, hrest⟩ := delimited_inj (hbrace c.toNat) (hbrace c'.toNat) h
  exact ⟨Char.toNat_inj.1 (toDigits_inj hdigits), hrest⟩

/-- How characters are written in outlines. A line break is not written as itself. -/
def escaping : Escaping where
  special := ['\n', '"', '\\']
  letters :=
    [('\x00', '0'), ('\t', 't'), ('\n', 'n'), ('\r', 'r'), ('"', '"'), ('\\', '\\')]
  Codes c text := text = bracedCode c
  quote_mem := by simp
  backslash_mem := by simp
  letter_ne := by simp
  letter_inj := by simp
  codes_inj := by
    rintro c c' _ _ rest rest' rfl rfl h
    exact bracedCode_append_inj h

/-- Every character is written in one of these ways. -/
theorem writes_escape (c : Char) : escaping.Writes c (escape c).toList := by
  unfold escape
  split
  · exact .letter (by decide)
  · exact .letter (by decide)
  · exact .letter (by decide)
  · exact .letter (by decide)
  · exact .letter (by decide)
  · exact .letter (by decide)
  · next hnewline _ hquote hbackslash =>
    have hc : c ≠ '\n' ∧ c ≠ '"' ∧ c ≠ '\\' := ⟨hnewline, hquote, hbackslash⟩
    have hplain : escaping.Writes c c.toString.toList := by
      rw [Char.toString_eq_singleton, String.toList_singleton]
      exact .plain (by simpa [escaping] using hc)
    have hcode : escaping.Writes c (escapeCode c).toList := by
      have htext : (escapeCode c).toList = '\\' :: 'u' :: bracedCode c := by
        simp [escapeCode, bracedCode]
      rw [htext]
      exact .code rfl
    split
    · exact hplain
    · split
      · exact hcode
      · exact hplain

/-- No writing has a line break in it. -/
theorem newline_notMem_of_writes {c : Char} {text : List Char} (h : escaping.Writes c text) :
    '\n' ∉ text := by
  cases h with
  | plain hc =>
      intro h
      exact hc (by simp [← List.mem_singleton.1 h, escaping])
  | @letter l h =>
      have hletters : ∀ pair ∈ escaping.letters, pair.2 ≠ '\n' := by simp [escaping]
      have hne := hletters _ h
      simp [hne.symm]
  | code htext =>
      intro h
      simp only [escaping] at htext
      simp only [htext, bracedCode, List.mem_cons, List.mem_append, List.not_mem_nil, or_false,
        Char.reduceEq, false_or] at h
      obtain ⟨d, hd⟩ := exists_digitChar_of_mem_toDigits h
      exact Nat.digitChar_ne '\n' (by decide) hd.symm

/-- The characters of a quoted text. -/
theorem toList_quoted (text : String) :
    (quoted text).toList = '"' :: (text.toList.flatMap (fun c => (escape c).toList) ++ ['"']) := by
  simp [quoted, List.flatMap_map]

/-- **Quoted text can be read back**: the text and what follows its closing quote are
determined. -/
theorem quoted_append_inj {text text' : String} {rest rest' : List Char}
    (h : (quoted text).toList ++ rest = (quoted text').toList ++ rest') :
    text = text' ∧ rest = rest' := by
  rw [toList_quoted, toList_quoted, List.cons_append, List.cons_append, List.append_assoc,
    List.append_assoc] at h
  obtain ⟨htext, hrest⟩ := escaping.flatMap_append_inj writes_escape (List.cons.inj h).2
  exact ⟨String.toList_inj.1 htext, hrest⟩

/-- Quoted text is on one line. -/
theorem newline_notMem_quoted (text : String) : '\n' ∉ (quoted text).toList := by
  rw [toList_quoted]
  simp only [List.mem_cons, List.mem_append, List.mem_flatMap, List.not_mem_nil, Char.reduceEq,
    or_false, false_or]
  rintro ⟨c, -, h⟩
  exact newline_notMem_of_writes (writes_escape c) h

end RegexWords.Text
