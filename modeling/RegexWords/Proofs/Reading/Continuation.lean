import RegexWords.Proofs.Reading.Pieces

/-!
# Reading a Longer Text

What was read from a text is read from a longer text in the same way, if what is added cannot be
taken for more of it. A class ends with its bracket, so it may be followed by anything. After
other parts a quantifier might follow, and braces that are no quantifier might become one; so what
is added has to stay apart: it closes the alternative, or what was left of the text before shows
that no quantifier is under way. Faults do not come into it: where a reading goes on at all, it
does not matter at which position of the text it stands.

## Main definitions

* `Apart`: what may be added without a quantifier reaching into it.

## Main results

* `readAtom_append`: atoms before any text.
* `readBraces?_append_of_none`, `readSuffix_append`: quantifiers, and braces that are none, before
  a text that stays apart.
* `Reading.Step.append`, `Reading.Reaches.append`: **steps of a reading** before a text that stays
  apart.
-/

namespace RegexWords

variable {more : List Char}

/-! ### Atoms -/

/-- **An atom** is read the same before any text. -/
theorem readAtom_append {size : ℕ} {text rest : List Char} {r : Regex}
    (h : readAtom size text = .ok (r, rest)) (size' : ℕ) (more : List Char) :
    readAtom size' (text ++ more) = .ok (r, rest ++ more) := by
  obtain ⟨piece, htext, htakes⟩ := exists_piece_of_readAtom h
  exact htakes.read_append htext size' more

/-! ### Quantifiers -/

/-- More text stays **apart** from what is left of a text if no quantifier reaches from the one
into the other: it closes, or what is left holds a character that no unfinished quantifier has. -/
def Apart (text more : List Char) : Prop :=
  Closes more ∨ ∃ c ∈ text, ¬ c.isDigit ∧ c ∉ [',', '{']

namespace Apart

/-- What stays apart from the end of a text stays apart from the text. -/
theorem of_suffix {text rest : List Char} (h : Apart rest more) (hrest : rest <:+ text) :
    Apart text more :=
  h.imp_right fun ⟨c, hc, hchar⟩ => ⟨c, hrest.subset hc, hchar⟩

/-- At the end of a text only what closes stays apart. -/
theorem closes (h : Apart [] more) : Closes more :=
  h.resolve_right fun ⟨_, hc, _⟩ => List.not_mem_nil hc

/-- What stays apart after a brace stays apart from what is in the brace. -/
theorem of_cons_brace {text : List Char} (h : Apart ('{' :: text) more) : Apart text more := by
  refine h.imp_right ?_
  rintro ⟨c, hc, hdigit, hchar⟩
  rcases List.mem_cons.1 hc with rfl | hc
  · exact absurd (by simp) hchar
  · exact ⟨c, hc, hdigit, hchar⟩

/-- No question mark stands at the end of a text that what stays apart begins with. -/
theorem head?_ne {text : List Char} (h : Apart text more) (hhead : text.head? ≠ some '?') :
    (text ++ more).head? ≠ some '?' := by
  cases text with
  | nil => exact fun hmore => absurd (h.closes '?' hmore) (by decide)
  | cons c text => exact hhead

end Apart

/-- **Braces that are no quantifier** are none before a text that stays apart. -/
theorem readBraces?_append_of_none {text : List Char} (h : readBraces? text = none)
    (hmore : Apart text more) : readBraces? (text ++ more) = none := by
  cases hbraces : readBraces? (text ++ more) with
  | none => rfl
  | some found =>
      obtain ⟨q, rest⟩ := found
      obtain ⟨contents, n, m, hcontents, htext⟩ := readBraces?_eq_some_iff.1 hbraces
      have hprefix : text <+: contents ++ ['}'] ∨ contents ++ ['}'] <+: text :=
        List.prefix_or_prefix_of_prefix (List.prefix_append text more)
          ⟨rest, by rw [htext, List.append_assoc, List.singleton_append]⟩
      rw [List.prefix_concat_iff, or_right_comm] at hprefix
      rcases hprefix with hclosed | ⟨inside, rfl⟩
      · -- the closing brace was in the text already
        have hclosed : contents ++ ['}'] <+: text :=
          hclosed.elim (fun heq => heq ▸ List.prefix_rfl) id
        obtain ⟨after, rfl⟩ := hclosed
        have hfound : readBraces? (contents ++ ['}'] ++ after) = some (q, after) :=
          readBraces?_eq_some_iff.2 ⟨contents, n, m, hcontents, by simp⟩
        rw [h] at hfound
        cases hfound
      · -- the whole text is within the braces, and they go on in what is added
        rw [List.append_assoc] at htext
        have hchars := hcontents.digit_or_comma
        rcases hmore with hmore | ⟨c, hc, hdigit, hchar⟩
        · rw [List.append_cancel_left htext] at hmore
          cases inside with
          | nil => exact absurd (hmore '}' rfl) (by decide)
          | cons c inside =>
              have hc := hmore c rfl
              rcases hchars c (by simp) with hdigit | rfl
              · rcases List.mem_pair.1 hc with rfl | rfl <;> exact absurd hdigit (by decide)
              · exact absurd hc (by decide)
        · rcases hchars c (List.mem_append_left inside hc) with hdigit' | rfl
          · exact absurd hdigit' hdigit
          · exact absurd (by simp) hchar

/-- **A quantifier that is not there** is not there before a text that stays apart. -/
theorem quantifierAt?_append_of_none {text : List Char} (h : quantifierAt? text = none)
    (hmore : Apart text more) : quantifierAt? (text ++ more) = none := by
  fun_cases quantifierAt? text with
  | case1 rest => cases h
  | case2 rest => cases h
  | case3 rest => cases h
  | case4 rest => exact readBraces?_append_of_none h hmore.of_cons_brace
  | case5 text hstar hplus hquestion hbrace =>
      cases text with
      | nil => obtain rfl | ⟨more, rfl | rfl⟩ := hmore.closes.eq_or <;> rfl
      | cons c text =>
          rw [List.cons_append, quantifierAt?]
          all_goals simp_all

/-- **A quantifier** is read the same before a text that stays apart, and so is its absence. -/
theorem readSuffix_append {size : ℕ} {part r : Regex} {text rest : List Char}
    (h : readSuffix size part text = .ok (r, rest)) (size' : ℕ) (hmore : Apart rest more) :
    readSuffix size' part (text ++ more) = .ok (r, rest ++ more) := by
  rw [readSuffix_eq_ok_iff] at h ⊢
  rcases h with ⟨hnone, rfl, rfl⟩ | ⟨q, text', hsome, hq, hquantify⟩
  · exact Or.inl ⟨quantifierAt?_append_of_none hnone hmore, rfl, rfl⟩
  · obtain ⟨greedy, rfl, rfl, hlazy⟩ := quantify_eq_iff.1 hquantify
    refine Or.inr ⟨q, _, quantifierAt?_append_of_some hsome more, hq, quantify_eq_iff.2 ?_⟩
    exact ⟨greedy, rfl, List.append_assoc _ _ _, fun hgreedy => hmore.head?_ne (hlazy hgreedy)⟩

/-! ### Groups -/

/-- **The opening of a group** is read the same before a text that stays apart. -/
theorem readOpening_append {size number : ℕ} {opening : Opening} {text rest : List Char}
    (h : readOpening size number text = .ok (opening, rest)) (size' : ℕ)
    (hmore : Apart rest more) :
    readOpening size' number (text ++ more) = .ok (opening, rest ++ more) := by
  obtain ⟨rfl, hcapture⟩ := readOpening_eq_ok_iff.1 h
  exact readOpening_eq_ok_iff.2 ⟨List.append_assoc _ _ _, fun n hn =>
    ⟨(hcapture n hn).1, hmore.head?_ne (hcapture n hn).2⟩⟩

/-! ### Steps -/

namespace Reading

/-- **A step** is made the same before a text that stays apart. -/
theorem Step.append {size : ℕ} {r s : Reading} (h : Step size r s) (size' : ℕ)
    (hmore : Apart s.rest more) : Step size' (r.append more) (s.append more) := by
  cases h with
  | part hc hatom hpart =>
      exact Step.part hc (readAtom_append hatom size' more) (readSuffix_append hpart size' hmore)
  | bar outer level groups rest => exact Step.bar outer level groups (rest ++ more)
  | enter hopening => exact Step.enter (readOpening_append hopening size' hmore)
  | leave hpart => exact Step.leave (readSuffix_append hpart size' hmore)

/-- **What is reached** is reached the same before a text that stays apart. -/
theorem Reaches.append {size : ℕ} {r s : Reading} (h : Reaches size r s) (size' : ℕ)
    (hmore : Apart s.rest more) : Reaches size' (r.append more) (s.append more) := by
  induction h with
  | refl => exact Relation.ReflTransGen.refl
  | tail _ hstep ih =>
      have hstep := step_eq_ok_iff.1 hstep
      exact (ih (hmore.of_suffix hstep.suffix)).tail
        (step_eq_ok_iff.2 (hstep.append size' hmore))

end Reading

end RegexWords
