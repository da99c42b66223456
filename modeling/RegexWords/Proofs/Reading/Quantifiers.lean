import RegexWords.Proofs.Reading.Failure

/-!
# A Brace after a Part

A brace after a part may begin a quantifier or stand for itself. It begins a quantifier exactly if
one of the three forms follows, and then the bounds decide: past the cap they are too large, and
only within it they may run backwards. Numerals may be of any length; a numeral past all bounds is
still a numeral, and too large. If none of the forms follows, the part is read without a quantifier
and the brace is still to be read. It cannot be taken for a quantifier again, because the next part
is the brace itself.

## Main definitions

* `Reading.ReadsPart`: the readings that read a part next, with what follows it.
* `Bounds.top`: the upper one of the numbers in braces.

## Main results

* `Reading.ReadsPart.step_eq`: the step past a part, whatever it comes to.
* `Reading.ReadsPart.step_of_brace`: **what comes of a brace after a part**.
-/

namespace RegexWords

/-! ### Bounds -/

/-- The **upper** one of the numbers in braces; a number alone is both. -/
def Bounds.top (b : Bounds) : ℕ :=
  b.max.getD b.min

/-- The numbers in braces are the bounds of their quantifier. -/
theorem Braces.bounds_eq {contents : List Char} {n m : ℕ} {q : Quantifier}
    (h : Braces contents n m q) : q.bounds.min = n ∧ q.bounds.top = m := by
  cases h with
  | exactly => exact ⟨rfl, rfl⟩
  | atLeast => exact ⟨rfl, rfl⟩
  | between => exact ⟨rfl, rfl⟩

/-- **What is wrong with bounds**, in the order in which it is looked for. -/
theorem Bounds.fault?_eq (b : Bounds) (pos : ℕ) :
    b.fault? pos =
      if 1000 < Nat.max b.min b.top then some (.boundTooLarge (Nat.max b.min b.top) pos)
      else if b.top < b.min then some (.reversedBounds b.min b.top)
      else none := by
  obtain ⟨least, most?⟩ := b
  cases most? with
  | none =>
      -- a number alone does not run backwards
      simp only [fault?, top, Option.getD_none, Nat.lt_irrefl, if_false]
      rfl
  | some most => rfl

/-- **A quantifier takes a question mark** if one follows, and is lazy then. -/
theorem quantify_eq (part : Regex) (q : Quantifier) (text : List Char) :
    quantify part q text =
      if text.head? = some '?' then (.repeated part q false, text.tail)
      else (.repeated part q true, text) := by
  split
  · next hhead =>
    obtain ⟨rest, rfl⟩ := List.head?_eq_some_iff.1 hhead
    rfl
  · next hhead => exact quantify_eq_iff.2 ⟨true, rfl, rfl, fun _ => hhead⟩

namespace Reading

/-! ### Parts -/

/-- The readings that **read a part** next. After the part comes the text in which a quantifier is
looked for, and then the part is put on a level inside the groups that are open there. -/
inductive ReadsPart (size : ℕ) :
    Reading → List (Opening × Level) → Level → Regex → List Char → Prop
  /-- A part that is no group. -/
  | atom {outer : List (Opening × Level)} {level : Level} {groups : ℕ} {c : Char}
      {text text' : List Char} {atom : Regex} : c ∉ [')', '|', '('] →
      readAtom size (c :: text) = .ok (atom, text') →
      ReadsPart size ⟨outer, level, groups, c :: text⟩ outer level atom text'
  /-- A group that closes. -/
  | group (opening : Opening) (around : Level) (outer : List (Opening × Level)) (level : Level)
      (groups : ℕ) (text : List Char) :
      ReadsPart size ⟨(opening, around) :: outer, level, groups, ')' :: text⟩ outer around
        (opening.close level.body) text

variable {size : ℕ} {r : Reading} {outer : List (Opening × Level)} {level : Level} {part : Regex}
  {text : List Char}

/-- **The step past a part**, whatever its quantifier comes to. -/
theorem ReadsPart.step_eq (h : ReadsPart size r outer level part text) :
    r.step size = absorb r.groups (readSuffix size part text) fun part rest =>
      ⟨outer, level.push part, r.groups, rest⟩ := by
  cases h with
  | atom hc hatom => rw [step_eq_of_atom hc, hatom]
  | group opening around outer level groups text => simp only [step]

/-- A brace is a part of its own, and stands for itself. -/
theorem readsPart_brace (size : ℕ) (outer : List (Opening × Level)) (level : Level) (groups : ℕ)
    (inside : List Char) :
    ReadsPart size ⟨outer, level, groups, '{' :: inside⟩ outer level (.literal '{') inside :=
  .atom (by decide) rfl

/-! ### Braces -/

/-- **What comes of a brace after a part**, wherever the part stands. If one of the three forms
follows, with the numbers `n` and `m`, then the larger of them is past the cap, or else they run
backwards, or else the part is repeated, and lazily so if a question mark follows. If none follows,
the part is read alone, nothing is counted, and the brace is read next as a character. -/
theorem ReadsPart.step_of_brace {before inside : List Char}
    (h : ReadsPart (before ++ '{' :: inside).length r outer level part ('{' :: inside)) :
    (∀ contents n m q rest, Braces contents n m q → inside = contents ++ '}' :: rest →
      r.step (before ++ '{' :: inside).length =
        if 1000 < max n m then .error ⟨.boundTooLarge (max n m) before.length, r.groups, rest⟩
        else if m < n then .error ⟨.reversedBounds n m, r.groups, rest⟩
        else if rest.head? = some '?' then
          .ok ⟨outer, level.push (.repeated part q false), r.groups, rest.tail⟩
        else .ok ⟨outer, level.push (.repeated part q true), r.groups, rest⟩) ∧
    ((∀ contents n m q rest, Braces contents n m q → inside ≠ contents ++ '}' :: rest) →
      r.step (before ++ '{' :: inside).length =
          .ok ⟨outer, level.push part, r.groups, '{' :: inside⟩ ∧
        ReadsPart (before ++ '{' :: inside).length
          ⟨outer, level.push part, r.groups, '{' :: inside⟩ outer (level.push part)
          (.literal '{') inside) := by
  have hpos : (before ++ '{' :: inside).length - ('{' :: inside).length = before.length := by
    rw [List.length_append, Nat.add_sub_cancel]
  have hstep := h.step_eq
  rw [readSuffix_eq_quantifierAt?, hpos] at hstep
  refine ⟨fun contents n m q rest hcontents hinside => ?_, fun hnone => ⟨?_, ?_⟩⟩
  · have hbraces : quantifierAt? ('{' :: inside) = some (q, rest) :=
      readBraces?_eq_some_iff.2 ⟨contents, n, m, hcontents, hinside⟩
    obtain ⟨hleast, hmost⟩ := hcontents.bounds_eq
    have hlarger : Nat.max n m = max n m := rfl
    simp only [hbraces, Bounds.fault?_eq, quantify_eq, hleast, hmost, hlarger] at hstep
    rw [hstep]
    split_ifs <;> rfl
  · have hbraces : quantifierAt? ('{' :: inside) = none := by
      refine Option.eq_none_iff_forall_ne_some.2 fun found hfound => ?_
      obtain ⟨contents, n, m, hcontents, hinside⟩ := readBraces?_eq_some_iff.1 hfound
      exact hnone contents n m found.1 found.2 hcontents hinside
    simp only [hbraces] at hstep
    exact hstep
  · exact readsPart_brace _ outer _ r.groups inside

/-- After `(a)`: a numeral past all bounds is too large, and what comes after the braces is not
looked at; the numbers `2` and `13` repeat the group, here lazily; and braces that do not close
leave the group alone. -/
theorem step_of_brace_after_group :
    (⟨[(.capture 1, {})], ⟨none, [.literal 'a']⟩, 1,
          ")\x7b0018446744073709551616,7\x7d?".toList⟩ : Reading).step 30 =
        .error ⟨.boundTooLarge 18446744073709551615 3, 1, ['?']⟩ ∧
      (⟨[(.capture 1, {})], ⟨none, [.literal 'a']⟩, 1, ")\x7b2,13\x7d?x".toList⟩ : Reading).step 11 =
        .ok ⟨[], ⟨none, [.repeated (.capturing 1 (some (.literal 'a'))) (.between 2 13) false]⟩, 1,
          ['x']⟩ ∧
      (⟨[(.capture 1, {})], ⟨none, [.literal 'a']⟩, 1, ")\x7b2,x".toList⟩ : Reading).step 7 =
        .ok ⟨[], ⟨none, [.capturing 1 (some (.literal 'a'))]⟩, 1, "\x7b2,x".toList⟩ := by
  have hgroup : ∀ inside : List Char,
      ReadsPart ("(a)".toList ++ '{' :: inside).length
        ⟨[(.capture 1, {})], ⟨none, [.literal 'a']⟩, 1, ')' :: '{' :: inside⟩ [] {}
        (.capturing 1 (some (.literal 'a'))) ('{' :: inside) :=
    fun inside => .group (.capture 1) {} [] ⟨none, [.literal 'a']⟩ 1 ('{' :: inside)
  refine ⟨?_, ?_, ?_⟩
  · have hlong : IsNumeral "0018446744073709551616".toList :=
      ⟨by simp, List.all_eq_true.1 (by cbv)⟩
    have hlarge : max (numeralValue "0018446744073709551616".toList) (numeralValue ['7']) =
        18446744073709551615 := by cbv
    have htext : ")\x7b0018446744073709551616,7\x7d?".toList =
        ')' :: '{' :: (("0018446744073709551616".toList ++ ',' :: ['7']) ++ '}' :: ['?']) := by
      simp
    have hstep := (ReadsPart.step_of_brace (hgroup _)).1
      ("0018446744073709551616".toList ++ ',' :: ['7']) _ _ _ ['?']
      (.between hlong ⟨by simp, by simp⟩) rfl
    rw [hlarge] at hstep
    rw [htext]
    exact hstep.trans (if_pos (by decide))
  · have hleast : numeralValue ['2'] = 2 := by cbv
    have hmost : numeralValue ['1', '3'] = 13 := by cbv
    have hbraces : Braces (['2'] ++ ',' :: ['1', '3']) 2 13 (.between 2 13) := by
      have hone : IsNumeral ['2'] := ⟨by simp, by simp⟩
      have htwo : IsNumeral ['1', '3'] := ⟨by simp, by simp⟩
      have h := Braces.between hone htwo
      rwa [hleast, hmost] at h
    exact (ReadsPart.step_of_brace (hgroup _)).1 _ 2 13 _ ['?', 'x'] hbraces rfl
  · refine ((ReadsPart.step_of_brace (hgroup "2,x".toList)).2
      fun contents n m q rest hcontents hinside => ?_).1
    have hclosed : '}' ∈ "2,x".toList := hinside ▸ by simp
    exact absurd hclosed (by decide)

end Reading

end RegexWords
