import RegexWords.Proofs.Reading.Pieces

/-!
# Where a Reading Fails

A reading that fails comes to a reading that can make no step: the text ends inside a group, or
what is next is no part, no bar, no opening and no closing of a group. There are six ways to fail,
and in each of them the fault tells what is next. Of the faults that the readers of small pieces
know, two are found in one way only: a parenthesis is unexpected where no group is open, and the
end of the text where one is.

A reading that stops at a closing parenthesis has read what comes before it to its end, so that
text is a pattern of its own.

## Main definitions

* `Reading.Fails`: **the six ways to fail**.
* `Fault.PointsAt`: what a fault says about the text.

## Main results

* `Reading.run_eq_error_iff`: a reading fails exactly if it comes to one that can make no step.
* `Pattern.pointsAt_of_ofText`: **every fault points at its cause**.
-/

namespace RegexWords

/-! ### Faults of the small pieces -/

/-- **What is wrong with bounds**: one is past the cap, or they run backwards within it. -/
theorem Bounds.fault?_eq_some {b : Bounds} {pos : ℕ} {fault : Fault}
    (h : b.fault? pos = some fault) :
    (∃ bound, fault = .boundTooLarge bound pos ∧ maxBound < bound) ∨
      ∃ most, fault = .reversedBounds b.min most ∧ most < b.min ∧ b.min ≤ maxBound := by
  obtain ⟨least, most?⟩ := b
  simp only [fault?] at h
  split at h
  · next hlargest =>
    cases h
    exact Or.inl ⟨_, rfl, hlargest⟩
  · next hlargest =>
    cases most? with
    | none => cases h
    | some most =>
        dsimp only at h
        split at h
        · next horder =>
          cases h
          exact Or.inr ⟨most, rfl, horder, (Nat.max_le.1 (Nat.not_lt.1 hlargest)).1⟩
        · cases h

/-- **A quantifier is at fault** only in braces, for its bounds. -/
theorem exists_braces_of_readSuffix {size : ℕ} {part : Regex} {text rest : List Char}
    {fault : Fault} (h : readSuffix size part text = .error (fault, rest)) :
    ∃ inside q, text = '{' :: inside ∧ readBraces? inside = some (q, rest) ∧
      q.bounds.fault? (size - text.length) = some fault := by
  unfold readSuffix at h
  split at h
  case h_4 inside =>
    split at h
    · cases h
    · next q rest' hbraces =>
      split at h
      · next fault' hfault =>
        cases h
        exact ⟨inside, q, rfl, hbraces, hfault⟩
      · cases h
  all_goals cases h

/-- A member of a class is at fault only at the end of the text. -/
theorem eq_unterminatedClass_of_readClassAtom {start : ℕ} {text rest : List Char} {fault : Fault}
    (h : readClassAtom start text = .error (fault, rest)) :
    fault = .unterminatedClass start ∧ (text = [] ∨ text = ['\\']) := by
  unfold readClassAtom at h
  split at h
  · cases h
    exact ⟨rfl, Or.inl rfl⟩
  · cases h
    exact ⟨rfl, Or.inr rfl⟩
  all_goals cases h

/-- The ways in which an item of a class **fails**: what one call finds wrong, by its kind. -/
inductive ClassItemFails (start : ℕ) (text : List Char) : Fault → List Char → Prop
  /-- There is no member. -/
  | piece {fault : Fault} {rest : List Char} : readClassAtom start text = .error (fault, rest) →
      ClassItemFails start text fault rest
  /-- There is no member after a dash. -/
  | dash {first c : Char} {tail rest : List Char} {fault : Fault} :
      readClassAtom start text = .ok (.single first, '-' :: c :: tail) → c ≠ ']' →
      readClassAtom start (c :: tail) = .error (fault, rest) → ClassItemFails start text fault rest
  /-- Two characters with a dash between them run backwards. -/
  | range {first last c : Char} {tail rest : List Char} :
      readClassAtom start text = .ok (.single first, '-' :: c :: tail) → c ≠ ']' →
      readClassAtom start (c :: tail) = .ok (.single last, rest) → last < first →
      ClassItemFails start text (.reversedRange first last) rest

/-- **The ways in which an item of a class fails.** -/
theorem readClassItem_eq_error_iff {start : ℕ} {text rest : List Char} {fault : Fault} :
    readClassItem start text = .error (fault, rest) ↔ ClassItemFails start text fault rest := by
  constructor
  · intro h
    unfold readClassItem at h
    split at h
    · next hatom =>
      cases h
      exact .piece hatom
    · next hfirst =>
      split at h
      · cases h
      · next hc =>
        split at h
        · next hlast =>
          cases h
          exact .dash hfirst hc hlast
        · next hlast =>
          split at h
          · next horder =>
            cases h
            exact .range hfirst hc hlast horder
          · cases h
        · cases h
    · cases h
  · rintro (hatom | ⟨hfirst, hc, hlast⟩ | ⟨hfirst, hc, hlast, horder⟩)
    · simp only [readClassItem, hatom]
    · simp only [readClassItem, hfirst, hlast, if_neg hc]
    · simp only [readClassItem, hfirst, hlast, if_neg hc, if_pos horder]

/-- The **faults of a class** that begins at `start`. -/
inductive ClassFault (start : ℕ) : Fault → Prop
  /-- The text ends in it. -/
  | unterminated : ClassFault start (.unterminatedClass start)
  /-- One of its ranges runs backwards. -/
  | reversed {first last : Char} : last < first → ClassFault start (.reversedRange first last)

/-- An item of a class is at fault as a class is. -/
theorem ClassItemFails.classFault {start : ℕ} {text rest : List Char} {fault : Fault}
    (h : ClassItemFails start text fault rest) : ClassFault start fault := by
  cases h with
  | piece hatom =>
      rw [(eq_unterminatedClass_of_readClassAtom hatom).1]
      exact .unterminated
  | dash hfirst hc hlast =>
      rw [(eq_unterminatedClass_of_readClassAtom hlast).1]
      exact .unterminated
  | range hfirst hc hlast horder => exact .reversed horder

/-- The members of a class are at fault as a class is. -/
theorem classFault_of_readClassMembers {start : ℕ} {text rest : List Char} {fault : Fault}
    (h : readClassMembers start text = .error (fault, rest)) : ClassFault start fault := by
  fun_induction readClassMembers start text with
  | case1 => cases h
  | case2 text hc e hitem =>
      cases h
      exact (readClassItem_eq_error_iff.1 hitem).classFault
  | case3 text hc items rest₁ hitem _ e hlater ih =>
      cases h
      exact ih hlater
  | case4 => cases h

/-- **Classes** have no other faults. -/
theorem classFault_of_readClass {start : ℕ} {text rest : List Char} {fault : Fault}
    (h : readClass start text = .error (fault, rest)) : ClassFault start fault := by
  simp only [readClass] at h
  split at h
  · next hmembers =>
    cases h
    exact classFault_of_readClassMembers hmembers
  · cases h

/-- The **faults of an atom** that begins the rest of a text of `size` characters. -/
inductive AtomFault (size : ℕ) : List Char → Fault → Prop
  /-- It is a class with a fault. -/
  | charClass {text : List Char} {fault : Fault} :
      ClassFault (size - ('[' :: text).length) fault → AtomFault size ('[' :: text) fault
  /-- It is a quantifier and no atom. -/
  | quantifier {c : Char} {text : List Char} : c ∈ ['*', '+', '?'] →
      AtomFault size (c :: text) (.nothingToRepeat (size - (c :: text).length))
  /-- It is a backslash at the end of the text. -/
  | escape : AtomFault size ['\\'] .danglingEscape

/-- **Atoms** have no other faults before the end of the text. -/
theorem atomFault_of_readAtom {size : ℕ} {c : Char} {text rest : List Char} {fault : Fault}
    (h : readAtom size (c :: text) = .error (fault, rest)) : AtomFault size (c :: text) fault := by
  generalize htext : c :: text = text' at h
  unfold readAtom at h
  split at h
  case h_1 => cases htext
  case h_2 inside => exact .charClass (classFault_of_readClass h)
  case h_9 =>
    cases h
    exact .escape
  all_goals cases h
  all_goals exact .quantifier (by simp)

/-- **The opening of a group** has one fault, which a question mark tells. -/
theorem eq_invalidGroup_of_readOpening {size number : ℕ} {text rest : List Char} {fault : Fault}
    (h : readOpening size number text = .error (fault, rest)) :
    fault = .invalidGroup (size - rest.length) ∧
      ((∃ c, text = '?' :: c :: rest) ∨ text = ['?'] ∧ rest = []) := by
  unfold readOpening at h
  split at h
  case h_6 c rest _ _ _ _ _ =>
    cases h
    exact ⟨rfl, Or.inl ⟨c, rfl⟩⟩
  case h_7 =>
    cases h
    exact ⟨rfl, Or.inr ⟨rfl, rfl⟩⟩
  all_goals cases h

/-! ### The ways to fail -/

namespace Reading

/-- The ways in which a reading **fails** where it stands. -/
inductive Fails (size : ℕ) : Reading → Fault → Prop
  /-- The text ends inside a group. -/
  | unfinished {outer : List (Opening × Level)} {level : Level} {groups : ℕ} : outer ≠ [] →
      Fails size ⟨outer, level, groups, []⟩ (.unexpectedEnd ')' size)
  /-- A parenthesis closes no group. -/
  | unopened (level : Level) (groups : ℕ) (rest : List Char) :
      Fails size ⟨[], level, groups, ')' :: rest⟩
        (.unexpectedChar ')' (size - (')' :: rest).length))
  /-- A group opens as no group does. -/
  | opening {outer : List (Opening × Level)} {level : Level} {groups : ℕ}
      {text rest : List Char} {fault : Fault} :
      readOpening size (groups + 1) text = .error (fault, rest) →
      Fails size ⟨outer, level, groups, '(' :: text⟩ fault
  /-- A part is no atom. -/
  | atom {outer : List (Opening × Level)} {level : Level} {groups : ℕ} {c : Char}
      {text rest : List Char} {fault : Fault} : c ∉ [')', '|', '('] →
      readAtom size (c :: text) = .error (fault, rest) →
      Fails size ⟨outer, level, groups, c :: text⟩ fault
  /-- The quantifier of a part is at fault. -/
  | part {outer : List (Opening × Level)} {level : Level} {groups : ℕ} {c : Char}
      {text text' rest : List Char} {atom : Regex} {fault : Fault} : c ∉ [')', '|', '('] →
      readAtom size (c :: text) = .ok (atom, text') →
      readSuffix size atom text' = .error (fault, rest) →
      Fails size ⟨outer, level, groups, c :: text⟩ fault
  /-- The quantifier of a group is at fault. -/
  | group {outer : List (Opening × Level)} {opening : Opening} {around level : Level}
      {groups : ℕ} {text rest : List Char} {fault : Fault} :
      readSuffix size (opening.close level.body) text = .error (fault, rest) →
      Fails size ⟨(opening, around) :: outer, level, groups, ')' :: text⟩ fault

variable {size : ℕ} {r : Reading}

/-- What an absorbed piece failed with. -/
theorem absorb_eq_error {α : Type} {groups : ℕ} {piece : Lexed α}
    {next : α → List Char → Reading} {failure : Failure}
    (h : absorb groups piece next = .error failure) :
    ∃ rest, piece = .error (failure.fault, rest) := by
  unfold absorb at h
  split at h
  · next fault rest =>
    cases h
    exact ⟨rest, rfl⟩
  · cases h

/-- A reading that makes no step although there is text fails. -/
theorem fails_of_step (hrest : r.rest ≠ []) {failure : Failure}
    (h : r.step size = .error failure) : Fails size r failure.fault := by
  obtain ⟨outer, level, groups, text⟩ := r
  unfold step at h
  split at h
  · next text htext =>
    obtain rfl : _ = ')' :: text := htext
    split at h
    · next houter =>
      obtain rfl : outer = [] := houter
      cases h
      exact Fails.unopened level groups text
    · next opening around outer houter =>
      obtain rfl : _ = (opening, around) :: outer := houter
      obtain ⟨rest, hpart⟩ := absorb_eq_error h
      exact Fails.group hpart
  · cases h
  · next text htext =>
    obtain rfl : _ = '(' :: text := htext
    obtain ⟨rest, hopening⟩ := absorb_eq_error h
    exact Fails.opening hopening
  · next hclose hbar hopen =>
    cases text with
    | nil => exact absurd rfl hrest
    | cons c text =>
        have hc : c ∉ [')', '|', '('] := by
          simp only [List.mem_cons, List.not_mem_nil, or_false, not_or]
          exact ⟨fun hc => hclose text (by rw [hc]), fun hc => hbar text (by rw [hc]),
            fun hc => hopen text (by rw [hc])⟩
        split at h
        · next fault rest hatom =>
          cases h
          exact Fails.atom hc hatom
        · next atom text' hatom =>
          obtain ⟨rest, hpart⟩ := absorb_eq_error h
          exact Fails.part hc hatom hpart

/-- A reading that makes no step comes to what the step says. -/
theorem run_eq_of_step_eq_error (hrest : r.rest ≠ []) {e : Failure}
    (h : r.step size = .error e) : run size r = (.error e.fault, e.groups, e.rest) := by
  rw [run, if_neg hrest]
  split
  · next e' he =>
    rw [h] at he
    cases he
    rfl
  · next s hs => rw [h] at hs; cases hs

/-- A reading that makes no step fails as the step does. -/
theorem run_of_step_eq_error (hrest : r.rest ≠ []) {e : Failure}
    (h : r.step size = .error e) : (run size r).1 = .error e.fault :=
  congrArg Prod.fst (run_eq_of_step_eq_error hrest h)

/-- The step past a part, whether it comes to anything or not. -/
theorem step_eq_of_atom {outer : List (Opening × Level)} {level : Level} {groups : ℕ} {c : Char}
    {text : List Char} (hc : c ∉ [')', '|', '(']) :
    step size ⟨outer, level, groups, c :: text⟩ =
      match readAtom size (c :: text) with
      | .error (fault, rest) => .error ⟨fault, groups, rest⟩
      | .ok (atom, rest) => absorb groups (readSuffix size atom rest) fun part rest =>
          ⟨outer, level.push part, groups, rest⟩ := by
  simp only [List.mem_cons, List.not_mem_nil, or_false, not_or] at hc
  rw [step]
  split
  · next heq => exact absurd (List.cons.inj heq).1 hc.1
  · next heq => exact absurd (List.cons.inj heq).1 hc.2.1
  · next heq => exact absurd (List.cons.inj heq).1 hc.2.2
  · rfl

/-- A reading that fails comes to its fault. -/
theorem Fails.run_eq {fault : Fault} (h : Fails size r fault) :
    (run size r).1 = .error fault := by
  cases h with
  | @unfinished outer level groups houter =>
      obtain ⟨⟨opening, around⟩, outer, rfl⟩ := List.exists_cons_of_ne_nil houter
      rw [run]
      rfl
  | unopened level groups rest =>
      refine run_of_step_eq_error (e := ⟨_, groups, ')' :: rest⟩) (List.cons_ne_nil _ _) ?_
      simp only [step]
  | @opening outer level groups text rest fault hopening =>
      refine run_of_step_eq_error (e := ⟨fault, groups, rest⟩) (List.cons_ne_nil _ _) ?_
      simp only [step, hopening, absorb]
  | @atom outer level groups c text rest fault hc hatom =>
      refine run_of_step_eq_error (e := ⟨fault, groups, rest⟩) (List.cons_ne_nil _ _) ?_
      rw [step_eq_of_atom hc, hatom]
  | @part outer level groups c text text' rest atom fault hc hatom hpart =>
      refine run_of_step_eq_error (e := ⟨fault, groups, rest⟩) (List.cons_ne_nil _ _) ?_
      rw [step_eq_of_atom hc, hatom]
      simp only [hpart, absorb]
  | @group outer opening around level groups text rest fault hpart =>
      refine run_of_step_eq_error (e := ⟨fault, groups, rest⟩) (List.cons_ne_nil _ _) ?_
      simp only [step, hpart, absorb]

/-- **A reading fails exactly if it comes to one that can make no step.** -/
theorem run_eq_error_iff {fault : Fault} :
    (run size r).1 = .error fault ↔ ∃ s, Reaches size r s ∧ Fails size s fault := by
  constructor
  · intro h
    induction r using run.induct size with
    | case1 r hrest houter =>
        rw [run, if_pos hrest, houter] at h
        cases h
    | case2 r hrest opening outer houter =>
        rw [run, if_pos hrest, houter] at h
        cases h
        obtain ⟨outer', level, groups, rest⟩ := r
        obtain rfl : rest = [] := hrest
        obtain rfl : outer' = opening :: outer := houter
        exact ⟨_, Relation.ReflTransGen.refl, Fails.unfinished (List.cons_ne_nil _ _)⟩
    | case3 r hrest failure hstep =>
        rw [run_of_step_eq_error hrest hstep] at h
        cases h
        exact ⟨r, Relation.ReflTransGen.refl, fails_of_step hrest hstep⟩
    | case4 r hrest next hstep hlt ih =>
        rw [run_of_step hstep] at h
        obtain ⟨s, hreach, hfails⟩ := ih h
        exact ⟨s, hreach.head hstep, hfails⟩
  · rintro ⟨s, hreach, hfails⟩
    rw [hreach.run_eq, hfails.run_eq]

end Reading

/-! ### Causes -/

/-- What a fault **says about the text** that it is found in. -/
def Fault.PointsAt (text : List Char) : Fault → Prop
  | unexpectedChar c pos => c = ')' ∧ text[pos]? = some ')' ∧
      ∃ p, (Reader.ofBody (text.take pos)).next.1 = .ok p
  | unexpectedEnd expected pos => expected = ')' ∧ pos = text.length
  | nothingToRepeat pos => ∃ c ∈ ['*', '+', '?'], text[pos]? = some c
  | danglingEscape => text.getLast? = some '\\'
  | invalidGroup pos => ∃ i, ['(', '?'] <+: text.drop i ∧ pos = min (i + 3) text.length
  | unterminatedClass pos => text[pos]? = some '['
  | reversedRange first last => last < first
  | reversedBounds least most => most < least ∧ least ≤ maxBound
  | boundTooLarge bound pos => text[pos]? = some '{' ∧ maxBound < bound

/-- The position of what is left of a text is that of its first character. -/
theorem getElem?_of_suffix {text rest : List Char} (h : rest <:+ text) :
    text[text.length - rest.length]? = rest.head? := by
  rw [← List.head?_drop, ← List.suffix_iff_eq_drop.1 h]

/-- A fault of bounds points at their brace. -/
theorem pointsAt_of_readSuffix {part : Regex} {text text' rest : List Char} {fault : Fault}
    (h : readSuffix text.length part text' = .error (fault, rest)) (htext : text' <:+ text) :
    fault.PointsAt text := by
  obtain ⟨inside, q, rfl, -, hfault⟩ := exists_braces_of_readSuffix h
  rcases Bounds.fault?_eq_some hfault with ⟨bound, rfl, hbound⟩ | ⟨most, rfl, horder, hleast⟩
  · exact ⟨getElem?_of_suffix htext, hbound⟩
  · exact ⟨horder, hleast⟩

/-- A fault of an atom points at the atom. -/
theorem AtomFault.pointsAt {text text' : List Char} {fault : Fault}
    (h : AtomFault text.length text' fault) (htext : text' <:+ text) : fault.PointsAt text := by
  cases h with
  | charClass hclass =>
      cases hclass with
      | unterminated => exact getElem?_of_suffix htext
      | reversed horder => exact horder
  | @quantifier c rest hc => exact ⟨c, hc, getElem?_of_suffix htext⟩
  | escape =>
      obtain ⟨before, rfl⟩ := htext
      exact List.getLast?_concat

/-- A group that opens as no group does is pointed at behind its question mark. -/
theorem pointsAt_of_readOpening {number : ℕ} {text text' rest : List Char} {fault : Fault}
    (h : readOpening text.length number text' = .error (fault, rest))
    (htext : '(' :: text' <:+ text) : fault.PointsAt text := by
  obtain ⟨rfl, htext'⟩ := eq_invalidGroup_of_readOpening h
  obtain ⟨before, rfl⟩ := htext
  refine ⟨before.length, ?_, ?_⟩
  · rw [List.drop_left]
    rcases htext' with ⟨c, rfl⟩ | ⟨rfl, -⟩
    · exact ⟨c :: rest, rfl⟩
    · exact List.prefix_rfl
  · rcases htext' with ⟨c, rfl⟩ | ⟨rfl, rfl⟩
    · simp only [List.length_append, List.length_cons]
      omega
    · simp only [List.length_append, List.length_cons, List.length_nil]
      omega

namespace Reading

/-- **A failing reading points at the cause**, in the text from whose beginning it was reached. -/
theorem Fails.pointsAt {text : List Char} {r : Reading} {fault : Fault}
    (h : Fails text.length r fault)
    (hreach : Reaches text.length { groups := 0, rest := text } r) : fault.PointsAt text := by
  have htext : r.rest <:+ text := hreach.suffix
  cases h with
  | unfinished houter => exact ⟨rfl, rfl⟩
  | unopened level groups rest =>
      refine ⟨rfl, getElem?_of_suffix htext, ⟨level.body, groups⟩, ?_⟩
      -- without the parenthesis and what follows, the same reading is complete
      obtain ⟨before, rfl⟩ := htext
      have hbefore : Reaches before.length { groups := 0, rest := before }
          ⟨[], level, groups, []⟩ := Reaches.of_append hreach before.length
      rw [List.length_append, Nat.add_sub_cancel, List.take_left]
      simp only [Reader.ofBody, Reader.next, hbefore.run_eq, run_end]
  | opening hopening => exact pointsAt_of_readOpening hopening htext
  | atom hc hatom => exact (atomFault_of_readAtom hatom).pointsAt htext
  | part hc hatom hpart =>
      obtain ⟨piece, hpiece, -⟩ := exists_piece_of_readAtom hatom
      exact pointsAt_of_readSuffix hpart (List.IsSuffix.trans ⟨piece, hpiece.symm⟩ htext)
  | group hpart => exact pointsAt_of_readSuffix hpart ((List.suffix_cons _ _).trans htext)

end Reading

/-- **Every fault points at its cause.** If a text is no pattern, the fault says something true
about its body: what stands at the position that it gives, or what the bounds and the ranges in it
are. A parenthesis that closes nothing comes after a text that is a pattern. -/
theorem Pattern.pointsAt_of_ofText {text : String} {fault : Fault}
    (h : ofText text = .error fault) : fault.PointsAt (stripSlashes text.toList) := by
  obtain ⟨r, hreach, hfails⟩ := Reading.run_eq_error_iff.1 h
  exact hfails.pointsAt hreach

/-- A parenthesis too many between slashes, after a group with bounds and before a brace that is
never closed: the fault points at it, and what stands before it is a pattern. -/
theorem Pattern.pointsAt_of_ofText_unopened :
    ofText "/(a|b)\x7b2,\x7d?)c\x7b9/" = .error (.unexpectedChar ')' 10) ∧
      (Fault.unexpectedChar ')' 10).PointsAt "(a|b)\x7b2,\x7d?)c\x7b9".toList := by
  have h : ofText "/(a|b)\x7b2,\x7d?)c\x7b9/" = .error (.unexpectedChar ')' 10) := by cbv
  have hbody : stripSlashes "/(a|b)\x7b2,\x7d?)c\x7b9/".toList =
      "(a|b)\x7b2,\x7d?)c\x7b9".toList := by cbv
  exact ⟨h, hbody ▸ pointsAt_of_ofText h⟩

end RegexWords
