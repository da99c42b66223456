import RegexWords.Proofs.Reading.Failure

/-!
# Readers Make Progress

A reader may be used again after it has answered. It goes on where it stopped, with no group open,
whatever it was inside of when it stopped. This module says what becomes of it in the long run. An
answer either moves the reader on in its text or leaves it **settled**: then it stands where it is
for good, and all further answers are the same. It is settled at the end of the text, and in front
of a parenthesis that closes nothing or of a quantifier that has nothing to repeat, since these are
found again in the same place. So a reader has settled after as many answers as its text has
characters.

Within one answer the stack decides what a part is, and a step may leave braces unread that it had
looked into. Nevertheless every step takes a character, so every part takes one.

## Main definitions

* `Fault.IsStuck`: the faults that are found again and again.
* `Reading.Ends`: **the three ways a reading ends**, with all that it leaves.
* `Reader.after`: the reader after several answers.
* `Reader.MakesProgress`: what becomes of a reader.

## Main results

* `Reading.Fails.exists_step_eq`: what is left of the text where a reading fails.
* `Reading.ends_run`: a reading ends in one of the three ways.
* `Reader.settled_or_length_lt`: an answer settles a reader or moves it on.
* `Reader.makesProgress_ofText`: **readers make progress**.
-/

namespace RegexWords

/-! ### What is left of the text -/

namespace Fault

/-- The faults that leave a reader **stuck**: it is still in front of what is wrong. -/
def IsStuck : Fault → Prop
  | unexpectedChar _ _ => True
  | nothingToRepeat _ => True
  | _ => False

/-- A fault **leaves** the end of a text. This is the whole text if the fault leaves the reader
stuck, and less if it does not. -/
structure Leaves (fault : Fault) (text rest : List Char) : Prop where
  suffix : rest <:+ text
  eq_of_isStuck : fault.IsStuck → rest = text
  length_lt : ¬ fault.IsStuck → rest.length < text.length

/-- A fault that does not leave the reader stuck leaves less than there was. -/
theorem Leaves.of_suffix {fault : Fault} {c : Char} {text rest : List Char}
    (h : rest <:+ text) (hfault : ¬ fault.IsStuck) : fault.Leaves (c :: text) rest where
  suffix := h.trans (List.suffix_cons c text)
  eq_of_isStuck hstuck := absurd hstuck hfault
  length_lt _ := Nat.lt_succ_of_le h.length_le

end Fault

/-- A member of a class that is not there leaves nothing. -/
theorem eq_nil_of_readClassAtom {start : ℕ} {text rest : List Char} {fault : Fault}
    (h : readClassAtom start text = .error (fault, rest)) : rest = [] := by
  unfold readClassAtom at h
  split at h <;> cases h <;> rfl

/-- What is left after a member of a class is the end of the text. -/
theorem suffix_of_readClassAtom {start : ℕ} {text rest : List Char} {m : ClassMember}
    (h : readClassAtom start text = .ok (m, rest)) : rest <:+ text := by
  obtain ⟨piece, rfl, -⟩ := exists_piece_of_readClassAtom h
  exact List.suffix_append piece rest

/-- An item of a class that fails leaves the end of the text. -/
theorem ClassItemFails.suffix {start : ℕ} {text rest : List Char} {fault : Fault}
    (h : ClassItemFails start text fault rest) : rest <:+ text := by
  cases h with
  | piece hatom =>
      rw [eq_nil_of_readClassAtom hatom]
      exact List.nil_suffix
  | dash hfirst hdash hlast =>
      rw [eq_nil_of_readClassAtom hlast]
      exact List.nil_suffix
  | @range first last c tail rest hfirst hdash hlast horder =>
      have htail : c :: tail <:+ text :=
        (List.suffix_cons '-' (c :: tail)).trans (suffix_of_readClassAtom hfirst)
      exact (suffix_of_readClassAtom hlast).trans htail

/-- The members of a class that fail leave the end of the text. -/
theorem suffix_of_readClassMembers {start : ℕ} {text rest : List Char} {fault : Fault}
    (h : readClassMembers start text = .error (fault, rest)) : rest <:+ text := by
  fun_induction readClassMembers start text with
  | case1 => cases h
  | case2 text hc e hitem =>
      cases h
      exact (readClassItem_eq_error_iff.1 hitem).suffix
  | case3 text hc items rest₁ hitem _ e hlater ih =>
      cases h
      obtain ⟨piece, rfl, -⟩ := (readClassItem_eq_ok_iff.1 hitem).exists_piece
      exact (ih hlater).trans (List.suffix_append piece rest₁)
  | case4 => cases h

/-- A class that fails leaves the end of the text. -/
theorem suffix_of_readClass {start : ℕ} {text rest : List Char} {fault : Fault}
    (h : readClass start text = .error (fault, rest)) : rest <:+ text := by
  obtain ⟨head, inside, leading, negated, rfl, hclass⟩ := exists_piece_of_classHead text
  rw [hclass start inside fun _ _ => id] at h
  cases hmembers : readClassMembers start inside with
  | ok found => rw [hmembers] at h; cases h
  | error e =>
      rw [hmembers] at h
      cases h
      exact (suffix_of_readClassMembers hmembers).trans (List.suffix_append head inside)

/-- **An atom that fails** leaves the whole text if it is a quantifier, and less if it is not. -/
theorem leaves_of_readAtom {size : ℕ} {c : Char} {text rest : List Char} {fault : Fault}
    (h : readAtom size (c :: text) = .error (fault, rest)) : fault.Leaves (c :: text) rest := by
  cases atomFault_of_readAtom h with
  | charClass hclass =>
      refine .of_suffix (suffix_of_readClass h) ?_
      cases hclass <;> exact id
  | quantifier hc =>
      simp only [List.mem_cons, List.not_mem_nil, or_false] at hc
      rcases hc with rfl | rfl | rfl <;> cases h <;>
        exact ⟨List.suffix_rfl, fun _ => rfl, fun hfault => absurd trivial hfault⟩
  | escape =>
      cases h
      exact .of_suffix List.suffix_rfl id

/-- A quantifier at fault does not leave the reader stuck. -/
theorem not_isStuck_of_readSuffix {size : ℕ} {part : Regex} {text rest : List Char}
    {fault : Fault} (h : readSuffix size part text = .error (fault, rest)) : ¬ fault.IsStuck := by
  obtain ⟨inside, q, -, -, hfault⟩ := exists_braces_of_readSuffix h
  rcases Bounds.fault?_eq_some hfault with ⟨bound, rfl, -⟩ | ⟨most, rfl, -⟩
  · exact id
  · exact id

/-- **A quantifier at fault** leaves what comes after its braces, whatever part comes before. -/
theorem leaves_of_readSuffix {size : ℕ} {part : Regex} {text text' rest : List Char}
    {fault : Fault} (h : readSuffix size part text' = .error (fault, rest)) (htext : text' <:+ text)
    (c : Char) : fault.Leaves (c :: text) rest := by
  obtain ⟨inside, q, rfl, hbraces, -⟩ := exists_braces_of_readSuffix h
  obtain ⟨contents, -, -, -, rfl⟩ := readBraces?_eq_some_iff.1 hbraces
  have hrest : rest <:+ '{' :: (contents ++ '}' :: rest) := ⟨'{' :: (contents ++ ['}']), by simp⟩
  exact .of_suffix (hrest.trans htext) (not_isStuck_of_readSuffix h)

/-- **A group that opens as no group does** leaves what comes after its question mark. -/
theorem leaves_of_readOpening {size number : ℕ} {text rest : List Char} {fault : Fault}
    (h : readOpening size number text = .error (fault, rest)) (c : Char) :
    fault.Leaves (c :: text) rest := by
  obtain ⟨rfl, ⟨d, rfl⟩ | ⟨rfl, rfl⟩⟩ := eq_invalidGroup_of_readOpening h
  · exact .of_suffix ⟨['?', d], rfl⟩ id
  · exact .of_suffix List.nil_suffix id

/-- What is left after an atom is the end of what comes after its first character. -/
theorem suffix_of_readAtom {size : ℕ} {c : Char} {text rest : List Char} {atom : Regex}
    (h : readAtom size (c :: text) = .ok (atom, rest)) : rest <:+ text := by
  obtain ⟨piece, hpiece, -⟩ := exists_piece_of_readAtom h
  refine (List.suffix_cons_iff.1 ⟨piece, hpiece.symm⟩).resolve_left fun heq => ?_
  exact absurd (length_lt_of_readAtom h) (heq ▸ Nat.lt_irrefl _)

/-! ### Where a reading stops -/

namespace Reading

variable {size : ℕ} {r s : Reading} {fault : Fault}

/-- **A reading that fails before the end of the text** keeps its number of groups, and its fault
leaves the end of the text. -/
theorem Fails.exists_step_eq (h : Fails size r fault) (hrest : r.rest ≠ []) :
    ∃ rest, r.step size = .error ⟨fault, r.groups, rest⟩ ∧ fault.Leaves r.rest rest := by
  cases h with
  | unfinished houter => exact absurd rfl hrest
  | unopened level groups rest =>
      refine ⟨')' :: rest, ?_, List.suffix_rfl, fun _ => rfl, fun hfault => absurd trivial hfault⟩
      simp only [step]
  | @opening outer level groups text rest fault hopening =>
      refine ⟨rest, ?_, leaves_of_readOpening hopening '('⟩
      simp only [step, hopening, absorb]
  | @atom outer level groups c text rest fault hc hatom =>
      refine ⟨rest, ?_, leaves_of_readAtom hatom⟩
      rw [step_eq_of_atom hc, hatom]
  | @part outer level groups c text text' rest atom fault hc hatom hpart =>
      refine ⟨rest, ?_, leaves_of_readSuffix hpart (suffix_of_readAtom hatom) c⟩
      rw [step_eq_of_atom hc, hatom]
      simp only [hpart, absorb]
  | @group outer opening around level groups text rest fault hpart =>
      refine ⟨rest, ?_, leaves_of_readSuffix hpart List.suffix_rfl ')'⟩
      simp only [step, hpart, absorb]

/-- **A fault that leaves a reading stuck** is found again by a reading that begins where it was
found. -/
theorem Fails.run_again (h : Fails size r fault) (hstuck : fault.IsStuck) (groups : ℕ) :
    run size ⟨[], {}, groups, r.rest⟩ = (.error fault, groups, r.rest) := by
  cases h with
  | unfinished houter => exact False.elim hstuck
  | unopened level groups' rest =>
      refine run_eq_of_step_eq_error (e := ⟨_, groups, ')' :: rest⟩) (List.cons_ne_nil _ _) ?_
      simp only [step]
  | opening hopening =>
      obtain ⟨rfl, -⟩ := eq_invalidGroup_of_readOpening hopening
      exact False.elim hstuck
  | @atom outer level groups' c text rest fault hc hatom =>
      refine run_eq_of_step_eq_error (e := ⟨fault, groups, c :: text⟩) (List.cons_ne_nil _ _) ?_
      rw [step_eq_of_atom hc, hatom, (leaves_of_readAtom hatom).eq_of_isStuck hstuck]
  | part hc hatom hpart => exact absurd hstuck (not_isStuck_of_readSuffix hpart)
  | group hpart => exact absurd hstuck (not_isStuck_of_readSuffix hpart)

/-- **The three ways a reading ends**: with its answer, the number of groups and what is left of
the text. -/
inductive Ends (size : ℕ) (r : Reading) : Except Fault Pattern × ℕ × List Char → Prop
  /-- The text ends with no group open. -/
  | complete {level : Level} {groups : ℕ} : Reaches size r ⟨[], level, groups, []⟩ →
      Ends size r (.ok ⟨level.body, groups⟩, groups, [])
  /-- The text ends inside a group. -/
  | unfinished {s : Reading} : Reaches size r s → s.rest = [] → s.outer ≠ [] →
      Ends size r (.error (.unexpectedEnd ')' size), s.groups, [])
  /-- The reading fails before the end of the text. -/
  | failed {s : Reading} {fault : Fault} {rest : List Char} : Reaches size r s →
      Fails size s fault → fault.Leaves s.rest rest → Ends size r (.error fault, s.groups, rest)

/-- A reading ends as any reading does that it makes a step to. -/
theorem Ends.of_step {answer : Except Fault Pattern × ℕ × List Char} (hstep : r.step size = .ok s)
    (h : Ends size s answer) : Ends size r answer := by
  cases h with
  | complete hreach => exact .complete (hreach.head hstep)
  | unfinished hreach hrest houter => exact .unfinished (hreach.head hstep) hrest houter
  | failed hreach hfails hleaves => exact .failed (hreach.head hstep) hfails hleaves

/-- **Every reading ends in one of the three ways.** -/
theorem ends_run (size : ℕ) (r : Reading) : Ends size r (run size r) := by
  induction r using run.induct size with
  | case1 r hrest houter =>
      obtain ⟨outer, level, groups, rest⟩ := r
      obtain rfl : rest = [] := hrest
      obtain rfl : outer = [] := houter
      rw [run_end]
      exact .complete Relation.ReflTransGen.refl
  | case2 r hrest opening outer houter =>
      have hrun : run size r = (.error (.unexpectedEnd ')' size), r.groups, []) := by
        rw [run, if_pos hrest, houter]
      rw [hrun]
      exact .unfinished Relation.ReflTransGen.refl hrest (houter ▸ List.cons_ne_nil _ _)
  | case3 r hrest failure hstep =>
      have hfails := fails_of_step hrest hstep
      obtain ⟨rest, hstep', hleaves⟩ := hfails.exists_step_eq hrest
      rw [hstep] at hstep'
      obtain ⟨fault, groups, rest'⟩ := failure
      cases hstep'
      rw [run_eq_of_step_eq_error hrest hstep]
      exact .failed Relation.ReflTransGen.refl hfails hleaves
  | case4 r hrest next hstep hlt ih =>
      rw [run_of_step hstep]
      exact ih.of_step hstep

/-- **Every step takes a character**, so what is reached by some steps has less text left. -/
theorem Reaches.eq_or_length_lt (h : Reaches size r s) :
    s = r ∨ s.rest.length < r.rest.length := by
  induction h with
  | refl => exact Or.inl rfl
  | tail _ hstep ih =>
      have hlt := length_rest_lt_of_step hstep
      rcases ih with rfl | hlt'
      · exact Or.inr hlt
      · exact Or.inr (hlt.trans hlt')

/-- The number of groups does not go down. -/
theorem Reaches.groups_le (h : Reaches size r s) : r.groups ≤ s.groups := by
  induction h with
  | refl => exact le_rfl
  | tail _ hstep ih =>
      refine ih.trans ?_
      cases step_eq_ok_iff.1 hstep with
      | enter hopening => exact Nat.le_add_right _ _
      | _ => exact le_rfl

/-- **Every part takes a character**: a reading that has one part more on the same level has less
text left. -/
theorem Reaches.length_lt_of_push {part : Regex} (h : Reaches size r s)
    (hlevel : s.level = r.level.push part) : s.rest.length < r.rest.length := by
  refine h.eq_or_length_lt.resolve_left ?_
  rintro rfl
  have hlength := congrArg (fun level => level.parts.length) hlevel
  exact absurd hlength.symm (Nat.succ_ne_self _)

end Reading

/-! ### Readers -/

namespace Reader

variable {text : List Char} {r : Reader} {p : Pattern} {fault : Fault}

/-- The reader after `n` readings. -/
def after (r : Reader) : ℕ → Reader
  | 0 => r
  | n + 1 => r.next.2.after n

/-- The number of characters that a reader has passed. -/
def pos (r : Reader) : ℕ :=
  r.size - r.rest.length

/-- A reader is **settled** if reading again leaves it as it is. -/
def Settled (r : Reader) : Prop :=
  r.next.2 = r

/-- A reading that leaves a reader as it is. -/
theorem Settled.of_next {answer : Except Fault Pattern} (h : r.next = (answer, r)) : r.Settled :=
  congrArg Prod.snd h

/-- A settled reader stays as it is. -/
theorem Settled.after_eq (h : r.Settled) (n : ℕ) : r.after n = r := by
  induction n with
  | zero => rfl
  | succ n ih => rw [after, h, ih]

/-- One more reading is the last of them. -/
theorem after_succ (r : Reader) (n : ℕ) : r.after (n + 1) = (r.after n).next.2 := by
  induction n generalizing r with
  | zero => rfl
  | succ n ih => exact ih r.next.2

/-- Readings after readings. -/
theorem after_add (r : Reader) (m n : ℕ) : r.after (m + n) = (r.after m).after n := by
  induction m generalizing r with
  | zero => rw [Nat.zero_add]; rfl
  | succ m ih => rw [Nat.succ_add, after, after, ih]

/-- The answers of several readings are those of the readers in between. -/
theorem getElem?_nexts (r : Reader) {k n : ℕ} (h : k < n) :
    (r.nexts n)[k]? = some (r.after k).next.1 := by
  induction n generalizing r k with
  | zero => exact absurd h (Nat.not_lt_zero k)
  | succ n ih =>
      cases k with
      | zero => rfl
      | succ k => exact ih r.next.2 (Nat.lt_of_succ_lt_succ h)

/-- What a reading comes to is where its run ends. -/
theorem ends_next (r : Reader) :
    Reading.Ends r.size { groups := r.groups, rest := r.rest }
      (r.next.1, r.next.2.groups, r.next.2.rest) :=
  Reading.ends_run r.size _

/-- **At the end of its text** a reader reads the empty pattern, and stays. -/
theorem next_of_rest_eq_nil (h : r.rest = []) : r.next = (.ok ⟨none, r.groups⟩, r) := by
  obtain ⟨size, rest, groups⟩ := r
  obtain rfl : rest = [] := h
  rw [next, Reading.run_end]
  rfl

/-- **A pattern is read to the end of the text**, and has the groups that were counted. -/
theorem next_of_ok (h : r.next.1 = .ok p) :
    r.next.2.rest = [] ∧ r.next.2.groups = p.groupCount := by
  have hends := r.ends_next
  rw [h] at hends
  generalize r.next.2.groups = groups, r.next.2.rest = rest at hends ⊢
  cases hends with
  | complete hreach => exact ⟨rfl, rfl⟩

/-- **A reader that is stuck** gives the same answer again, and stays. -/
theorem next_next_of_isStuck (h : r.next.1 = .error fault) (hstuck : fault.IsStuck) :
    r.next.2.next = (.error fault, r.next.2) := by
  have hends := r.ends_next
  rw [h] at hends
  have hsize : r.next.2.size = r.size := rfl
  generalize r.next.2 = r' at hends hsize ⊢
  obtain ⟨size, rest, groups⟩ := r'
  obtain rfl : size = r.size := hsize
  generalize hanswer : (Except.error fault, groups, rest) = answer at hends
  cases hends with
  | complete hreach => cases hanswer
  | unfinished hreach hrest houter =>
      cases hanswer
      exact False.elim hstuck
  | @failed s _ _ hreach hfails hleaves =>
      cases hanswer
      obtain rfl := hleaves.eq_of_isStuck hstuck
      rw [next, hfails.run_again hstuck]

/-- **A reader that is not stuck** after a fault has moved on. -/
theorem length_lt_of_not_isStuck (h : r.next.1 = .error fault) (hstuck : ¬ fault.IsStuck) :
    r.next.2.rest.length < r.rest.length := by
  have hends := r.ends_next
  rw [h] at hends
  generalize r.next.2.groups = groups, r.next.2.rest = rest at hends ⊢
  cases hends with
  | unfinished hreach hrest houter =>
      rcases hreach.eq_or_length_lt with rfl | hlt
      · exact absurd rfl houter
      · rwa [hrest] at hlt
  | failed hreach hfails hleaves =>
      exact (hleaves.length_lt hstuck).trans_le hreach.suffix.length_le

/-- What a reading leaves is the end of what was left before. -/
theorem suffix_next (r : Reader) : r.next.2.rest <:+ r.rest := by
  have hends := r.ends_next
  generalize r.next.1 = answer, r.next.2.groups = groups, r.next.2.rest = rest at hends ⊢
  cases hends with
  | complete hreach => exact List.nil_suffix
  | unfinished hreach hrest houter => exact List.nil_suffix
  | failed hreach hfails hleaves => exact hleaves.suffix.trans hreach.suffix

/-- A reading does not forget groups. -/
theorem groups_le_next (r : Reader) : r.groups ≤ r.next.2.groups := by
  have hends := r.ends_next
  generalize r.next.1 = answer, r.next.2.groups = groups, r.next.2.rest = rest at hends ⊢
  cases hends with
  | complete hreach => exact hreach.groups_le
  | unfinished hreach hrest houter => exact hreach.groups_le
  | failed hreach hfails hleaves => exact hreach.groups_le

/-- **An answer settles a reader or moves it on.** -/
theorem settled_or_length_lt (r : Reader) :
    r.next.2.Settled ∨ r.next.2.rest.length < r.rest.length := by
  cases hanswer : r.next.1 with
  | ok p => exact Or.inl (.of_next (next_of_rest_eq_nil (next_of_ok hanswer).1))
  | error fault =>
      by_cases hstuck : fault.IsStuck
      · exact Or.inl (.of_next (next_next_of_isStuck hanswer hstuck))
      · exact Or.inr (length_lt_of_not_isStuck hanswer hstuck)

/-! ### The long run -/

/-- The length of the text stays what it was. -/
theorem size_after (r : Reader) (n : ℕ) : (r.after n).size = r.size := by
  induction n generalizing r with
  | zero => rfl
  | succ n ih => exact ih r.next.2

/-- What is left after several readings is the end of what was left before. -/
theorem suffix_after (r : Reader) (n : ℕ) : (r.after n).rest <:+ r.rest := by
  induction n with
  | zero => exact List.suffix_rfl
  | succ n ih =>
      rw [after_succ]
      exact (suffix_next _).trans ih

/-- After a reading that settled the reader, it stays. -/
theorem after_succ_of_settled (h : r.next.2.Settled) (n : ℕ) : r.after (n + 1) = r.next.2 :=
  h.after_eq n

/-- An answer that leaves the reader as it is comes again and again. -/
theorem next_after_succ_of_next {answer : Except Fault Pattern}
    (h : r.next.2.next = (answer, r.next.2)) (n : ℕ) : (r.after (n + 1)).next.1 = answer := by
  rw [after_succ_of_settled (.of_next h), h]

/-- **A reader has settled** after as many readings as there are characters left: from then on the
answers are the same. -/
theorem next_after_of_length_le {m n : ℕ} (hn : r.rest.length ≤ n) (hmn : n ≤ m) :
    (r.after m).next.1 = (r.after n).next.1 := by
  induction n generalizing r m with
  | zero =>
      have hend := next_of_rest_eq_nil (List.length_eq_zero_iff.1 (Nat.le_zero.1 hn))
      have hsettled : r.Settled := .of_next hend
      rw [hsettled.after_eq, hsettled.after_eq]
  | succ n ih =>
      obtain ⟨m, rfl⟩ := Nat.exists_eq_add_of_le' (Nat.one_le_of_lt hmn)
      rcases r.settled_or_length_lt with hsettled | hlt
      · rw [after_succ_of_settled hsettled, after_succ_of_settled hsettled]
      · exact ih (Nat.le_of_lt_succ (hlt.trans_le hn)) (Nat.le_of_succ_le_succ hmn)

/-- A reader **makes progress** in a text, however often it is used. -/
structure MakesProgress (text : List Char) (r : Reader) : Prop where
  /-- The answers of several readings are those of the readers in between. -/
  answers : ∀ n k, k < n → (r.nexts n)[k]? = some (r.after k).next.1
  /-- A reader stands in its text: behind the characters that it has passed, and before those that
  are left. -/
  rest_eq : ∀ n, (r.after n).rest = text.drop (r.after n).pos
  pos_le : ∀ n, (r.after n).pos ≤ text.length
  /-- A reading does not go back, and does not forget groups. -/
  pos_le_succ : ∀ n, (r.after n).pos ≤ (r.after (n + 1)).pos
  groups_le_succ : ∀ n, (r.after n).groups ≤ (r.after (n + 1)).groups
  /-- Within a reading every part takes a character. -/
  part_lt : ∀ n s s' part,
    Reading.Reaches text.length { groups := (r.after n).groups, rest := (r.after n).rest } s →
    Reading.Reaches text.length s s' → s'.level = s.level.push part →
    s'.rest.length < s.rest.length
  /-- After a pattern only the empty pattern is read, with the same number of groups. -/
  complete : ∀ n p, (r.after n).next.1 = .ok p →
    ∀ m, n < m → (r.after m).next.1 = .ok ⟨none, p.groupCount⟩
  /-- A fault that leaves the reader stuck is found for ever. -/
  stuck : ∀ n fault, (r.after n).next.1 = .error fault → fault.IsStuck →
    ∀ m, n ≤ m → (r.after m).next.1 = .error fault
  /-- Any other fault moves the reader on. -/
  moves : ∀ n fault, (r.after n).next.1 = .error fault → ¬ fault.IsStuck →
    (r.after n).pos < (r.after (n + 1)).pos
  /-- After as many answers as there are characters, all answers are the same. -/
  constant : ∀ m, text.length ≤ m → (r.after m).next.1 = (r.after text.length).next.1

/-- The position of a reader in its text. -/
theorem pos_add_length (hsize : r.size = text.length) (hrest : r.rest <:+ text) (n : ℕ) :
    (r.after n).pos + (r.after n).rest.length = text.length := by
  have hle := ((r.suffix_after n).trans hrest).length_le
  rw [pos, size_after, hsize, Nat.sub_add_cancel hle]

/-- **A reader in its text makes progress.** -/
theorem makesProgress (hsize : r.size = text.length) (hrest : r.rest <:+ text) :
    r.MakesProgress text where
  answers n k hk := r.getElem?_nexts hk
  rest_eq n := by
    rw [pos, size_after, hsize]
    exact List.suffix_iff_eq_drop.1 ((r.suffix_after n).trans hrest)
  pos_le n := by
    have hpos := pos_add_length hsize hrest n
    omega
  pos_le_succ n := by
    have hpos := pos_add_length hsize hrest n
    have hpos' := pos_add_length hsize hrest (n + 1)
    have hle := (r.after n).suffix_next.length_le
    rw [← after_succ] at hle
    omega
  groups_le_succ n := by
    rw [after_succ]
    exact groups_le_next _
  part_lt n s s' part _ hreach hlevel := hreach.length_lt_of_push hlevel
  complete n p hanswer m hm := by
    obtain ⟨hend, hgroups⟩ := next_of_ok hanswer
    obtain ⟨k, rfl⟩ := Nat.exists_eq_add_of_lt hm
    rw [Nat.add_assoc, after_add, ← hgroups]
    exact next_after_succ_of_next (next_of_rest_eq_nil hend) k
  stuck n fault hanswer hstuck m hm := by
    obtain ⟨k, rfl⟩ := Nat.exists_eq_add_of_le hm
    rw [after_add]
    cases k with
    | zero => exact hanswer
    | succ k => exact next_after_succ_of_next (next_next_of_isStuck hanswer hstuck) k
  moves n fault hanswer hstuck := by
    have hpos := pos_add_length hsize hrest n
    have hpos' := pos_add_length hsize hrest (n + 1)
    have hlt := length_lt_of_not_isStuck hanswer hstuck
    rw [← after_succ] at hlt
    omega
  constant m hm := next_after_of_length_le hrest.length_le hm

end Reader

/-- A text without its slashes is no longer than before. -/
theorem length_stripSlashes_le (text : List Char) : (stripSlashes text).length ≤ text.length := by
  unfold stripSlashes
  split
  · next inner =>
    have hdrop := (List.dropWhile_suffix (· ≠ '/') (l := inner.reverse)).length_le
    split
    · exact le_rfl
    · next heq =>
      rw [heq, List.length_reverse] at hdrop
      dsimp only
      split
      · simp only [List.length_reverse, List.length_cons] at hdrop ⊢
        omega
      · exact le_rfl
  · exact le_rfl

/-- **Readers make progress.** However often a reader of a text is used, it makes progress in the
body of the text, which is no longer than the text. So its answers are all the same from some
answer on, at the latest when there were as many as the text has characters. -/
theorem Reader.makesProgress_ofText (text : String) :
    (ofText text).MakesProgress (stripSlashes text.toList) ∧
      (stripSlashes text.toList).length ≤ text.length := by
  refine ⟨makesProgress rfl List.suffix_rfl, ?_⟩
  rw [← String.length_toList]
  exact length_stripSlashes_le text.toList

end RegexWords
