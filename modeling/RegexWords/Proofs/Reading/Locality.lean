import RegexWords.Proofs.Reading.Continuation
import RegexWords.Proofs.Reading.Failure

/-!
# Faults Are Local

A fault belongs to the beginning of a text that shows it, in two ways. Where something is wrong
with what was read, it stays wrong, and the same fault is found, whatever is written after it. And
where the text only ended too early, it can be completed: a pending backslash with a letter, an
open class with a member and a bracket, an open group with a parenthesis.

For the first the reading must come to the same place before any text. It does, although it looks
ahead for quantifiers: the place itself shows a character that no unfinished quantifier has. The
second is the same reading before a text that closes. The member that completes a class is a
shorthand, because a dash before it makes no range, or the letter of a shorthand after a backslash.

## Main definitions

* `Fault.IsSettled`: the faults that stay.
* `Fault.IsUnfinished`: the faults of texts that end too early.

## Main results

* `Reading.Fails.append`: what fails for good fails **before any text**.
* `Reading.Fails.exists_completion`: what fails at the end of the text **can be completed**.
* `Pattern.ofText_append_of_error`: **faults are local to the text that shows them**.
-/

namespace RegexWords

/-! ### Two kinds of faults -/

namespace Fault

/-- The faults that are **settled** in a text of `size` characters: what is wrong has been read. A
group that opens as no group does is settled only if the text goes on behind that. -/
def IsSettled (size : ℕ) : Fault → Prop
  | unexpectedChar _ _ => True
  | unexpectedEnd _ _ => False
  | nothingToRepeat _ => True
  | danglingEscape => False
  | invalidGroup pos => pos < size
  | unterminatedClass _ => False
  | reversedRange _ _ => True
  | reversedBounds _ _ => True
  | boundTooLarge _ _ => True

/-- The faults of an **unfinished** text: it ends too early. -/
def IsUnfinished : Fault → Prop
  | unexpectedEnd _ _ => True
  | unterminatedClass _ => True
  | danglingEscape => True
  | _ => False

end Fault

/-! ### Faults before a longer text -/

/-- A text with a member of a class at its head is not empty. -/
theorem ne_nil_of_readClassAtom {start : ℕ} {text rest : List Char} {m : ClassMember}
    (h : readClassAtom start text = .ok (m, rest)) : text ≠ [] := by
  rintro rfl
  cases h

/-- Members that begin with no bracket do so before a longer text. -/
theorem head?_append_ne {text : List Char} {c : Char} (hne : text ≠ [])
    (h : text.head? ≠ some c) (more : List Char) : (text ++ more).head? ≠ some c := by
  rwa [List.head?_append_of_ne_nil _ hne]

/-- The members of a class are at fault where an item is. -/
theorem readClassMembers_eq_error {start : ℕ} {text : List Char} {e : Fault × List Char}
    (hhead : text.head? ≠ some ']') (hitem : readClassItem start text = .error e) :
    readClassMembers start text = .error e := by
  rw [readClassMembers, if_neg hhead]
  split
  · next e' he =>
    rw [hitem] at he
    exact congrArg _ (Except.error.inj he).symm
  · next hread => rw [hitem] at hread; cases hread

/-- An item of a class is read the same before a longer text, unless that begins a range where the
text did not. -/
theorem readClassItem_append {start : ℕ} {text rest : List Char} {members : List ClassMember}
    (h : readClassItem start text = .ok (members, rest)) {more : List Char}
    (hmore : BeginsRange (rest ++ more) → BeginsRange rest) (pos : ℕ) :
    readClassItem pos (text ++ more) = .ok (members, rest ++ more) := by
  obtain ⟨piece, rfl, hitem⟩ := (readClassItem_eq_ok_iff.1 h).exists_piece
  rw [List.append_assoc]
  exact readClassItem_eq_ok_iff.2 (hitem pos _ hmore)

/-- The members of a class with a range that runs backwards are at fault before any text. -/
theorem readClassMembers_append_of_reversed {start : ℕ} {text rest : List Char}
    {first last : Char} (h : readClassMembers start text = .error (.reversedRange first last, rest))
    (more : List Char) :
    readClassMembers start (text ++ more) = .error (.reversedRange first last, rest ++ more) := by
  fun_induction readClassMembers start text with
  | case1 => cases h
  | case2 text hc e hitem =>
      cases h
      cases readClassItem_eq_error_iff.1 hitem with
      | piece hatom => cases (eq_unterminatedClass_of_readClassAtom hatom).1
      | dash hfirst hdash hlast => cases (eq_unterminatedClass_of_readClassAtom hlast).1
      | range hfirst hdash hlast horder =>
          obtain ⟨piece, htext, htakes⟩ := exists_piece_of_readClassAtom hfirst
          obtain ⟨piece', htext', htakes'⟩ := exists_piece_of_readClassAtom hlast
          refine readClassMembers_eq_error
            (head?_append_ne (ne_nil_of_readClassAtom hfirst) hc more) ?_
          exact readClassItem_eq_error_iff.2 <| ClassItemFails.range
            (htakes.read_append htext start more) hdash (htakes'.read_append htext' start more)
            horder
  | case3 text hc items rest₁ hitem _ e hlater ih =>
      cases h
      have hnil : rest₁ ≠ [] := by
        rintro rfl
        rw [readClassMembers_nil] at hlater
        cases hlater
      have hdash : rest₁ ≠ ['-'] := by
        rintro rfl
        rw [readClassMembers_dash] at hlater
        cases hlater
      have hrange : BeginsRange (rest₁ ++ more) → BeginsRange rest₁ := fun hrange => by
        simpa using hrange.of_append hnil hdash []
      have hitem' := readClassItem_append hitem hrange start
      have hne : text ≠ [] := by
        rintro rfl
        cases hitem
      rw [readClassMembers_item (head?_append_ne hne hc more) hitem', ih hlater]
  | case4 => cases h

/-- A class with a range that runs backwards is at fault before any text. -/
theorem readClass_append_of_reversed {start : ℕ} {text rest : List Char} {first last : Char}
    (h : readClass start text = .error (.reversedRange first last, rest)) (more : List Char) :
    readClass start (text ++ more) = .error (.reversedRange first last, rest ++ more) := by
  obtain ⟨head, inside, leading, negated, rfl, hclass⟩ := exists_piece_of_classHead text
  rw [hclass start inside fun _ _ => id] at h
  have hmembers : readClassMembers start inside = .error (.reversedRange first last, rest) := by
    cases hread : readClassMembers start inside with
    | error e => rw [hread] at h; exact congrArg _ (Except.error.inj h)
    | ok found => rw [hread] at h; cases h
  have hne : inside ≠ [] := by
    rintro rfl
    rw [readClassMembers_nil] at hmembers
    cases hmembers
  rw [List.append_assoc, hclass, readClassMembers_append_of_reversed hmembers]
  · rfl
  · rw [List.head?_append_of_ne_nil _ hne]
    exact fun _ _ => id

/-- Positions are the same in a longer text. -/
theorem size_sub_length_append (size : ℕ) (text more : List Char) :
    size + more.length - (text ++ more).length = size - text.length := by
  rw [List.length_append, Nat.add_sub_add_right]

/-- **An atom with a settled fault** is at fault before any text. -/
theorem readAtom_append_of_error {size : ℕ} {text rest : List Char} {fault : Fault}
    (h : readAtom size text = .error (fault, rest)) (hfault : fault.IsSettled size)
    (more : List Char) :
    readAtom (size + more.length) (text ++ more) = .error (fault, rest ++ more) := by
  have hpos := size_sub_length_append size text more
  unfold readAtom at h
  split at h
  case h_1 =>
    cases h
    exact False.elim hfault
  case h_2 inside =>
    cases classFault_of_readClass h with
    | unterminated => exact False.elim hfault
    | reversed horder =>
        rw [List.cons_append, readAtom, ← List.cons_append, hpos]
        exact readClass_append_of_reversed h more
  case h_9 =>
    cases h
    exact False.elim hfault
  all_goals cases h
  all_goals
    rw [← hpos]
    rfl

/-- **A quantifier at fault** is at fault before any text. -/
theorem readSuffix_append_of_error {size : ℕ} {part : Regex} {text rest : List Char} {fault : Fault}
    (h : readSuffix size part text = .error (fault, rest)) (more : List Char) :
    readSuffix (size + more.length) part (text ++ more) = .error (fault, rest ++ more) := by
  have hpos := size_sub_length_append size text more
  obtain ⟨inside, q, rfl, hbraces, hfault⟩ := exists_braces_of_readSuffix h
  have hquantifier : quantifierAt? ('{' :: inside) = some (q, rest) := hbraces
  rw [readSuffix_eq_quantifierAt?, hpos, quantifierAt?_append_of_some hquantifier]
  simp only [hfault]

/-- What tells the kind of a group are three characters at most. -/
theorem Opening.length_render_le (opening : Opening) : opening.render.length ≤ 3 := by
  cases opening with
  | capture n => exact Nat.zero_le 3
  | group => decide
  | look direction positive => cases direction <;> cases positive <;> decide

/-- **A group that opens as no group does** is at fault before any text, if there is text behind. -/
theorem readOpening_append_of_error {size number : ℕ} {text rest : List Char} {fault : Fault}
    (h : readOpening size number text = .error (fault, rest)) (hfault : fault.IsSettled size)
    (more : List Char) :
    readOpening (size + more.length) number (text ++ more) = .error (fault, rest ++ more) := by
  obtain ⟨rfl, htext⟩ := eq_invalidGroup_of_readOpening h
  have hrest : rest ≠ [] := by
    rintro rfl
    exact Nat.lt_irrefl _ hfault
  obtain ⟨c, htext⟩ : ∃ c, text = '?' :: c :: rest := htext.resolve_right fun hend => hrest hend.2
  cases hlonger : readOpening (size + more.length) number (text ++ more) with
  | error e =>
      obtain ⟨fault, rest'⟩ := e
      obtain ⟨rfl, htext'⟩ := eq_invalidGroup_of_readOpening hlonger
      rw [htext] at htext'
      rcases htext' with ⟨d, htext'⟩ | ⟨htext', -⟩
      · obtain ⟨rfl, rfl⟩ : c = d ∧ rest ++ more = rest' := by simpa using htext'
        rw [size_sub_length_append]
      · simp at htext'
  | ok found =>
      -- the kind of the group would show in the text already
      obtain ⟨opening, rest'⟩ := found
      obtain ⟨htext', hcapture⟩ := readOpening_eq_ok_iff.1 hlonger
      have hlength : opening.render.length ≤ text.length := by
        have := List.length_pos_iff.2 hrest
        rw [htext, List.length_cons, List.length_cons]
        exact Nat.le_trans opening.length_render_le (by omega)
      obtain ⟨after, hafter⟩ : opening.render <+: text :=
        List.prefix_of_prefix_length_le ⟨rest', htext'.symm⟩ (List.prefix_append text more) hlength
      rw [← hafter, List.append_assoc] at htext'
      obtain rfl := List.append_cancel_left htext'
      have hok : readOpening size number text = .ok (opening, after) :=
        readOpening_eq_ok_iff.2 ⟨hafter.symm, fun n hn =>
          ⟨(hcapture n hn).1, head?_ne_of_append (hcapture n hn).2⟩⟩
      rw [hok] at h
      cases h

/-! ### Settled faults -/

namespace Reading

variable {size : ℕ} {r : Reading} {fault : Fault}

/-- **What fails with a settled fault** fails with it before any text. -/
theorem Fails.append (h : Fails size r fault) (hfault : fault.IsSettled size) (more : List Char) :
    Fails (size + more.length) (r.append more) fault := by
  cases h with
  | unfinished houter => exact False.elim hfault
  | unopened level groups rest =>
      rw [← size_sub_length_append size (')' :: rest) more]
      exact Fails.unopened level groups (rest ++ more)
  | opening hopening => exact Fails.opening (readOpening_append_of_error hopening hfault more)
  | atom hc hatom => exact Fails.atom hc (readAtom_append_of_error hatom hfault more)
  | part hc hatom hpart =>
      exact Fails.part hc (readAtom_append hatom _ more) (readSuffix_append_of_error hpart more)
  | group hpart => exact Fails.group (readSuffix_append_of_error hpart more)

/-- Settled faults show before the end of the text. -/
theorem Fails.rest_ne_nil (h : Fails size r fault) (hfault : fault.IsSettled size) :
    r.rest ≠ [] := by
  cases h with
  | unfinished houter => exact False.elim hfault
  | _ => exact List.cons_ne_nil _ _

/-- No quantifier is under way where a reading fails before the end of the text. -/
theorem Fails.apart (h : Fails size r fault) (hrest : r.rest ≠ []) (more : List Char) :
    Apart r.rest more := by
  have key : ∀ {c : Char} {text : List Char}, ¬ c.isDigit → c ∉ [',', '{'] →
      Apart (c :: text) more := fun hdigit hc => Or.inr ⟨_, List.mem_cons_self, hdigit, hc⟩
  cases h with
  | unfinished houter => exact absurd rfl hrest
  | unopened level groups rest => exact key (by decide) (by decide)
  | opening hopening => exact key (by decide) (by decide)
  | atom hc hatom =>
      cases atomFault_of_readAtom hatom with
      | charClass hclass => exact key (by decide) (by decide)
      | quantifier hmem =>
          simp only [List.mem_cons, List.not_mem_nil, or_false] at hmem
          rcases hmem with rfl | rfl | rfl <;> exact key (by decide) (by decide)
      | escape => exact key (by decide) (by decide)
  | part hc hatom hpart =>
      -- the atom may be anything, but its braces are closed
      obtain ⟨inside, q, rfl, hbraces, -⟩ := exists_braces_of_readSuffix hpart
      obtain ⟨contents, -, -, -, rfl⟩ := readBraces?_eq_some_iff.1 hbraces
      obtain ⟨piece, hpiece, -⟩ := exists_piece_of_readAtom hatom
      exact Or.inr ⟨'}', by rw [hpiece]; simp, by decide, by decide⟩
  | group hpart => exact key (by decide) (by decide)

end Reading

/-! ### Completions -/

/-- What completes a class after a dash or a member: a shorthand and the bracket. -/
theorem readClassMembers_digit (start : ℕ) :
    readClassMembers start ['\\', 'd', ']'] = .ok ([.shorthand .digit], []) := by
  have hitem : readClassItem start ['\\', 'd', ']'] = .ok ([.shorthand .digit], [']']) := rfl
  exact readClassMembers_of_item (by decide) hitem (readClassMembers_close start [])

/-- **The members of a class can be completed** if the text ends in the class. -/
theorem exists_completion_of_readClassMembers {start : ℕ} {text rest : List Char} {fault : Fault}
    (h : readClassMembers start text = .error (fault, rest)) (hfault : fault.IsUnfinished) :
    ∃ close members, (text = [] → close = ['\\', 'd', ']']) ∧
      readClassMembers start (text ++ close) = .ok (members, []) := by
  fun_induction readClassMembers start text with
  | case1 => cases h
  | case2 text hc e hitem =>
      cases h
      cases readClassItem_eq_error_iff.1 hitem with
      | piece hatom =>
          rcases (eq_unterminatedClass_of_readClassAtom hatom).2 with rfl | rfl
          · exact ⟨_, _, fun _ => rfl, readClassMembers_digit start⟩
          · exact ⟨['d', ']'], _, fun hnil => absurd hnil (List.cons_ne_nil _ _),
              readClassMembers_digit start⟩
      | @dash first c tail _ _ hfirst hdash hlast =>
          -- after the dash there is a backslash
          rcases (eq_unterminatedClass_of_readClassAtom hlast).2 with hnil | hescape
          · cases hnil
          · obtain ⟨rfl, rfl⟩ := List.cons.inj hescape
            obtain ⟨piece, htext, htakes⟩ := exists_piece_of_readClassAtom hfirst
            have hitem' : readClassItem start (text ++ ['d', ']']) =
                .ok ([.single first, .single '-', .shorthand .digit], [']']) :=
              readClassItem_eq_ok_iff.2 <| ClassItem.apart
                (htakes.read_append htext start ['d', ']']) hdash rfl (fun _ heq => by cases heq)
            have hne := ne_nil_of_readClassAtom hfirst
            exact ⟨['d', ']'], _, fun hnil => absurd hnil hne, readClassMembers_of_item
              (head?_append_ne hne hc _) hitem' (readClassMembers_close start [])⟩
      | range hfirst hdash hlast horder => exact False.elim hfault
  | case3 text hc items rest₁ hitem _ e hlater ih =>
      cases h
      have hne : text ≠ [] := by
        rintro rfl
        cases hitem
      obtain ⟨close, members, hclose, hmembers⟩ := ih hlater
      by_cases hdash : rest₁ = ['-']
      · -- before the bracket the dash is a member
        subst hdash
        have hrange : BeginsRange (['-'] ++ [']']) → BeginsRange ['-'] := by
          rintro ⟨c, tail, heq, hc⟩
          cases heq
          exact absurd rfl hc
        have hlast : readClassMembers start ['-', ']'] = .ok ([.single '-'], []) := by
          have hitem : readClassItem start ['-', ']'] = .ok ([.single '-'], [']']) := rfl
          exact readClassMembers_of_item (by decide) hitem (readClassMembers_close start [])
        exact ⟨[']'], _, fun hnil => absurd hnil hne, readClassMembers_of_item
          (head?_append_ne hne hc _) (readClassItem_append hitem hrange start) hlast⟩
      · have hrange : BeginsRange (rest₁ ++ close) → BeginsRange rest₁ := by
          intro hrange
          by_cases hnil : rest₁ = []
          · rw [hnil, hclose hnil] at hrange
            obtain ⟨c, tail, heq, -⟩ := hrange
            cases heq
          · simpa using hrange.of_append hnil hdash []
        exact ⟨close, _, fun hnil => absurd hnil hne, readClassMembers_of_item
          (head?_append_ne hne hc _) (readClassItem_append hitem hrange start) hmembers⟩
  | case4 => cases h

/-- **A class can be completed** if the text ends in it. -/
theorem exists_completion_of_readClass {start : ℕ} {text rest : List Char} {fault : Fault}
    (h : readClass start text = .error (fault, rest)) (hfault : fault.IsUnfinished) :
    ∃ close r, readClass start (text ++ close) = .ok (r, []) := by
  obtain ⟨head, inside, leading, negated, rfl, hclass⟩ := exists_piece_of_classHead text
  rw [hclass start inside fun _ _ => id] at h
  cases hread : readClassMembers start inside with
  | ok found => rw [hread] at h; cases h
  | error e =>
      rw [hread] at h
      cases h
      obtain ⟨close, members, hclose, hmembers⟩ :=
        exists_completion_of_readClassMembers hread hfault
      refine ⟨close, .charClass (leading ++ members) negated, ?_⟩
      rw [List.append_assoc, hclass, hmembers]
      · rfl
      · intro c hc hhead
        by_cases hnil : inside = []
        · rw [hnil, hclose hnil] at hhead
          obtain rfl := Option.some.inj hhead
          exact absurd hc (by decide)
        · rwa [List.head?_append_of_ne_nil _ hnil] at hhead

/-- **An atom can be completed** if the text ends in it. -/
theorem exists_completion_of_readAtom {size : ℕ} {text rest : List Char} {fault : Fault} {c : Char}
    (h : readAtom size (c :: text) = .error (fault, rest)) (hfault : fault.IsUnfinished) :
    ∃ close atom, ∀ size', readAtom size' (c :: text ++ close) = .ok (atom, []) := by
  have hatom := atomFault_of_readAtom h
  cases hatom with
  | charClass hclass =>
      obtain ⟨close, r, hread⟩ := exists_completion_of_readClass h hfault
      obtain ⟨piece, hpiece, htakes⟩ := exists_piece_of_readClass hread
      rw [List.append_nil] at hpiece
      refine ⟨close, r, fun size' => ?_⟩
      have hread' := htakes (size' - ('[' :: (text ++ close)).length) []
      rw [List.append_nil, ← hpiece] at hread'
      exact hread'
  | quantifier hc => exact False.elim hfault
  | escape => exact ⟨['d'], .shorthand .digit, fun _ => rfl⟩

/-- A quantifier is not at fault because the text ends. -/
theorem not_isUnfinished_of_readSuffix {size : ℕ} {part : Regex} {text rest : List Char}
    {fault : Fault} (h : readSuffix size part text = .error (fault, rest)) :
    ¬ fault.IsUnfinished := by
  obtain ⟨inside, q, -, -, hbounds⟩ := exists_braces_of_readSuffix h
  rcases Bounds.fault?_eq_some hbounds with ⟨bound, rfl, -⟩ | ⟨most, rfl, -⟩
  · exact id
  · exact id

namespace Reading

variable {size : ℕ} {r : Reading} {fault : Fault}

/-- Parentheses close. -/
theorem closes_parentheses (n : ℕ) : Closes (List.replicate n ')') := by
  intro c hc
  rw [List.eq_of_mem_replicate (List.mem_of_mem_head? hc)]
  exact List.mem_cons_self

/-- Open groups are closed by as many parentheses. -/
theorem reaches_of_parentheses (size : ℕ) (outer : List (Opening × Level)) (level : Level)
    (groups : ℕ) : ∃ level', Reaches size
      ⟨outer, level, groups, List.replicate outer.length ')'⟩ ⟨[], level', groups, []⟩ := by
  induction outer generalizing level with
  | nil => exact ⟨level, Relation.ReflTransGen.refl⟩
  | cons innermost outer ih =>
      obtain ⟨opening, around⟩ := innermost
      have hsuffix := readSuffix_of_fresh size (opening.close level.body)
        (closes_parentheses outer.length).fresh
      obtain ⟨level', hreach⟩ := ih (around.push (opening.close level.body))
      exact ⟨level', hreach.head (step_close hsuffix)⟩

/-- **What fails at the end of the text can be completed.** -/
theorem Fails.exists_completion (h : Fails size r fault) (hfault : fault.IsUnfinished) :
    ∃ close, Apart r.rest close ∧ ∀ size', ∃ level groups,
      Reaches size' (r.append close) ⟨[], level, groups, []⟩ := by
  have hapart := h.apart
  cases h with
  | @unfinished outer level groups houter =>
      refine ⟨List.replicate outer.length ')', Or.inl (closes_parentheses _), fun size' => ?_⟩
      obtain ⟨level', hreach⟩ := reaches_of_parentheses size' outer level groups
      exact ⟨level', groups, hreach⟩
  | unopened level groups rest => exact False.elim hfault
  | opening hopening =>
      obtain ⟨rfl, -⟩ := eq_invalidGroup_of_readOpening hopening
      exact False.elim hfault
  | @atom outer level groups c text rest fault hc hatom =>
      obtain ⟨close, atom, hread⟩ := exists_completion_of_readAtom hatom hfault
      refine ⟨close ++ List.replicate outer.length ')', hapart (List.cons_ne_nil c text) _,
        fun size' => ?_⟩
      have hread' := readAtom_append (hread size') size' (List.replicate outer.length ')')
      rw [List.append_assoc, List.nil_append] at hread'
      have hsuffix := readSuffix_of_fresh size' atom (closes_parentheses outer.length).fresh
      obtain ⟨level', hreach⟩ := reaches_of_parentheses size' outer (level.push atom) groups
      exact ⟨level', groups, hreach.head (step_atom hc hread' hsuffix)⟩
  | part hc hatom hpart => exact absurd hfault (not_isUnfinished_of_readSuffix hpart)
  | group hpart => exact absurd hfault (not_isUnfinished_of_readSuffix hpart)

end Reading

/-! ### Whole texts -/

namespace Pattern

/-- **Faults are local to the text that shows them.** If a text that begins with no slash is no
pattern, every longer text has the same fault where that is settled, and some longer text is a
pattern where the text is only unfinished. -/
theorem ofText_append_of_error {text : String} {fault : Fault}
    (hslash : text.toList.head? ≠ some '/') (h : ofText text = .error fault) :
    (fault.IsSettled text.length → ∀ more, ofText (text ++ more) = .error fault) ∧
      (fault.IsUnfinished → ∃ more p, ofText (text ++ more) = .ok p) := by
  rw [ofText_of_head_ne hslash] at h
  obtain ⟨r, hreach, hfails⟩ := Reading.run_eq_error_iff.1 h
  have hne : text.toList ≠ [] := by
    intro hnil
    rw [hnil] at h
    cases (congrArg Prod.fst (Reading.run_end 0 {} 0)).symm.trans h
  have hslash' : ∀ more : String, (text ++ more).toList.head? ≠ some '/' := by
    intro more
    rw [String.toList_append]
    exact head?_append_ne hne hslash more.toList
  refine ⟨fun hsettled more => ?_, fun hunfinished => ?_⟩
  · rw [← String.length_toList] at hsettled
    have happart := hfails.apart (hfails.rest_ne_nil hsettled) more.toList
    rw [ofText_of_head_ne (hslash' more), String.toList_append, List.length_append]
    exact Reading.run_eq_error_iff.2
      ⟨_, hreach.append _ happart, hfails.append hsettled more.toList⟩
  · obtain ⟨close, happart, hclose⟩ := hfails.exists_completion hunfinished
    obtain ⟨level, groups, hreach'⟩ := hclose (text.toList ++ close).length
    refine ⟨String.ofList close, ⟨level.body, groups⟩, ?_⟩
    rw [ofText_of_head_ne (hslash' _), String.toList_append, String.toList_ofList]
    have hall := (hreach.append (text.toList ++ close).length happart).trans hreach'
    have hrun := Reading.Reaches.run_eq hall
    exact congrArg Prod.fst (hrun.trans (Reading.run_end _ level groups))

/-- Bounds that run backwards, in a group with a lazy quantifier before them, and a text that ends
with a backslash two groups deep. -/
theorem ofText_append_of_error_bounds :
    (∀ more, ofText ("(?:a|b)+?c\x7b12,7\x7d" ++ more) = .error (.reversedBounds 12 7)) ∧
      ∃ more p, ofText ("(a|(?:b\\" ++ more) = .ok p := by
  have hbounds : ofText "(?:a|b)+?c\x7b12,7\x7d" = .error (.reversedBounds 12 7) := by cbv
  have hescape : ofText "(a|(?:b\\" = .error .danglingEscape := by cbv
  exact ⟨(ofText_append_of_error (by decide) hbounds).1 trivial,
    (ofText_append_of_error (by decide) hescape).2 trivial⟩

end Pattern

end RegexWords
