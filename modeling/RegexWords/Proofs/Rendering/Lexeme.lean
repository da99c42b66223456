import RegexWords.Proofs.Reading.Braces
import RegexWords.Proofs.Rendering

/-!
# Reading Back the Small Pieces

What is written for a character, a class, a quantifier or the opening of a group is read back as
that, whatever is written after it, as long as it cannot be taken for a part of the piece itself.

## Main results

* `readClass_render`: a class is read back.
* `readBraces?_render`, `readSuffix_render`: a quantifier is read back.
* `quantify_eq_iff`, `readOpening_eq_ok_iff`: what tells a lazy quantifier, and what a group is.
* `readSuffix_of_fresh`: a fresh text is no quantifier.
* `readOpening_render`: the opening of a group is read back.
-/

namespace RegexWords

/-! ### Characters -/

/-- Outside brackets, an escaped metacharacter stands for itself. -/
theorem ofEscape_of_mem {c : Char} (h : c ∈ metacharacters) : Regex.ofEscape c = .literal c := by
  simp only [metacharacters, List.mem_cons, List.not_mem_nil, or_false] at h
  rcases h with rfl | rfl | rfl | rfl | rfl | rfl | rfl | rfl | rfl | rfl | rfl | rfl | rfl | rfl |
    rfl <;> rfl

/-- In brackets, an escaped metacharacter stands for itself. -/
theorem classOfEscape_of_mem :
    ∀ c ∈ classMetacharacters, ClassMember.ofEscape c = .single c := by
  intro c h
  simp only [classMetacharacters, List.mem_cons, List.not_mem_nil, or_false] at h
  rcases h with rfl | rfl | rfl | rfl <;> rfl

/-- A character is read back, escaped or not. -/
theorem readAtom_escape (size : ℕ) (c : Char) (rest : List Char) :
    readAtom size (escape metacharacters c ++ rest) = .ok (.literal c, rest) := by
  rw [escape]
  split
  · next h =>
    rw [List.cons_append, List.singleton_append, readAtom, ofEscape_of_mem h]
  · next h =>
    simp only [metacharacters, List.mem_cons, List.not_mem_nil, or_false, not_or] at h
    rw [List.singleton_append, readAtom]
    all_goals simp [h]

/-! ### Classes -/

/-- A character of a class is read back, escaped or not. -/
theorem readClassAtom_escape (start : ℕ) (c : Char) (rest : List Char) :
    readClassAtom start (escape classMetacharacters c ++ rest) = .ok (.single c, rest) := by
  rw [escape]
  split
  · next h =>
    rw [List.cons_append, List.singleton_append, readClassAtom, classOfEscape_of_mem c h]
  · next h =>
    simp only [classMetacharacters, List.mem_cons, List.not_mem_nil, or_false, not_or] at h
    rw [List.singleton_append, readClassAtom]
    all_goals simp [h]

/-- The text of a class member begins with none of the characters that mean something to the
class there. -/
theorem ClassMember.head_render (m : ClassMember) :
    ∃ c text, m.render = c :: text ∧ c ∉ [']', '^', '-'] := by
  have hescape : ∀ c, ∃ d text, escape classMetacharacters c = d :: text ∧ d ∉ [']', '^', '-'] :=
    exists_escape_eq_cons (by decide) (by decide)
  cases m with
  | single c => exact hescape c
  | range first last =>
      obtain ⟨d, text, htext, hd⟩ := hescape first
      exact ⟨d, _, by rw [render, htext, List.cons_append], hd⟩
  | shorthand kind => exact ⟨'\\', [kind.letter], rfl, by decide⟩

/-- A class member is read back unless a dash follows. -/
theorem readClassItem_render (start : ℕ) {m : ClassMember} (h : m.Proper) {rest : List Char}
    (hdash : ∀ c ∈ rest.head?, c ≠ '-') :
    readClassItem start (m.render ++ rest) = .ok ([m], rest) := by
  cases m with
  | single c =>
      rw [ClassMember.render, readClassItem, readClassAtom_escape]
      cases rest with
      | nil => rfl
      | cons d rest =>
          have hd : d ≠ '-' := hdash d rfl
          split <;> simp_all
  | range first last =>
      obtain ⟨d, text, htext, hd⟩ := (ClassMember.single last).head_render
      have hbracket : d ≠ ']' := fun heq => hd (by simp [heq])
      rw [ClassMember.render] at htext
      have hlast := readClassAtom_escape start last rest
      rw [htext, List.cons_append] at hlast
      rw [ClassMember.render, List.append_assoc, readClassItem, readClassAtom_escape,
        List.cons_append, htext, List.cons_append]
      have horder : ¬ last < first := Char.not_lt.2 h
      simp only [if_neg hbracket, hlast, if_neg horder]
  | shorthand kind => cases kind <;> rfl

/-- Where a class goes on or ends there is no dash. -/
theorem head_flatMap_render (members : List ClassMember) (rest : List Char) :
    ∀ c ∈ (members.flatMap ClassMember.render ++ ']' :: rest).head?, c ≠ '-' := by
  cases members with
  | nil =>
      intro c hc
      obtain rfl := Option.some.inj hc
      decide
  | cons m members =>
      obtain ⟨d, text, htext, hd⟩ := m.head_render
      rw [List.flatMap_cons, htext, List.cons_append, List.cons_append]
      intro c hc
      obtain rfl := Option.some.inj hc
      exact fun heq => hd (by simp [heq])

/-- The closing bracket ends the members of a class. -/
theorem readClassMembers_close (start : ℕ) (rest : List Char) :
    readClassMembers start (']' :: rest) = .ok ([], rest) := by
  rw [readClassMembers]
  rfl

/-- Before the closing bracket the members of a class are read item by item. -/
theorem readClassMembers_item {start : ℕ} {text rest : List Char} {items : List ClassMember}
    (hhead : text.head? ≠ some ']') (hitem : readClassItem start text = .ok (items, rest)) :
    readClassMembers start text = match readClassMembers start rest with
      | .error e => .error e
      | .ok (later, rest') => .ok (items ++ later, rest') := by
  rw [readClassMembers, if_neg hhead]
  split
  · next e he => rw [hitem] at he; cases he
  · next items' rest' hread =>
    rw [hitem] at hread
    cases hread
    rfl

/-- An item and the members after it are the members of a class. -/
theorem readClassMembers_of_item {start : ℕ} {text rest rest' : List Char}
    {items later : List ClassMember} (hhead : text.head? ≠ some ']')
    (hitem : readClassItem start text = .ok (items, rest))
    (hlater : readClassMembers start rest = .ok (later, rest')) :
    readClassMembers start text = .ok (items ++ later, rest') := by
  rw [readClassMembers_item hhead hitem, hlater]

/-- The members of a class are read back up to the closing bracket. -/
theorem readClassMembers_render (start : ℕ) {members : List ClassMember}
    (h : ∀ m ∈ members, m.Proper) (rest : List Char) :
    readClassMembers start (members.flatMap ClassMember.render ++ ']' :: rest) =
      .ok (members, rest) := by
  induction members with
  | nil => exact readClassMembers_close start rest
  | cons m members ih =>
      have hitem := readClassItem_render start (h m List.mem_cons_self)
        (head_flatMap_render members rest)
      have hmore := ih fun n hn => h n (List.mem_cons_of_mem m hn)
      obtain ⟨d, text, htext, hd⟩ := m.head_render
      have hhead : (m.render ++ (members.flatMap ClassMember.render ++ ']' :: rest)).head? ≠
          some ']' := by
        rw [htext]
        intro heq
        exact hd (by simp [Option.some.inj heq])
      rw [List.flatMap_cons, List.append_assoc]
      exact readClassMembers_of_item hhead hitem hmore

/-- **A class is read back.** -/
theorem readClass_render (start : ℕ) {members : List ClassMember} (hne : members ≠ [])
    (h : ∀ m ∈ members, m.Proper) (negated : Bool) (rest : List Char) :
    readClass start ((if negated then ['^'] else []) ++
      (members.flatMap ClassMember.render ++ ']' :: rest)) =
        .ok (.charClass members negated, rest) := by
  obtain ⟨m, ms, rfl⟩ := List.exists_cons_of_ne_nil hne
  obtain ⟨d, text, htext, hd⟩ := m.head_render
  have hcaret : d ≠ '^' := fun heq => hd (by simp [heq])
  have hbracket : d ≠ ']' := fun heq => hd (by simp [heq])
  have hmembers := readClassMembers_render start h rest
  rw [List.flatMap_cons, htext] at hmembers ⊢
  have hnegation : ∀ text, readNegation (d :: text) = (false, d :: text) := by
    intro text
    rw [readNegation]
    simpa using hcaret
  have hleading : ∀ text, readLeadingBracket (d :: text) = ([], d :: text) := by
    intro text
    rw [readLeadingBracket]
    simpa using hbracket
  cases negated with
  | true =>
      simp only [if_pos, List.cons_append, List.nil_append] at hmembers ⊢
      simp only [readClass, readNegation, hleading, hmembers, List.nil_append]
  | false =>
      simp only [Bool.false_eq_true, if_false, List.cons_append, List.nil_append] at hmembers ⊢
      simp only [readClass, hnegation, hleading, hmembers, List.nil_append]

/-! ### Quantifiers -/

/-- A number is written as a numeral. -/
theorem isNumeral_toString (n : ℕ) : IsNumeral (toString n).toList := by
  rw [Nat.toString_eq_repr, Nat.toList_repr]
  exact ⟨Nat.toDigits_ne_nil, fun d hd => Nat.isDigit_of_mem_toDigits (by decide) (by decide) hd⟩

/-- The numeral of a number within the cap is worth that number. -/
theorem numeralValue_toString {n : ℕ} (hn : n ≤ maxBound) :
    numeralValue (toString n).toList = n := by
  have hmax : n ≤ maxNumeral := Nat.le_trans hn (by decide)
  rw [← numeral_eq, numeral, Nat.toString_eq_repr, Nat.toList_repr]
  exact (congrArg (min maxNumeral) Nat.ofDigitChars_ten_toDigits).trans (Nat.min_eq_right hmax)

/-- What is written for a quantifier that begins with a brace is that quantifier in braces. -/
theorem braces_render {q : Quantifier} (h : q.bounds.Proper) {text : List Char}
    (hq : q.render = '{' :: text) :
    ∃ contents n m, Braces contents n m q ∧ text = contents ++ ['}'] := by
  cases q with
  | star => exact absurd hq (by simp [Quantifier.render])
  | plus => exact absurd hq (by simp [Quantifier.render])
  | question => exact absurd hq (by simp [Quantifier.render])
  | exactly n =>
      obtain ⟨-, rfl⟩ := List.cons.inj hq
      have hbraces := Braces.exactly (isNumeral_toString n)
      rw [numeralValue_toString (n := n) h.min_le] at hbraces
      exact ⟨_, _, _, hbraces, rfl⟩
  | atLeast n =>
      obtain ⟨-, rfl⟩ := List.cons.inj hq
      have hbraces := Braces.atLeast (isNumeral_toString n)
      rw [numeralValue_toString (n := n) h.min_le] at hbraces
      exact ⟨_, _, _, hbraces, by simp⟩
  | between n m =>
      obtain ⟨-, rfl⟩ := List.cons.inj hq
      have hbraces := Braces.between (isNumeral_toString n) (isNumeral_toString m)
      rw [numeralValue_toString (n := n) h.min_le, numeralValue_toString (h.max_le m rfl)] at hbraces
      exact ⟨_, _, _, hbraces, by simp⟩

/-- A quantifier in braces is read back. -/
theorem readBraces?_render {q : Quantifier} (h : q.bounds.Proper) {text : List Char}
    (hq : q.render = '{' :: text) (rest : List Char) :
    readBraces? (text ++ rest) = some (q, rest) := by
  obtain ⟨contents, n, m, hcontents, rfl⟩ := braces_render h hq
  exact readBraces?_eq_some_iff.2 ⟨contents, n, m, hcontents, by simp⟩

/-- Proper bounds have no fault. -/
theorem Bounds.Proper.fault?_eq_none {b : Bounds} (h : b.Proper) (pos : ℕ) :
    b.fault? pos = none := by
  obtain ⟨least, most?⟩ := b
  have hleast : least ≤ maxBound := h.min_le
  cases most? with
  | none =>
      have hlargest : ¬ maxBound < Nat.max least least :=
        Nat.not_lt.2 (Nat.max_le.2 ⟨hleast, hleast⟩)
      simp only [fault?, Option.getD_none, if_neg hlargest]
  | some most =>
      have hmost : most ≤ maxBound := h.max_le most rfl
      have horder : ¬ most < least := Nat.not_lt.2 (h.min_le_max most rfl)
      have hlargest : ¬ maxBound < Nat.max least most :=
        Nat.not_lt.2 (Nat.max_le.2 ⟨hleast, hmost⟩)
      simp only [fault?, Option.getD_some, if_neg hlargest, if_neg horder]

/-- **A quantifier is lazy exactly if a question mark follows**, which belongs to it then. -/
theorem quantify_eq_iff {part r : Regex} {q : Quantifier} {text rest : List Char} :
    quantify part q text = (r, rest) ↔
      ∃ greedy, r = .repeated part q greedy ∧ text = renderGreed greedy ++ rest ∧
        (greedy = true → rest.head? ≠ some '?') := by
  unfold quantify
  split
  · next text =>
    constructor
    · rintro ⟨⟩
      exact ⟨false, rfl, rfl, fun hgreedy => absurd hgreedy Bool.false_ne_true⟩
    · rintro ⟨_ | _, rfl, htext, hrest⟩
      · rw [(List.cons.inj htext).2]
        rfl
      · exact absurd (congrArg List.head? htext).symm (hrest rfl)
  · next hlazy =>
    constructor
    · rintro ⟨⟩
      refine ⟨true, rfl, rfl, fun _ hhead => ?_⟩
      obtain ⟨tail, htail⟩ := List.head?_eq_some_iff.1 hhead
      exact hlazy tail htail
    · rintro ⟨_ | _, rfl, htext, hrest⟩
      · exact absurd htext (hlazy rest)
      · rw [htext]
        rfl

/-- **A quantifier is read back**, and whether it is lazy, if something fresh follows. -/
theorem readSuffix_render (size : ℕ) (part : Regex) {q : Quantifier} (h : q.bounds.Proper)
    (greedy : Bool) {rest : List Char} (hrest : Fresh rest) :
    readSuffix size part (q.render ++ (renderGreed greedy ++ rest)) =
      .ok (.repeated part q greedy, rest) := by
  have hquantify : quantify part q (renderGreed greedy ++ rest) = (.repeated part q greedy, rest) :=
    quantify_eq_iff.2 ⟨greedy, rfl, rfl, fun _ hhead => hrest '?' hhead (by decide)⟩
  have hbraces : ∀ text, q.render = '{' :: text →
      readSuffix size part ('{' :: text ++ (renderGreed greedy ++ rest)) =
        .ok (.repeated part q greedy, rest) := by
    intro text hq
    rw [List.cons_append, readSuffix, readBraces?_render h hq]
    simp only [h.fault?_eq_none, hquantify]
  cases q with
  | star => exact congrArg Except.ok hquantify
  | plus => exact congrArg Except.ok hquantify
  | question => exact congrArg Except.ok hquantify
  | exactly n => exact hbraces _ rfl
  | atLeast n => exact hbraces _ rfl
  | between n m => exact hbraces _ rfl

/-- **A fresh text is no quantifier.** -/
theorem readSuffix_of_fresh (size : ℕ) (part : Regex) {rest : List Char} (hrest : Fresh rest) :
    readSuffix size part rest = .ok (part, rest) := by
  cases rest with
  | nil => rfl
  | cons c rest =>
      have hc := hrest c rfl
      simp only [List.mem_cons, List.not_mem_nil, or_false, not_or] at hc
      rw [readSuffix]
      all_goals simp [hc]

/-! ### Groups -/

/-- **What is read as the opening of a group**: its kind if that is written out, and otherwise a
capture, if no question mark follows. -/
theorem readOpening_eq_ok_iff {size number : ℕ} {opening : Opening} {text rest : List Char} :
    readOpening size number text = .ok (opening, rest) ↔
      text = opening.render ++ rest ∧
        ∀ n, opening = .capture n → n = number ∧ rest.head? ≠ some '?' := by
  constructor
  · intro h
    unfold readOpening at h
    split at h
    case h_8 hmore hend =>
      cases h
      refine ⟨rfl, fun n hn => ⟨(Opening.capture.inj hn).symm, fun hhead => ?_⟩⟩
      obtain ⟨tail, rfl⟩ := List.head?_eq_some_iff.1 hhead
      cases tail with
      | nil => exact hend rfl
      | cons c tail => exact hmore c tail rfl
    all_goals cases h
    all_goals exact ⟨rfl, fun n hn => by cases hn⟩
  · rintro ⟨rfl, h⟩
    cases opening with
    | capture n =>
        obtain ⟨rfl, hhead⟩ := h n rfl
        rw [Opening.render, List.nil_append, readOpening]
        all_goals
          intros
          subst_vars
          exact hhead rfl
    | group => rfl
    | look direction positive => cases direction <;> cases positive <;> rfl

/-- **The opening of a group is read back** if something fresh follows. -/
theorem readOpening_render (size : ℕ) {number : ℕ} {opening : Opening}
    (h : ∀ n, opening = .capture n → n = number) {rest : List Char} (hrest : Fresh rest) :
    readOpening size number (opening.render ++ rest) = .ok (opening, rest) :=
  readOpening_eq_ok_iff.2
    ⟨rfl, fun n hn => ⟨h n hn, fun hhead => hrest '?' hhead (by decide)⟩⟩

end RegexWords
