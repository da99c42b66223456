import RegexWords.Proofs.Reading.WellFormed

/-!
# What a Reader Takes from a Text

What a reader takes from the head of a text is a **piece** of it, and the piece alone tells what
was read: off any other text that begins with the piece the same is read, wherever that text
stands. This is so for classes and atoms because they show where they end; a class ends with its
bracket. It is not so for the members that one call reads of a class: there the reader looks two
characters ahead, for the dash of a range.

After an atom a quantifier may follow, and nothing shows that there is none. So what is read
there is the same off another text only if both go on alike. But what is left over may always be
cut off at the end: that leaves a shorter text to read, not another one.

## Main definitions

* `Takes`: the pieces of a reader.
* `BeginsRange`: the texts that may go on as the range of a class.

## Main results

* `exists_piece_of_readClass`, `exists_piece_of_readAtom`: **classes and atoms are pieces**.
* `readSuffix_of_append`, `readOpening_of_append`, `Reading.Step.of_append`,
  `Reading.Reaches.of_append`: what is left over may be **cut off at the end**.
* `Reading.Reaches.suffix`: what is not yet read is always the end of the text.
-/

namespace RegexWords

/-- A reader **takes** a piece as `a` if this is what it reads off any text that begins with the
piece, wherever the text stands. -/
def Takes {α : Type} (read : ℕ → List Char → Lexed α) (piece : List Char) (a : α) : Prop :=
  ∀ pos more, read pos (piece ++ more) = .ok (a, more)

/-- What is read off a piece is read off it before a longer text. -/
theorem Takes.read_append {α : Type} {read : ℕ → List Char → Lexed α}
    {piece text rest : List Char} {a : α} (h : Takes read piece a) (htext : text = piece ++ rest)
    (pos : ℕ) (more : List Char) : read pos (text ++ more) = .ok (a, rest ++ more) := by
  rw [htext, List.append_assoc, h]

/-! ### Classes -/

/-- A character is another one if that one is excluded both at the end and before more text. -/
theorem ne_of_excluded {c d : Char} {rest : List Char} (hend : c = d → rest = [] → False)
    (htext : ∀ e tail, c = d → rest = e :: tail → False) : c ≠ d := by
  intro hc
  cases rest with
  | nil => exact hend hc rfl
  | cons e tail => exact htext e tail hc rfl

/-- A single member of a class is a piece. -/
theorem exists_piece_of_readClassAtom {start : ℕ} {text rest : List Char} {m : ClassMember}
    (h : readClassAtom start text = .ok (m, rest)) :
    ∃ piece, text = piece ++ rest ∧ Takes readClassAtom piece m := by
  unfold readClassAtom at h
  split at h
  · cases h
  · cases h
  · next c rest =>
    cases h
    exact ⟨['\\', c], rfl, fun _ _ => rfl⟩
  · next c rest hend hescape =>
    cases h
    have hc : c ≠ '\\' := ne_of_excluded hend hescape
    refine ⟨[c], rfl, fun pos more => ?_⟩
    rw [List.singleton_append, readClassAtom]
    all_goals simp [hc]

/-- A single member whose first character is known is a piece that begins with it. -/
theorem exists_piece_of_readClassAtom_cons {start : ℕ} {c : Char} {tail rest : List Char}
    {m : ClassMember} (h : readClassAtom start (c :: tail) = .ok (m, rest)) :
    ∃ piece, tail = piece ++ rest ∧ Takes readClassAtom (c :: piece) m := by
  obtain ⟨piece, htext, htakes⟩ := exists_piece_of_readClassAtom h
  cases piece with
  | nil => cases htakes start []
  | cons d piece =>
      obtain ⟨rfl, htail⟩ := List.cons.inj htext
      exact ⟨piece, htail, htakes⟩

/-- A text **begins a range** if it may go on as one after a character: with a dash before
anything but the closing bracket. -/
def BeginsRange (text : List Char) : Prop :=
  ∃ c tail, text = '-' :: c :: tail ∧ c ≠ ']'

/-- Whether a text begins a range shows in its first two characters. -/
theorem BeginsRange.of_append {text more : List Char} (h : BeginsRange (text ++ more))
    (hnil : text ≠ []) (hdash : text ≠ ['-']) (more' : List Char) :
    BeginsRange (text ++ more') := by
  obtain ⟨c, tail, heq, hc⟩ := h
  rcases text with _ | ⟨d, _ | ⟨e, text⟩⟩
  · exact absurd rfl hnil
  · exact absurd (congrArg (fun d => [d]) (List.cons.inj heq).1) hdash
  · simp only [List.cons_append, List.cons.injEq] at heq
    obtain ⟨rfl, rfl, -⟩ := heq
    exact ⟨e, text ++ more', rfl, hc⟩

/-- **An item of a class** is the same before any text that begins a range only if the text after
the item did. -/
theorem ClassItem.exists_piece {start : ℕ} {text rest : List Char} {members : List ClassMember}
    (h : ClassItem start text members rest) :
    ∃ piece, text = piece ++ rest ∧ ∀ pos rest', (BeginsRange rest' → BeginsRange rest) →
      ClassItem pos (piece ++ rest') members rest' := by
  cases h with
  | piece hatom hend =>
      obtain ⟨piece, htext, htakes⟩ := exists_piece_of_readClassAtom hatom
      refine ⟨piece, htext, fun pos rest' hrest => ClassItem.piece (htakes pos rest') ?_⟩
      intro first c tail hm htail
      by_contra hc
      obtain ⟨d, tail', htail', hd⟩ := hrest ⟨c, tail, htail, hc⟩
      exact hd (hend first d tail' hm htail')
  | @range first last c tail _ hfirst hc hlast horder =>
      obtain ⟨piece, htext, htakes⟩ := exists_piece_of_readClassAtom hfirst
      obtain ⟨piece', htail, htakes'⟩ := exists_piece_of_readClassAtom_cons hlast
      refine ⟨piece ++ '-' :: c :: piece', by rw [htext, htail]; simp, fun pos rest' _ => ?_⟩
      rw [List.append_assoc]
      exact ClassItem.range (htakes pos _) hc (htakes' pos rest') horder
  | @apart first c tail _ m hfirst hc hlast hm =>
      obtain ⟨piece, htext, htakes⟩ := exists_piece_of_readClassAtom hfirst
      obtain ⟨piece', htail, htakes'⟩ := exists_piece_of_readClassAtom_cons hlast
      refine ⟨piece ++ '-' :: c :: piece', by rw [htext, htail]; simp, fun pos rest' _ => ?_⟩
      rw [List.append_assoc]
      exact ClassItem.apart (htakes pos _) hc (htakes' pos rest') hm

/-- A class is not closed at the end of the text. -/
theorem readClassMembers_nil (start : ℕ) :
    readClassMembers start [] = .error (.unterminatedClass start, []) := by
  rw [readClassMembers]
  rfl

/-- A class is not closed by a dash. -/
theorem readClassMembers_dash (start : ℕ) :
    readClassMembers start ['-'] = .error (.unterminatedClass start, []) := by
  have hitem : readClassItem start ['-'] = .ok ([.single '-'], []) := rfl
  rw [readClassMembers_item (by decide) hitem, readClassMembers_nil]

/-- A class that ends does not end with a dash or before its bracket. -/
theorem ne_of_readClassMembers {start : ℕ} {text rest : List Char} {members : List ClassMember}
    (h : readClassMembers start text = .ok (members, rest)) : text ≠ [] ∧ text ≠ ['-'] := by
  refine ⟨?_, ?_⟩
  · rintro rfl
    rw [readClassMembers_nil] at h
    cases h
  · rintro rfl
    rw [readClassMembers_dash] at h
    cases h

/-- The members up to the closing bracket are a piece. -/
theorem exists_piece_of_readClassMembers {start : ℕ} {text rest : List Char}
    {members : List ClassMember} (h : readClassMembers start text = .ok (members, rest)) :
    ∃ piece, text = piece ++ rest ∧ Takes readClassMembers piece members := by
  fun_induction readClassMembers start text generalizing members rest with
  | case1 text hc =>
      cases h
      obtain ⟨tail, rfl⟩ := List.head?_eq_some_iff.1 hc
      exact ⟨[']'], rfl, readClassMembers_close⟩
  | case2 => cases h
  | case3 => cases h
  | case4 text hc items rest₁ hitem _ later rest₂ hlater ih =>
      cases h
      obtain ⟨piece, htext, hitem⟩ := (readClassItem_eq_ok_iff.1 hitem).exists_piece
      obtain ⟨piece', rfl, htakes⟩ := ih hlater
      have hend := ne_of_readClassMembers (htakes start [])
      rw [List.append_nil] at hend
      refine ⟨piece ++ piece', by rw [htext, List.append_assoc], fun pos more => ?_⟩
      have hitem' := readClassItem_eq_ok_iff.2 <| hitem pos (piece' ++ more) fun hrange =>
        hrange.of_append hend.1 hend.2 rest₂
      have hhead : (piece ++ (piece' ++ more)).head? ≠ some ']' := by
        rw [htext, ← List.append_assoc, List.head?_append_of_ne_nil _ (by simp [hend.1])] at hc
        rwa [← List.append_assoc, List.head?_append_of_ne_nil _ (by simp [hend.1])]
      rw [List.append_assoc]
      exact readClassMembers_of_item hhead hitem' (htakes pos more)

/-- Whether a class is negated shows in its first character. -/
theorem exists_piece_of_readNegation (text : List Char) :
    ∃ piece, text = piece ++ (readNegation text).2 ∧ ∀ text',
      (text'.head? = some '^' → (readNegation text).2.head? = some '^') →
        readNegation (piece ++ text') = ((readNegation text).1, text') := by
  unfold readNegation
  split
  · next rest => exact ⟨['^'], rfl, fun _ _ => rfl⟩
  · next hcaret =>
    refine ⟨[], rfl, fun text' hhead => ?_⟩
    rw [List.nil_append]
    split
    · next rest =>
      obtain ⟨tail, htail⟩ := List.head?_eq_some_iff.1 (hhead rfl)
      exact absurd htail (hcaret tail)
    · rfl

/-- Whether a class begins with a bracket shows in its first character. -/
theorem exists_piece_of_readLeadingBracket (text : List Char) :
    ∃ piece, text = piece ++ (readLeadingBracket text).2 ∧ ∀ text',
      (text'.head? = some ']' → (readLeadingBracket text).2.head? = some ']') →
        readLeadingBracket (piece ++ text') = ((readLeadingBracket text).1, text') := by
  unfold readLeadingBracket
  split
  · next rest => exact ⟨[']'], rfl, fun _ _ => rfl⟩
  · next hbracket =>
    refine ⟨[], rfl, fun text' hhead => ?_⟩
    rw [List.nil_append]
    split
    · next rest =>
      obtain ⟨tail, htail⟩ := List.head?_eq_some_iff.1 (hhead rfl)
      exact absurd htail (hbracket tail)
    · rfl

/-- What a class is that has certain members after its head, which negates it or not and may hold
a bracket already. -/
def classOf (leading : List ClassMember) (negated : Bool) :
    Lexed (List ClassMember) → Lexed Regex
  | .error e => .error e
  | .ok (members, rest) => .ok (.charClass (leading ++ members) negated, rest)

/-- **The head of a class** is a piece before any members that do not begin with a caret or a
bracket, unless the members after it did so too. -/
theorem exists_piece_of_classHead (text : List Char) :
    ∃ piece inside leading negated, text = piece ++ inside ∧ ∀ start text',
      (∀ c ∈ ['^', ']'], text'.head? = some c → inside.head? = some c) →
        readClass start (piece ++ text') =
          classOf leading negated (readClassMembers start text') := by
  obtain ⟨negation, htext, hnegation⟩ := exists_piece_of_readNegation text
  obtain ⟨bracket, htext', hbracket⟩ := exists_piece_of_readLeadingBracket (readNegation text).2
  refine ⟨negation ++ bracket, (readLeadingBracket (readNegation text).2).2,
    (readLeadingBracket (readNegation text).2).1, (readNegation text).1, ?_,
    fun start text' hhead => ?_⟩
  · rw [List.append_assoc, ← htext', ← htext]
  · have hcaret : (bracket ++ text').head? = some '^' → (readNegation text).2.head? = some '^' := by
      rw [htext']
      cases bracket with
      | nil => exact hhead '^' (by simp)
      | cons c bracket => exact id
    have hnegation' := hnegation _ hcaret
    have hbracket' := hbracket _ (hhead ']' (by simp))
    rw [List.append_assoc]
    simp only [readClass, hnegation', hbracket']
    rfl

/-- **A class** is a piece. -/
theorem exists_piece_of_readClass {start : ℕ} {text rest : List Char} {r : Regex}
    (h : readClass start text = .ok (r, rest)) :
    ∃ piece, text = piece ++ rest ∧ Takes readClass piece r := by
  obtain ⟨head, inside, leading, negated, rfl, hclass⟩ := exists_piece_of_classHead text
  rw [hclass start inside fun _ _ => id] at h
  cases hmembers : readClassMembers start inside with
  | error e => rw [hmembers] at h; cases h
  | ok found =>
      obtain ⟨members, rest⟩ := found
      rw [hmembers] at h
      cases h
      obtain ⟨piece, rfl, htakes⟩ := exists_piece_of_readClassMembers hmembers
      have hne : piece ≠ [] := by
        have hend := ne_of_readClassMembers (htakes start [])
        rw [List.append_nil] at hend
        exact hend.1
      refine ⟨head ++ piece, (List.append_assoc _ _ _).symm, fun pos more => ?_⟩
      rw [List.append_assoc, hclass, htakes]
      · rfl
      · rw [List.head?_append_of_ne_nil _ hne, List.head?_append_of_ne_nil _ hne]
        exact fun _ _ => id

/-! ### Atoms -/

/-- **An atom** is a piece. -/
theorem exists_piece_of_readAtom {size : ℕ} {text rest : List Char} {r : Regex}
    (h : readAtom size text = .ok (r, rest)) :
    ∃ piece, text = piece ++ rest ∧ Takes readAtom piece r := by
  unfold readAtom at h
  split at h
  case h_2 text =>
    obtain ⟨piece, htext, htakes⟩ := exists_piece_of_readClass h
    exact ⟨'[' :: piece, congrArg _ htext, fun pos more => htakes _ more⟩
  case h_10 c text =>
    cases h
    exact ⟨['\\', c], rfl, fun _ _ => rfl⟩
  case h_11 c text h₁ h₂ h₃ h₄ h₅ h₆ h₇ h₈ h₉ =>
    cases h
    have hc : c ≠ '\\' := ne_of_excluded h₈ h₉
    refine ⟨[c], rfl, fun pos more => ?_⟩
    rw [List.singleton_append, readAtom]
    all_goals simp_all
  all_goals cases h
  all_goals exact ⟨[_], rfl, fun _ _ => rfl⟩

/-- What is left over may be cut off after an atom. -/
theorem readAtom_of_append {size : ℕ} {text rest more : List Char} {r : Regex}
    (h : readAtom size (text ++ more) = .ok (r, rest ++ more)) (size' : ℕ) :
    readAtom size' text = .ok (r, rest) := by
  obtain ⟨piece, htext, htakes⟩ := exists_piece_of_readAtom h
  rw [← List.append_assoc] at htext
  rw [List.append_cancel_right htext, htakes]

/-! ### Quantifiers -/

/-- **A quantifier** is a piece. -/
theorem exists_piece_of_quantifierAt? {text rest : List Char} {q : Quantifier}
    (h : quantifierAt? text = some (q, rest)) :
    ∃ piece, text = piece ++ rest ∧ ∀ more, quantifierAt? (piece ++ more) = some (q, more) := by
  unfold quantifierAt? at h
  split at h
  case h_4 text =>
    obtain ⟨contents, n, m, hcontents, rfl⟩ := readBraces?_eq_some_iff.1 h
    refine ⟨'{' :: (contents ++ ['}']), by simp, fun more => ?_⟩
    exact readBraces?_eq_some_iff.2 ⟨contents, n, m, hcontents, by simp⟩
  all_goals cases h
  all_goals exact ⟨[_], rfl, fun _ => rfl⟩

/-- A quantifier that is found in a text is found in a longer one. -/
theorem quantifierAt?_append_of_some {text rest : List Char} {q : Quantifier}
    (h : quantifierAt? text = some (q, rest)) (more : List Char) :
    quantifierAt? (text ++ more) = some (q, rest ++ more) := by
  obtain ⟨piece, rfl, htakes⟩ := exists_piece_of_quantifierAt? h
  rw [List.append_assoc, htakes]

/-- No first character is another one before more text. -/
theorem head?_ne_of_append {text more : List Char} {c : Char}
    (h : (text ++ more).head? ≠ some c) : text.head? ≠ some c := by
  intro hhead
  obtain ⟨tail, rfl⟩ := List.head?_eq_some_iff.1 hhead
  exact h rfl

/-- What is left over may be cut off after a quantifier, and after its absence. -/
theorem readSuffix_of_append {size : ℕ} {part r : Regex} {text rest more : List Char}
    (h : readSuffix size part (text ++ more) = .ok (r, rest ++ more)) (size' : ℕ) :
    readSuffix size' part text = .ok (r, rest) := by
  rw [readSuffix_eq_ok_iff] at h ⊢
  rcases h with ⟨hnone, rfl, htext⟩ | ⟨q, text', hsome, hq, hquantify⟩
  · refine Or.inl ⟨?_, rfl, List.append_cancel_right htext⟩
    cases hsome : quantifierAt? text with
    | none => rfl
    | some found => rw [quantifierAt?_append_of_some hsome more] at hnone; cases hnone
  · obtain ⟨greedy, rfl, rfl, hlazy⟩ := quantify_eq_iff.1 hquantify
    obtain ⟨piece, htext, htakes⟩ := exists_piece_of_quantifierAt? hsome
    rw [← List.append_assoc, ← List.append_assoc] at htext
    rw [List.append_cancel_right htext, List.append_assoc]
    exact Or.inr ⟨q, _, htakes _, hq, quantify_eq_iff.2
      ⟨greedy, rfl, rfl, fun hgreedy => head?_ne_of_append (hlazy hgreedy)⟩⟩

/-- What is left over may be cut off after the opening of a group. -/
theorem readOpening_of_append {size number : ℕ} {opening : Opening} {text rest more : List Char}
    (h : readOpening size number (text ++ more) = .ok (opening, rest ++ more)) (size' : ℕ) :
    readOpening size' number text = .ok (opening, rest) := by
  obtain ⟨htext, hcapture⟩ := readOpening_eq_ok_iff.1 h
  rw [← List.append_assoc] at htext
  exact readOpening_eq_ok_iff.2 ⟨List.append_cancel_right htext, fun n hn =>
    ⟨(hcapture n hn).1, head?_ne_of_append (hcapture n hn).2⟩⟩

/-! ### Steps -/

/-- What is left after a part and its quantifier is the end of the text. -/
theorem suffix_of_readSuffix {size : ℕ} {part r : Regex} {text rest : List Char}
    (h : readSuffix size part text = .ok (r, rest)) : rest <:+ text := by
  rcases readSuffix_eq_ok_iff.1 h with ⟨-, -, rfl⟩ | ⟨q, text', hsome, -, hquantify⟩
  · exact List.suffix_refl text
  · obtain ⟨greedy, -, rfl, -⟩ := quantify_eq_iff.1 hquantify
    obtain ⟨piece, rfl, -⟩ := exists_piece_of_quantifierAt? hsome
    exact ⟨piece ++ renderGreed greedy, by simp⟩

namespace Reading

/-- The reading with more text after what is not yet read. -/
def append (r : Reading) (more : List Char) : Reading :=
  { r with rest := r.rest ++ more }

/-- What a step leaves is the end of what was left before. -/
theorem Step.suffix {size : ℕ} {r s : Reading} (h : Step size r s) : s.rest <:+ r.rest := by
  cases h with
  | part hc hatom hpart =>
      obtain ⟨piece, htext, -⟩ := exists_piece_of_readAtom hatom
      exact (suffix_of_readSuffix hpart).trans ⟨piece, htext.symm⟩
  | bar outer level groups rest => exact List.suffix_cons '|' rest
  | @enter outer level groups text rest opening hopening =>
      obtain ⟨htext, -⟩ := readOpening_eq_ok_iff.1 hopening
      exact ⟨'(' :: opening.render, congrArg _ htext.symm⟩
  | leave hpart => exact (suffix_of_readSuffix hpart).trans (List.suffix_cons ')' _)

/-- **What is not yet read is always the end of the text.** -/
theorem Reaches.suffix {size : ℕ} {r s : Reading} (h : Reaches size r s) : s.rest <:+ r.rest := by
  induction h with
  | refl => exact List.suffix_refl _
  | tail _ hstep ih => exact (step_eq_ok_iff.1 hstep).suffix.trans ih

/-- What is left over may be cut off after **a step**. -/
theorem Step.of_append {size : ℕ} {r s : Reading} {more : List Char}
    (h : Step size (r.append more) (s.append more)) (size' : ℕ) : Step size' r s := by
  obtain ⟨outer, level, groups, text⟩ := r
  obtain ⟨outer', level', groups', rest⟩ := s
  have hlt := length_rest_lt_of_step (step_eq_ok_iff.2 h)
  simp only [append, List.length_append, Nat.add_lt_add_iff_right] at hlt
  obtain ⟨c, text, rfl⟩ := List.exists_cons_of_length_pos (Nat.zero_lt_of_lt hlt)
  simp only [append, List.cons_append] at h
  generalize hrest : rest ++ more = rest' at h
  cases h with
  | part hc hatom hpart =>
      subst hrest
      -- what is left between the atom and its quantifier ends in the same text
      obtain ⟨between, rfl⟩ := suffix_of_readSuffix hpart
      rw [← List.append_assoc] at hatom hpart
      exact Step.part hc (readAtom_of_append hatom size') (readSuffix_of_append hpart size')
  | bar outer level groups rest =>
      obtain rfl := List.append_cancel_right hrest
      exact Step.bar outer level groups rest
  | enter hopening =>
      subst hrest
      exact Step.enter (readOpening_of_append hopening size')
  | leave hpart =>
      subst hrest
      exact Step.leave (readSuffix_of_append hpart size')

/-- What is left over may be cut off after **any number of steps**. -/
theorem Reaches.of_append {size : ℕ} {r s : Reading} {more : List Char}
    (h : Reaches size (r.append more) (s.append more)) (size' : ℕ) : Reaches size' r s := by
  generalize hr : r.append more = r' at h
  induction h using Relation.ReflTransGen.head_induction_on generalizing r with
  | refl =>
      obtain ⟨outer, level, groups, text⟩ := r
      obtain ⟨outer', level', groups', rest⟩ := s
      simp only [append, Reading.mk.injEq, List.append_cancel_right_eq] at hr
      obtain ⟨rfl, rfl, rfl, rfl⟩ := hr
      exact Relation.ReflTransGen.refl
  | @head _ t hstep hreach ih =>
      subst hr
      obtain ⟨between, hbetween⟩ := Reaches.suffix hreach
      have ht : append { t with rest := between ++ s.rest } more = t := by
        simp only [append] at hbetween ⊢
        rw [List.append_assoc, hbetween]
      rw [← ht] at hstep
      exact (ih ht).head (step_eq_ok_iff.2 ((step_eq_ok_iff.1 hstep).of_append size'))

end Reading

end RegexWords
