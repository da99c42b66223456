import Mathlib
import RegexWords.Proofs.Reading
import RegexWords.Proofs.Rendering.Lexeme

/-!
# What Is Read Is Well Formed

Every pattern that a text is read as is well formed, whatever the text. The small pieces are
proper by themselves, because their readers test numbers and bounds. What stands on the stack
stays proper from step to step: a level holds parts that bind tightly, and only when it is closed
they become a sequence or alternatives. The numbers of the groups that were opened so far, read
off the stack from the bottom to the top, count from `1` without a gap.

## Main definitions

* `Regex.IsLeaf`: the nodes that hold no other tree.
* `ClassItem`: what is read at once of a class.
* `quantifierAt?`: the quantifier at the head of a text.
* `Reading.WellFormed`: the invariant of the stack.

## Main results

* `readClassItem_eq_ok_iff`, `readAtom_proper`, `readSuffix_eq_ok_iff`: what the readers of small
  pieces give.
* `Reading.WellFormed.step`: **one step keeps the stack well formed**.
* `Pattern.wellFormed_of_ofText`: **what is read is well formed**.
-/

namespace RegexWords

/-! ### Leaves -/

namespace Regex

/-- A **leaf** is a node that holds no other tree and could not hold one. -/
inductive IsLeaf : Regex → Prop
  | literal (c : Char) : IsLeaf (literal c)
  | dot : IsLeaf dot
  | charClass (members : List ClassMember) (negated : Bool) : IsLeaf (charClass members negated)
  | shorthand (kind : Shorthand) : IsLeaf (shorthand kind)
  | anchor (kind : Anchor) : IsLeaf (anchor kind)
  | backreference (number : ℕ) : IsLeaf (backreference number)

namespace IsLeaf

variable {r : Regex}

/-- A leaf binds tightly. -/
theorem looseness_eq (h : r.IsLeaf) : r.looseness = 0 := by
  cases h <;> rfl

/-- A leaf is its only node. -/
theorem preorder_eq (h : r.IsLeaf) : r.preorder true = [r] := by
  cases h <;> rfl

/-- There are no groups in a leaf. -/
theorem groupNumbers_eq (h : r.IsLeaf) : groupNumbers (some r) = [] := by
  cases h <;> rfl

end IsLeaf

/-- An escape stands for a proper leaf. -/
theorem proper_ofEscape (c : Char) : (ofEscape c).IsLeaf ∧ (ofEscape c).Proper := by
  unfold ofEscape
  split
  · exact ⟨.shorthand _, trivial⟩
  · split
    · exact ⟨.anchor _, trivial⟩
    · split
      · exact ⟨.anchor _, trivial⟩
      · split
        · next hdigit =>
          have hmin : '1'.toNat ≤ c.toNat := hdigit.1
          have hmax : c.toNat ≤ '9'.toNat := hdigit.2
          have hone : '1'.toNat = '0'.toNat + 1 := rfl
          have hnine : '9'.toNat = '0'.toNat + 9 := rfl
          refine ⟨.backreference _, ?_, ?_⟩ <;> omega
        · exact ⟨.literal _, trivial⟩

end Regex

/-! ### Classes -/

/-- A single piece of a class is no range. -/
theorem readClassAtom_proper {start : ℕ} {text rest : List Char} {m : ClassMember}
    (h : readClassAtom start text = .ok (m, rest)) : m.Proper := by
  unfold readClassAtom at h
  split at h
  · cases h
  · cases h
  · next c _ =>
    cases h
    unfold ClassMember.ofEscape
    split <;> trivial
  · cases h
    trivial

/-- The **items** of a class: what one call takes from the text, by its kind. -/
inductive ClassItem (start : ℕ) (text : List Char) : List ClassMember → List Char → Prop
  /-- A single piece that begins no range. -/
  | piece {m : ClassMember} {rest : List Char} : readClassAtom start text = .ok (m, rest) →
      (∀ first c tail, m = .single first → rest = '-' :: c :: tail → c = ']') →
      ClassItem start text [m] rest
  /-- Two characters with a dash between them. -/
  | range {first last c : Char} {tail rest : List Char} :
      readClassAtom start text = .ok (.single first, '-' :: c :: tail) → c ≠ ']' →
      readClassAtom start (c :: tail) = .ok (.single last, rest) → ¬ last < first →
      ClassItem start text [.range first last] rest
  /-- A character and a shorthand with a dash between them, which stands for itself. -/
  | apart {first c : Char} {tail rest : List Char} {m : ClassMember} :
      readClassAtom start text = .ok (.single first, '-' :: c :: tail) → c ≠ ']' →
      readClassAtom start (c :: tail) = .ok (m, rest) → (∀ last, m ≠ .single last) →
      ClassItem start text [.single first, .single '-', m] rest

/-- **The kinds of items of a class.** Members are read next exactly if they are an item. -/
theorem readClassItem_eq_ok_iff {start : ℕ} {text rest : List Char} {members : List ClassMember} :
    readClassItem start text = .ok (members, rest) ↔ ClassItem start text members rest := by
  constructor
  · intro h
    unfold readClassItem at h
    split at h
    · cases h
    · next first c tail hfirst =>
      split at h
      · next hc =>
        cases h
        refine ClassItem.piece hfirst ?_
        rintro _ _ _ - ⟨⟩
        exact hc
      · next hc =>
        split at h
        · cases h
        · next last rest' hlast =>
          split at h
          · cases h
          · next horder =>
            cases h
            exact ClassItem.range hfirst hc hlast horder
        · next m rest' hm hlast =>
          cases h
          exact ClassItem.apart hfirst hc hlast fun last heq => hm last heq
    · next m rest' hm hfirst =>
      cases h
      refine ClassItem.piece hfirst ?_
      rintro first c tail rfl rfl
      exact absurd rfl (hm first c tail rfl)
  · rintro (⟨hatom, hend⟩ | ⟨hfirst, hc, hlast, horder⟩ | ⟨hfirst, hc, hlast, hm⟩)
    · rw [readClassItem, hatom]
      split
      · next heq => cases heq
      · next heq =>
        cases heq
        rw [if_pos (hend _ _ _ rfl rfl)]
      · next heq =>
        cases heq
        rfl
    · simp only [readClassItem, hfirst, hlast, if_neg hc, if_neg horder]
    · simp only [readClassItem, hfirst, hlast, if_neg hc]

/-- Members that are read next are proper, and there is one at least. -/
theorem readClassItem_proper {start : ℕ} {text rest : List Char} {members : List ClassMember}
    (h : readClassItem start text = .ok (members, rest)) :
    members ≠ [] ∧ ∀ m ∈ members, m.Proper := by
  cases readClassItem_eq_ok_iff.1 h with
  | piece hatom hend =>
      exact ⟨List.cons_ne_nil _ _, by simpa using readClassAtom_proper hatom⟩
  | range hfirst hc hlast horder =>
      exact ⟨List.cons_ne_nil _ _, by simpa [ClassMember.Proper] using horder⟩
  | apart hfirst hc hlast hm =>
      exact ⟨List.cons_ne_nil _ _,
        by simpa [ClassMember.Proper] using readClassAtom_proper hlast⟩

/-- The members up to the closing bracket are proper, and there is one at least unless the bracket
comes at once. -/
theorem readClassMembers_proper {start : ℕ} {text rest : List Char} {members : List ClassMember}
    (h : readClassMembers start text = .ok (members, rest)) :
    (text.head? ≠ some ']' → members ≠ []) ∧ ∀ m ∈ members, m.Proper := by
  fun_induction readClassMembers start text generalizing members rest with
  | case1 text hc =>
      cases h
      exact ⟨fun hne => absurd hc hne, fun m hm => absurd hm List.not_mem_nil⟩
  | case2 => cases h
  | case3 => cases h
  | case4 text _ items rest₁ hitem _ more rest₂ hmore ih =>
      cases h
      obtain ⟨hne, hitems⟩ := readClassItem_proper hitem
      refine ⟨fun _ => List.append_ne_nil_of_left_ne_nil hne _, fun m hm => ?_⟩
      rcases List.mem_append.1 hm with hm | hm
      · exact hitems m hm
      · exact (ih hmore).2 m hm

/-- **A class that is read is proper.** -/
theorem readClass_proper {start : ℕ} {text rest : List Char} {r : Regex}
    (h : readClass start text = .ok (r, rest)) : r.IsLeaf ∧ r.Proper := by
  simp only [readClass] at h
  split at h
  · cases h
  · next members _ hmembers =>
    cases h
    obtain ⟨hne, hproper⟩ := readClassMembers_proper hmembers
    refine ⟨.charClass _ _, ?_, fun m hm => ?_⟩
    · -- either a bracket came first, or it did not and there are further members
      revert hne
      unfold readLeadingBracket
      split
      · exact fun _ => List.cons_ne_nil _ _
      · next text hbracket =>
        intro hne
        refine hne fun hhead => ?_
        obtain ⟨tail, htail⟩ := List.head?_eq_some_iff.1 hhead
        exact hbracket tail htail
    · rcases List.mem_append.1 hm with hm | hm
      · revert hm
        unfold readLeadingBracket
        split
        · intro hm
          rw [List.mem_singleton.1 hm]
          trivial
        · exact fun hm => absurd hm List.not_mem_nil
      · exact hproper m hm

/-! ### Atoms and quantifiers -/

/-- **An atom that is read is a proper leaf.** -/
theorem readAtom_proper {size : ℕ} {text rest : List Char} {r : Regex}
    (h : readAtom size text = .ok (r, rest)) : r.IsLeaf ∧ r.Proper := by
  unfold readAtom at h
  split at h
  case h_2 => exact readClass_proper h
  case h_10 c _ =>
    cases h
    exact Regex.proper_ofEscape c
  all_goals cases h
  all_goals exact ⟨by constructor, trivial⟩

/-- Bounds without a fault are proper. -/
theorem Bounds.proper_of_fault?_eq_none {b : Bounds} {pos : ℕ} (h : b.fault? pos = none) :
    b.Proper := by
  obtain ⟨least, most?⟩ := b
  simp only [fault?] at h
  split at h
  · cases h
  · next hlargest =>
    obtain ⟨hleast, hmost⟩ := Nat.max_le.1 (Nat.not_lt.1 hlargest)
    cases most? with
    | none => exact ⟨hleast, by simp, by simp⟩
    | some most =>
        have horder : least ≤ most := by
          refine Nat.not_lt.1 fun hc => ?_
          simp only [if_pos hc] at h
          cases h
        exact ⟨hleast, by simpa using hmost, by simpa using horder⟩

/-- The quantifier at the head of a text with the text after it, if there is one. -/
def quantifierAt? : List Char → Option (Quantifier × List Char)
  | '*' :: rest => some (.star, rest)
  | '+' :: rest => some (.plus, rest)
  | '?' :: rest => some (.question, rest)
  | '{' :: rest => readBraces? rest
  | _ => none

/-- A part is read with the quantifier at the head of what follows, unless its bounds have a
fault. -/
theorem readSuffix_eq_quantifierAt? (size : ℕ) (part : Regex) (text : List Char) :
    readSuffix size part text = match quantifierAt? text with
      | none => .ok (part, text)
      | some (q, text') => match q.bounds.fault? (size - text.length) with
        | some fault => .error (fault, text')
        | none => .ok (quantify part q text') := by
  unfold readSuffix
  split
  · rfl
  · rfl
  · rfl
  · rfl
  · rw [quantifierAt?]
    all_goals assumption

/-- **What is read after a part**: nothing if no quantifier follows, or the quantifier if its
bounds are proper. -/
theorem readSuffix_eq_ok_iff {size : ℕ} {part r : Regex} {text rest : List Char} :
    readSuffix size part text = .ok (r, rest) ↔
      quantifierAt? text = none ∧ part = r ∧ text = rest ∨
        ∃ q text', quantifierAt? text = some (q, text') ∧ q.bounds.Proper ∧
          quantify part q text' = (r, rest) := by
  rw [readSuffix_eq_quantifierAt?]
  cases quantifierAt? text with
  | none => simp
  | some found =>
      obtain ⟨q, text'⟩ := found
      dsimp only
      cases hfault : q.bounds.fault? (size - text.length) with
      | none =>
          have hproper := Bounds.proper_of_fault?_eq_none hfault
          simp [hproper]
      | some fault =>
          have hproper : ¬ q.bounds.Proper := by
            intro hproper
            rw [hproper.fault?_eq_none] at hfault
            cases hfault
          simp [hproper]

/-- A part that was read with a suffix is quantified once at most. -/
theorem readSuffix_eq {size : ℕ} {part r : Regex} {text rest : List Char}
    (h : readSuffix size part text = .ok (r, rest)) :
    r = part ∨ ∃ q greedy, r = .repeated part q greedy ∧ q.bounds.Proper := by
  rcases readSuffix_eq_ok_iff.1 h with ⟨-, rfl, -⟩ | ⟨q, text', -, hq, hquantify⟩
  · exact Or.inl rfl
  · obtain ⟨greedy, rfl, -, -⟩ := quantify_eq_iff.1 hquantify
    exact Or.inr ⟨q, greedy, rfl, hq⟩

/-! ### Levels -/

namespace Regex

/-- A tree is a **proper part** if it may stand in a sequence and all its nodes are proper. -/
def ProperPart (r : Regex) : Prop :=
  r.looseness ≤ 1 ∧ ∀ s ∈ r.preorder true, s.Proper

/-- A proper leaf is a proper part. -/
theorem IsLeaf.properPart {r : Regex} (h : r.IsLeaf) (hr : r.Proper) : r.ProperPart := by
  refine ⟨h.looseness_eq ▸ Nat.zero_le 1, ?_⟩
  rw [h.preorder_eq]
  simpa using hr

/-- A group around proper nodes binds tightly and is a proper part. -/
theorem properPart_close (opening : Opening) {body : Option Regex}
    (h : ∀ s ∈ preorderBody true body, s.Proper) :
    (opening.close body).looseness = 0 ∧ (opening.close body).ProperPart := by
  have hnodes : ∀ r : Regex, r.Proper → ∀ s ∈ r :: preorderBody true body, s.Proper := by
    intro r hr s hs
    rcases List.mem_cons.1 hs with rfl | hs
    · exact hr
    · exact h s hs
  cases opening <;> exact ⟨rfl, Nat.zero_le 1, hnodes _ trivial⟩

/-- What is read after a proper part that binds tightly leaves a proper part with the same
groups. -/
theorem ProperPart.readSuffix {size : ℕ} {part r : Regex} {text rest : List Char}
    (h : part.ProperPart) (htight : part.looseness = 0)
    (hread : RegexWords.readSuffix size part text = .ok (r, rest)) :
    r.ProperPart ∧ groupNumbers (some r) = groupNumbers (some part) := by
  rcases readSuffix_eq hread with rfl | ⟨q, greedy, rfl, hq⟩
  · exact ⟨h, rfl⟩
  · refine ⟨⟨Nat.le_refl 1, fun s hs => ?_⟩, rfl⟩
    rw [preorder] at hs
    rcases List.mem_cons.1 hs with rfl | hs
    · exact ⟨htight, hq⟩
    · exact h.2 s hs

end Regex

open Regex

namespace Level

/-- A level is **proper** if all nodes on it are, and its parts may stand in a sequence. -/
structure Proper (l : Level) : Prop where
  earlier : ∀ body ∈ l.earlier, ∀ s ∈ preorderBody true body, s.Proper
  parts : ∀ r ∈ l.parts, r.ProperPart

/-- The numbers of the groups on a level, in the order of their opening parentheses. -/
def numbers (l : Level) : List ℕ :=
  l.earlier.elim [] groupNumbers ++ l.parts.reverse.flatMap fun r => groupNumbers (some r)

variable {l : Level}

/-- An empty level is proper. -/
theorem proper_empty : ({} : Level).Proper :=
  ⟨fun _ h => absurd h (Option.not_mem_none _), fun _ h => absurd h List.not_mem_nil⟩

/-- The parts since the last bar are a proper tree that may stand beside a bar. -/
theorem Proper.alternative (h : l.Proper) :
    (∀ r ∈ l.alternative, r.looseness ≤ 2) ∧
      ∀ s ∈ preorderBody true l.alternative, s.Proper := by
  obtain ⟨earlier, parts⟩ := l
  rcases parts with _ | ⟨r, _ | ⟨r', parts⟩⟩
  · exact ⟨fun _ hr => absurd hr (Option.not_mem_none _), fun _ hs => absurd hs List.not_mem_nil⟩
  · obtain ⟨hloose, hnodes⟩ := h.parts r List.mem_cons_self
    refine ⟨?_, hnodes⟩
    rintro _ ⟨⟩
    exact Nat.le_succ_of_le hloose
  · have hmem : ∀ s ∈ (r :: r' :: parts).reverse, s.ProperPart := fun s hs =>
      h.parts s (List.mem_reverse.1 hs)
    refine ⟨?_, fun s hs => ?_⟩
    · rintro _ ⟨⟩
      exact Nat.le_refl 2
    · rcases List.mem_cons.1 hs with rfl | hs
      · refine ⟨?_, fun s hs => (hmem s hs).1⟩
        rw [List.length_reverse]
        exact Nat.le_add_left 2 parts.length
      · rw [preorderList_eq] at hs
        obtain ⟨t, ht, hst⟩ := List.mem_flatMap.1 hs
        exact (hmem t ht).2 s hst

/-- **The tree of a proper level is proper.** -/
theorem Proper.body (h : l.Proper) : ∀ s ∈ preorderBody true l.body, s.Proper := by
  obtain ⟨hloose, hnodes⟩ := h.alternative
  rw [Level.body]
  cases hearlier : l.earlier with
  | none => exact hnodes
  | some left =>
      intro s hs
      rcases List.mem_cons.1 hs with rfl | hs
      · exact hloose
      · rcases List.mem_append.1 hs with hs | hs
        · exact h.earlier left hearlier s hs
        · exact hnodes s hs

/-- One more proper part keeps a level proper. -/
theorem Proper.push (h : l.Proper) {part : Regex} (hpart : part.ProperPart) :
    (l.push part).Proper where
  earlier := h.earlier
  parts r hr := by
    rcases List.mem_cons.1 hr with rfl | hr
    · exact hpart
    · exact h.parts r hr

/-- A bar keeps a level proper. -/
theorem Proper.bar (h : l.Proper) : l.bar.Proper where
  earlier := by
    rintro _ ⟨⟩
    exact h.body
  parts _ hr := absurd hr List.not_mem_nil

/-- The groups of the tree of a level are those on the level. -/
theorem groupNumbers_body (l : Level) : groupNumbers l.body = l.numbers := by
  have halternative : groupNumbers l.alternative =
      l.parts.reverse.flatMap fun r => groupNumbers (some r) := by
    obtain ⟨earlier, parts⟩ := l
    rcases parts with _ | ⟨r, _ | ⟨r', parts⟩⟩
    · rfl
    · exact (List.append_nil _).symm
    · exact groupNumbers_sequence _
  rw [body, numbers, ← halternative]
  cases l.earlier with
  | none => rfl
  | some left => exact groupNumbers_either left l.alternative

/-- One more part brings its groups. -/
theorem numbers_push (l : Level) (part : Regex) :
    (l.push part).numbers = l.numbers ++ groupNumbers (some part) := by
  simp [numbers, push, List.flatMap_append]

/-- A bar brings no groups. -/
theorem numbers_bar (l : Level) : l.bar.numbers = l.numbers := by
  rw [← groupNumbers_body l, numbers]
  exact List.append_nil _

end Level

/-! ### Readings -/

namespace Reading

/-- The numbers of the groups that were opened so far, in the order of their parentheses: those of
the groups that are still open stand between the levels. -/
def numbers (r : Reading) : List ℕ :=
  (r.outer.reverse.flatMap fun frame => frame.2.numbers ++ frame.1.numbers) ++ r.level.numbers

/-- A reading is **well formed** if its levels are proper and its groups are numbered from `1` in
the order of their opening parentheses. -/
structure WellFormed (r : Reading) : Prop where
  level : r.level.Proper
  outer : ∀ frame ∈ r.outer, frame.2.Proper
  numbers_eq : r.numbers = List.range' 1 r.groups

variable {size : ℕ} {r s : Reading}

/-- Opening a group numbers it after those before. -/
theorem range'_append_numbers {groups : ℕ} {text rest : List Char} {opening : Opening}
    (h : readOpening size (groups + 1) text = .ok (opening, rest)) :
    List.range' 1 groups ++ opening.numbers =
      List.range' 1 (groups + opening.numbers.length) := by
  cases opening with
  | capture n =>
      obtain rfl := number_eq_of_readOpening h
      have hconcat := List.range'_1_concat (s := 1) (n := groups)
      rw [Nat.add_comm 1 groups] at hconcat
      exact hconcat.symm
  | group => exact List.append_nil _
  | look direction positive => exact List.append_nil _

/-- **One step keeps a reading well formed.** -/
theorem WellFormed.step (h : r.WellFormed) (hstep : Step size r s) : s.WellFormed := by
  cases hstep with
  | @part outer level groups c text text' rest atom part hc hatom hpart =>
      obtain ⟨hleaf, hproper⟩ := readAtom_proper hatom
      obtain ⟨hpart, hnumbers⟩ :=
        (hleaf.properPart hproper).readSuffix hleaf.looseness_eq hpart
      refine ⟨h.level.push hpart, h.outer, ?_⟩
      rw [← h.numbers_eq, numbers, Level.numbers_push, hnumbers, hleaf.groupNumbers_eq,
        List.append_nil]
      rfl
  | bar outer level groups rest =>
      refine ⟨h.level.bar, h.outer, ?_⟩
      rw [← h.numbers_eq, numbers, Level.numbers_bar]
      rfl
  | @enter outer level groups text rest opening hopening =>
      refine ⟨Level.proper_empty, fun frame hframe => ?_, ?_⟩
      · rcases List.mem_cons.1 hframe with rfl | hframe
        · exact h.level
        · exact h.outer frame hframe
      · rw [← range'_append_numbers hopening, ← h.numbers_eq]
        simp [numbers, Level.numbers]
  | @leave outer opening around level groups text rest part hpart =>
      have haround := h.outer (opening, around) List.mem_cons_self
      obtain ⟨htight, hclose⟩ := properPart_close opening h.level.body
      obtain ⟨hpart, hnumbers⟩ := hclose.readSuffix htight hpart
      refine ⟨haround.push hpart,
        fun frame hframe => h.outer frame (List.mem_cons_of_mem _ hframe), ?_⟩
      rw [← h.numbers_eq]
      simp [numbers, Level.numbers_push, hnumbers, groupNumbers_close, Level.groupNumbers_body]

/-- A reading that is reached from a well formed one is well formed. -/
theorem WellFormed.reaches (h : r.WellFormed) (hreach : Reaches size r s) : s.WellFormed := by
  induction hreach with
  | refl => exact h
  | tail _ hstep ih => exact ih.step (step_eq_ok_iff.1 hstep)

/-- At the beginning nothing has been read. -/
theorem wellFormed_start (rest : List Char) :
    ({ groups := 0, rest } : Reading).WellFormed :=
  ⟨Level.proper_empty, fun _ h => absurd h List.not_mem_nil, rfl⟩

end Reading

/-! ### Patterns -/

namespace Pattern

/-- The pattern of a well formed reading is well formed. -/
theorem wellFormed_of_reading {level : Level} {groups : ℕ} {rest : List Char}
    (h : (⟨[], level, groups, rest⟩ : Reading).WellFormed) :
    (⟨level.body, groups⟩ : Pattern).WellFormed where
  proper := h.level.body
  groupNumbers_eq := (Level.groupNumbers_body level).trans h.numbers_eq

/-- **What is read is well formed.** Whatever the text, the pattern that it is read as has its
groups numbered from `1` in the order of their opening parentheses, and every node of it, the
bodies of lookarounds included, is one that a text can stand for. -/
theorem wellFormed_of_ofText {text : String} {p : Pattern} (h : ofText text = .ok p) :
    p.WellFormed := by
  obtain ⟨level, groups, hreach, rfl⟩ := Reading.exists_reaches_of_run h
  exact wellFormed_of_reading ((Reading.wellFormed_start _).reaches hreach)

/-- A text with a class that begins with its own bracket, groups inside a lookaround, and braces
that are no quantifier. -/
theorem wellFormed_of_ofText_nested :
    ∃ p : Pattern, ofText "[^]x-z]\x7b2,3\x7d?(?<!(b)())|a\x7b2" = .ok p ∧ p.WellFormed := by
  let charClass : Regex := .repeated (.charClass [.single ']', .range 'x' 'z'] true)
    (.between 2 3) false
  let p : Pattern := ⟨some (.either
    (some (.sequence [charClass,
      .lookaround (some (.sequence [.capturing 1 (some (.literal 'b')), .capturing 2 none]))
        .behind false]))
    (some (.sequence [.literal 'a', .literal '\x7b', .literal '2']))), 2⟩
  -- the class is read by a recursion of its own, so its step is taken apart from the others
  have hclass : Reading.step 27 ⟨[], {}, 0, "[^]x-z]\x7b2,3\x7d?(?<!(b)())|a\x7b2".toList⟩ =
      .ok ⟨[], ⟨none, [charClass]⟩, 0, "(?<!(b)())|a\x7b2".toList⟩ := by cbv
  have hstart : Reader.ofText "[^]x-z]\x7b2,3\x7d?(?<!(b)())|a\x7b2" =
      .ofBody "[^]x-z]\x7b2,3\x7d?(?<!(b)())|a\x7b2".toList := by cbv
  have hp : ofText "[^]x-z]\x7b2,3\x7d?(?<!(b)())|a\x7b2" = .ok p := by
    rw [ofText, hstart]
    refine (congrArg Prod.fst (Reading.run_of_step hclass)).trans ?_
    cbv
  exact ⟨p, hp, wellFormed_of_ofText hp⟩

end Pattern

end RegexWords
