import Mathlib.Tactic.IntervalCases
import RegexWords.Proofs.Reading
import RegexWords.Proofs.Rendering.Lexeme

/-!
# Reading Back a Pattern

The canonical text of a well formed pattern is read as that pattern. The reader works step by
step on a stack of levels, so what is shown of each tree is which reading is reached after its
text: the same stack with the tree on the innermost level, the groups of the tree counted. A
tree that binds tightly is one part, whatever quantifier follows it; a sequence is read part by
part; alternatives are read bar by bar. The induction is on the tree.

## Main results

* `Regex.reads`: **every proper tree is read back**, as a part, an alternative or a body.
* `Pattern.WellFormed.ofText_render`: **the round trip**, bare and between slashes.
-/

namespace RegexWords

/-! ### Numbers of groups -/

/-- Numbers **follow** a number if they count on from it one by one. -/
def Follow (groups : ℕ) (numbers : List ℕ) : Prop :=
  numbers = List.range' (groups + 1) numbers.length

/-- Numbers that are split count on from each other. -/
theorem Follow.append {groups : ℕ} {numbers numbers' : List ℕ}
    (h : Follow groups (numbers ++ numbers')) :
    Follow groups numbers ∧ Follow (groups + numbers.length) numbers' := by
  obtain ⟨k, hk, hnumbers, hnumbers'⟩ := List.range'_eq_append_iff.1 h.symm
  have hlength : numbers.length = k := by rw [hnumbers, List.length_range']
  rw [List.length_append] at hnumbers'
  refine ⟨by rw [Follow, hlength]; exact hnumbers, ?_⟩
  have hrest : numbers.length + numbers'.length - k = numbers'.length := by omega
  rw [hrest] at hnumbers'
  rw [Nat.mul_one, Nat.add_right_comm] at hnumbers'
  rwa [Follow, hlength]

/-! ### What is read of a tree -/

/-- The parts of an alternative. -/
def alternativeParts : Option Regex → List Regex
  | none => []
  | some (.sequence parts) => parts
  | some r => [r]

/-- The level on which a body has been read. -/
def Level.ofBody : Option Regex → Level
  | some (.either left right) => ⟨some left, (alternativeParts right).reverse⟩
  | body => ⟨none, (alternativeParts body).reverse⟩

/-- The parts of an alternative are one tree again. -/
theorem Level.alternative_alternativeParts (earlier : Option (Option Regex)) {body : Option Regex}
    (h : ∀ r ∈ body, r.Proper) :
    (⟨earlier, (alternativeParts body).reverse⟩ : Level).alternative = body := by
  cases body with
  | none => rfl
  | some r =>
      cases r with
      | sequence parts =>
          -- two parts or more are not taken for a single part
          have hlength : 2 ≤ parts.reverse.length := by
            rw [List.length_reverse]
            exact (h _ rfl).1
          rw [alternativeParts, alternative]
          split
          · next hnil =>
            rw [show parts.reverse = [] from hnil] at hlength
            exact absurd hlength (by decide)
          · next part hsingle =>
            rw [show parts.reverse = [part] from hsingle] at hlength
            exact absurd hlength (Nat.not_succ_le_self 1)
          · rw [List.reverse_reverse]
      | _ => rfl

/-- The level on which a body has been read holds the body. -/
theorem Level.body_ofBody {body : Option Regex}
    (h : ∀ r ∈ Regex.preorderBody true body, r.Proper) : (ofBody body).body = body := by
  have hroot : ∀ r ∈ body, r.Proper := fun r hr =>
    Regex.proper_of_mem_body h hr r (Regex.mem_preorder_self true r)
  cases body with
  | none => rfl
  | some r =>
      cases r with
      | either left right =>
          have hbelow : ∀ s ∈ Regex.preorderBody true right, s.Proper := fun s hs =>
            h s (List.mem_cons_of_mem _ (List.mem_append_right _ hs))
          have hright : ∀ r ∈ right, r.Proper := fun r hr =>
            Regex.proper_of_mem_body hbelow hr r (Regex.mem_preorder_self true r)
          have halternative := alternative_alternativeParts (some left) hright
          exact congrArg (fun right => some (Regex.either left right)) halternative
      | _ => exact alternative_alternativeParts none hroot

namespace Regex

open Reading

/-- A tree is **read as an atom** if after its text it stands on the level, with the quantifier
that follows it, if any. -/
def ReadsAtom (r : Regex) : Prop :=
  ∀ (size groups : ℕ) (outer : List (Opening × Level)) (level : Level) (text rest : List Char)
    (part : Regex), Follow groups (groupNumbers (some r)) →
    readSuffix size r text = .ok (part, rest) →
    Reaches size ⟨outer, level, groups, r.render ++ text⟩
      ⟨outer, level.push part, groups + (groupNumbers (some r)).length, rest⟩

/-- A tree is **read as a part** if after its text it stands on the level, when something fresh
follows. -/
def ReadsPart (r : Regex) : Prop :=
  ∀ (size groups : ℕ) (outer : List (Opening × Level)) (level : Level) (rest : List Char),
    Follow groups (groupNumbers (some r)) → Fresh rest →
    Reaches size ⟨outer, level, groups, r.render ++ rest⟩
      ⟨outer, level.push r, groups + (groupNumbers (some r)).length, rest⟩

/-- A body is **read as an alternative** if after its text its parts stand on the level, whatever
alternatives stand there before it. -/
def ReadsAlternative (body : Option Regex) : Prop :=
  ∀ (size groups : ℕ) (outer : List (Opening × Level)) (earlier : Option (Option Regex))
    (rest : List Char), Follow groups (groupNumbers body) → Closes rest →
    Reaches size ⟨outer, ⟨earlier, []⟩, groups, renderBody body ++ rest⟩
      ⟨outer, ⟨earlier, (alternativeParts body).reverse⟩, groups + (groupNumbers body).length, rest⟩

/-- A body is **read** if after its text it stands on the level. -/
def ReadsBody (body : Option Regex) : Prop :=
  ∀ (size groups : ℕ) (outer : List (Opening × Level)) (rest : List Char),
    Follow groups (groupNumbers body) → Closes rest →
    Reaches size ⟨outer, {}, groups, renderBody body ++ rest⟩
      ⟨outer, Level.ofBody body, groups + (groupNumbers body).length, rest⟩

/-- An atom is a part. -/
theorem ReadsAtom.part {r : Regex} (h : ReadsAtom r) : ReadsPart r :=
  fun _ _ _ _ _ hnumbers hfresh =>
    h _ _ _ _ _ _ _ hnumbers (readSuffix_of_fresh _ r hfresh)

/-- An atom with a quantifier is a part. -/
theorem ReadsAtom.repeated {part : Regex} (h : ReadsAtom part) {q : Quantifier}
    (hq : q.bounds.Proper) (greedy : Bool) : ReadsPart (repeated part q greedy) := by
  intro size groups outer level rest hnumbers hfresh
  have hsuffix := readSuffix_render size part hq greedy hfresh
  rw [render, List.append_assoc, List.append_assoc]
  exact h _ _ _ _ _ _ _ hnumbers hsuffix

/-- Parts one after the other are read one by one. -/
theorem reaches_parts {parts : List Regex} (hread : ∀ r ∈ parts, ReadsPart r)
    (hfresh : ∀ r ∈ parts, Fresh r.render) {groups : ℕ}
    (hnumbers : Follow groups (parts.flatMap fun r => groupNumbers (some r))) {rest : List Char}
    (hrest : Fresh rest) (size : ℕ) (outer : List (Opening × Level))
    (earlier : Option (Option Regex)) (before : List Regex) :
    Reaches size ⟨outer, ⟨earlier, before⟩, groups, parts.flatMap render ++ rest⟩
      ⟨outer, ⟨earlier, parts.reverse ++ before⟩,
        groups + (parts.flatMap fun r => groupNumbers (some r)).length, rest⟩ := by
  induction parts generalizing groups before with
  | nil => exact Relation.ReflTransGen.refl
  | cons r parts ih =>
      rw [List.flatMap_cons] at hnumbers
      obtain ⟨hfirst, hothers⟩ := hnumbers.append
      have hrestfresh : Fresh (parts.flatMap render ++ rest) :=
        (Fresh.flatMap fun s hs => hfresh s (List.mem_cons_of_mem r hs)).append hrest
      have hhead := hread r List.mem_cons_self size groups outer ⟨earlier, before⟩ _ hfirst
        hrestfresh
      have htail := ih (fun s hs => hread s (List.mem_cons_of_mem r hs))
        (fun s hs => hfresh s (List.mem_cons_of_mem r hs)) hothers (r :: before)
      rw [List.flatMap_cons, List.flatMap_cons, List.append_assoc, List.length_append,
        ← Nat.add_assoc, List.reverse_cons, List.append_assoc, List.singleton_append]
      exact hhead.trans htail

/-! ### Nodes -/

/-- The text of a group. -/
theorem render_close (opening : Opening) (body : Option Regex) :
    (opening.close body).render = opening.enclose (renderBody body) := by
  cases opening <;> rfl

/-- A part is an alternative by itself. -/
theorem ReadsPart.alternative {r : Regex} (h : ReadsPart r) (hr : r.looseness ≤ 1) :
    ReadsAlternative (some r) := by
  intro size groups outer earlier rest hnumbers hrest
  have hparts : alternativeParts (some r) = [r] := by
    cases r with
    | sequence parts => exact absurd hr (Nat.not_succ_le_self 1)
    | _ => rfl
  rw [hparts]
  exact h size groups outer ⟨earlier, []⟩ rest hnumbers hrest.fresh

/-- A sequence is an alternative. -/
theorem readsAlternative_sequence {parts : List Regex} (hread : ∀ r ∈ parts, ReadsPart r)
    (hfresh : ∀ r ∈ parts, Fresh r.render) : ReadsAlternative (some (sequence parts)) := by
  intro size groups outer earlier rest hnumbers hrest
  rw [groupNumbers_sequence] at hnumbers ⊢
  have hparts := reaches_parts hread hfresh hnumbers hrest.fresh size outer earlier []
  rwa [List.append_nil, ← renderList_eq] at hparts

/-- No part is an alternative. -/
theorem readsAlternative_none : ReadsAlternative none :=
  fun _ _ _ _ _ _ _ => Relation.ReflTransGen.refl

/-- One alternative is a body. -/
theorem ReadsAlternative.body {body : Option Regex} (h : ReadsAlternative body)
    (hbody : ∀ r ∈ body, r.looseness ≤ 2) : ReadsBody body := by
  intro size groups outer rest hnumbers hrest
  have hlevel : Level.ofBody body = ⟨none, (alternativeParts body).reverse⟩ := by
    cases body with
    | none => rfl
    | some r =>
        cases r with
        | either left right => exact absurd (hbody _ rfl) (Nat.not_succ_le_self 2)
        | _ => rfl
  rw [hlevel]
  exact h size groups outer none rest hnumbers hrest

/-- Alternatives are a body. -/
theorem readsBody_either {left right : Option Regex} (hleft : ReadsBody left)
    (hbody : (Level.ofBody left).body = left) (hright : ReadsAlternative right) :
    ReadsBody (some (either left right)) := by
  intro size groups outer rest hnumbers hrest
  rw [groupNumbers_either] at hnumbers ⊢
  obtain ⟨hfirst, hsecond⟩ := hnumbers.append
  have hbar : Closes ('|' :: (renderBody right ++ rest)) := by
    intro c hc
    obtain rfl := Option.some.inj hc
    decide
  have hreadleft := hleft size groups outer _ hfirst hbar
  have hstep : (⟨outer, Level.ofBody left, groups + (groupNumbers left).length,
      '|' :: (renderBody right ++ rest)⟩ : Reading).step size =
        .ok ⟨outer, ⟨some left, []⟩, groups + (groupNumbers left).length,
          renderBody right ++ rest⟩ := by
    rw [← congrArg some hbody]
    rfl
  have hreadright := hright size _ outer (some left) rest hsecond hrest
  rw [renderBody, render, List.append_assoc, List.cons_append, List.length_append, ← Nat.add_assoc]
  exact (hreadleft.tail hstep).trans hreadright

/-- A group around a body is an atom. -/
theorem ReadsBody.close {body : Option Regex} (h : ReadsBody body)
    (hbody : (Level.ofBody body).body = body) (hfresh : Fresh (renderBody body))
    (opening : Opening) : ReadsAtom (opening.close body) := by
  intro size groups outer level text rest part hnumbers hpart
  rw [groupNumbers_close] at hnumbers ⊢
  obtain ⟨hopening, hinside⟩ := hnumbers.append
  have hparen : Closes (')' :: text) := by
    intro c hc
    obtain rfl := Option.some.inj hc
    decide
  have hnumber : ∀ n, opening = .capture n → n = groups + 1 := by
    rintro n rfl
    exact (List.cons.inj hopening).1
  have hopen : (⟨outer, level, groups, '(' :: (opening.render ++
      (renderBody body ++ ')' :: text))⟩ : Reading).step size =
        .ok ⟨(opening, level) :: outer, {}, groups + opening.numbers.length,
          renderBody body ++ ')' :: text⟩ :=
    step_open (readOpening_render size hnumber (hfresh.append hparen.fresh)) hnumber
  have hreadbody := h size _ ((opening, level) :: outer) _ hinside hparen
  have hclose : (⟨(opening, level) :: outer, Level.ofBody body,
      groups + opening.numbers.length + (groupNumbers body).length,
      ')' :: text⟩ : Reading).step size =
        .ok ⟨outer, level.push part,
          groups + opening.numbers.length + (groupNumbers body).length, rest⟩ :=
    step_close (by rwa [hbody])
  rw [render_close, Opening.enclose, List.cons_append, List.append_assoc, List.append_assoc,
    List.singleton_append, List.length_append, ← Nat.add_assoc]
  exact (Reaches.head hopen hreadbody).tail hclose

/-! ### Atoms -/

/-- A tree without groups is read as an atom if the reader of atoms reads it. -/
theorem readsAtom_of_readAtom {r : Regex} (hnumbers : groupNumbers (some r) = [])
    (hhead : ∃ c text, r.render = c :: text ∧ c ∉ [')', '|', '('])
    (hread : ∀ size rest, readAtom size (r.render ++ rest) = .ok (r, rest)) : ReadsAtom r := by
  intro size groups outer level text rest part _ hpart
  obtain ⟨c, tail, hrender, hc⟩ := hhead
  have hatom := hread size text
  rw [hrender, List.cons_append] at hatom
  rw [hnumbers, hrender, List.cons_append]
  exact Relation.ReflTransGen.single (step_atom hc hatom hpart)

/-- A backslash before the digit of a backreference is read as the backreference. -/
theorem readAtom_backreference {number : ℕ} (h : 1 ≤ number ∧ number ≤ 9) (size : ℕ)
    (rest : List Char) :
    readAtom size ((backreference number).render ++ rest) = .ok (backreference number, rest) := by
  obtain ⟨hmin, hmax⟩ := h
  interval_cases number <;> rfl

/-- A class is read as an atom. -/
theorem readAtom_charClass {members : List ClassMember} {negated : Bool}
    (h : (charClass members negated).Proper) (size : ℕ) (rest : List Char) :
    readAtom size ((charClass members negated).render ++ rest) =
      .ok (charClass members negated, rest) := by
  have hclass := readClass_render
    (size - ((charClass members negated).render ++ rest).length) h.1 h.2 negated rest
  rw [render, renderClass, List.cons_append, List.append_assoc, List.append_assoc,
    List.singleton_append] at hclass ⊢
  exact hclass

/-! ### The induction -/

/-- What is read of a tree, by how loosely it binds. -/
structure Reads (r : Regex) : Prop where
  atom : r.looseness = 0 → ReadsAtom r
  part : r.looseness ≤ 1 → ReadsPart r
  alternative : r.looseness ≤ 2 → ReadsAlternative (some r)
  body : ReadsBody (some r)

/-- A tree that binds as loosely as alternatives is read if it is read as a body. -/
theorem ReadsBody.reads {r : Regex} (h : ReadsBody (some r)) (hr : r.looseness = 3) : r.Reads where
  atom h₀ := absurd (h₀.symm.trans hr) (by decide)
  part h₁ := absurd (hr ▸ h₁) (by decide)
  alternative h₂ := absurd (hr ▸ h₂) (by decide)
  body := h

/-- A tree that binds as loosely as a sequence is read if it is read as an alternative. -/
theorem ReadsAlternative.reads {r : Regex} (h : ReadsAlternative (some r))
    (hr : r.looseness = 2) : r.Reads where
  atom h₀ := absurd (h₀.symm.trans hr) (by decide)
  part h₁ := absurd (hr ▸ h₁) (by decide)
  alternative _ := h
  body := h.body fun _ hs => Option.some.inj hs ▸ hr.le

/-- A tree that binds as loosely as a part with a quantifier is read if it is read as a part. -/
theorem ReadsPart.reads {r : Regex} (h : ReadsPart r) (hr : r.looseness = 1) : r.Reads where
  atom h₀ := absurd (h₀.symm.trans hr) (by decide)
  part _ := h
  alternative _ := h.alternative hr.le
  body := (h.alternative hr.le).body fun _ hs => Option.some.inj hs ▸ hr.le.trans (by decide)

/-- A tree that binds tightly is read if it is read as an atom. -/
theorem ReadsAtom.reads {r : Regex} (h : ReadsAtom r) (hr : r.looseness = 0) : r.Reads where
  atom _ := h
  part _ := h.part
  alternative _ := h.part.alternative (hr.le.trans (by decide))
  body := (h.part.alternative (hr.le.trans (by decide))).body
    fun _ hs => Option.some.inj hs ▸ hr.le.trans (by decide)

/-- A body is read if the tree in it is. -/
theorem readsBody_of_forall {body : Option Regex} (h : ∀ r ∈ body, r.Reads) : ReadsBody body := by
  cases body with
  | none => exact readsAlternative_none.body fun _ hr => absurd hr (Option.not_mem_none _)
  | some r => exact (h r rfl).body

variable {body : Option Regex}

/-- A group is read if the tree in it is. -/
theorem reads_close (opening : Opening)
    (ih : ∀ r ∈ body, (∀ s ∈ r.preorder true, s.Proper) → r.Reads)
    (h : ∀ s ∈ preorderBody true body, s.Proper) : (opening.close body).Reads := by
  have hread : ReadsBody body := readsBody_of_forall fun r hr => ih r hr (proper_of_mem_body h hr)
  have hfresh : Fresh (renderBody body) :=
    fresh_renderBody fun r hr => fresh_render r (proper_of_mem_body h hr)
  refine (hread.close (Level.body_ofBody h) hfresh opening).reads ?_
  cases opening <;> rfl

/-- **Every proper tree is read back.** -/
theorem reads (r : Regex) (h : ∀ s ∈ r.preorder true, s.Proper) : r.Reads := by
  -- a node is read at its own level of binding; that a child binds tightly enough for its place
  -- is what the node being proper says
  induction r with
  | literal c =>
      refine (readsAtom_of_readAtom (r := literal c) rfl ?_ fun size rest => ?_).reads rfl
      · exact exists_escape_eq_cons (by decide) (by decide) c
      · exact readAtom_escape size c rest
  | dot => exact (readsAtom_of_readAtom rfl ⟨'.', _, rfl, by decide⟩ fun _ _ => rfl).reads rfl
  | sequence parts ih =>
      have hroot := h _ (mem_preorder_self true _)
      have hparts : ∀ r ∈ parts, ∀ s ∈ r.preorder true, s.Proper := by
        intro r hr s hs
        refine h s (List.mem_cons_of_mem _ ?_)
        rw [preorderList_eq]
        exact List.mem_flatMap.2 ⟨r, hr, hs⟩
      have hread : ∀ r ∈ parts, ReadsPart r := fun r hr =>
        (ih r hr (hparts r hr)).part (hroot.2 r hr)
      have hfresh : ∀ r ∈ parts, Fresh r.render := fun r hr => fresh_render r (hparts r hr)
      exact (readsAlternative_sequence hread hfresh).reads rfl
  | either left right ihleft ihright =>
      have hroot := h _ (mem_preorder_self true _)
      have hleft : ∀ s ∈ preorderBody true left, s.Proper := fun s hs =>
        h s (List.mem_cons_of_mem _ (List.mem_append_left _ hs))
      have hright : ∀ s ∈ preorderBody true right, s.Proper := fun s hs =>
        h s (List.mem_cons_of_mem _ (List.mem_append_right _ hs))
      have hreadleft : ReadsBody left :=
        readsBody_of_forall fun r hr => ihleft r hr (proper_of_mem_body hleft hr)
      have hreadright : ReadsAlternative right := by
        cases right with
        | none => exact readsAlternative_none
        | some r => exact (ihright r rfl hright).alternative (hroot r rfl)
      exact (readsBody_either hreadleft (Level.body_ofBody hleft) hreadright).reads rfl
  | repeated part q greedy ih =>
      have hroot := h _ (mem_preorder_self true _)
      have hatom := (ih fun s hs => h s (List.mem_cons_of_mem _ hs)).atom hroot.1
      exact (hatom.repeated hroot.2 greedy).reads rfl
  | charClass members negated =>
      have hroot := h _ (mem_preorder_self true _)
      exact (readsAtom_of_readAtom rfl ⟨'[', _, rfl, by decide⟩ (readAtom_charClass hroot)).reads
        rfl
  | shorthand kind =>
      refine (readsAtom_of_readAtom rfl ⟨'\\', _, rfl, by decide⟩ fun _ _ => ?_).reads rfl
      cases kind <;> rfl
  | anchor kind =>
      refine (readsAtom_of_readAtom rfl ?_ fun _ _ => ?_).reads rfl
      · cases kind <;> exact ⟨_, _, rfl, by decide⟩
      · cases kind <;> rfl
  | capturing number body ih =>
      exact reads_close (.capture number) ih fun s hs => h s (List.mem_cons_of_mem _ hs)
  | grouping body ih =>
      exact reads_close .group ih fun s hs => h s (List.mem_cons_of_mem _ hs)
  | backreference number =>
      have hroot := h _ (mem_preorder_self true _)
      exact (readsAtom_of_readAtom rfl ⟨'\\', _, rfl, by decide⟩
        (readAtom_backreference hroot)).reads rfl
  | lookaround body direction positive ih =>
      exact reads_close (.look direction positive) ih fun s hs => h s (List.mem_cons_of_mem _ hs)

end Regex

/-! ### The round trip -/

/-- A fresh text does not stand between slashes. -/
theorem stripSlashes_of_fresh {text : List Char} (h : Fresh text) : stripSlashes text = text :=
  stripSlashes_of_head_ne fun hslash => h '/' hslash (by decide)

/-- Between slashes, with letters after them, a body is found again. -/
theorem stripSlashes_slashed {flags : List Char} (h : ∀ c ∈ flags, c.isAlpha) (body : List Char) :
    stripSlashes ('/' :: (body ++ '/' :: flags)) = body := by
  have hslash : ∀ c ∈ flags.reverse, decide (c ≠ '/') := by
    intro c hc
    refine decide_eq_true ?_
    rintro rfl
    exact absurd (h '/' (List.mem_reverse.1 hc)) (by decide)
  have hreverse : (body ++ '/' :: flags).reverse = flags.reverse ++ '/' :: body.reverse := by
    rw [List.reverse_append, List.reverse_cons, List.append_assoc, List.singleton_append]
  have hflags : flags.reverse.all Char.isAlpha := by
    rw [List.all_reverse]
    exact List.all_eq_true.2 h
  rw [stripSlashes, hreverse, List.takeWhile_append_of_pos hslash,
    List.dropWhile_append_of_pos hslash, List.takeWhile_cons_of_neg (by decide), List.append_nil,
    List.dropWhile_cons_of_neg (by decide)]
  simp only [hflags, if_true, List.reverse_reverse]

namespace Pattern

variable {p : Pattern}

/-- A well formed pattern is what a reader of its text comes to. -/
theorem WellFormed.next_ofBody (h : p.WellFormed) :
    (Reader.ofBody (Regex.renderBody p.body)).next.1 = .ok p := by
  have hlength : (Regex.groupNumbers p.body).length = p.groupCount := by
    rw [h.groupNumbers_eq, List.length_range']
  have hnumbers : Follow 0 (Regex.groupNumbers p.body) := by
    rw [Follow, hlength, h.groupNumbers_eq]
  have hread : Regex.ReadsBody p.body := Regex.readsBody_of_forall fun r hr =>
    Regex.reads r (Regex.proper_of_mem_body h.proper hr)
  have hreach := (hread (Regex.renderBody p.body).length 0 [] [] hnumbers
    (fun _ hc => absurd hc (Option.not_mem_none _))).run_eq
  rw [Reading.run_end, Level.body_ofBody h.proper, hlength, Nat.zero_add, List.append_nil] at hreach
  exact congrArg Prod.fst hreach

/-- A well formed pattern is read back from its canonical text. -/
theorem WellFormed.ofText_bare (h : p.WellFormed) : ofText p.render = .ok p := by
  have hfresh : Fresh (Regex.renderBody p.body) := Regex.fresh_renderBody fun r hr =>
    Regex.fresh_render r (Regex.proper_of_mem_body h.proper hr)
  rw [ofText, Reader.ofText, render, String.toList_ofList, stripSlashes_of_fresh hfresh]
  exact h.next_ofBody

/-- **The round trip.** Reading the canonical text of a well formed pattern gives that pattern,
and so does reading it between slashes, with any letters after them. -/
theorem WellFormed.ofText_render (h : p.WellFormed) :
    ofText p.render = .ok p ∧
      ∀ flags : String, (∀ c ∈ flags.toList, c.isAlpha) →
        ofText ("/" ++ p.render ++ "/" ++ flags) = .ok p := by
  refine ⟨h.ofText_bare, fun flags hflags => ?_⟩
  have htext : ("/" ++ p.render ++ "/" ++ flags).toList =
      '/' :: (Regex.renderBody p.body ++ '/' :: flags.toList) := by
    simp [render]
  rw [ofText, Reader.ofText, htext, stripSlashes_slashed hflags]
  exact h.next_ofBody

/-- A pattern with a group, a lazy quantifier, a negated class, a lookaround and an empty
alternative, read back from its text, bare and between slashes. -/
theorem WellFormed.ofText_render_nested :
    ∃ p : Pattern, p.WellFormed ∧ p.render = "(a|\\*)[^x-z\\]\\d]\x7b2,3\x7d?(?<=\\1)|" ∧
      ofText p.render = .ok p ∧ ofText ("/" ++ p.render ++ "/" ++ "gi") = .ok p := by
  let p : Pattern := ⟨some (.either (some (.sequence
    [.capturing 1 (some (.either (some (.literal 'a')) (some (.literal '*')))),
      .repeated (.charClass [.range 'x' 'z', .single ']', .shorthand .digit] true) (.between 2 3)
        false,
      .lookaround (some (.backreference 1)) .behind true])) none), 1⟩
  have hp : p.WellFormed := by decide
  have hflags : ∀ c ∈ "gi".toList, c.isAlpha := List.all_eq_true.1 (by decide)
  obtain ⟨hbare, hslashed⟩ := WellFormed.ofText_render hp
  exact ⟨p, hp, by decide, hbare, hslashed "gi" hflags⟩

end Pattern

end RegexWords
