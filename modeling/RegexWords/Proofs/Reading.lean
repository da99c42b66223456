import Mathlib.Logic.Relation
import RegexWords.Proofs.Rendering

/-!
# Steps of a Reading

A reading goes from one stack of levels to the next, and what comes out at the end is what comes
out of every reading it passes. There are four kinds of steps: past a part that is no group, past
a bar, into a group and out of one. Whatever holds of a reading at its beginning and is kept by
these four holds when it ends.

## Main results

* `Reading.step_eq_ok_iff`: **the four kinds of steps**.
* `Reading.Reaches.run_eq`: a reading comes to the same as any reading it reaches.
* `Reading.exists_reaches_of_run`: a pattern is read only by reaching the end of the text with no
  group open.
-/

namespace RegexWords

/-! ### Steps -/

namespace Reading

/-- A reading **reaches** another one by any number of steps. -/
def Reaches (size : ℕ) : Reading → Reading → Prop :=
  Relation.ReflTransGen fun r s => r.step size = .ok s

variable {size groups : ℕ} {outer : List (Opening × Level)} {level : Level} {rest : List Char}

/-- A reading with a step to make has text left. -/
theorem rest_ne_nil_of_step {r s : Reading} (h : r.step size = .ok s) : r.rest ≠ [] := by
  intro hnil
  have hlt := length_rest_lt_of_step h
  rw [hnil] at hlt
  exact absurd hlt (Nat.not_lt_zero _)

/-- A step does not change what comes out. -/
theorem run_of_step {r s : Reading} (h : r.step size = .ok s) : run size r = run size s := by
  rw [run, if_neg (rest_ne_nil_of_step h)]
  split
  · next failure hfailure => rw [h] at hfailure; cases hfailure
  · next s' hs' =>
    rw [h] at hs'
    cases hs'
    rfl

/-- One step more at the front. -/
theorem Reaches.head {r s t : Reading} (h : r.step size = .ok s) (h' : Reaches size s t) :
    Reaches size r t :=
  Relation.ReflTransGen.head h h'

/-- One step more at the end. -/
theorem Reaches.tail {r s t : Reading} (h : Reaches size r s) (h' : s.step size = .ok t) :
    Reaches size r t :=
  Relation.ReflTransGen.tail h h'

/-- A reading comes to the same as any reading it reaches. -/
theorem Reaches.run_eq {r s : Reading} (h : Reaches size r s) : run size r = run size s := by
  induction h with
  | refl => rfl
  | tail _ hstep ih => rw [ih, run_of_step hstep]

/-- At the end of the text, with no group open, the pattern is complete. -/
theorem run_end (size : ℕ) (level : Level) (groups : ℕ) :
    run size ⟨[], level, groups, []⟩ = (.ok ⟨level.body, groups⟩, groups, []) := by
  rw [run]
  rfl

/-- The step past an opening parenthesis. A capturing group counts. -/
theorem step_open {opening : Opening} {text : List Char}
    (h : readOpening size (groups + 1) text = .ok (opening, rest))
    (hnumber : ∀ n, opening = .capture n → n = groups + 1) :
    step size ⟨outer, level, groups, '(' :: text⟩ =
      .ok ⟨(opening, level) :: outer, {}, groups + opening.numbers.length, rest⟩ := by
  simp only [step, h, absorb]
  cases opening with
  | capture n =>
      obtain rfl := hnumber n rfl
      rfl
  | group => rfl
  | look direction positive => rfl

/-- The step past a closing parenthesis. -/
theorem step_close {opening : Opening} {around : Level} {text : List Char} {part : Regex}
    (h : readSuffix size (opening.close level.body) text = .ok (part, rest)) :
    step size ⟨(opening, around) :: outer, level, groups, ')' :: text⟩ =
      .ok ⟨outer, around.push part, groups, rest⟩ := by
  simp only [step, h, absorb]

/-- The step past a part that is no group. -/
theorem step_atom {c : Char} {text text' : List Char} {atom part : Regex}
    (hc : c ∉ [')', '|', '(']) (hatom : readAtom size (c :: text) = .ok (atom, text'))
    (hpart : readSuffix size atom text' = .ok (part, rest)) :
    step size ⟨outer, level, groups, c :: text⟩ = .ok ⟨outer, level.push part, groups, rest⟩ := by
  simp only [List.mem_cons, List.not_mem_nil, or_false, not_or] at hc
  rw [step]
  split
  · next heq => exact absurd (List.cons.inj heq).1 hc.1
  · next heq => exact absurd (List.cons.inj heq).1 hc.2.1
  · next heq => exact absurd (List.cons.inj heq).1 hc.2.2
  · simp only [hatom, hpart, absorb]

/-! ### The four kinds of steps -/

/-- The step past a bar. -/
theorem step_bar (size : ℕ) (outer : List (Opening × Level)) (level : Level) (groups : ℕ)
    (rest : List Char) :
    step size ⟨outer, level, groups, '|' :: rest⟩ = .ok ⟨outer, level.bar, groups, rest⟩ := rfl

/-- One **step** of a reading, by its kind. -/
inductive Step (size : ℕ) : Reading → Reading → Prop
  /-- Past a part that is no group, with the quantifier after it. -/
  | part {outer : List (Opening × Level)} {level : Level} {groups : ℕ} {c : Char}
      {text text' rest : List Char} {atom part : Regex} : c ∉ [')', '|', '('] →
      readAtom size (c :: text) = .ok (atom, text') →
      readSuffix size atom text' = .ok (part, rest) →
      Step size ⟨outer, level, groups, c :: text⟩ ⟨outer, level.push part, groups, rest⟩
  /-- Past a bar. -/
  | bar (outer : List (Opening × Level)) (level : Level) (groups : ℕ) (rest : List Char) :
      Step size ⟨outer, level, groups, '|' :: rest⟩ ⟨outer, level.bar, groups, rest⟩
  /-- Into a group. -/
  | enter {outer : List (Opening × Level)} {level : Level} {groups : ℕ} {text rest : List Char}
      {opening : Opening} : readOpening size (groups + 1) text = .ok (opening, rest) →
      Step size ⟨outer, level, groups, '(' :: text⟩
        ⟨(opening, level) :: outer, {}, groups + opening.numbers.length, rest⟩
  /-- Out of a group, with the quantifier after it. -/
  | leave {outer : List (Opening × Level)} {opening : Opening} {around level : Level}
      {groups : ℕ} {text rest : List Char} {part : Regex} :
      readSuffix size (opening.close level.body) text = .ok (part, rest) →
      Step size ⟨(opening, around) :: outer, level, groups, ')' :: text⟩
        ⟨outer, around.push part, groups, rest⟩

/-- A capturing group takes the number that is offered. -/
theorem number_eq_of_readOpening {size number n : ℕ} {text rest : List Char}
    (h : readOpening size number text = .ok (.capture n, rest)) : n = number := by
  unfold readOpening at h
  split at h <;> cases h
  rfl

/-- What an absorbed piece was read as. -/
theorem absorb_eq_ok {α : Type} {groups : ℕ} {piece : Lexed α} {next : α → List Char → Reading}
    {s : Reading} (h : absorb groups piece next = .ok s) :
    ∃ a rest, piece = .ok (a, rest) ∧ s = next a rest := by
  unfold absorb at h
  split at h
  · cases h
  · next a rest =>
    cases h
    exact ⟨a, rest, rfl, rfl⟩

/-- **The four kinds of steps.** A reading goes on exactly if it makes one of them. -/
theorem step_eq_ok_iff {size : ℕ} {r s : Reading} : r.step size = .ok s ↔ Step size r s := by
  constructor
  · intro h
    obtain ⟨outer, level, groups, text⟩ := r
    unfold step at h
    split at h
    · next text htext =>
      obtain rfl : _ = ')' :: text := htext
      split at h
      · cases h
      · next opening around outer houter =>
        obtain rfl : _ = (opening, around) :: outer := houter
        obtain ⟨part, rest, hpart, rfl⟩ := absorb_eq_ok h
        exact Step.leave hpart
    · next rest htext =>
      obtain rfl : _ = '|' :: rest := htext
      cases h
      exact Step.bar outer level groups rest
    · next text htext =>
      obtain rfl : _ = '(' :: text := htext
      obtain ⟨opening, rest, hopening, rfl⟩ := absorb_eq_ok h
      have hstep : Step size ⟨outer, level, groups, '(' :: text⟩ _ := Step.enter hopening
      cases opening with
      | capture n =>
          obtain rfl := number_eq_of_readOpening hopening
          exact hstep
      | group => exact hstep
      | look direction positive => exact hstep
    · next hclose hbar hopen =>
      split at h
      · cases h
      · next atom text' hatom =>
        obtain ⟨part, rest, hpart, rfl⟩ := absorb_eq_ok h
        cases text with
        | nil => cases hatom
        | cons c text =>
            refine Step.part ?_ hatom hpart
            simp only [List.mem_cons, List.not_mem_nil, or_false, not_or]
            exact ⟨fun hc => hclose text (by rw [hc]), fun hc => hbar text (by rw [hc]),
              fun hc => hopen text (by rw [hc])⟩
  · rintro (⟨hc, hatom, hpart⟩ | ⟨outer, level, groups, rest⟩ | hopening | hpart)
    · exact step_atom hc hatom hpart
    · exact step_bar size outer level groups rest
    · exact step_open hopening fun n hn => number_eq_of_readOpening (hn ▸ hopening)
    · exact step_close hpart

/-- **A pattern is read only at the end** of the text, with no group open. -/
theorem exists_reaches_of_run {size : ℕ} {r : Reading} {p : Pattern}
    (h : (run size r).1 = .ok p) :
    ∃ level groups, Reaches size r ⟨[], level, groups, []⟩ ∧ p = ⟨level.body, groups⟩ := by
  induction r using run.induct size with
  | case1 r hrest houter =>
      obtain ⟨outer, level, groups, rest⟩ := r
      obtain rfl : rest = [] := hrest
      obtain rfl : outer = [] := houter
      rw [run_end] at h
      exact ⟨level, groups, Relation.ReflTransGen.refl, (Except.ok.inj h).symm⟩
  | case2 r hrest opening outer houter =>
      rw [run, if_pos hrest, houter] at h
      cases h
  | case3 r hrest failure hstep =>
      rw [run, if_neg hrest] at h
      split at h
      · cases h
      · next s hs => rw [hstep] at hs; cases hs
  | case4 r hrest next hstep hlt ih =>
      rw [run_of_step hstep] at h
      obtain ⟨level, groups, hreach, hp⟩ := ih h
      exact ⟨level, groups, hreach.head hstep, hp⟩

end Reading

/-! ### Whole texts -/

/-- A text that begins with no slash does not stand between slashes. -/
theorem stripSlashes_of_head_ne {text : List Char} (h : text.head? ≠ some '/') :
    stripSlashes text = text := by
  cases text with
  | nil => rfl
  | cons c text =>
      rw [stripSlashes]
      rintro inner heq
      exact h (congrArg List.head? heq)

/-- A text that begins with no slash is read as it stands. -/
theorem Pattern.ofText_of_head_ne {text : String} (h : text.toList.head? ≠ some '/') :
    ofText text = (Reading.run text.toList.length { groups := 0, rest := text.toList }).1 := by
  rw [ofText, Reader.ofText, stripSlashes_of_head_ne h]
  rfl

end RegexWords
