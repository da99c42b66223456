import RegexWords.Proofs.Reading.Continuation
import RegexWords.Proofs.Renumbering

/-!
# Reading Two Texts with a Bar Between

If two texts are read as patterns, so is the text of both with a bar between them. The first part
is read as it was, since a bar closes an alternative. The second part is then read above what the
first one left: the groups count on from those of the first pattern, and whatever bars the second
text has at its lowest level, the alternatives before them lean on the first pattern. Everything
above the lowest level is the same, up to the numbers of the groups.

## Main definitions

* `Regex.alternation`: the alternatives of one body before those of another.
* `Reading.resume`: a reading above an alternative that was read before it.

## Main results

* `Level.body_resume`: what a level comes to above an earlier alternative.
* `Reading.Step.resume`: **one step above an earlier alternative**.
* `Pattern.ofText_bar`: **the pattern of two texts with a bar between them**.
-/

namespace RegexWords

/-! ### Alternatives -/

namespace Regex

mutual

/-- The alternatives of a body after `left`. Alternatives lean to the left, so `left` goes to the
innermost of them. -/
def alternation (left : Option Regex) : Option Regex → Regex
  | none => either left none
  | some r => precede left r

/-- The alternatives of a tree after `left`. -/
def precede (left : Option Regex) : Regex → Regex
  | either first second => either (some (alternation left first)) second
  | r => either left (some r)

end

/-- What may stand in a sequence is one alternative. -/
theorem alternation_of_looseness_le (left : Option Regex) {body : Option Regex}
    (h : ∀ r ∈ body, r.looseness ≤ 2) : alternation left body = either left body := by
  cases body with
  | none => rfl
  | some r =>
      have hr := h r rfl
      cases r with
      | either first second => exact absurd hr (Nat.not_succ_le_self 2)
      | _ => rfl

end Regex

open Regex

/-- The opening with `shift` added to its number, if it has one. -/
def Opening.renumber (shift : ℕ) : Opening → Opening
  | capture number => capture (shift + number)
  | group => group
  | look direction positive => look direction positive

/-- A group is renumbered with its opening and its body. -/
theorem Opening.close_renumber (shift : ℕ) (opening : Opening) (body : Option Regex) :
    (opening.renumber shift).close (renumberBody shift body) =
      (opening.close body).renumber shift := by
  cases opening <;> rfl

/-- The opening of a group is read alike under a number further on. -/
theorem readOpening_renumber {size number : ℕ} {text rest : List Char} {opening : Opening}
    (h : readOpening size number text = .ok (opening, rest)) (shift : ℕ) :
    readOpening size (shift + number) text = .ok (opening.renumber shift, rest) := by
  unfold readOpening at h
  split at h
  case h_8 =>
    cases h
    rw [readOpening]
    · rfl
    all_goals assumption
  all_goals cases h
  all_goals rfl

/-- A quantifier stands after a part whose groups are renumbered as it does after the part. -/
theorem quantify_renumber (shift : ℕ) (part : Regex) (q : Quantifier) (text : List Char) :
    quantify (part.renumber shift) q text =
      ((quantify part q text).1.renumber shift, (quantify part q text).2) := by
  unfold quantify
  split <;> rfl

/-- A quantifier is read alike after a part whose groups are renumbered. -/
theorem readSuffix_renumber {size : ℕ} {part r : Regex} {text rest : List Char}
    (h : readSuffix size part text = .ok (r, rest)) (shift : ℕ) :
    readSuffix size (part.renumber shift) text = .ok (r.renumber shift, rest) := by
  rw [readSuffix_eq_ok_iff]
  rcases readSuffix_eq_ok_iff.1 h with ⟨hnone, rfl, rfl⟩ | ⟨q, text', hsome, hq, hquantify⟩
  · exact Or.inl ⟨hnone, rfl, rfl⟩
  · refine Or.inr ⟨q, text', hsome, hq, ?_⟩
    rw [quantify_renumber, hquantify]

/-! ### Levels -/

namespace Level

/-- The level with the groups on it renumbered. -/
def renumber (shift : ℕ) (l : Level) : Level where
  earlier := l.earlier.map (renumberBody shift)
  parts := l.parts.map (Regex.renumber shift)

/-- The lowest level above an alternative that was read before it. -/
def resume (left : Option Regex) (shift : ℕ) (l : Level) : Level where
  earlier := some (l.earlier.elim left fun body =>
    some (alternation left (renumberBody shift body)))
  parts := l.parts.map (Regex.renumber shift)

variable (shift : ℕ)

/-- The parts since the last bar are renumbered as they stand on the level. -/
theorem alternative_map_renumber (earlier earlier' : Option (Option Regex)) (parts : List Regex) :
    (⟨earlier', parts.map (Regex.renumber shift)⟩ : Level).alternative =
      renumberBody shift (⟨earlier, parts⟩ : Level).alternative := by
  rcases parts with _ | ⟨r, _ | ⟨r', parts⟩⟩
  · rfl
  · rfl
  · refine congrArg (fun rs => some (sequence rs)) ?_
    rw [renumberList_eq, List.map_reverse]
    rfl

/-- The tree of a level is renumbered as the level is. -/
theorem body_renumber (l : Level) : (l.renumber shift).body = renumberBody shift l.body := by
  obtain ⟨earlier, parts⟩ := l
  rw [body, body, renumber, alternative_map_renumber shift earlier]
  cases earlier <;> rfl

/-- **The tree of a level above an earlier alternative** is that alternative before those of the
level by itself. -/
theorem body_resume (left : Option Regex) {l : Level} (h : l.Proper) :
    (l.resume left shift).body = some (alternation left (renumberBody shift l.body)) := by
  obtain ⟨hloose, -⟩ := h.alternative
  obtain ⟨earlier, parts⟩ := l
  rw [body, body, resume, alternative_map_renumber shift earlier]
  cases earlier with
  | none =>
      refine congrArg some (Eq.symm (alternation_of_looseness_le left fun r hr => ?_))
      obtain ⟨s, hs, rfl⟩ := Option.mem_map.1 (renumberBody_eq _ ▸ hr)
      rw [looseness_renumber]
      exact hloose s hs
  | some body => rfl

end Level

/-! ### Readings -/

namespace Reading

/-- A level above those in `outer`, with an alternative read before the lowest of them. -/
def resumeLevel (left : Option Regex) (shift : ℕ) (outer : List (Opening × Level)) (l : Level) :
    Level :=
  match outer with
  | [] => l.resume left shift
  | _ :: _ => l.renumber shift

/-- The groups that are open, with an alternative read before the lowest level. -/
def resumeOuter (left : Option Regex) (shift : ℕ) :
    List (Opening × Level) → List (Opening × Level)
  | [] => []
  | (opening, around) :: outer =>
    (opening.renumber shift, resumeLevel left shift outer around) :: resumeOuter left shift outer

/-- The reading **above an alternative** that was read before it and left `shift` groups. -/
def resume (left : Option Regex) (shift : ℕ) (r : Reading) : Reading where
  outer := resumeOuter left shift r.outer
  level := resumeLevel left shift r.outer r.level
  groups := shift + r.groups
  rest := r.rest

variable {left : Option Regex} {shift : ℕ}

/-- One more part on a level. -/
theorem resumeLevel_push (outer : List (Opening × Level)) (l : Level) (part : Regex) :
    resumeLevel left shift outer (l.push part) =
      (resumeLevel left shift outer l).push (part.renumber shift) := by
  cases outer <;> rfl

/-- A bar on a level. -/
theorem resumeLevel_bar (outer : List (Opening × Level)) {l : Level} (h : l.Proper) :
    resumeLevel left shift outer l.bar = (resumeLevel left shift outer l).bar := by
  cases outer with
  | nil =>
      rw [resumeLevel, resumeLevel, Level.bar, Level.bar, Level.body_resume shift left h]
      rfl
  | cons frame outer =>
      rw [resumeLevel, resumeLevel, Level.bar, Level.bar, Level.body_renumber]
      rfl

/-- **One step above an earlier alternative** is the same step. -/
theorem Step.resume {size : ℕ} {r s : Reading} (h : Step size r s) (hr : r.WellFormed) :
    Step size (r.resume left shift) (s.resume left shift) := by
  cases h with
  | @part outer level groups c text text' rest atom part hc hatom hpart =>
      have hsuffix := readSuffix_renumber hpart shift
      rw [(readAtom_proper hatom).1.renumber_eq] at hsuffix
      rw [Reading.resume, Reading.resume, resumeLevel_push]
      exact Step.part hc hatom hsuffix
  | bar outer level groups rest =>
      rw [Reading.resume, Reading.resume, resumeLevel_bar outer hr.level]
      exact Step.bar _ _ _ rest
  | @enter outer level groups text rest opening hopening =>
      have hgroups : shift + (groups + opening.numbers.length) =
          shift + groups + (opening.renumber shift).numbers.length := by
        cases opening <;> rfl
      rw [Reading.resume, Reading.resume, hgroups]
      exact Step.enter (readOpening_renumber hopening shift)
  | @leave outer opening around level groups text rest part hpart =>
      have hsuffix := readSuffix_renumber hpart shift
      rw [← Opening.close_renumber, ← Level.body_renumber] at hsuffix
      rw [Reading.resume, Reading.resume, resumeLevel_push]
      exact Step.leave hsuffix

/-- **What is reached above an earlier alternative** is what is reached without it. -/
theorem Reaches.resume {size : ℕ} {r s : Reading} (h : Reaches size r s) (hr : r.WellFormed) :
    Reaches size (Reading.resume left shift r) (Reading.resume left shift s) := by
  induction h with
  | refl => exact Relation.ReflTransGen.refl
  | tail hreach hstep ih =>
      exact ih.tail (step_eq_ok_iff.2 ((step_eq_ok_iff.1 hstep).resume (hr.reaches hreach)))

end Reading

/-! ### Patterns -/

namespace Pattern

/-- The pattern of one pattern or another, the groups of the second numbered after those of the
first. -/
def alternation (p q : Pattern) : Pattern where
  body := some (Regex.alternation p.body (renumberBody p.groupCount q.body))
  groupCount := p.groupCount + q.groupCount

/-- **The pattern of two texts with a bar between them.** If two texts that begin with no slash are
read as patterns, both with a bar between them are read as the alternatives of the first before
those of the second. -/
theorem ofText_bar {a b : String} {p q : Pattern} (ha : a.toList.head? ≠ some '/')
    (hb : b.toList.head? ≠ some '/') (hp : ofText a = .ok p) (hq : ofText b = .ok q) :
    ofText (a ++ "|" ++ b) = .ok (p.alternation q) := by
  have htext : (a ++ "|" ++ b).toList = a.toList ++ '|' :: b.toList := by
    rw [String.toList_append, String.toList_append, List.append_assoc]
    rfl
  have hhead : (a.toList ++ '|' :: b.toList).head? ≠ some '/' := by
    cases hlist : a.toList with
    | nil => exact fun heq => absurd (Option.some.inj heq) (by decide)
    | cons c text =>
        rw [hlist] at ha
        exact ha
  have hbar : Closes ('|' :: b.toList) := by
    rintro c ⟨⟩
    decide
  have hend : Closes [] := fun c hc => absurd hc (Option.not_mem_none c)
  rw [ofText_of_head_ne ha] at hp
  rw [ofText_of_head_ne hb] at hq
  rw [ofText_of_head_ne (htext ▸ hhead), htext]
  obtain ⟨level, groups, hfirst, rfl⟩ := Reading.exists_reaches_of_run hp
  obtain ⟨level', groups', hsecond, rfl⟩ := Reading.exists_reaches_of_run hq
  have hstart := Reading.wellFormed_start b.toList
  have hproper := (hstart.reaches hsecond).level
  generalize (a.toList ++ '|' :: b.toList).length = size
  have hbefore := hfirst.append size (Or.inl hbar)
  have hstep := Reading.step_bar size [] level groups b.toList
  have hafter : Reading.Reaches size ⟨[], level.bar, groups, b.toList⟩
      ⟨[], level'.resume level.body groups, groups + groups', []⟩ := by
    have hsame := hsecond.append size (Or.inl hend)
    simp only [Reading.append, List.append_nil] at hsame
    exact hsame.resume hstart
  have hall : Reading.Reaches size { groups := 0, rest := a.toList ++ '|' :: b.toList }
      ⟨[], level'.resume level.body groups, groups + groups', []⟩ :=
    (hbefore.tail hstep).trans hafter
  rw [hall.run_eq, Reading.run_end, Level.body_resume groups level.body hproper]
  rfl

end Pattern

end RegexWords
