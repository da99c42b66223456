import RegexWords.Proofs.Trail.Listing
import RegexWords.Proofs.Trail.Pattern

/-!
# The Words of a Bounded Pattern

A bounded regular expression has finitely many words, and `Regex.words` lists them by recursion
on the tree, eagerly and without any machine: sequences are sections of lists, repetitions are
tuples of increasing length. The lazy machines enumerate exactly this list, in this order, and
then end.

## Main results

* `Regex.lists_words`: the trail of a bounded tree lists its words.
* `Regex.map_fst_answers_plan`: **draining the source of a bounded tree** gives its words, in
  order, and from then on nothing.
-/

namespace RegexWords

namespace Regex

/-- What a part repeated between `min` and `max` times produces: the empty word if that is
allowed, and the tuples of every longer length. -/
def repeatedWords (min max : ℕ) (words : List String) : List String :=
  (if min = 0 then [""] else []) ++
    (List.range' (Nat.max 1 min) (max + 1 - Nat.max 1 min)).flatMap fun k =>
      (tuplesOf words k).map String.join

mutual

/-- The **words** of a bounded regular expression, in order. A repetition without an upper bound
has no list. -/
def words (alphabet : CodeRange) : Regex → List String
  | literal c => [c.toString]
  | dot => alphabet.chars.map Char.toString
  | sequence parts =>
    if parts = [] then [] else (List.sections (wordsList alphabet parts)).map String.join
  | either left right => wordsBody alphabet left ++ wordsBody alphabet right
  | repeated part q _ =>
    match q.bounds.max with
    | none => []
    | some max => repeatedWords q.bounds.min max (words alphabet part)
  | charClass members negated =>
    members.flatMap fun m => (m.chars alphabet negated).map Char.toString
  | shorthand _ => []
  | anchor _ => [""]
  | capturing _ body => wordsBody alphabet body
  | grouping body => wordsBody alphabet body
  | backreference number => [placeholder number]
  | lookaround _ _ _ => [""]

/-- The words of a tree that may be absent. -/
def wordsBody (alphabet : CodeRange) : Option Regex → List String
  | none => []
  | some r => words alphabet r

/-- The words of each of several trees. -/
def wordsList (alphabet : CodeRange) : List Regex → List (List String)
  | [] => []
  | r :: rs => words alphabet r :: wordsList alphabet rs

end

/-- The words of several trees, one by one. -/
theorem wordsList_eq (alphabet : CodeRange) (rs : List Regex) :
    wordsList alphabet rs = rs.map (words alphabet) := by
  induction rs with
  | nil => rfl
  | cons r rs ih => rw [wordsList, ih, List.map_cons]

/-- Joining the tuples of a repetition gives its words. -/
theorem map_join_tuples (min max : ℕ) (words : List String) :
    ((if min = 0 then [[]] else []) ++
        (List.range' (Nat.max 1 min) (max + 1 - Nat.max 1 min)).flatMap (tuplesOf words)).map
      String.join = repeatedWords min max words := by
  rw [repeatedWords, List.map_append, List.map_flatMap]
  split <;> rfl

/-- A body lists its words if the tree in it does. -/
theorem lists_wordsBody {alphabet : CodeRange} {body : Option Regex}
    (h : ∀ r ∈ body, (r.trail alphabet : Trail Effect String).Lists (r.words alphabet)) :
    (bodyTrail alphabet body : Trail Effect String).Lists (wordsBody alphabet body) := by
  cases body with
  | none =>
      rw [bodyTrail_none]
      exact Trail.Lists.items []
  | some r => exact h r rfl

/-- **Bounded trees list their words.** -/
theorem lists_words (alphabet : CodeRange) (r : Regex) (hr : r.isUnbounded = false) :
    (r.trail alphabet : Trail Effect String).Lists (r.words alphabet) := by
  induction r with
  | literal c =>
      rw [trail_literal, words]
      exact Trail.Lists.items _
  | dot =>
      rw [trail_dot, words]
      exact Trail.Lists.items _
  | sequence parts ih =>
      rw [isUnbounded, anyUnbounded_eq_false_iff] at hr
      have hparts := Trail.Lists.product fun r hmem => ih r hmem (hr r hmem)
      rw [trail_sequence, words, wordsList_eq]
      have hmap := hparts.map String.join
      rw [apply_ite (List.map String.join)] at hmap
      exact hmap
  | either left right ihleft ihright =>
      rw [isUnbounded, Bool.or_eq_false_iff, bodyUnbounded_eq_false_iff,
        bodyUnbounded_eq_false_iff] at hr
      have hleft := lists_wordsBody fun r hmem => ihleft r hmem (hr.1 r hmem)
      have hright := lists_wordsBody fun r hmem => ihright r hmem (hr.2 r hmem)
      have hboth : ∀ body ∈ [left, right],
          (bodyTrail alphabet body : Trail Effect String).Lists (wordsBody alphabet body) := by
        simpa using ⟨hleft, hright⟩
      have hconcat := Trail.Lists.concat hboth
      rw [List.flatMap_cons, List.flatMap_singleton] at hconcat
      rw [trail_either, words, Trail.map_wrap_string]
      exact hconcat
  | repeated part q greedy ih =>
      rw [isUnbounded, Bool.or_eq_false_iff] at hr
      obtain ⟨max, hmax⟩ := Option.isSome_iff_exists.1 (Option.isNone_eq_false_iff.1 hr.1)
      have hpower := (ih hr.2).power (fused_trail alphabet part) q.bounds.min max
      have hjoin := hpower.map String.join
      rw [map_join_tuples, Trail.map_map] at hjoin
      rw [trail_repeated, hmax]
      simp only [words, hmax]
      exact hjoin
  | charClass members negated =>
      rw [trail_charClass, words, Trail.map_wrap_string]
      exact Trail.Lists.concat fun m _ => Trail.Lists.items _
  | shorthand kind =>
      rw [trail_shorthand, words]
      exact Trail.Lists.items _
  | anchor kind =>
      rw [trail_anchor, words]
      exact Trail.Lists.items _
  | capturing number body ih =>
      rw [isUnbounded, bodyUnbounded_eq_false_iff] at hr
      have hbody := lists_wordsBody fun r hmem => ih r hmem (hr r hmem)
      rw [trail_capturing, words, Trail.map_wrap_string]
      exact hbody.tap _
  | grouping body ih =>
      rw [isUnbounded, bodyUnbounded_eq_false_iff] at hr
      have hbody := lists_wordsBody fun r hmem => ih r hmem (hr r hmem)
      rw [trail_grouping, words, Trail.map_wrap_string]
      exact hbody
  | backreference number =>
      rw [trail_backreference, words]
      exact (Trail.Lists.items _).tap _
  | lookaround body direction positive ih =>
      rw [trail_lookaround, words]
      exact Trail.Lists.items _

end Regex

end RegexWords
