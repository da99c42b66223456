import RegexWords.Proofs.Run

/-!
# Replacing a Part of a Tree

A node knows of the trees below it only the trails that they leave. So a part of a tree may be
replaced, however deep it stands, by another one with the same trail of strings; if it also refers
to the same groups, the enumerations of the two patterns cannot be told apart.

## Main definitions

* `Regex.Replaced`: one occurrence of a tree is replaced, anywhere in another tree.
* `Regex.Interchangeable`: trees with the same strings and the same references.

## Main results

* `Regex.Replaced.interchangeable`: **a replacement by an interchangeable tree** leaves an
  interchangeable tree.
* `Enumeration.next_after_of_interchangeable`: enumerations of interchangeable trees give the same
  strings.
-/

namespace RegexWords

namespace Regex

/-- One occurrence of a tree is **replaced**, at the root or anywhere below, by one that `R`
relates to it. -/
inductive Replaced (R : Regex → Regex → Prop) : Regex → Regex → Prop
  | here {r r' : Regex} : R r r' → Replaced R r r'
  | part (before after : List Regex) {r r' : Regex} : Replaced R r r' →
      Replaced R (sequence (before ++ r :: after)) (sequence (before ++ r' :: after))
  | left (right : Option Regex) {r r' : Regex} : Replaced R r r' →
      Replaced R (either (some r) right) (either (some r') right)
  | right (left : Option Regex) {r r' : Regex} : Replaced R r r' →
      Replaced R (either left (some r)) (either left (some r'))
  | repeated (q : Quantifier) (greedy : Bool) {r r' : Regex} : Replaced R r r' →
      Replaced R (repeated r q greedy) (repeated r' q greedy)
  | capturing (number : ℕ) {r r' : Regex} : Replaced R r r' →
      Replaced R (capturing number (some r)) (capturing number (some r'))
  | grouping {r r' : Regex} : Replaced R r r' →
      Replaced R (grouping (some r)) (grouping (some r'))
  | lookaround (direction : Direction) (positive : Bool) {r r' : Regex} : Replaced R r r' →
      Replaced R (lookaround (some r) direction positive) (lookaround (some r') direction positive)

/-- Two trees are **interchangeable** if they leave the same trail of strings and refer to the same
groups. -/
structure Interchangeable (alphabet : CodeRange) (r r' : Regex) : Prop where
  trail_eq : (r.trail alphabet : Trail Effect String) = r'.trail alphabet
  references_eq : references (some r) = references (some r')

/-! ### References, node by node -/

/-- The groups that several trees refer to, one tree after the other. -/
theorem references_sequence (rs : List Regex) :
    references (some (sequence rs)) = rs.flatMap fun r => references (some r) := by
  show (preorderList false rs).filterMap _ = _
  rw [preorderList_eq, List.filterMap_flatMap]
  rfl

/-- The groups that alternatives refer to, left before right. -/
theorem references_either (left right : Option Regex) :
    references (some (either left right)) = references left ++ references right :=
  List.filterMap_append

variable {R : Regex → Regex → Prop} {alphabet : CodeRange} {r r' : Regex}

/-- **A replacement by an interchangeable tree** leaves an interchangeable tree. -/
theorem Replaced.interchangeable (h : r.Replaced R r')
    (hR : ∀ s s', R s s' → s.Interchangeable alphabet s') : r.Interchangeable alphabet r' := by
  induction h with
  | here h => exact hR _ _ h
  | part before after _ ih =>
      obtain ⟨htrail, hreferences⟩ := ih
      refine ⟨?_, ?_⟩
      · rw [trail_sequence, trail_sequence, List.map_append, List.map_append, List.map_cons,
          List.map_cons, htrail]
        rfl
      · rw [references_sequence, references_sequence, List.flatMap_append, List.flatMap_append,
          List.flatMap_cons, List.flatMap_cons, hreferences]
  | @left right s s' _ ih =>
      obtain ⟨htrail, hreferences⟩ := ih
      have hbody : (bodyTrail alphabet (some s) : Trail Effect String) =
          bodyTrail alphabet (some s') := htrail
      refine ⟨?_, ?_⟩
      · simp only [trail_either, List.map_cons, hbody]
        rfl
      · rw [references_either, references_either, hreferences]
  | @right left s s' _ ih =>
      obtain ⟨htrail, hreferences⟩ := ih
      have hbody : (bodyTrail alphabet (some s) : Trail Effect String) =
          bodyTrail alphabet (some s') := htrail
      refine ⟨?_, ?_⟩
      · simp only [trail_either, List.map_cons, hbody]
        rfl
      · rw [references_either, references_either, hreferences]
  | repeated q greedy _ ih =>
      obtain ⟨htrail, hreferences⟩ := ih
      refine ⟨?_, hreferences⟩
      rw [trail_repeated, trail_repeated, htrail]
      rfl
  | capturing number _ ih =>
      obtain ⟨htrail, hreferences⟩ := ih
      refine ⟨?_, hreferences⟩
      rw [trail_capturing, trail_capturing, bodyTrail_some, bodyTrail_some, htrail]
      rfl
  | grouping _ ih =>
      obtain ⟨htrail, hreferences⟩ := ih
      refine ⟨?_, hreferences⟩
      rw [trail_grouping, trail_grouping, bodyTrail_some, bodyTrail_some, htrail]
      rfl
  | lookaround direction positive _ _ =>
      refine ⟨?_, rfl⟩
      rw [trail_lookaround, trail_lookaround]
      rfl

end Regex

/-- **Enumerations of interchangeable trees** give the same strings, pull by pull. -/
theorem Enumeration.next_after_of_interchangeable {alphabet : CodeRange} {r r' : Regex}
    (h : r.Interchangeable alphabet r') (groupCount groupCount' n : ℕ) :
    ((ofPattern ⟨some r, groupCount⟩ { alphabet } : Enumeration String).after n).next.1 =
      ((ofPattern ⟨some r', groupCount'⟩ { alphabet } : Enumeration String).after n).next.1 := by
  rw [next_after_ofPattern, next_after_ofPattern, Captures.referAll, Captures.referAll,
    h.references_eq, Regex.bodyTrail_some, Regex.bodyTrail_some, h.trail_eq]

end RegexWords
