import RegexWords.Proofs.Reading.WellFormed
import RegexWords.Proofs.Replacement
import RegexWords.Proofs.Trail.Tuples

/-!
# Renumbering Groups

The groups of a tree may be numbered from another number on. What the groups record is then
recorded under other numbers, but no value depends on events, so the strings of the tree stay the
same, and so do the references in it.

## Main definitions

* `Regex.renumber`: the tree with a number added to the number of every group.

## Main results

* `Trail.value?_append_congr`, `Trail.value?_product_congr`, `Trail.value?_power_congr`: values
  depend on values only.
* `Regex.value?_trail_renumber`: **renumbering keeps the strings**.
* `Regex.references_renumber`: renumbering keeps the references.
-/

namespace RegexWords

variable {ε α : Type}

/-! ### Values depend on values only -/

namespace Trail

variable {t t' u u' : Trail ε α}

/-- The values of one trail after another depend on the values of both only. -/
theorem value?_append_congr (ht : t.value? = t'.value?) (hu : u.value? = u'.value?) :
    (t.append u).value? = (t'.append u').value? := by
  funext n
  rw [value?_append, value?_append, ht, hu, period_congr ht]

/-- The values of a product depend on the values of the trails only. -/
theorem value?_product_congr {β : Type} {l : List β} {trail trail' : β → Trail ε α}
    (h : ∀ b ∈ l, (trail b).value? = (trail' b).value?) :
    (product (l.map trail)).value? = (product (l.map trail')).value? := by
  cases l with
  | nil => rfl
  | cons b l => exact value?_tuples_congr h

/-- The values of the tuples of increasing length depend on the values of the trail only. -/
theorem value?_lengths_congr (h : t.value? = t'.value?) (length : ℕ) (max : Option ℕ) :
    (lengths length max t).value? = (lengths length max t').value? := by
  have hdraw : t.draw? = t'.draw? := by
    funext slot
    rw [draw?, draw?, h]
  funext n
  simp only [lengths, draws?, period_congr h, hdraw]

/-- The values of a power depend on the values of the trail only. -/
theorem value?_power_congr (h : t.value? = t'.value?) (min : ℕ) (max : Option ℕ) :
    (power min max t).value? = (power min max t').value? := by
  cases min with
  | zero =>
      funext n
      cases n with
      | zero => rfl
      | succ n => exact congrFun (value?_lengths_congr h 1 max) n
  | succ min => exact value?_lengths_congr h (min + 1) max

/-- Values that are changed depend on the values only. -/
theorem value?_map_congr {β : Type} (f : α → β) (h : t.value? = t'.value?) :
    (t.map f).value? = (t'.map f).value? := by
  funext n
  rw [value?_map, value?_map, h]

end Trail

namespace Regex

mutual

/-- The tree with `shift` added to the number of every group. References stay as they are. -/
def renumber (shift : ℕ) : Regex → Regex
  | sequence parts => sequence (renumberList shift parts)
  | either left right => either (renumberBody shift left) (renumberBody shift right)
  | repeated part q greedy => repeated (renumber shift part) q greedy
  | capturing number body => capturing (shift + number) (renumberBody shift body)
  | grouping body => grouping (renumberBody shift body)
  | lookaround body direction positive => lookaround (renumberBody shift body) direction positive
  | literal c => literal c
  | dot => dot
  | charClass members negated => charClass members negated
  | shorthand kind => shorthand kind
  | anchor kind => anchor kind
  | backreference number => backreference number

/-- A tree that may be absent, with its groups renumbered. -/
def renumberBody (shift : ℕ) : Option Regex → Option Regex
  | none => none
  | some r => some (renumber shift r)

/-- Several trees with their groups renumbered. -/
def renumberList (shift : ℕ) : List Regex → List Regex
  | [] => []
  | r :: rs => renumber shift r :: renumberList shift rs

end

variable {shift : ℕ}

/-- Several trees are renumbered one by one. -/
theorem renumberList_eq (rs : List Regex) :
    renumberList shift rs = rs.map (renumber shift) := by
  induction rs with
  | nil => rfl
  | cons r rs ih => rw [renumberList, ih, List.map_cons]

/-- A tree that may be absent is renumbered if it is there. -/
theorem renumberBody_eq (body : Option Regex) :
    renumberBody shift body = body.map (renumber shift) := by
  cases body <;> rfl

/-- Renumbering does not change how loosely a tree binds. -/
theorem looseness_renumber (r : Regex) : (r.renumber shift).looseness = r.looseness := by
  cases r <;> rfl

/-- In a leaf there is nothing to renumber. -/
theorem IsLeaf.renumber_eq {r : Regex} (h : r.IsLeaf) : r.renumber shift = r := by
  cases h <;> rfl

/-! ### Strings -/

variable {alphabet : CodeRange}

/-- Renumbering a body keeps its strings if renumbering the tree in it does. -/
theorem value?_bodyTrail_renumberBody_of_forall {body : Option Regex}
    (h : ∀ r ∈ body, ((r.renumber shift).trail alphabet : Trail Effect String).value? =
      (r.trail alphabet : Trail Effect String).value?) :
    (bodyTrail alphabet (renumberBody shift body) : Trail Effect String).value? =
      (bodyTrail alphabet body : Trail Effect String).value? := by
  cases body with
  | none => rfl
  | some r => exact h r rfl

/-- **Renumbering keeps the strings** of a tree. -/
theorem value?_trail_renumber (r : Regex) :
    ((r.renumber shift).trail alphabet : Trail Effect String).value? =
      (r.trail alphabet : Trail Effect String).value? := by
  induction r with
  | sequence parts ih =>
      rw [renumber, renumberList_eq, trail_sequence, trail_sequence, List.map_map]
      exact Trail.value?_map_congr _ (Trail.value?_product_congr ih)
  | either left right ihleft ihright =>
      rw [renumber, trail_either, trail_either]
      exact Trail.value?_map_congr _
        (Trail.value?_append_congr (value?_bodyTrail_renumberBody_of_forall ihleft)
          (Trail.value?_append_congr (value?_bodyTrail_renumberBody_of_forall ihright) rfl))
  | repeated part q greedy ih =>
      rw [renumber, trail_repeated, trail_repeated]
      exact Trail.value?_map_congr _ (Trail.value?_power_congr ih _ _)
  | capturing number body ih =>
      rw [renumber, trail_capturing, trail_capturing]
      exact Trail.value?_map_congr _ (value?_bodyTrail_renumberBody_of_forall ih)
  | grouping body ih =>
      rw [renumber, trail_grouping, trail_grouping]
      exact Trail.value?_map_congr _ (value?_bodyTrail_renumberBody_of_forall ih)
  | lookaround body direction positive ih =>
      rw [renumber, trail_lookaround, trail_lookaround]
      rfl
  | literal c => rfl
  | dot => rfl
  | charClass members negated => rfl
  | shorthand kind => rfl
  | anchor kind => rfl
  | backreference number => rfl

/-- Renumbering keeps the strings of a body. -/
theorem value?_bodyTrail_renumberBody (body : Option Regex) :
    (bodyTrail alphabet (renumberBody shift body) : Trail Effect String).value? =
      (bodyTrail alphabet body : Trail Effect String).value? :=
  value?_bodyTrail_renumberBody_of_forall fun r _ => value?_trail_renumber r

/-! ### References -/

/-- Renumbering a body keeps its references if renumbering the tree in it does. -/
theorem references_renumberBody_of_forall {body : Option Regex}
    (h : ∀ r ∈ body, references (some (r.renumber shift)) = references (some r)) :
    references (renumberBody shift body) = references body := by
  cases body with
  | none => rfl
  | some r => exact h r rfl

/-- **Renumbering keeps the references** of a tree. -/
theorem references_renumber (r : Regex) :
    references (some (r.renumber shift)) = references (some r) := by
  induction r with
  | sequence parts ih =>
      rw [renumber, renumberList_eq, references_sequence, references_sequence, List.flatMap_map]
      exact List.flatMap_congr ih
  | either left right ihleft ihright =>
      rw [renumber, references_either, references_either, references_renumberBody_of_forall ihleft,
        references_renumberBody_of_forall ihright]
  | repeated part q greedy ih => exact ih
  | capturing number body ih => exact references_renumberBody_of_forall ih
  | grouping body ih => exact references_renumberBody_of_forall ih
  | lookaround body direction positive ih => rfl
  | literal c => rfl
  | dot => rfl
  | charClass members negated => rfl
  | shorthand kind => rfl
  | anchor kind => rfl
  | backreference number => rfl

/-- Renumbering keeps the references of a body. -/
theorem references_renumberBody (body : Option Regex) :
    references (renumberBody shift body) = references body :=
  references_renumberBody_of_forall fun r _ => references_renumber r

end Regex

end RegexWords
