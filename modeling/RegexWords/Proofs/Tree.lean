import RegexWords.Pattern

/-!
# Induction over Pattern Trees

A tree holds its parts in lists and its alternatives and bodies in options. The induction
principle here gives the hypothesis for every member of such a list or option, so proofs by
recursion on the tree need no companions for lists and bodies.

## Main results

* `Regex.induction`: the induction principle, used by `induction` on trees from here on.
* `Regex.anyUnbounded_iff`, `Regex.bodyUnbounded_iff`: a tree is unbounded exactly if a part of it
  is, and with `_eq_false_iff` bounded exactly if its parts are.
* `Regex.preorderList_eq`: the nodes of several trees.
-/

namespace RegexWords

namespace Regex

/-- **Induction over trees.** What holds of a node whenever it holds of the trees directly below
it holds of every tree. -/
@[elab_as_elim, induction_eliminator]
theorem induction {motive : Regex → Prop}
    (literal : ∀ c, motive (literal c))
    (dot : motive dot)
    (sequence : ∀ parts, (∀ r ∈ parts, motive r) → motive (sequence parts))
    (either : ∀ left right, (∀ r ∈ left, motive r) → (∀ r ∈ right, motive r) →
      motive (either left right))
    (repeated : ∀ part q greedy, motive part → motive (repeated part q greedy))
    (charClass : ∀ members negated, motive (charClass members negated))
    (shorthand : ∀ kind, motive (shorthand kind))
    (anchor : ∀ kind, motive (anchor kind))
    (capturing : ∀ number body, (∀ r ∈ body, motive r) → motive (capturing number body))
    (grouping : ∀ body, (∀ r ∈ body, motive r) → motive (grouping body))
    (backreference : ∀ number, motive (backreference number))
    (lookaround : ∀ body direction positive, (∀ r ∈ body, motive r) →
      motive (lookaround body direction positive)) (r : Regex) : motive r := by
  refine @Regex.rec motive (fun parts => ∀ r ∈ parts, motive r) (fun body => ∀ r ∈ body, motive r)
    literal dot sequence either repeated charClass shorthand anchor capturing grouping
    backreference lookaround ?_ ?_ ?_ ?_ r
  · simp
  · intro r rs hr hrs
    simpa using ⟨hr, hrs⟩
  · simp
  · intro r hr
    simpa using hr

/-- Several trees are bounded if each of them is. -/
theorem anyUnbounded_eq_false_iff (rs : List Regex) :
    anyUnbounded rs = false ↔ ∀ r ∈ rs, r.isUnbounded = false := by
  induction rs with
  | nil => simp [anyUnbounded]
  | cons r rs ih => simp [anyUnbounded, ih]

/-- A tree that may be absent is bounded if it is absent or bounded. -/
theorem bodyUnbounded_eq_false_iff (body : Option Regex) :
    bodyUnbounded body = false ↔ ∀ r ∈ body, r.isUnbounded = false := by
  cases body with
  | none => simp [bodyUnbounded]
  | some r => simp [bodyUnbounded]

/-- Several trees are unbounded if one of them is. -/
theorem anyUnbounded_iff (rs : List Regex) : anyUnbounded rs ↔ ∃ r ∈ rs, r.isUnbounded := by
  induction rs with
  | nil => simp [anyUnbounded]
  | cons r rs ih => simp [anyUnbounded, ih]

/-- A tree that may be absent is unbounded if it is there and unbounded. -/
theorem bodyUnbounded_iff (body : Option Regex) :
    bodyUnbounded body ↔ ∃ r ∈ body, r.isUnbounded := by
  cases body <;> simp [bodyUnbounded]

/-- The nodes of several trees, one tree after the other. -/
theorem preorderList_eq (lookarounds : Bool) (rs : List Regex) :
    preorderList lookarounds rs = rs.flatMap (preorder lookarounds) := by
  induction rs with
  | nil => rfl
  | cons r rs ih => rw [preorderList, ih, List.flatMap_cons]

/-- A tree is the first of its nodes. -/
theorem mem_preorder_self (lookarounds : Bool) (r : Regex) : r ∈ r.preorder lookarounds := by
  cases r <;> exact List.mem_cons_self

end Regex

end RegexWords
