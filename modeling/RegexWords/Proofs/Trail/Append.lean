import RegexWords.Proofs.Trail.History

/-!
# One Trail after Another

As long as the first of two trails has values, nothing is seen of the second: neither values nor
events. From its end on the values are those of the second, counted from there. Where several
trails follow each other it does not matter how they are grouped.

## Main results

* `Trail.Fused.append_assoc`: **following is associative**, in values and in events.
* `Trail.Fused.history_append`: the history while the first trail has values.
* `Trail.Fused.value?_append_add`: the values after the end of the first trail.
-/

namespace RegexWords

variable {ε α : Type}

namespace Trail

variable {t u : Trail ε α}

/-- The period of a trail that ends is the number of its values. -/
theorem period_eq_of_first {n : ℕ} (hn : t.value? n = none) (hlt : ∀ k < n, t.value? k ≠ none) :
    t.period = n := by
  refine le_antisymm (Nat.sInf_le hn) (le_of_not_gt fun hc => hlt _ hc ?_)
  exact Nat.sInf_mem (s := {k | t.value? k = none}) ⟨n, hn⟩

/-- Nothing follows: the trail itself. -/
theorem append_items_nil (t : Trail ε α) : t.append (items []) = t := by
  ext1 <;> funext n
  · rw [value?_append]
    exact Option.or_none
  · rw [events_append]
    split <;> exact List.append_nil _

/-- While the first trail has values, these are the values. -/
theorem value?_append_of_ne_none (u : Trail ε α) {n : ℕ} (hn : t.value? n ≠ none) :
    (t.append u).value? n = t.value? n := by
  obtain ⟨a, ha⟩ := Option.ne_none_iff_exists'.1 hn
  rw [value?_append, ha, Option.some_or]

/-- After the end of the first trail the values are those of the second. -/
theorem Fused.value?_append_add (ht : t.Fused) (u : Trail ε α) {m : ℕ} (hm : t.value? m = none)
    (hlt : ∀ k < m, t.value? k ≠ none) (n : ℕ) : (t.append u).value? (m + n) = u.value? n := by
  rw [value?_append, ht.value?_eq_none (Nat.le_add_right m n) hm, period_eq_of_first hm hlt,
    Nat.add_sub_cancel_left, Option.none_or]

/-- **The history while the first trail has values** is its own. -/
theorem Fused.history_append (ht : t.Fused) (u : Trail ε α) {n : ℕ} (hn : t.value? n ≠ none) :
    (t.append u).history (n + 1) = t.history (n + 1) := by
  refine List.flatMap_congr fun k hk => ?_
  have hle : k ≤ n := Nat.le_of_lt_succ (List.mem_range.1 hk)
  have hvalue : (t.value? k).isSome := by
    rw [Option.isSome_iff_ne_none]
    exact fun hnone => hn (ht.value?_eq_none hle hnone)
  rw [events_append, if_pos hvalue, List.append_nil]

/-- If two trails end, the one after the other ends after the values of both. -/
theorem Fused.period_append (ht : t.Fused) {m n : ℕ} (hm : t.value? m = none)
    (hn : u.value? n = none) (hu : u.Fused) : (t.append u).period = t.period + u.period := by
  have ht' := ht.value?_eq_none_iff hm
  have hu' := hu.value?_eq_none_iff hn
  refine period_eq_of_first ?_ fun k hk => ?_
  · rw [value?_append, (ht' _).2 (Nat.le_add_right _ _), Nat.add_sub_cancel_left,
      (hu' _).2 (Nat.le_refl _)]
    rfl
  · rw [value?_append, ne_eq, Option.or_eq_none_iff, ht', hu']
    omega

/-- **Following is associative**, in values and in events. -/
theorem Fused.append_assoc (ht : t.Fused) (hu : u.Fused) (v : Trail ε α) :
    (t.append u).append v = t.append (u.append v) := by
  have hsub : ∀ n, t.value? n = none → u.value? (n - t.period) = none →
      n - (t.append u).period = n - t.period - u.period := by
    intro n htn hun
    rw [ht.period_append htn hun hu, Nat.sub_add_eq]
  ext1 <;> funext n
  · rw [value?_append, value?_append, value?_append, value?_append]
    cases htn : t.value? n with
    | some a => rfl
    | none =>
        cases hun : u.value? (n - t.period) with
        | some b => rfl
        | none => rw [hsub n htn hun]; rfl
  · rw [events_append, events_append, events_append, events_append, value?_append]
    cases htn : t.value? n with
    | some a => simp
    | none =>
        cases hun : u.value? (n - t.period) with
        | some b => simp
        | none => simp [hsub n htn hun]

end Trail

end RegexWords
