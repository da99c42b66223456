import RegexWords.Proofs.Agreement
import RegexWords.Proofs.ClosedForm
import RegexWords.Proofs.Counting
import RegexWords.Proofs.Language

/-!
# Patterns without End

Whether a tree holds a repetition without an upper bound can be read off the tree; whether its
source ends shows only in its pulls. A bounded tree always ends. An open repetition need not be
seen: beside a part without values a sequence has no values either, a repetition that allows no
draw does not ask for any, and the body of a lookaround is not enumerated. Where none of this
happens, the two agree, since a size without end then makes every size above it one without end.

## Main definitions

* `Regex.Fruitful`: every node has a value, and no open repetition is hidden.

## Main results

* `Regex.Fruitful.size_eq_top`: an unbounded tree has values without end.
* `Regex.isUnbounded_iff_endless`: **what is unbounded is what never ends**.
-/

namespace RegexWords

/-! ### Sizes without end -/

/-- A product with a factor without end is without end, unless a factor is `0`. -/
theorem prod_eq_top {sizes : List ℕ∞} (htop : ⊤ ∈ sizes) (hzero : 0 ∉ sizes) : sizes.prod = ⊤ := by
  obtain ⟨before, after, rfl⟩ := List.append_of_mem htop
  rw [List.mem_append, List.mem_cons, not_or, not_or] at hzero
  have hbefore : before.prod ≠ 0 := mt List.prod_eq_zero_iff.1 hzero.1
  have hafter : after.prod ≠ 0 := mt List.prod_eq_zero_iff.1 hzero.2.2
  rw [List.prod_append, List.prod_cons, ENat.top_mul hafter, ENat.mul_top hbefore]

/-- Draws without end come from an open repetition of something or from something without end, as
long as the repetition allows draws at all. -/
theorem Trail.Fused.size_power_eq_top {ε α : Type} {t : Trail ε α} (ht : t.Fused) {min : ℕ}
    {max : Option ℕ} (hsize : t.size ≠ 0) (hmax : ∀ m ∈ max, Nat.max 1 min ≤ m)
    (htop : max = none ∨ t.size = ⊤) : (Trail.power min max t).size = ⊤ := by
  rw [ht.size_power]
  cases max with
  | none => rw [ht.size_lengths_none (Trail.least_pos min), if_neg hsize, add_top]
  | some m =>
      obtain htop : t.size = ⊤ := htop.resolve_left (Option.some_ne_none m)
      rw [ht.size_lengths_some (Trail.least_pos min), htop,
        Trail.sum_top_pow (Trail.least_pos min) (hmax m rfl), add_top]

namespace Regex

variable {alphabet : CodeRange}

/-- A tree is **fruitful** if nothing in it keeps an open repetition from being seen. Bodies of
lookarounds do not count as parts of the tree here. -/
structure Fruitful (alphabet : CodeRange) (r : Regex) : Prop where
  /-- Every node has a value. -/
  nonempty : ∀ s ∈ r.preorder false, (s.texts alphabet).Nonempty
  /-- Every repetition allows a draw. -/
  max_ne : ∀ part q greedy, repeated part q greedy ∈ r.preorder false → q.bounds.max ≠ some 0
  /-- No open repetition stands in the body of a lookaround. -/
  bounded : ∀ body direction positive, lookaround body direction positive ∈ r.preorder false →
    bodyUnbounded body = false

/-- The parts of a fruitful tree are fruitful. -/
theorem Fruitful.mono {r s : Regex} (h : r.Fruitful alphabet)
    (hsub : s.preorder false ⊆ r.preorder false) : s.Fruitful alphabet where
  nonempty u hu := h.nonempty u (hsub hu)
  max_ne part q greedy hu := h.max_ne part q greedy (hsub hu)
  bounded body direction positive hu := h.bounded body direction positive (hsub hu)

/-- A fruitful tree has values. -/
theorem Fruitful.size_ne_zero {r : Regex} (h : r.Fruitful alphabet) :
    (r.trail alphabet : Trail Effect String).size ≠ 0 := by
  obtain ⟨v, n, hvalue⟩ := h.nonempty r (mem_preorder_self false r)
  intro hzero
  rw [(fused_trail alphabet r).size_eq_zero_iff] at hzero
  rw [(fused_trail alphabet r).value?_eq_none (Nat.zero_le n) hzero] at hvalue
  exact Option.some_ne_none v hvalue.symm

/-- A part of a fruitful sequence is fruitful. -/
theorem Fruitful.part {parts : List Regex} (h : (sequence parts).Fruitful alphabet) {r : Regex}
    (hr : r ∈ parts) : r.Fruitful alphabet := by
  refine h.mono fun s hs => ?_
  rw [preorder, preorderList_eq]
  exact List.mem_cons_of_mem _ (List.mem_flatMap_of_mem hr hs)

/-- A side of a fruitful alternative is fruitful. -/
theorem Fruitful.side {left right : Option Regex} (h : (either left right).Fruitful alphabet)
    {r : Regex} (hr : r ∈ left ∨ r ∈ right) : r.Fruitful alphabet := by
  refine h.mono fun s hs => List.mem_cons_of_mem _ ?_
  rcases hr with rfl | rfl
  · exact List.mem_append_left _ hs
  · exact List.mem_append_right _ hs

/-- A fruitful repetition allows tuples of draws that are not empty. -/
theorem Fruitful.least_le {part : Regex} {q : Quantifier} {greedy : Bool}
    (h : (repeated part q greedy).Fruitful alphabet) :
    ∀ m ∈ q.bounds.max, Nat.max 1 q.bounds.min ≤ m := by
  intro m hm
  obtain ⟨v, hv⟩ := h.nonempty _ (mem_preorder_self false _)
  obtain ⟨draws, hmin, hmax, -, -⟩ := exists_of_mem_values_repeated hv
  refine Nat.max_le.2 ⟨?_, hmin.trans (hmax m hm)⟩
  by_contra hzero
  obtain rfl : m = 0 := by omega
  exact h.max_ne part q greedy (mem_preorder_self false _) hm

/-! ### Trees without end -/

/-- A body never ends if it is unbounded and unbounded trees never end. -/
theorem size_bodyTrail_eq_top {body : Option Regex}
    (ih : ∀ r ∈ body, r.isUnbounded → (r.trail alphabet : Trail Effect String).size = ⊤)
    (hbody : bodyUnbounded body) : (bodyTrail alphabet body : Trail Effect String).size = ⊤ := by
  obtain ⟨r, rfl, hr⟩ := (bodyUnbounded_iff body).1 hbody
  exact ih r rfl hr

/-- **Unbounded trees never end**, if nothing keeps their open repetitions from being seen. -/
theorem Fruitful.size_eq_top {r : Regex} (h : r.Fruitful alphabet) (hr : r.isUnbounded) :
    (r.trail alphabet : Trail Effect String).size = ⊤ := by
  induction r with
  | sequence parts ih =>
      obtain ⟨part, hpart, hunbounded⟩ := (anyUnbounded_iff parts).1 hr
      have hne : parts.map (trail alphabet : Regex → Trail Effect String) ≠ [] :=
        List.ne_nil_of_mem (List.mem_map_of_mem hpart)
      rw [trail_sequence_string, Trail.size_map, Trail.product_eq_tuples hne,
        Trail.size_tuples (fused_trails alphabet parts), List.map_map]
      refine prod_eq_top (List.mem_map.2 ⟨part, hpart, ih part hpart (h.part hpart) hunbounded⟩) ?_
      intro hzero
      obtain ⟨s, hs, hzero⟩ := List.mem_map.1 hzero
      exact (h.part hs).size_ne_zero hzero
  | either left right ihleft ihright =>
      have hleft := size_bodyTrail_eq_top fun r hr => ihleft r hr (h.side (Or.inl hr))
      have hright := size_bodyTrail_eq_top fun r hr => ihright r hr (h.side (Or.inr hr))
      have hfused : ∀ t ∈ [left, right].map (bodyTrail alphabet : _ → Trail Effect String),
          t.Fused := by
        intro t ht
        obtain ⟨body, -, rfl⟩ := List.mem_map.1 ht
        exact Plan.fused_trail _
      rw [trail_either, Trail.size_map, Trail.size_concat hfused]
      rcases Bool.or_eq_true_iff.1 hr with hr | hr
      · simp [hleft hr]
      · simp [hright hr]
  | repeated part q greedy ih =>
      have hpart : part.Fruitful alphabet := h.mono (List.subset_cons_self _ _)
      have htop : q.bounds.max = none ∨ (part.trail alphabet : Trail Effect String).size = ⊤ := by
        rcases Bool.or_eq_true_iff.1 hr with hr | hr
        · exact Or.inl (Option.isNone_iff_eq_none.1 hr)
        · exact Or.inr (ih hpart hr)
      rw [trail_repeated, Trail.size_map]
      exact (fused_trail alphabet part).size_power_eq_top hpart.size_ne_zero h.least_le htop
  | capturing number body ih =>
      rw [trail_capturing, Trail.size_map, Trail.size_tap]
      refine size_bodyTrail_eq_top (fun r hr => ih r hr ?_) hr
      obtain rfl := hr
      exact h.mono (List.subset_cons_self _ _)
  | grouping body ih =>
      rw [trail_grouping, Trail.size_map]
      refine size_bodyTrail_eq_top (fun r hr => ih r hr ?_) hr
      obtain rfl := hr
      exact h.mono (List.subset_cons_self _ _)
  | lookaround body direction positive ih =>
      have hbody := h.bounded body direction positive (mem_preorder_self false _)
      exact absurd (hbody.symm.trans hr) Bool.false_ne_true
  | _ => exact absurd hr Bool.false_ne_true

/-! ### Pulls -/

variable {ω : Type} [Outcome ω] [LawfulOutcome ω]

/-- Some number of pulls comes to the end of a tree, whatever it produces, exactly if the trail of
its strings ends. -/
theorem exists_none_mem_answers_iff (r : Regex) :
    (∃ n, none ∈ ((r.plan alphabet : Plan Effect ω).source.answers n).map (·.1)) ↔
      (r.trail alphabet : Trail Effect String).Ends := by
  have hends : ∀ n, (r.trail alphabet : Trail Effect ω).value? n = none ↔
      (r.trail alphabet : Trail Effect String).value? n = none := by
    intro n
    rw [← map_value_trail (ω := ω), Trail.value?_map, Option.map_eq_none_iff]
  simp only [Source.answers_eq, List.map_map, List.mem_map, List.mem_range, Function.comp_apply]
  constructor
  · rintro ⟨n, k, -, hk⟩
    exact ⟨k, (hends k).1 hk⟩
  · rintro ⟨n, hn⟩
    exact ⟨n + 1, n, Nat.lt_succ_self n, (hends n).2 hn⟩

variable (ω) in
/-- **What is unbounded is what never ends.** A bounded tree comes to its end after finitely many
pulls. A fruitful tree is unbounded exactly if no number of pulls comes to its end. -/
theorem isUnbounded_iff_endless (alphabet : CodeRange) (r : Regex) :
    (r.isUnbounded = false →
        ∃ n, none ∈ ((r.plan alphabet : Plan Effect ω).source.answers n).map (·.1)) ∧
      (r.Fruitful alphabet → (r.isUnbounded = true ↔
        ∀ n, none ∉ ((r.plan alphabet : Plan Effect ω).source.answers n).map (·.1))) := by
  have hbounded : r.isUnbounded = false →
      ∃ n, none ∈ ((r.plan alphabet : Plan Effect ω).source.answers n).map (·.1) := fun hr =>
    (exists_none_mem_answers_iff r).2 (ends_of_bounded hr)
  refine ⟨hbounded, fun hfruitful => ⟨fun hr n hn => ?_, fun hendless => ?_⟩⟩
  · have hends := (exists_none_mem_answers_iff r).1 ⟨n, hn⟩
    have htop := hfruitful.size_eq_top hr
    rw [hends.size_eq] at htop
    exact ENat.natCast_ne_top _ htop
  · by_contra hr
    obtain ⟨n, hn⟩ := hbounded (Bool.eq_false_iff.2 hr)
    exact hendless n hn

/-- A tree has texts if its source gives a value at once. -/
theorem nonempty_texts_of_next {r : Regex}
    (h : (r.plan alphabet : Plan Effect String).source.next.value?.isSome) :
    (r.texts alphabet).Nonempty := by
  rw [(Source.next_eq _).1] at h
  obtain ⟨v, hv⟩ := Option.isSome_iff_exists.1 h
  exact ⟨v, 0, hv⟩

/-- An endless repetition in a group, the fastest part of a sequence, before parts that end. -/
theorem isUnbounded_iff_endless_group :
    ∃ r : Regex, r = sequence [capturing 1 (some (repeated (literal 'a') .star true)),
        repeated (either (some (literal 'b')) none) (.between 1 2) true,
        lookaround (some (literal 'c')) .ahead true] ∧
      r.isUnbounded = true ∧ r.Fruitful .printable ∧
      ∀ n, none ∉ ((r.plan .printable : Plan Effect Provenance).source.answers n).map (·.1) := by
  let r : Regex := sequence [capturing 1 (some (repeated (literal 'a') .star true)),
    repeated (either (some (literal 'b')) none) (.between 1 2) true,
    lookaround (some (literal 'c')) .ahead true]
  have hfruitful : r.Fruitful .printable := by
    have hfirst : ∀ s ∈ r.preorder false,
        (s.plan .printable : Plan Effect String).source.next.value?.isSome := by
      decide
    refine ⟨fun s hs => nonempty_texts_of_next (hfirst s hs), ?_, ?_⟩
    · intro part q greedy h
      simp [r, preorder, preorderList, preorderBody] at h
      rcases h with ⟨-, rfl, -⟩ | ⟨-, rfl, -⟩ <;> decide
    · intro body direction positive h
      simp [r, preorder, preorderList, preorderBody] at h
      obtain ⟨rfl, -, -⟩ := h
      rfl
  exact ⟨r, rfl, rfl, hfruitful,
    ((isUnbounded_iff_endless Provenance .printable r).2 hfruitful).1 rfl⟩

end Regex

end RegexWords
