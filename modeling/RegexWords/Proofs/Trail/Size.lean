import Mathlib.Data.ENat.BigOperators
import RegexWords.Proofs.Trail.Listing
import RegexWords.Proofs.Trail.Values

/-!
# How Many Values a Trail Has

The **size** of a trail is the number of its values, `⊤` if it never ends. Sizes are extended
natural numbers, so one formula says how many values a combination has, whether its parts end or
not: sizes of trails that follow each other add up, those of the parts of a tuple are multiplied,
and a part without values leaves no tuples even beside a part without end, since `0 * ⊤ = 0`.

The period of a trail is its size as a natural number, with `0` in place of `⊤`.

## Main results

* `Trail.Fused.value?_eq_none_iff_size_le`: the size says where a trail ends.
* `Trail.Fused.size_append`, `Trail.size_concat`: **the sizes of trails one after the other**.
* `Trail.Fused.size_cons`, `Trail.size_tuples`: **the size of tuples**.
* `Trail.Fused.size_lengths_some`, `Trail.Fused.size_lengths_none`: **the size of tuples of
  increasing length**.
-/

namespace RegexWords

variable {ε α β : Type}

namespace Trail

open Classical in
/-- The **size** of a trail: the number of its values, `⊤` if it never ends. -/
noncomputable def size (t : Trail ε α) : ℕ∞ :=
  if t.Ends then t.period else ⊤

/-- The size of a trail that ends is its period. -/
theorem Ends.size_eq {t : Trail ε α} (h : t.Ends) : t.size = t.period :=
  if_pos h

/-- A trail that ends after some values has a positive period. -/
theorem Ends.period_pos {t : Trail ε α} (h : t.Ends) (h0 : t.size ≠ 0) : 0 < t.period := by
  refine Nat.pos_of_ne_zero fun hzero => h0 ?_
  rw [h.size_eq, hzero, Nat.cast_zero]

/-- A trail that never ends has no finite size. -/
theorem size_eq_top {t : Trail ε α} (h : ¬ t.Ends) : t.size = ⊤ :=
  if_neg h

/-- **The size says where a trail ends.** -/
theorem Fused.value?_eq_none_iff_size_le {t : Trail ε α} (ht : t.Fused) (n : ℕ) :
    t.value? n = none ↔ t.size ≤ n := by
  by_cases h : t.Ends
  · rw [h.size_eq, Nat.cast_le]
    exact h.value?_eq_none_iff ht n
  · rw [size_eq_top h, top_le_iff]
    exact iff_of_false (fun hn => h ⟨n, hn⟩) (ENat.natCast_ne_top n)

/-- A trail that ends after as many values as an extended number says has that size. -/
theorem size_eq_of_forall {t : Trail ε α} {m : ℕ∞} (h : ∀ n : ℕ, t.value? n = none ↔ m ≤ n) :
    t.size = m := by
  cases m with
  | top =>
      refine size_eq_top ?_
      rintro ⟨n, hn⟩
      exact ENat.natCast_ne_top n (top_le_iff.1 ((h n).1 hn))
  | coe m =>
      have hset : {n | t.value? n = none} = Set.Ici m := by
        ext n
        rw [Set.mem_ofPred_eq, h, Nat.cast_le, Set.mem_Ici]
      have hends : t.Ends := ⟨m, (h m).2 le_rfl⟩
      rw [hends.size_eq, period, hset, csInf_Ici]

/-- The period of a trail is its size, with `0` for a trail without end. -/
theorem toNat_size (t : Trail ε α) : t.size.toNat = t.period := by
  by_cases h : t.Ends
  · rw [h.size_eq, ENat.toNat_natCast]
  · rw [size_eq_top h, ENat.toNat_top, period_eq_zero fun n hn => h ⟨n, hn⟩]

/-- Trails that end at the same pulls have the same size. -/
theorem size_congr {t : Trail ε α} {u : Trail ε β}
    (h : ∀ n, t.value? n = none ↔ u.value? n = none) : t.size = u.size := by
  have hperiod : t.period = u.period := by simp only [period, h]
  by_cases hu : u.Ends
  · obtain ⟨n, hn⟩ := hu
    rw [Ends.size_eq ⟨n, (h n).2 hn⟩, Ends.size_eq ⟨n, hn⟩, hperiod]
  · rw [size_eq_top hu, size_eq_top]
    rintro ⟨n, hn⟩
    exact hu ⟨n, (h n).1 hn⟩

/-- A trail has no values exactly if it has no first one. -/
theorem Fused.size_eq_zero_iff {t : Trail ε α} (ht : t.Fused) :
    t.size = 0 ↔ t.value? 0 = none := by
  rw [ht.value?_eq_none_iff_size_le, Nat.cast_zero, nonpos_iff_eq_zero]

/-- A trail with a list has as many values as the list. -/
theorem Lists.size_eq {t : Trail ε α} {xs : List α} (h : t.Lists xs) : t.size = xs.length := by
  refine size_eq_of_forall fun n => ?_
  rw [h n, List.getElem?_eq_none_iff, Nat.cast_le]

@[simp] theorem size_items (values : List α) :
    (items values : Trail ε α).size = values.length :=
  (Lists.items values).size_eq

@[simp] theorem size_map (f : α → β) (t : Trail ε α) : (t.map f).size = t.size :=
  size_congr fun _ => Option.map_eq_none_iff

@[simp] theorem size_tap (event : α → ε) (t : Trail ε α) : (t.tap event).size = t.size :=
  size_congr fun _ => Iff.rfl

/-- The values of the numbers from one on never end. -/
theorem value?_numbers (value : ℕ → α) (first n : ℕ) :
    (Source.numbers value first : Source ε α).trail.value? n = some (value (first + n)) := by
  let step : ℕ → Pull ε α ℕ := fun n => .yield (value n) (n + 1)
  have hfused : Pull.Fused step := fun _ hend => nomatch hend
  have hstate : ∀ k, Pull.stateAt step k first = first + k := by
    intro k
    induction k with
    | zero => rfl
    | succ k ih =>
        rw [Pull.stateAt_succ, ih]
        rfl
  rw [Source.numbers, Source.trail_boxed hfused, Pull.value?_trail, hstate]
  rfl

@[simp] theorem size_numbers (value : ℕ → α) (first : ℕ) :
    (Source.numbers value first : Source ε α).trail.size = ⊤ := by
  refine size_eq_top ?_
  rintro ⟨n, hn⟩
  rw [value?_numbers] at hn
  exact Option.some_ne_none _ hn

/-! ### One after the other -/

/-- **The sizes of two trails add up** if one follows the other. -/
theorem Fused.size_append {t u : Trail ε α} (ht : t.Fused) (hu : u.Fused) :
    (t.append u).size = t.size + u.size := by
  refine size_eq_of_forall fun n => ?_
  rw [value?_append, Option.or_eq_none_iff, hu.value?_eq_none_iff_size_le]
  by_cases h : t.Ends
  · rw [h.value?_eq_none_iff ht, h.size_eq]
    cases hsize : u.size with
    | top => simp
    | coe m =>
        rw [← Nat.cast_add, Nat.cast_le, Nat.cast_le]
        omega
  · have hn : t.value? n ≠ none := fun hn => h ⟨n, hn⟩
    simp [size_eq_top h, hn]

/-- One fused trail after another is fused. -/
theorem Fused.append {t u : Trail ε α} (ht : t.Fused) (hu : u.Fused) : (t.append u).Fused := by
  have hsub : ∀ n, (t.append u).value? n = none →
      t.value? n = none ∧ u.value? (n - t.period) = none ∧ n + 1 - t.period = n - t.period + 1 := by
    intro n hn
    rw [value?_append, Option.or_eq_none_iff] at hn
    have hle := (ht.value?_eq_none_iff hn.1 n).1 hn.1
    exact ⟨hn.1, hn.2, by omega⟩
  refine ⟨fun n hn => ?_, fun n hn => ?_⟩
  · obtain ⟨htn, hun, hnext⟩ := hsub n hn
    rw [value?_append, ht.value?_succ n htn, hnext, hu.value?_succ _ hun]
    rfl
  · obtain ⟨htn, hun, hnext⟩ := hsub n hn
    rw [events_append, ht.events_succ n htn, ht.value?_succ n htn, hnext, hu.events_succ _ hun]
    rfl

/-- Fused trails that follow each other are fused. -/
theorem Fused.concat {ts : List (Trail ε α)} (h : ∀ t ∈ ts, t.Fused) : (concat ts).Fused := by
  induction ts with
  | nil => exact fused_items []
  | cons t ts ih =>
      exact (h t List.mem_cons_self).append (ih fun u hu => h u (List.mem_cons_of_mem t hu))

/-- **The sizes of several trails add up** if they follow each other. -/
theorem size_concat {ts : List (Trail ε α)} (h : ∀ t ∈ ts, t.Fused) :
    (concat ts).size = (ts.map size).sum := by
  induction ts with
  | nil => simp [concat]
  | cons t ts ih =>
      have hrest : ∀ u ∈ ts, u.Fused := fun u hu => h u (List.mem_cons_of_mem t hu)
      rw [concat, (h t List.mem_cons_self).size_append (Fused.concat hrest), ih hrest,
        List.map_cons, List.sum_cons]

/-! ### Tuples -/

/-- **The size of tuples with one more trail.** -/
theorem Fused.size_cons {t : Trail ε α} {u : Trail ε (List α)} (ht : t.Fused) (hu : u.Fused) :
    (Trail.cons t u).size = t.size * u.size := by
  refine size_eq_of_forall fun n => ?_
  by_cases h0 : t.value? 0 = none
  · have hn : (Trail.cons t u).value? n = none := by
      rw [value?_cons, ht.value?_eq_none (Nat.zero_le _) h0]
      rfl
    simp [hn, ht.size_eq_zero_iff.2 h0]
  · have hnone : (Trail.cons t u).value? n = none ↔ u.value? (n / t.period) = none := by
      obtain ⟨a, ha⟩ := Option.ne_none_iff_exists'.1 (ht.value?_mod_period_ne_none h0 n)
      rw [value?_cons, ha, Option.bind_some]
      cases u.value? (n / t.period) <;> simp
    have hsize : t.size ≠ 0 := fun hc => h0 (ht.size_eq_zero_iff.1 hc)
    rw [hnone, hu.value?_eq_none_iff_size_le]
    by_cases h : t.Ends
    · have hpos := h.period_pos hsize
      rw [h.size_eq]
      cases u.size with
      | top => simp [ENat.mul_top, hpos.ne']
      | coe m =>
          rw [← Nat.cast_mul, Nat.cast_le, Nat.cast_le, Nat.le_div_iff_mul_le hpos, Nat.mul_comm]
    · -- the first trail never turns, so there is a tuple exactly if there is a first one
      rw [size_eq_top h, ← toNat_size, size_eq_top h, ENat.toNat_top, Nat.div_zero, Nat.cast_zero,
        nonpos_iff_eq_zero]
      by_cases hzero : u.size = 0
      · simp [hzero]
      · simp [hzero, ENat.top_mul]

/-- **The size of tuples** is the product of the sizes. -/
theorem size_tuples {ts : List (Trail ε α)} (h : ∀ t ∈ ts, t.Fused) :
    (tuples ts).size = (ts.map size).prod := by
  induction ts with
  | nil => simp [tuples]
  | cons t ts ih =>
      have hrest : ∀ u ∈ ts, u.Fused := fun u hu => h u (List.mem_cons_of_mem t hu)
      rw [tuples, (h t List.mem_cons_self).size_cons (Fused.tuples hrest), ih hrest, List.map_cons,
        List.prod_cons]

/-! ### Tuples of increasing length -/

/-- A tuple is longer than `max` once there were all tuples up to that length. -/
theorem tooLong_place_iff {p length : ℕ} (hp : 0 < p) (max n : ℕ) :
    Repetition.tooLong (some max) (place p length n).1 ↔
      ∑ k ∈ Finset.Ico length (max + 1), p ^ k ≤ n := by
  rw [Repetition.tooLong_some]
  rcases Nat.lt_or_ge max length with hmax | hmax
  · have hfirst := place_fst_mono p length (Nat.zero_le n)
    rw [place_zero] at hfirst
    rw [Finset.Ico_eq_empty (by omega), Finset.sum_empty]
    exact iff_of_true (lt_of_lt_of_le hmax hfirst) (Nat.zero_le n)
  · exact le_place_fst_iff hp (Nat.le_succ_of_le hmax) n

/-- If values never end then tuples of the first length do not. -/
theorem sum_top_pow {length max : ℕ} (hlength : 0 < length) (hmax : length ≤ max) :
    ∑ k ∈ Finset.Ico length (max + 1), (⊤ : ℕ∞) ^ k = ⊤ := by
  have hmem : length ∈ Finset.Ico length (max + 1) :=
    Finset.mem_Ico.2 ⟨le_rfl, Nat.lt_succ_of_le hmax⟩
  have hle := Finset.single_le_sum (f := fun k => (⊤ : ℕ∞) ^ k) (fun _ _ => zero_le) hmem
  have htop : (⊤ : ℕ∞) ^ length = ⊤ := ENat.top_pow hlength.ne'
  rwa [htop, top_le_iff] at hle

/-- **The size of tuples of increasing length**, up to a greatest length. -/
theorem Fused.size_lengths_some {t : Trail ε α} (ht : t.Fused) {length : ℕ} (hlength : 0 < length)
    (max : ℕ) :
    (Trail.lengths length (some max) t).size = ∑ k ∈ Finset.Ico length (max + 1), t.size ^ k := by
  refine size_eq_of_forall fun n => ?_
  rw [ht.value?_lengths_eq_none_iff hlength, ← ht.size_eq_zero_iff]
  by_cases h0 : t.size = 0
  · have hsum : ∑ k ∈ Finset.Ico length (max + 1), t.size ^ k = 0 := by
      refine Finset.sum_eq_zero fun k hk => ?_
      have hk' := (Finset.mem_Ico.1 hk).1
      rw [h0, zero_pow (by omega)]
    rw [hsum]
    exact iff_of_true (Or.inr h0) zero_le
  · rw [or_iff_left h0]
    by_cases h : t.Ends
    · rw [tooLong_place_iff (h.period_pos h0), h.size_eq]
      exact_mod_cast Iff.rfl
    · -- only the first length comes up
      rw [size_eq_top h, period_eq_zero fun n hn => h ⟨n, hn⟩, place_of_lt (Or.inl rfl),
        Repetition.tooLong_some]
      rcases Nat.lt_or_ge max length with hmax | hmax
      · rw [Finset.Ico_eq_empty (by omega), Finset.sum_empty]
        exact iff_of_true hmax zero_le
      · rw [sum_top_pow hlength hmax, top_le_iff]
        exact iff_of_false (by omega) (ENat.natCast_ne_top n)

/-- **Tuples of every length never end**, unless there is nothing to fill them with. -/
theorem Fused.size_lengths_none {t : Trail ε α} (ht : t.Fused) {length : ℕ}
    (hlength : 0 < length) : (Trail.lengths length none t).size = if t.size = 0 then 0 else ⊤ := by
  refine size_eq_of_forall fun n => ?_
  rw [ht.value?_lengths_eq_none_iff hlength, ← ht.size_eq_zero_iff]
  by_cases h0 : t.size = 0 <;> simp [h0, Repetition.tooLong]

/-- One more value in front of a fused trail. -/
theorem Fused.prepend {t : Trail ε α} (ht : t.Fused) (value : α) : (prepend value t).Fused := by
  constructor
  · intro n hn
    cases n with
    | zero => exact absurd hn (Option.some_ne_none _)
    | succ n => exact ht.value?_succ n hn
  · intro n hn
    cases n with
    | zero => exact absurd hn (Option.some_ne_none _)
    | succ n => exact ht.events_succ n hn

/-- **The size with one more value** in front. -/
theorem size_prepend {t : Trail ε α} (ht : t.Fused) (value : α) :
    (prepend value t).size = 1 + t.size := by
  refine size_eq_of_forall fun n => ?_
  cases n with
  | zero => simp [prepend]
  | succ n =>
      have hvalue : (prepend value t).value? (n + 1) = t.value? n := rfl
      rw [hvalue, ht.value?_eq_none_iff_size_le, Nat.cast_add, Nat.cast_one, add_comm,
        ENat.add_le_add_iff_right ENat.one_ne_top]

end Trail

end RegexWords
