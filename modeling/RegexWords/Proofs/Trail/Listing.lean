import Mathlib.Data.List.Sections
import RegexWords.Proofs.Trail.Plan

/-!
# Trails with an End

A trail that ends is a list of values with events in between. Here the lists are computed: what
putting trails together does to trails that end is what the list operations do to their lists.
The product of trails lists the sections of their lists; the power of a trail lists the tuples of
every length, each length in lexicographic order of the indices.

## Main results

* `Trail.Lists.concat`, `Trail.Lists.product`, `Trail.Lists.power`: **the lists of the
  combinators**.
* `Trail.Lists.map_fst_answers`: draining a source whose trail ends.
-/

namespace RegexWords

variable {ε α β γ : Type}

/-! ### Tuples of one list -/

/-- All tuples of `k` values, in lexicographic order of their indices. -/
def tuplesOf (xs : List α) : ℕ → List (List α)
  | 0 => [[]]
  | k + 1 => xs.flatMap fun x => (tuplesOf xs k).map (x :: ·)

/-- In lexicographic order the last position turns fastest. -/
theorem tuplesOf_succ_eq (xs : List α) (k : ℕ) :
    tuplesOf xs (k + 1) = (tuplesOf xs k).flatMap fun w => xs.map fun x => w ++ [x] := by
  induction k with
  | zero => simp [tuplesOf, List.map_eq_flatMap]
  | succ k ih =>
      calc tuplesOf xs (k + 1 + 1)
          = xs.flatMap fun x => (tuplesOf xs (k + 1)).map (x :: ·) := rfl
        _ = xs.flatMap fun x =>
              ((tuplesOf xs k).flatMap fun w => xs.map fun y => w ++ [y]).map (x :: ·) := by
              rw [ih]
        _ = (xs.flatMap fun x => (tuplesOf xs k).map (x :: ·)).flatMap
              fun w => xs.map fun y => w ++ [y] := by
              simp only [List.map_flatMap, List.flatMap_map, List.flatMap_assoc, List.map_map,
                Function.comp_def, List.cons_append]

/-- There are as many tuples as there are numbers with that many digits. -/
theorem length_tuplesOf (xs : List α) (k : ℕ) : (tuplesOf xs k).length = xs.length ^ k := by
  induction k with
  | zero => rfl
  | succ k ih =>
      simp only [tuplesOf, List.length_flatMap, List.length_map, ih, List.map_const',
        List.sum_replicate]
      rw [pow_succ, Nat.mul_comm]
      rfl

/-- Where an entry stands if every entry of one list is paired with all of another: the one that
turns fastest is found by the remainder, the other one by the quotient. -/
theorem getElem?_flatMap_map (xs : List α) (ys : List β) (f : α → β → γ) (n : ℕ) :
    (ys.flatMap fun y => xs.map fun x => f x y)[n]? = do
      let x ← xs[n % xs.length]?
      let y ← ys[n / xs.length]?
      return f x y := by
  rcases Nat.eq_zero_or_pos xs.length with hlen | hlen
  · obtain rfl : xs = [] := List.length_eq_zero_iff.1 hlen
    simp
  · induction ys generalizing n with
    | nil => simp
    | cons y ys ih =>
        rw [List.flatMap_cons]
        by_cases hn : n < xs.length
        · rw [List.getElem?_append_left (by rwa [List.length_map]), Nat.mod_eq_of_lt hn,
            Nat.div_eq_of_lt hn]
          cases hx : xs[n]? <;> simp [hx]
        · have hdiv : n / xs.length = (n - xs.length) / xs.length + 1 :=
            Nat.div_eq_sub_div hlen (by omega)
          have hmod : n % xs.length = (n - xs.length) % xs.length :=
            Nat.mod_eq_sub_mod (by omega)
          rw [List.getElem?_append_right (by rw [List.length_map]; omega), List.length_map, ih,
            hdiv, hmod]
          rfl

/-- The tuple at an index has the values at its digits, the lowest digit last. -/
theorem getElem?_tuplesOf (xs : List α) (k i : ℕ) (hi : i < xs.length ^ k) :
    (tuplesOf xs k)[i]? = (digits xs.length k i).reverse.mapM (xs[·]?) := by
  induction k generalizing i with
  | zero =>
      have hzero : i = 0 := by
        rw [pow_zero] at hi
        omega
      rw [hzero]
      rfl
  | succ k ih =>
      have hpos : 0 < xs.length := by
        by_contra hc
        rw [Nat.eq_zero_of_not_pos hc, pow_succ, Nat.mul_zero] at hi
        omega
      have hdiv : i / xs.length < xs.length ^ k := by
        rwa [Nat.div_lt_iff_lt_mul hpos, ← pow_succ]
      rw [tuplesOf_succ_eq, getElem?_flatMap_map, ih _ hdiv, digits, List.reverse_cons,
        List.mapM_append]
      cases (digits xs.length k (i / xs.length)).reverse.mapM (xs[·]?) <;>
        cases hx : xs[i % xs.length]? <;> simp [hx]

namespace Trail

/-- The trail has the values of a list, in order, and then no more. -/
def Lists (t : Trail ε α) (xs : List α) : Prop :=
  ∀ n, t.value? n = xs[n]?

namespace Lists

variable {t : Trail ε α} {xs : List α}

/-- A trail is as long as its list. -/
theorem period_eq (h : t.Lists xs) : t.period = xs.length := by
  have hvalue : t.value? = (items xs : Trail ε α).value? := funext h
  rw [period, hvalue]
  exact period_items xs

/-- A list of values. -/
theorem items (xs : List α) : (items xs : Trail ε α).Lists xs :=
  fun _ => rfl

/-- Changing the values. -/
theorem map (f : α → β) (h : t.Lists xs) : (t.map f).Lists (xs.map f) := by
  intro n
  rw [value?_map, h n, List.getElem?_map]

/-- Reporting the values. -/
theorem tap (event : α → ε) (h : t.Lists xs) : (t.tap event).Lists xs :=
  h

/-- One trail after another. -/
theorem append {u : Trail ε α} {ys : List α} (h : t.Lists xs) (hu : u.Lists ys) :
    (t.append u).Lists (xs ++ ys) := by
  intro n
  simp only [Trail.append, h n, hu _, h.period_eq]
  rcases Nat.lt_or_ge n xs.length with hn | hn
  · simp [List.getElem?_append_left hn, List.getElem?_eq_getElem hn]
  · simp [List.getElem?_append_right hn, List.getElem?_eq_none hn]

/-- Several trails one after the other. -/
theorem concat {β : Type} {trail : β → Trail ε α} {list : β → List α} {l : List β}
    (h : ∀ b ∈ l, (trail b).Lists (list b)) :
    (Trail.concat (l.map trail)).Lists (l.flatMap list) := by
  induction l with
  | nil => exact items []
  | cons b l ih =>
      rw [List.map_cons, List.flatMap_cons]
      exact (h b List.mem_cons_self).append (ih fun c hc => h c (List.mem_cons_of_mem b hc))

/-- Tuples with one more trail. -/
theorem cons {u : Trail ε (List α)} {ws : List (List α)} (h : t.Lists xs) (hu : u.Lists ws) :
    (Trail.cons t u).Lists (ws.flatMap fun w => xs.map fun x => x :: w) := by
  intro n
  rw [getElem?_flatMap_map, ← h, ← hu, ← h.period_eq]
  rfl

/-- Tuples of one value of each of several trails with their lists. -/
theorem tuples_of_forall₂ {ts : List (Trail ε α)} {lists : List (List α)}
    (h : List.Forall₂ Lists ts lists) : (Trail.tuples ts).Lists (List.sections lists) := by
  induction h with
  | nil => exact items [[]]
  | cons h _ ih => exact h.cons ih

/-- Tuples of one value of each trail. -/
theorem tuples {β : Type} {trail : β → Trail ε α} {list : β → List α} {l : List β}
    (h : ∀ b ∈ l, (trail b).Lists (list b)) :
    (Trail.tuples (l.map trail)).Lists (List.sections (l.map list)) := by
  refine tuples_of_forall₂ ?_
  rw [List.forall₂_map_left_iff, List.forall₂_map_right_iff, List.forall₂_same]
  exact h

/-- **The list of a product.** -/
theorem product {β : Type} {trail : β → Trail ε α} {list : β → List α} {l : List β}
    (h : ∀ b ∈ l, (trail b).Lists (list b)) :
    (Trail.product (l.map trail)).Lists
      (if l = [] then [] else List.sections (l.map list)) := by
  cases l with
  | nil => exact items []
  | cons b l => exact tuples h

/-- The values of the draws at an index. -/
theorem draws?_eq (h : t.Lists xs) {k i : ℕ} (hi : i < xs.length ^ k) :
    (t.draws? (k, i)).map (List.map Draw.value) = (tuplesOf xs k)[i]? := by
  have hdraw : ∀ slots : List ℕ,
      (slots.mapM t.draw?).map (List.map Draw.value) = slots.mapM (xs[·]?) := by
    intro slots
    induction slots with
    | nil => rfl
    | cons slot slots ih =>
        rw [List.mapM_cons, List.mapM_cons, ← ih, draw?, h slot]
        cases xs[slot]? <;> cases slots.mapM t.draw? <;> rfl
  rw [getElem?_tuplesOf xs k i hi, draws?, hdraw, h.period_eq]

/-- Counting through the tuples of a given length and of the longer ones up to `max`. -/
theorem getElem?_flatMap_tuplesOf {xs : List α} (hxs : 0 < xs.length) (max count length n : ℕ)
    (hcount : max + 1 - length = count) :
    ((List.range' length count).flatMap (tuplesOf xs))[n]? =
      if Repetition.tooLong (some max) (place xs.length length n).1 then none
      else (tuplesOf xs (place xs.length length n).1)[(place xs.length length n).2]? := by
  induction count generalizing length n with
  | zero =>
      have hlong : Repetition.tooLong (some max) length :=
        Repetition.tooLong_some.2 (by omega)
      have hle : length ≤ (place xs.length length n).1 := by
        simpa using place_fst_mono xs.length length (Nat.zero_le n)
      rw [if_pos (Repetition.tooLong_mono hle hlong)]
      rfl
  | succ count ih =>
      rw [List.range'_succ, List.flatMap_cons]
      rcases Nat.lt_or_ge n (xs.length ^ length) with hn | hn
      · have hfits : ¬ Repetition.tooLong (some max) length := by
          rw [Repetition.tooLong_some]
          omega
        rw [List.getElem?_append_left (by rwa [length_tuplesOf]), place_of_lt (Or.inr hn),
          if_neg hfits]
      · rw [List.getElem?_append_right (by rwa [length_tuplesOf]), length_tuplesOf,
          place_of_le hxs hn]
        exact ih (length + 1) (n - xs.length ^ length) (by omega)

/-- Tuples of a given length and of the longer ones up to `max`. -/
theorem lengths (h : t.Lists xs) (ht : t.Fused) {length : ℕ} (hlength : 0 < length) (max : ℕ) :
    ((Trail.lengths length (some max) t).map (List.map Draw.value)).Lists
      ((List.range' length (max + 1 - length)).flatMap (tuplesOf xs)) := by
  intro n
  rcases Nat.eq_zero_or_pos xs.length with hxs | hxs
  · obtain rfl : xs = [] := List.length_eq_zero_iff.1 hxs
    have hnone := (ht.value?_lengths_eq_none_iff hlength (some max) n).2 (Or.inr (h 0))
    have hnil : (List.range' length (max + 1 - length)).flatMap (tuplesOf ([] : List α)) = [] := by
      rw [List.flatMap_eq_nil_iff]
      intro k hk
      have hpos : k ≠ 0 := by
        have hle := (List.mem_range'_1.1 hk).1
        omega
      rw [← List.length_eq_zero_iff, length_tuplesOf]
      exact Nat.zero_pow (Nat.pos_of_ne_zero hpos)
    rw [value?_map, hnone, hnil]
    rfl
  · have hlt := place_lt xs.length length n hxs
    rw [getElem?_flatMap_tuplesOf hxs max _ length n rfl, ← h.draws?_eq hlt]
    simp only [value?_map, Trail.lengths, h.period_eq]
    split <;> rfl

/-- **The list of a power.** -/
theorem power (h : t.Lists xs) (ht : t.Fused) (min max : ℕ) :
    ((Trail.power min (some max) t).map (List.map Draw.value)).Lists
      ((if min = 0 then [[]] else []) ++
        (List.range' (Nat.max 1 min) (max + 1 - Nat.max 1 min)).flatMap (tuplesOf xs)) := by
  cases min with
  | zero =>
      intro n
      cases n with
      | zero => rfl
      | succ n => exact h.lengths ht Nat.zero_lt_one max n
  | succ min =>
      have hmax : Nat.max 1 (min + 1) = min + 1 := Nat.max_eq_right (by omega)
      rw [hmax, if_neg (Nat.succ_ne_zero min)]
      exact h.lengths ht (Nat.succ_pos min) max

end Lists

end Trail

end RegexWords
