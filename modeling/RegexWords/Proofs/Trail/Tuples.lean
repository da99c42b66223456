import RegexWords.Proofs.Trail.Listing
import RegexWords.Proofs.Trail.Values

/-!
# The Values of a Tuple

Tuple number `n` of several trails has one value of each, and which ones is written in the mixed
radix digits of `n`, the periods being the radices. A trail without end has radix `0`: its digit
is what is left of `n`, and all digits after it are `0`.

## Main results

* `Trail.value?_tuples_append`: **the parts of a tuple**, split anywhere.
* `Trail.forall_mem_numbers_iff`: when all parts of a tuple have their first value.
* `Trail.value?_tuples_congr`: the values of tuples depend on the values of the trails only.
-/

namespace RegexWords

variable {ε α : Type}

namespace Trail

/-- The numbers of the values that are paired in tuple `n`. -/
noncomputable def numbers : List (Trail ε α) → ℕ → List ℕ
  | [], _ => []
  | t :: ts, n => n % t.period :: numbers ts (n / t.period)

/-- The values that several trails have at the given numbers, one for each. -/
def valuesAt? : List (Trail ε α) → List ℕ → Option (List α)
  | [], [] => some []
  | t :: ts, k :: ks => do return (← t.value? k) :: (← valuesAt? ts ks)
  | _, _ => none

theorem numbers_cons (t : Trail ε α) (ts : List (Trail ε α)) (n : ℕ) :
    numbers (t :: ts) n = n % t.period :: numbers ts (n / t.period) := rfl

theorem valuesAt?_cons (t : Trail ε α) (ts : List (Trail ε α)) (k : ℕ) (ks : List ℕ) :
    valuesAt? (t :: ts) (k :: ks) =
      (t.value? k).bind fun a => (valuesAt? ts ks).bind fun as => some (a :: as) := rfl

/-- The values at given numbers are values of the trails, one of each. -/
theorem values_of_valuesAt? {ts : List (Trail ε α)} {ks : List ℕ} {vs : List α}
    (h : valuesAt? ts ks = some vs) : List.Forall₂ (fun a t => a ∈ t.values) vs ts := by
  induction ts generalizing ks vs with
  | nil =>
      cases ks with
      | nil =>
          obtain rfl := Option.some.inj h
          exact List.Forall₂.nil
      | cons k ks => exact absurd h.symm (Option.some_ne_none vs)
  | cons t ts ih =>
      cases ks with
      | nil => exact absurd h.symm (Option.some_ne_none vs)
      | cons k ks =>
          rw [valuesAt?_cons] at h
          obtain ⟨a, ha, hrest⟩ := Option.bind_eq_some_iff.1 h
          obtain ⟨as, has, heq⟩ := Option.bind_eq_some_iff.1 hrest
          obtain rfl := Option.some.inj heq
          exact List.Forall₂.cons ⟨k, ha⟩ (ih has)

/-- **The parts of a tuple.** The first trails have the values that the digits say; the others
have the tuple whose number is what is left. -/
theorem value?_tuples_append (ts us : List (Trail ε α)) (n : ℕ) :
    (tuples (ts ++ us)).value? n = (valuesAt? ts (numbers ts n)).bind fun vs =>
      ((tuples us).value? (n / (ts.map period).prod)).map (vs ++ ·) := by
  induction ts generalizing n with
  | nil =>
      rw [List.map_nil, List.prod_nil, Nat.div_one]
      exact Option.map_id_apply.symm
  | cons t ts ih =>
      rw [List.cons_append, tuples, value?_cons, numbers_cons, valuesAt?_cons, ih, List.map_cons,
        List.prod_cons, Nat.div_div_eq_div_mul]
      cases t.value? (n % t.period) with
      | none => rfl
      | some a =>
          cases valuesAt? ts (numbers ts (n / t.period)) with
          | none => rfl
          | some as =>
              cases (tuples us).value? (n / (t.period * (ts.map period).prod)) <;> rfl

/-- **The values of a tuple**, as long as there are tuples. -/
theorem value?_tuples (ts : List (Trail ε α)) (n : ℕ) :
    (tuples ts).value? n =
      if n / (ts.map period).prod = 0 then valuesAt? ts (numbers ts n) else none := by
  have happend := value?_tuples_append ts [] n
  rw [List.append_nil, tuples, value?_items] at happend
  rw [happend]
  cases n / (ts.map period).prod with
  | zero => cases valuesAt? ts (numbers ts n) <;> simp
  | succ q => cases valuesAt? ts (numbers ts n) <;> rfl

/-- If there is a first tuple, there is a first tuple of the last trails. -/
theorem value?_tuples_zero_of_append {ts us : List (Trail ε α)}
    (h : (tuples (ts ++ us)).value? 0 ≠ none) : (tuples us).value? 0 ≠ none := by
  intro hnone
  rw [value?_tuples_append, Nat.zero_div, hnone] at h
  cases hvs : valuesAt? ts (numbers ts 0) with
  | none => exact h (by rw [hvs]; rfl)
  | some vs => exact h (by rw [hvs]; rfl)

/-- All digits of a number are `0`, and nothing is left of it, only if it is `0`. -/
theorem forall_mem_numbers_iff {ts : List (Trail ε α)} {n : ℕ}
    (h : n / (ts.map period).prod = 0) : (∀ k ∈ numbers ts n, k = 0) ↔ n = 0 := by
  induction ts generalizing n with
  | nil =>
      rw [List.map_nil, List.prod_nil, Nat.div_one] at h
      simp [numbers, h]
  | cons t ts ih =>
      rw [List.map_cons, List.prod_cons, ← Nat.div_div_eq_div_mul] at h
      rw [numbers_cons, List.forall_mem_cons, ih h]
      constructor
      · rintro ⟨hmod, hdiv⟩
        have hsplit := Nat.div_add_mod n t.period
        rw [hmod, hdiv] at hsplit
        omega
      · rintro rfl
        exact ⟨Nat.zero_mod _, Nat.zero_div _⟩

/-- The period of a trail depends on its values only. -/
theorem period_congr {t u : Trail ε α} (h : t.value? = u.value?) : t.period = u.period := by
  rw [period, period, h]

/-- **Tuples depend on the values of the trails only.** -/
theorem value?_tuples_congr {β : Type} {l : List β} {trail trail' : β → Trail ε α}
    (h : ∀ b ∈ l, (trail b).value? = (trail' b).value?) :
    (tuples (l.map trail)).value? = (tuples (l.map trail')).value? := by
  induction l with
  | nil => rfl
  | cons b l ih =>
      have hb := h b List.mem_cons_self
      have hrest := ih fun c hc => h c (List.mem_cons_of_mem b hc)
      funext n
      rw [List.map_cons, List.map_cons, tuples, tuples, value?_cons, value?_cons, hb,
        period_congr hb, hrest]

/-- The values of a trail with a list are the members of the list. -/
theorem Lists.mem_values {t : Trail ε α} {xs : List α} (h : t.Lists xs) {a : α} :
    a ∈ t.values ↔ a ∈ xs := by
  rw [List.mem_iff_getElem?]
  simp only [← h _]
  rfl

/-! ### Trails of one value -/

/-- Trails of one value each have one tuple, and it does not turn the trails after them. -/
theorem value?_tuples_append_of_lists_single {β : Type} {l : List β} {trail : β → Trail ε α}
    {value : β → α} (h : ∀ b ∈ l, (trail b).Lists [value b]) (us : List (Trail ε α)) (n : ℕ) :
    (tuples (l.map trail ++ us)).value? n =
      ((tuples us).value? n).map (l.map value ++ ·) := by
  induction l with
  | nil => exact Option.map_id_apply.symm
  | cons b l ih =>
      have hb := h b List.mem_cons_self
      have hperiod : (trail b).period = 1 := hb.period_eq
      rw [List.map_cons, List.cons_append, tuples, value?_cons, hperiod, Nat.mod_one, Nat.div_one,
        ih fun c hc => h c (List.mem_cons_of_mem b hc), hb 0]
      cases (tuples us).value? n <;> rfl

/-- A trail before one tuple shows its values one by one. -/
theorem Fused.value?_cons_items_single {t : Trail ε α} (ht : t.Fused) (as : List α) (n : ℕ) :
    (Trail.cons t (Trail.items [as])).value? n = (t.value? n).map (· :: as) := by
  rw [value?_cons, value?_items]
  cases hn : t.value? n with
  | some a =>
      obtain ⟨hmod, hdiv⟩ := ht.mod_period_eq (n := n) (by simp [hn])
      rw [hmod, hdiv, hn]
      rfl
  | none =>
      have hle := (ht.value?_eq_none_iff hn n).1 hn
      rcases Nat.eq_zero_or_pos t.period with hzero | hpos
      · rw [hzero, Nat.mod_zero, hn]
        rfl
      · obtain ⟨q, hq⟩ := Nat.exists_eq_succ_of_ne_zero (Nat.div_pos hle hpos).ne'
        rw [hq]
        cases t.value? (n % t.period) <;> rfl

end Trail

end RegexWords
