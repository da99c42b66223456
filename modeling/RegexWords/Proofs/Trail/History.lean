import RegexWords.Proofs.Trail.Product

/-!
# The History of a Trail

Whoever looks at a source while it is pulled sees all events until then, its **history**. An
observer takes the events in one by one, by an operation of its own. Of a product this observer
sees the events of all parts, interleaved by the turning of the counter. If the events of a
part mean nothing to the observer from the second pull on, the order is simple: first what the
parts before report at the beginning, then the history of the parts after, which is as long as
their own tuples have been turned.

## Main results

* `Trail.Settled.tuples`: tuples of settled trails are settled.
* `Trail.foldl_history_cons`, `Trail.foldl_history_append`: **what is seen of tuples** behind
  settled trails.
* `Trail.Fused.value?_latest_succ`: the latest value of a trail, pull by pull.
-/

namespace RegexWords

variable {ε α ρ : Type}

namespace Trail

/-- The events of the first `n` pulls, in order. -/
def history (t : Trail ε α) (n : ℕ) : List ε :=
  (List.range n).flatMap t.events

/-- One more pull adds its events. -/
theorem history_succ (t : Trail ε α) (n : ℕ) : t.history (n + 1) = t.history n ++ t.events n := by
  rw [history, List.range_succ, List.flatMap_append, List.flatMap_singleton]
  rfl

/-- The history of the first pull. -/
theorem history_one (t : Trail ε α) : t.history 1 = t.events 0 :=
  List.flatMap_singleton t.events 0

/-- The history begins with the events of the first pull. -/
theorem history_succ_eq_append_tail (t : Trail ε α) (n : ℕ) :
    t.history (n + 1) = t.events 0 ++ t.tail.history n := by
  rw [history, List.range_succ_eq_map, List.flatMap_cons, List.flatMap_map]
  rfl

/-! ### Settled trails -/

/-- Events that change nothing. -/
theorem foldl_eq_self {f : ρ → ε → ρ} {events : List ε} (h : ∀ e ∈ events, ∀ r, f r e = r)
    (r : ρ) : events.foldl f r = r := by
  induction events with
  | nil => rfl
  | cons e events ih =>
      rw [List.foldl_cons, h e List.mem_cons_self]
      exact ih fun d hd => h d (List.mem_cons_of_mem e hd)

/-- A trail is **settled** for an operation if no event after the first pull changes anything. -/
def Settled (f : ρ → ε → ρ) (t : Trail ε α) : Prop :=
  ∀ n, ∀ e ∈ t.events (n + 1), ∀ r, f r e = r

variable {f : ρ → ε → ρ} {t : Trail ε α} {u : Trail ε (List α)}

/-- A list of values is settled. -/
theorem settled_items (values : List α) : (items values : Trail ε α).Settled f :=
  fun _ _ he => absurd he List.not_mem_nil

/-- Whenever the first trail of a tuple begins anew after the first pull, the others have been
turned. -/
theorem div_pos_of_mod_eq_zero {n p : ℕ} (h : (n + 1) % p = 0) : 0 < (n + 1) / p := by
  rw [Nat.succ_div_of_mod_eq_zero h]
  exact Nat.succ_pos _

/-- Tuples with one more settled trail are settled. -/
theorem Settled.cons (ht : t.Settled f) (hu : u.Settled f) : (Trail.cons t u).Settled f := by
  intro n e he
  rw [events_cons] at he
  split at he
  · exact absurd he List.not_mem_nil
  · rcases List.mem_append.1 he with he | he
    · exact ht n e he
    · split at he
      · next hmod =>
        obtain ⟨m, hm⟩ := Nat.exists_eq_succ_of_ne_zero (div_pos_of_mod_eq_zero hmod.2).ne'
        rw [hm] at he
        exact hu m e he
      · exact absurd he List.not_mem_nil

/-- **Tuples of settled trails are settled.** -/
theorem Settled.tuples {ts : List (Trail ε α)} (h : ∀ t ∈ ts, t.Settled f) :
    (tuples ts).Settled f := by
  induction ts with
  | nil => exact settled_items [[]]
  | cons t ts ih =>
      exact (h t List.mem_cons_self).cons (ih fun u hu => h u (List.mem_cons_of_mem t hu))

/-! ### What is seen of tuples -/

/-- Tuples have a first value if the first trail and the others have one. -/
theorem value?_cons_zero (t : Trail ε α) (u : Trail ε (List α)) :
    (cons t u).value? 0 ≠ none ↔ t.value? 0 ≠ none ∧ u.value? 0 ≠ none := by
  rw [value?_cons, Nat.zero_mod, Nat.zero_div]
  cases t.value? 0 <;> cases u.value? 0 <;> simp

/-- With first values, the events of tuples are those of the first trail and, when it begins anew,
those of the others. -/
theorem events_cons_of_ne_none (h0 : (cons t u).value? 0 ≠ none) (n : ℕ) :
    (cons t u).events n =
      t.events n ++ if n % t.period = 0 then u.events (n / t.period) else [] := by
  obtain ⟨ht, hu⟩ := (value?_cons_zero t u).1 h0
  simp [events_cons, ht, hu]

/-- **What is seen of tuples** behind a settled trail: its first events, then the others. -/
theorem foldl_history_cons (ht : t.Settled f) (h0 : (cons t u).value? 0 ≠ none) (n : ℕ) (r : ρ) :
    ((cons t u).history (n + 1)).foldl f r =
      (u.history (n / t.period + 1)).foldl f ((t.events 0).foldl f r) := by
  induction n with
  | zero =>
      rw [history_one, Nat.zero_div, history_one, events_cons_of_ne_none h0, Nat.zero_mod,
        if_pos rfl, Nat.zero_div, List.foldl_append]
  | succ n ih =>
      rw [history_succ, List.foldl_append, ih, events_cons_of_ne_none h0, List.foldl_append,
        foldl_eq_self (ht n)]
      by_cases hmod : (n + 1) % t.period = 0
      · rw [if_pos hmod, Nat.succ_div_of_mod_eq_zero hmod, history_succ u (n / t.period + 1),
          List.foldl_append]
      · rw [if_neg hmod, Nat.succ_div_of_mod_ne_zero hmod]
        rfl

/-- **What is seen of tuples** behind several settled trails whose first events change nothing:
what is seen of the others, as far as they have been turned. -/
theorem foldl_history_append {ts us : List (Trail ε α)} {r : ρ} (ht : ∀ t ∈ ts, t.Settled f)
    (hfirst : ∀ t ∈ ts, (t.events 0).foldl f r = r) (h0 : (tuples (ts ++ us)).value? 0 ≠ none)
    (n : ℕ) :
    ((tuples (ts ++ us)).history (n + 1)).foldl f r =
      ((tuples us).history (n / (ts.map period).prod + 1)).foldl f r := by
  induction ts generalizing n with
  | nil =>
      rw [List.map_nil, List.prod_nil, Nat.div_one]
      rfl
  | cons t ts ih =>
      have hcons : (cons t (tuples (ts ++ us))).value? 0 ≠ none := h0
      have hrest := ih (fun v hv => ht v (List.mem_cons_of_mem t hv))
        (fun v hv => hfirst v (List.mem_cons_of_mem t hv)) ((value?_cons_zero _ _).1 hcons).2
        (n / t.period)
      rw [List.cons_append, tuples, foldl_history_cons (ht t List.mem_cons_self) hcons,
        hfirst t List.mem_cons_self, hrest, List.map_cons, List.prod_cons, Nat.div_div_eq_div_mul]

/-! ### The latest value -/

/-- The number of the latest value after `n` further pulls: that of the last pull or, after the
end, that of the last value. -/
noncomputable def latest (t : Trail ε α) (n : ℕ) : ℕ :=
  if (t.value? n).isSome then n else t.period - 1

/-- The first value is the latest one at first. -/
theorem latest_zero (h0 : t.value? 0 ≠ none) : t.latest 0 = 0 :=
  if_pos (Option.isSome_iff_ne_none.2 h0)

/-- A pull without a value leaves the latest value. -/
theorem Fused.latest_succ_of_eq_none (ht : t.Fused) {n : ℕ} (hn : t.value? (n + 1) = none) :
    t.latest (n + 1) = t.latest n := by
  have hiff := ht.value?_eq_none_iff hn
  have hsucc : t.latest (n + 1) = t.period - 1 := by
    rw [latest, hn]
    rfl
  rw [hsucc, latest]
  split
  · next hsome =>
    have hlt := (hiff n).not.1 (Option.isSome_iff_ne_none.1 hsome)
    have hle := (hiff (n + 1)).1 hn
    omega
  · rfl

/-- **The latest value, pull by pull**: a new one or the one before. -/
theorem Fused.value?_latest_succ (ht : t.Fused) (n : ℕ) :
    t.value? (t.latest (n + 1)) = (t.value? (n + 1)).or (t.value? (t.latest n)) := by
  cases hn : t.value? (n + 1) with
  | none => rw [ht.latest_succ_of_eq_none hn, Option.none_or]
  | some v =>
      have hlatest : t.latest (n + 1) = n + 1 := if_pos (by rw [hn]; rfl)
      rw [hlatest, hn, Option.some_or]

/-- In the first round of a trail the latest value is the present one. -/
theorem latest_of_div_eq_zero {n : ℕ} (hn : t.value? (n % t.period) ≠ none)
    (hdiv : n / t.period = 0) : t.latest n = n % t.period := by
  have hmod : n % t.period = n := by
    have hsplit := Nat.div_add_mod n t.period
    rwa [hdiv, Nat.mul_zero, Nat.zero_add] at hsplit
  rw [hmod] at hn ⊢
  exact if_pos (Option.isSome_iff_ne_none.2 hn)

/-- After the first round of a trail the latest value is the last one. -/
theorem Fused.value?_latest_add_one (ht : t.Fused) {n : ℕ} (hdiv : n / t.period ≠ 0) :
    t.value? (t.latest n + 1) = none := by
  have hn := ht.value?_eq_none_of_div_pos (Nat.pos_of_ne_zero hdiv)
  have hlatest : t.latest n = t.period - 1 := if_neg (by simp [hn])
  have hle : t.period ≤ t.period - 1 + 1 := by omega
  rw [hlatest]
  exact (ht.value?_eq_none_iff hn _).2 hle

/-- Where there is a first value there is a latest one. -/
theorem Fused.value?_latest_ne_none (ht : t.Fused) (h0 : t.value? 0 ≠ none) (n : ℕ) :
    t.value? (t.latest n) ≠ none := by
  induction n with
  | zero => rwa [latest_zero h0]
  | succ n ih =>
      rw [ht.value?_latest_succ]
      cases t.value? (n + 1) with
      | none => rwa [Option.none_or]
      | some v => exact Option.some_ne_none v

end Trail

end RegexWords
