import RegexWords.Proofs.Trail.Plan

/-!
# Which Values Appear

The set of values that a trail shows sooner or later, and the set of events on the way. Every
combinator shows only what its parts allow; that is one direction, and it holds without
conditions. The other direction, that a combination does appear, needs the parts that turn
faster to end: an endless part keeps those after it at their first value for ever.

## Main results

* `Trail.values_tuples`, `Trail.values_power`: the parts of a tuple are values of the parts.
* `Trail.mem_values_tuples`: **every tuple appears** if all trails but the last one end.
* `Trail.exists_draws_mem_values_power`: **every repetition appears** if the trail ends.
* `Trail.reports_product`, `Trail.reports_power`: the events of a combination are events of the
  parts.
-/

namespace RegexWords

variable {ε α β : Type}

namespace Trail

/-- The values that a trail shows after finitely many pulls. -/
def values (t : Trail ε α) : Set α :=
  {a | ∃ n, t.value? n = some a}

/-- A trail **ends** if some pull gives no value. -/
def Ends (t : Trail ε α) : Prop :=
  ∃ n, t.value? n = none

/-- The values of a list are its members. -/
theorem mem_values_items {xs : List α} {a : α} :
    a ∈ (items xs : Trail ε α).values ↔ a ∈ xs := by
  rw [List.mem_iff_getElem?]
  rfl

/-- Every changed value comes from a value. -/
theorem mem_values_map {f : α → β} {t : Trail ε α} {b : β} :
    b ∈ (t.map f).values ↔ ∃ a ∈ t.values, f a = b := by
  constructor
  · rintro ⟨n, hn⟩
    obtain ⟨a, ha, hb⟩ := Option.map_eq_some_iff.1 hn
    exact ⟨a, ⟨n, ha⟩, hb⟩
  · rintro ⟨a, ⟨n, ha⟩, hb⟩
    exact ⟨n, Option.map_eq_some_iff.2 ⟨a, ha, hb⟩⟩

/-- The values that are reported are the values. -/
theorem values_tap (event : α → ε) (t : Trail ε α) : (t.tap event).values = t.values := rfl

/-! ### Ends -/

/-- A trail that ends has a value at exactly the numbers below its period. -/
theorem Ends.value?_eq_none_iff {t : Trail ε α} (h : t.Ends) (ht : t.Fused) (n : ℕ) :
    t.value? n = none ↔ t.period ≤ n := by
  obtain ⟨m, hm⟩ := h
  exact ht.value?_eq_none_iff hm n

/-- A value of a trail that ends has a number below its period. -/
theorem Ends.exists_lt_period {t : Trail ε α} (h : t.Ends) (ht : t.Fused) {a : α}
    (ha : a ∈ t.values) : ∃ n < t.period, t.value? n = some a := by
  obtain ⟨n, hn⟩ := ha
  refine ⟨n, ?_, hn⟩
  by_contra hc
  rw [not_lt, ← h.value?_eq_none_iff ht, hn] at hc
  exact Option.some_ne_none a hc

/-! ### One after the other -/

/-- A value of one trail after another is a value of one of them. -/
theorem values_append {t u : Trail ε α} {a : α} (h : a ∈ (t.append u).values) :
    a ∈ t.values ∨ a ∈ u.values := by
  obtain ⟨n, hn⟩ := h
  rcases Option.or_eq_some_iff.1 hn with ht | ⟨-, hu⟩
  · exact Or.inl ⟨n, ht⟩
  · exact Or.inr ⟨_, hu⟩

/-- The values of the first trail appear. -/
theorem mem_values_append_left {t : Trail ε α} (u : Trail ε α) {a : α} (h : a ∈ t.values) :
    a ∈ (t.append u).values := by
  obtain ⟨n, hn⟩ := h
  refine ⟨n, ?_⟩
  simp only [append, hn, Option.some_or]

/-- The values of the second trail appear if the first one ends. -/
theorem mem_values_append_right {t u : Trail ε α} (ht : t.Fused) (hends : t.Ends) {a : α}
    (h : a ∈ u.values) : a ∈ (t.append u).values := by
  obtain ⟨n, hn⟩ := h
  refine ⟨t.period + n, ?_⟩
  have hnone : t.value? (t.period + n) = none :=
    (hends.value?_eq_none_iff ht _).2 (Nat.le_add_right _ _)
  simp only [append, hnone, Option.none_or, Nat.add_sub_cancel_left, hn]

/-- A value of several trails one after the other is a value of one of them. -/
theorem values_concat {ts : List (Trail ε α)} {a : α} (h : a ∈ (concat ts).values) :
    ∃ t ∈ ts, a ∈ t.values := by
  induction ts with
  | nil => exact absurd (mem_values_items.1 h) List.not_mem_nil
  | cons t ts ih =>
      rcases values_append h with ht | hts
      · exact ⟨t, List.mem_cons_self, ht⟩
      · obtain ⟨u, hu, ha⟩ := ih hts
        exact ⟨u, List.mem_cons_of_mem t hu, ha⟩

/-- The values of several trails one after the other appear if all trails before theirs end. -/
theorem mem_values_concat {ts us : List (Trail ε α)} (ht : ∀ t ∈ ts, t.Fused)
    (hends : ∀ t ∈ ts, t.Ends) {u : Trail ε α} {a : α} (h : a ∈ u.values) :
    a ∈ (concat (ts ++ u :: us)).values := by
  induction ts with
  | nil => exact mem_values_append_left _ h
  | cons t ts ih =>
      have hrest := ih (fun v hv => ht v (List.mem_cons_of_mem t hv))
        (fun v hv => hends v (List.mem_cons_of_mem t hv))
      exact mem_values_append_right (ht t List.mem_cons_self) (hends t List.mem_cons_self) hrest

/-! ### Tuples -/

/-- A tuple with one more trail has a value of that trail before a tuple. -/
theorem values_cons {t : Trail ε α} {u : Trail ε (List α)} {as : List α}
    (h : as ∈ (cons t u).values) : ∃ b ∈ t.values, ∃ bs ∈ u.values, as = b :: bs := by
  obtain ⟨n, hn⟩ := h
  obtain ⟨b, hb, hrest⟩ := Option.bind_eq_some_iff.1 hn
  obtain ⟨bs, hbs, heq⟩ := Option.bind_eq_some_iff.1 hrest
  exact ⟨b, ⟨_, hb⟩, bs, ⟨_, hbs⟩, (Option.some.inj heq).symm⟩

/-- A value of a trail that ends appears before every tuple. -/
theorem mem_values_cons {t : Trail ε α} {u : Trail ε (List α)} (ht : t.Fused) (hends : t.Ends)
    {a : α} (ha : a ∈ t.values) {as : List α} (has : as ∈ u.values) :
    a :: as ∈ (cons t u).values := by
  obtain ⟨i, hi, hvalue⟩ := hends.exists_lt_period ht ha
  obtain ⟨m, hm⟩ := has
  refine ⟨i + t.period * m, ?_⟩
  have hmod : (i + t.period * m) % t.period = i := by
    rw [Nat.add_mul_mod_self_left, Nat.mod_eq_of_lt hi]
  have hdiv : (i + t.period * m) / t.period = m := by
    rw [Nat.add_mul_div_left _ _ (by omega), Nat.div_eq_of_lt hi, Nat.zero_add]
  simp [cons, hmod, hdiv, hvalue, hm]

/-- A value of any trail appears before the first tuple. -/
theorem mem_values_cons_zero {t : Trail ε α} {u : Trail ε (List α)} (ht : t.Fused) {a : α}
    (ha : a ∈ t.values) {as : List α} (has : u.value? 0 = some as) :
    a :: as ∈ (cons t u).values := by
  obtain ⟨n, hn⟩ := ha
  obtain ⟨hmod, hdiv⟩ := ht.mod_period_eq (n := n) (by simp [hn])
  refine ⟨n, ?_⟩
  simp [cons, hmod, hdiv, hn, has]

/-- **Tuples of values.** The parts of a tuple are values of the parts. -/
theorem values_tuples {ts : List (Trail ε α)} {as : List α} (h : as ∈ (tuples ts).values) :
    List.Forall₂ (fun a t => a ∈ t.values) as ts := by
  induction ts generalizing as with
  | nil =>
      obtain rfl := List.mem_singleton.1 (mem_values_items.1 h)
      exact List.Forall₂.nil
  | cons t ts ih =>
      obtain ⟨b, hb, bs, hbs, rfl⟩ := values_cons h
      exact List.Forall₂.cons hb (ih hbs)

/-- In two lists related entry by entry, every entry of the first is related to one of the
second. -/
theorem exists_mem_of_forall₂ {β γ : Type} {R : β → γ → Prop} {k : List β} {l : List γ}
    (h : List.Forall₂ R k l) : ∀ b ∈ k, ∃ c ∈ l, R b c := by
  induction h with
  | nil => simp
  | @cons b c k l hbc _ ih =>
      intro d hd
      rcases List.mem_cons.1 hd with rfl | hd
      · exact ⟨c, List.mem_cons_self, hbc⟩
      · obtain ⟨e, he, hde⟩ := ih d hd
        exact ⟨e, List.mem_cons_of_mem c he, hde⟩

/-- What a product puts together are values of its trails. -/
theorem values_product {ts : List (Trail ε α)} {as : List α} (h : as ∈ (product ts).values) :
    ∀ a ∈ as, ∃ t ∈ ts, a ∈ t.values := by
  cases ts with
  | nil => exact absurd (mem_values_items.1 h) List.not_mem_nil
  | cons t ts => exact exists_mem_of_forall₂ (values_tuples h)

/-- **Every tuple appears** if all trails but the last one end. -/
theorem mem_values_tuples {ts : List (Trail ε α)} (ht : ∀ t ∈ ts, t.Fused)
    (hends : ∀ t ∈ ts.dropLast, t.Ends) {as : List α}
    (h : List.Forall₂ (fun a t => a ∈ t.values) as ts) : as ∈ (tuples ts).values := by
  induction h with
  | nil => exact mem_values_items.2 List.mem_cons_self
  | @cons a t as ts ha has ih =>
      have hfused := ht t List.mem_cons_self
      cases ts with
      | nil =>
          cases has
          exact mem_values_cons_zero hfused ha rfl
      | cons u ts =>
          rw [List.dropLast_cons_cons] at hends
          refine mem_values_cons hfused (hends t List.mem_cons_self) ha (ih ?_ ?_)
          · exact fun v hv => ht v (List.mem_cons_of_mem t hv)
          · exact fun v hv => hends v (List.mem_cons_of_mem t hv)

/-! ### Repetitions -/

/-- Every tuple of digits is that of some number. -/
theorem exists_digits_eq {p : ℕ} {slots : List ℕ} (h : ∀ j ∈ slots, j < p) :
    ∃ i < p ^ slots.length, digits p slots.length i = slots := by
  induction slots with
  | nil => exact ⟨0, Nat.one_pos, rfl⟩
  | cons j slots ih =>
      obtain ⟨i, hi, hdigits⟩ := ih fun k hk => h k (List.mem_cons_of_mem j hk)
      have hj := h j List.mem_cons_self
      have hmod : (j + p * i) % p = j := by
        rw [Nat.add_mul_mod_self_left, Nat.mod_eq_of_lt hj]
      have hdiv : (j + p * i) / p = i := by
        rw [Nat.add_mul_div_left _ _ (by omega), Nat.div_eq_of_lt hj, Nat.zero_add]
      refine ⟨j + p * i, ?_, ?_⟩
      · calc j + p * i < p * (i + 1) := by rw [Nat.mul_succ]; omega
          _ ≤ p * p ^ slots.length := Nat.mul_le_mul_left p hi
          _ = p ^ (slots.length + 1) := by rw [pow_succ, Nat.mul_comm]
      · rw [List.length_cons, digits, hmod, hdiv, hdigits]

/-- Draws from several slots come from these slots and have the values that are there. -/
theorem slots_of_mapM {t : Trail ε α} {slots : List ℕ} {ds : List (Draw α)}
    (h : slots.mapM t.draw? = some ds) :
    ds.map Draw.slot = slots ∧ ∀ d ∈ ds, t.value? d.slot = some d.value := by
  induction slots generalizing ds with
  | nil =>
      obtain rfl : [] = ds := Option.some.inj h
      simp
  | cons slot slots ih =>
      rw [List.mapM_cons] at h
      obtain ⟨d, hd, hrest⟩ := Option.bind_eq_some_iff.1 h
      obtain ⟨es, hes, heq⟩ := Option.bind_eq_some_iff.1 hrest
      obtain rfl : d :: es = ds := Option.some.inj heq
      obtain ⟨hslots, hvalues⟩ := ih hes
      obtain ⟨a, ha, rfl⟩ := Option.map_eq_some_iff.1 hd
      exact ⟨by rw [List.map_cons, hslots], List.forall_mem_cons.2 ⟨ha, hvalues⟩⟩

/-- Tuples of increasing length have allowed lengths, and values of the trail. -/
theorem values_lengths {t : Trail ε α} {length : ℕ} {max : Option ℕ} {ds : List (Draw α)}
    (h : ds ∈ (lengths length max t).values) :
    length ≤ ds.length ∧ (∀ m ∈ max, ds.length ≤ m) ∧
      ∀ d ∈ ds, t.value? d.slot = some d.value := by
  obtain ⟨n, hn⟩ := h
  rw [value?_lengths] at hn
  split at hn
  · exact absurd hn.symm (Option.some_ne_none ds)
  · next hfits =>
    obtain ⟨hslots, hvalues⟩ := slots_of_mapM hn
    have hlength := congrArg List.length hslots
    rw [List.length_map, List.length_reverse, length_digits] at hlength
    rw [hlength]
    refine ⟨?_, Repetition.not_tooLong_iff.1 hfits, hvalues⟩
    simpa using place_fst_mono t.period length (Nat.zero_le n)

/-- **Repetitions of values.** A repetition has an allowed length, and values of the trail. -/
theorem values_power {t : Trail ε α} {min : ℕ} {max : Option ℕ} {ds : List (Draw α)}
    (h : ds ∈ (power min max t).values) :
    min ≤ ds.length ∧ (∀ m ∈ max, ds.length ≤ m) ∧
      ∀ d ∈ ds, t.value? d.slot = some d.value := by
  cases min with
  | zero =>
      obtain ⟨n, hn⟩ := h
      cases n with
      | zero =>
          obtain rfl : [] = ds := Option.some.inj hn
          simp
      | succ n =>
          obtain ⟨-, hfits, hvalues⟩ := values_lengths (t := t) ⟨n, hn⟩
          exact ⟨Nat.zero_le _, hfits, hvalues⟩
  | succ min => exact values_lengths h

/-- Values of a trail that ends are drawn from slots below its period. -/
theorem exists_slots_eq {t : Trail ε α} (ht : t.Fused) (hends : t.Ends) {as : List α}
    (has : ∀ a ∈ as, a ∈ t.values) :
    ∃ slots : List ℕ, slots.length = as.length ∧ (∀ j ∈ slots, j < t.period) ∧
      ∃ ds, slots.mapM t.draw? = some ds ∧ ds.map Draw.value = as := by
  induction as with
  | nil => exact ⟨[], rfl, by simp, [], rfl, rfl⟩
  | cons a as ih =>
      obtain ⟨j, hj, hvalue⟩ := hends.exists_lt_period ht (has a List.mem_cons_self)
      obtain ⟨slots, hlength, hlt, ds, hds, rfl⟩ :=
        ih fun b hb => has b (List.mem_cons_of_mem a hb)
      refine ⟨j :: slots, by simp [hlength], by simpa using ⟨hj, hlt⟩, ⟨j, a⟩ :: ds, ?_, rfl⟩
      simp [draw?, hvalue, hds]

/-- Every tuple of values of a trail that ends is drawn at some number of its length. -/
theorem exists_draws?_eq {t : Trail ε α} (ht : t.Fused) (hends : t.Ends) {as : List α}
    (has : ∀ a ∈ as, a ∈ t.values) :
    ∃ i < t.period ^ as.length, ∃ ds, t.draws? (as.length, i) = some ds ∧
      ds.map Draw.value = as := by
  obtain ⟨slots, hlength, hlt, ds, hds, hvalues⟩ := exists_slots_eq ht hends has
  have hreverse : ∀ j ∈ slots.reverse, j < t.period :=
    fun j hj => hlt j (List.mem_reverse.1 hj)
  obtain ⟨i, hi, hdigits⟩ := exists_digits_eq hreverse
  rw [List.length_reverse, hlength] at hi hdigits
  exact ⟨i, hi, ds, by rw [draws?, hdigits, List.reverse_reverse, hds], hvalues⟩

/-- Every tuple of an allowed length appears if the trail ends. -/
theorem exists_draws_mem_values_lengths {t : Trail ε α} (ht : t.Fused) (hends : t.Ends)
    {length : ℕ} {max : Option ℕ} {as : List α} (hle : length ≤ as.length)
    (hfits : ¬ Repetition.tooLong max as.length) (has : ∀ a ∈ as, a ∈ t.values) :
    ∃ ds ∈ (lengths length max t).values, ds.map Draw.value = as := by
  obtain ⟨i, hi, ds, hds, hvalues⟩ := exists_draws?_eq ht hends has
  obtain ⟨n, hn⟩ := exists_place_eq hle hi
  refine ⟨ds, ⟨n, ?_⟩, hvalues⟩
  simp only [lengths, hn, if_neg hfits, hds]

/-- **Every repetition appears** if the trail ends. -/
theorem exists_draws_mem_values_power {t : Trail ε α} (ht : t.Fused) (hends : t.Ends)
    {min : ℕ} {max : Option ℕ} {as : List α} (hle : min ≤ as.length)
    (hfits : ¬ Repetition.tooLong max as.length) (has : ∀ a ∈ as, a ∈ t.values) :
    ∃ ds ∈ (power min max t).values, ds.map Draw.value = as := by
  cases min with
  | zero =>
      cases as with
      | nil => exact ⟨[], ⟨0, rfl⟩, rfl⟩
      | cons a as =>
          have hlength : 1 ≤ (a :: as).length := Nat.succ_pos as.length
          obtain ⟨ds, ⟨n, hn⟩, hvalues⟩ :=
            exists_draws_mem_values_lengths ht hends hlength hfits has
          exact ⟨ds, ⟨n + 1, hn⟩, hvalues⟩
  | succ min => exact exists_draws_mem_values_lengths ht hends hle hfits has

/-! ### Reports -/

/-- The events that happen on a trail after finitely many pulls. -/
def reports (t : Trail ε α) : Set ε :=
  {e | ∃ n, e ∈ t.events n}

/-- A list of values reports nothing. -/
theorem notMem_reports_items (xs : List α) (e : ε) : e ∉ (items xs : Trail ε α).reports := by
  rintro ⟨n, hn⟩
  exact absurd hn List.not_mem_nil

/-- Changing the values keeps the events. -/
theorem reports_map (f : α → β) (t : Trail ε α) : (t.map f).reports = t.reports := rfl

/-- With a report for each value there are these and the old ones. -/
theorem reports_tap {event : α → ε} {t : Trail ε α} {e : ε} (h : e ∈ (t.tap event).reports) :
    e ∈ t.reports ∨ ∃ a ∈ t.values, event a = e := by
  obtain ⟨n, hn⟩ := h
  rcases List.mem_append.1 hn with he | he
  · exact Or.inl ⟨n, he⟩
  · obtain ⟨a, ha, heq⟩ := Option.map_eq_some_iff.1 (Option.mem_toList.1 he)
    exact Or.inr ⟨a, ⟨n, ha⟩, heq⟩

/-- One trail after another reports what one of them does. -/
theorem reports_append {t u : Trail ε α} {e : ε} (h : e ∈ (t.append u).reports) :
    e ∈ t.reports ∨ e ∈ u.reports := by
  obtain ⟨n, hn⟩ := h
  rcases List.mem_append.1 hn with he | he
  · exact Or.inl ⟨n, he⟩
  · split at he
    · exact absurd he List.not_mem_nil
    · exact Or.inr ⟨_, he⟩

/-- Several trails one after the other report what one of them does. -/
theorem reports_concat {ts : List (Trail ε α)} {e : ε} (h : e ∈ (concat ts).reports) :
    ∃ t ∈ ts, e ∈ t.reports := by
  induction ts with
  | nil => exact absurd h (notMem_reports_items [] e)
  | cons t ts ih =>
      rcases reports_append h with ht | hts
      · exact ⟨t, List.mem_cons_self, ht⟩
      · obtain ⟨u, hu, he⟩ := ih hts
        exact ⟨u, List.mem_cons_of_mem t hu, he⟩

/-- Tuples with one more trail report what that trail or the tuples do. -/
theorem reports_cons {t : Trail ε α} {u : Trail ε (List α)} {e : ε}
    (h : e ∈ (cons t u).reports) : e ∈ t.reports ∨ e ∈ u.reports := by
  obtain ⟨n, hn⟩ := h
  simp only [cons] at hn
  split at hn
  · exact absurd hn List.not_mem_nil
  · rcases List.mem_append.1 hn with he | he
    · exact Or.inl ⟨n, he⟩
    · split at he
      · exact Or.inr ⟨_, he⟩
      · exact absurd he List.not_mem_nil

/-- Tuples report what one of their trails does. -/
theorem reports_tuples {ts : List (Trail ε α)} {e : ε} (h : e ∈ (tuples ts).reports) :
    ∃ t ∈ ts, e ∈ t.reports := by
  induction ts with
  | nil => exact absurd h (notMem_reports_items [[]] e)
  | cons t ts ih =>
      rcases reports_cons h with ht | hts
      · exact ⟨t, List.mem_cons_self, ht⟩
      · obtain ⟨u, hu, he⟩ := ih hts
        exact ⟨u, List.mem_cons_of_mem t hu, he⟩

/-- A product reports what one of its trails does. -/
theorem reports_product {ts : List (Trail ε α)} {e : ε} (h : e ∈ (product ts).reports) :
    ∃ t ∈ ts, e ∈ t.reports := by
  cases ts with
  | nil => exact absurd h (notMem_reports_items [] e)
  | cons t ts => exact reports_tuples h

/-- Tuples of increasing length report what their trail does. -/
theorem reports_lengths {t : Trail ε α} {length : ℕ} {max : Option ℕ} {e : ε}
    (h : e ∈ (lengths length max t).reports) : e ∈ t.reports := by
  obtain ⟨n, hn⟩ := h
  simp only [lengths] at hn
  split at hn
  · exact absurd hn List.not_mem_nil
  · exact ⟨n, hn⟩

/-- A power reports what its trail does. -/
theorem reports_power {t : Trail ε α} {min : ℕ} {max : Option ℕ} {e : ε}
    (h : e ∈ (power min max t).reports) : e ∈ t.reports := by
  cases min with
  | zero =>
      obtain ⟨n, hn⟩ := h
      cases n with
      | zero => exact absurd hn List.not_mem_nil
      | succ n => exact reports_lengths (t := t) ⟨n, hn⟩
  | succ min => exact reports_lengths h

end Trail

end RegexWords
