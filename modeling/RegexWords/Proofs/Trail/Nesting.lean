import RegexWords.Plan.Texts
import RegexWords.Proofs.Trail.Plan

/-!
# Tuples of Tuples

An odometer may be a wheel of another odometer. The inner one keeps whole tuples and finds new
ones by a rule of its own, but seen from outside nothing changes: the mixed radix digits of a
number come out the same however the digits are grouped, and so do the pulls in which each source
is asked. This module proves it for trails, in values and in events.

The argument is about one operation, `Trail.pair`, which combines two trails like the wheels of a
counter. The period of the pair is the product of the periods, also where a trail never ends or
has no value at all, and therefore pairing is associative.

## Main definitions

* `Trail.pair`: two trails combined, the first turning fastest.
* `Source.combine`: the product of sources of tuples, as one source of tuples.

## Main results

* `Trail.period_pair`: **the period of a pair**.
* `Trail.pair_assoc`: **pairing is associative**, in values and in events.
* `Trail.tuples_append`: tuples of some trails and of others are paired.
* `Trail.map_tuples_nest`: **nested tuples** are flat ones.
* `Source.trail_combine_nest`: combining sources in two steps is combining them in one.
-/

namespace RegexWords

variable {ε α β γ δ ζ : Type}

namespace Trail

/-! ### Two trails like the wheels of a counter -/

/-- Two trails combined by `f`, the first turning fastest. The events of the second come when the
first begins anew. -/
noncomputable def pair (f : β → γ → δ) (t : Trail ε β) (u : Trail ε γ) : Trail ε δ where
  value? n := do
    let b ← t.value? (n % t.period)
    let c ← u.value? (n / t.period)
    return f b c
  events n :=
    if n ≠ 0 ∧ u.value? 0 = none then []
    else t.events n ++
      if t.value? 0 ≠ none ∧ n % t.period = 0 then u.events (n / t.period) else []

/-- One more value in front of tuples is a pair. -/
theorem cons_eq_pair (t : Trail ε α) (u : Trail ε (List α)) : cons t u = pair List.cons t u := rfl

variable (f : β → γ → δ) {t : Trail ε β} {u : Trail ε γ}

theorem value?_pair (t : Trail ε β) (u : Trail ε γ) (n : ℕ) :
    (pair f t u).value? n = (t.value? (n % t.period)).bind fun b =>
      (u.value? (n / t.period)).bind fun c => some (f b c) := rfl

theorem events_pair (t : Trail ε β) (u : Trail ε γ) (n : ℕ) :
    (pair f t u).events n = if n ≠ 0 ∧ u.value? 0 = none then []
      else t.events n ++
        if t.value? 0 ≠ none ∧ n % t.period = 0 then u.events (n / t.period) else [] := rfl

/-- Changing the values of a pair changes the way the two are combined. -/
theorem map_pair (g : δ → ζ) (t : Trail ε β) (u : Trail ε γ) :
    (pair f t u).map g = pair (fun b c => g (f b c)) t u := by
  ext1
  · funext n
    rw [value?_map, value?_pair, value?_pair]
    cases t.value? (n % t.period) with
    | none => rfl
    | some b => cases u.value? (n / t.period) <;> rfl
  · rfl

/-- Changing the values of the first trail. -/
theorem pair_map_left (g : ζ → β) (t : Trail ε ζ) (u : Trail ε γ) :
    pair f (t.map g) u = pair (fun a c => f (g a) c) t u := by
  ext1 <;> funext n
  · rw [value?_pair, value?_pair, period_map, value?_map]
    cases t.value? (n % t.period) <;> rfl
  · simp only [events_pair, period_map, value?_map, events_map, ne_eq, Option.map_eq_none_iff]

/-- Changing the values of the second trail. -/
theorem pair_map_right (g : ζ → γ) (t : Trail ε β) (u : Trail ε ζ) :
    pair f t (u.map g) = pair (fun b a => f b (g a)) t u := by
  ext1 <;> funext n
  · rw [value?_pair, value?_pair, value?_map]
    cases t.value? (n % t.period) with
    | none => rfl
    | some b => cases u.value? (n / t.period) <;> rfl
  · simp only [events_pair, value?_map, events_map, ne_eq, Option.map_eq_none_iff]

/-- A pair has a first value if both trails have one. -/
theorem value?_pair_zero (t : Trail ε β) (u : Trail ε γ) :
    (pair f t u).value? 0 ≠ none ↔ t.value? 0 ≠ none ∧ u.value? 0 ≠ none := by
  rw [value?_pair, Nat.zero_mod, Nat.zero_div]
  cases t.value? 0 <;> cases u.value? 0 <;> simp

/-- A pair whose first trail has values ends where its second trail does. -/
theorem Fused.value?_pair_eq_none_iff (ht : t.Fused) (h0 : t.value? 0 ≠ none) (n : ℕ) :
    (pair f t u).value? n = none ↔ u.value? (n / t.period) = none := by
  obtain ⟨b, hb⟩ := Option.ne_none_iff_exists'.1 (ht.value?_mod_period_ne_none h0 n)
  rw [value?_pair, hb, Option.bind_some]
  cases u.value? (n / t.period) <;> simp

/-- **The period of a pair** is the product of the periods. This counts no trail without values
and no trail without end wrongly: the period of both is `0`. -/
theorem period_pair (ht : t.Fused) (hu : u.Fused) :
    (pair f t u).period = t.period * u.period := by
  by_cases h0 : t.value? 0 = none
  · have hperiod : t.period = 0 := Nat.eq_zero_of_le_zero ((ht.value?_eq_none_iff h0 0).1 h0)
    have hend : (pair f t u).value? 0 = none := by
      rw [value?_pair, Nat.zero_mod, h0]
      rfl
    rw [hperiod, Nat.zero_mul]
    exact Nat.eq_zero_of_le_zero (Nat.sInf_le hend)
  · have hnone := ht.value?_pair_eq_none_iff f (u := u) h0
    by_cases hend : ∃ n, (pair f t u).value? n = none
    · obtain ⟨n, hn⟩ := hend
      have hu' := hu.value?_eq_none_iff ((hnone n).1 hn)
      rcases Nat.eq_zero_or_pos t.period with hperiod | hpos
      · -- the first trail never ends, so the second one shows its first value only
        have h0' : u.value? 0 = none := by
          rw [hnone, hperiod, Nat.div_zero] at hn
          exact hn
        rw [hperiod, Nat.zero_mul]
        refine Nat.eq_zero_of_le_zero (Nat.sInf_le ?_)
        rwa [Set.mem_ofPred_eq, hnone, Nat.zero_div]
      · have hset : {m | (pair f t u).value? m = none} = Set.Ici (t.period * u.period) := by
          ext m
          rw [Set.mem_ofPred_eq, Set.mem_Ici, hnone, hu', Nat.le_div_iff_mul_le hpos, Nat.mul_comm]
        rw [period, hset, csInf_Ici]
    · have hall : ∀ n, (pair f t u).value? n ≠ none := fun n hn => hend ⟨n, hn⟩
      rw [period_eq_zero hall]
      by_cases hperiod : t.period = 0
      · rw [hperiod, Nat.zero_mul]
      · have hu' : u.period = 0 := by
          refine period_eq_zero fun k hk => hall (t.period * k) ?_
          rwa [hnone, Nat.mul_div_cancel_left k (Nat.pos_of_ne_zero hperiod)]
        rw [hu', Nat.mul_zero]

/-- A number is a multiple of a product if its digits are zero. -/
theorem mod_mul_eq_zero_iff (n p q : ℕ) : n % (p * q) = 0 ↔ n % p = 0 ∧ n / p % q = 0 := by
  rw [← Nat.dvd_iff_mod_eq_zero, ← Nat.dvd_iff_mod_eq_zero, ← Nat.dvd_iff_mod_eq_zero]
  constructor
  · intro h
    exact ⟨dvd_of_mul_right_dvd h, Nat.dvd_div_of_mul_dvd h⟩
  · rintro ⟨hp, hq⟩
    exact Nat.mul_dvd_of_dvd_div hp hq

/-- **Pairing is associative.** However three trails are grouped, the same values are combined and
the same events occur, at the same pulls and in the same order. -/
theorem pair_assoc {η θ : Type} {f : δ → ζ → η} {g : β → γ → δ} {f' : β → θ → η} {g' : γ → ζ → θ}
    (hfg : ∀ b c d, f (g b c) d = f' b (g' c d)) (ht : t.Fused) (hu : u.Fused) (v : Trail ε ζ) :
    pair f (pair g t u) v = pair f' t (pair g' u v) := by
  have hperiod := period_pair g ht hu
  ext1 <;> funext n
  · have hmod : n % (t.period * u.period) % t.period = n % t.period :=
      Nat.mod_mul_right_mod n t.period u.period
    have hdiv : n % (t.period * u.period) / t.period = n / t.period % u.period :=
      Nat.mod_mul_right_div_self n t.period u.period
    rw [value?_pair, value?_pair, value?_pair, value?_pair, hperiod, hmod, hdiv,
      ← Nat.div_div_eq_div_mul]
    cases t.value? (n % t.period) with
    | none => rfl
    | some b =>
        cases u.value? (n / t.period % u.period) with
        | none => rfl
        | some c =>
            cases v.value? (n / t.period / u.period) with
            | none => rfl
            | some d => simp [hfg]
  · have hzero : (pair g' u v).value? 0 = none ↔ u.value? 0 = none ∨ v.value? 0 = none := by
      have h := value?_pair_zero g' u v
      tauto
    have hzero' := value?_pair_zero g t u
    simp only [events_pair, hperiod, hzero, hzero', mod_mul_eq_zero_iff,
      ← Nat.div_div_eq_div_mul]
    rcases Nat.eq_zero_or_pos n with rfl | hn
    · -- at the first pull every trail is asked that has no trail without values before it
      simp only [Nat.zero_mod, Nat.zero_div, ne_eq, not_true_eq_false, false_and, if_false,
        and_true]
      by_cases h0 : t.value? 0 = none <;> by_cases hu0 : u.value? 0 = none <;> simp [h0, hu0]
    · simp only [ne_eq, hn.ne', not_false_eq_true, true_and]
      by_cases hv : v.value? 0 = none
      · simp [hv]
      · by_cases hu0 : u.value? 0 = none
        · simp [hu0]
        · -- later the second trail is asked at the end of a round of the first, and the third
          -- at the end of a round of the second
          by_cases hround : t.value? 0 ≠ none ∧ n % t.period = 0
          · simp [hv, hu0, hround.1, hround.2, List.append_assoc]
          · rcases not_and_or.1 hround with h | h <;> simp [hv, hu0, h]

/-- Changing the values of a trail leaves its end an end. -/
theorem Fused.map (ht : t.Fused) (g : β → δ) : (t.map g).Fused where
  value?_succ n h := by
    rw [value?_map, Option.map_eq_none_iff] at h ⊢
    exact ht.value?_succ n h
  events_succ n h := ht.events_succ n (Option.map_eq_none_iff.1 h)

/-- One tuple without entries in front changes nothing. -/
theorem Fused.pair_items_nil (hu : u.Fused) (g : List α → γ → γ) (hg : ∀ c, g [] c = c) :
    pair g (items [[]]) u = u := by
  ext1 <;> funext n
  · rw [value?_pair, period_items, List.length_singleton, Nat.mod_one, Nat.div_one]
    cases u.value? n with
    | none => rfl
    | some c => exact congrArg some (hg c)
  · rw [events_pair, period_items, List.length_singleton, Nat.mod_one, Nat.div_one]
    by_cases hend : n ≠ 0 ∧ u.value? 0 = none
    · rw [if_pos hend, hu.events_eq_nil (Nat.pos_of_ne_zero hend.1) hend.2]
    · rw [if_neg hend, if_pos ⟨Option.some_ne_none [], rfl⟩]
      rfl

/-! ### Tuples -/

/-- **Tuples of some trails and of others** are paired. -/
theorem tuples_append {ts us : List (Trail ε α)} (ht : ∀ t ∈ ts, t.Fused)
    (hu : ∀ u ∈ us, u.Fused) :
    tuples (ts ++ us) = pair (· ++ ·) (tuples ts) (tuples us) := by
  induction ts with
  | nil => exact ((Fused.tuples hu).pair_items_nil (· ++ ·) List.nil_append).symm
  | cons t ts ih =>
      have hrest : ∀ t ∈ ts, t.Fused := fun t' h => ht t' (List.mem_cons_of_mem t h)
      have hcons : ∀ (a : α) (as bs : List α), (a :: as) ++ bs = a :: (as ++ bs) :=
        fun _ _ _ => rfl
      calc tuples (t :: ts ++ us)
          = pair List.cons t (pair (· ++ ·) (tuples ts) (tuples us)) := by
            rw [List.cons_append, tuples, ih hrest, cons_eq_pair]
        _ = pair (· ++ ·) (pair List.cons t (tuples ts)) (tuples us) :=
            (pair_assoc hcons (ht t List.mem_cons_self) (Fused.tuples hrest) (tuples us)).symm

/-- Tuples combined with a pair of others, in two ways that come to the same. -/
theorem pair_pair_congr {η θ θ' : Type} {f : β → θ → η} {g : γ → ζ → θ} {f' : β → θ' → η}
    {g' : γ → ζ → θ'} (h : ∀ b c d, f b (g c d) = f' b (g' c d)) (t : Trail ε β) (u : Trail ε γ)
    (v : Trail ε ζ) : pair f t (pair g u v) = pair f' t (pair g' u v) := by
  have hg := map_pair Prod.mk (fun cd : γ × ζ => g cd.1 cd.2) u v
  have hg' := map_pair Prod.mk (fun cd : γ × ζ => g' cd.1 cd.2) u v
  rw [← hg, ← hg', pair_map_right, pair_map_right]
  simp only [h]

variable {join : List α → α}

/-- **Nested tuples are flat ones.** If joining what was joined already is joining once, then a
trail of joined tuples among other trails gives the tuples of all trails, in values and in
events. -/
theorem map_tuples_nest (hjoin : ∀ as bs cs, join (as ++ join bs :: cs) = join (as ++ bs ++ cs))
    {ts us vs : List (Trail ε α)} (ht : ∀ t ∈ ts, t.Fused) (hu : ∀ u ∈ us, u.Fused)
    (hv : ∀ v ∈ vs, v.Fused) :
    (tuples (ts ++ (tuples us).map join :: vs)).map join = (tuples (ts ++ us ++ vs)).map join := by
  have hnest : ∀ u ∈ (tuples us).map join :: vs, u.Fused :=
    List.forall_mem_cons.2 ⟨(Fused.tuples hu).map join, hv⟩
  have hflat : ∀ u ∈ us ++ vs, u.Fused := fun u h =>
    (List.mem_append.1 h).elim (hu u) (hv u)
  rw [List.append_assoc, tuples_append ht hnest, tuples_append ht hflat, tuples_append hu hv,
    map_pair, map_pair, tuples, cons_eq_pair, pair_map_left]
  exact pair_pair_congr (fun as bs cs => (hjoin as bs cs).trans (by rw [List.append_assoc])) _ _ _

/-- **A nested product** is a flat one, unless nothing is nested. -/
theorem map_product_nest (hjoin : ∀ as bs cs, join (as ++ join bs :: cs) = join (as ++ bs ++ cs))
    {ts us vs : List (Trail ε α)} (ht : ∀ t ∈ ts, t.Fused) (hu : ∀ u ∈ us, u.Fused)
    (hv : ∀ v ∈ vs, v.Fused) (hus : us ≠ []) :
    (product (ts ++ (product us).map join :: vs)).map join =
      (product (ts ++ us ++ vs)).map join := by
  rw [product_eq_tuples hus, product_eq_tuples (by simp), product_eq_tuples (by simp [hus])]
  exact map_tuples_nest hjoin ht hu hv

end Trail

/-! ### Sources of tuples -/

namespace Source

/-- The tuples of one tuple of each source, one after the other. -/
def combine (ss : List (Source ε (List α))) : Source ε (List α) :=
  (product ss.toArray).map List.flatten

/-- A plan that pairs tuples combines the sources of its parts. -/
theorem source_pairUp (plans : List (Plan Signal Texts)) :
    (Plan.pairUp plans).source = combine (Plan.sources plans) := rfl

/-- The trail of combined sources. -/
theorem trail_combine (ss : List (Source ε (List α))) :
    (combine ss).trail = (Trail.product (ss.map trail)).map List.flatten := by
  rw [combine, trail_map, trail_product]

/-- **Combining sources of tuples is associative.** Combining some of them first leaves the same
trail, in values and in events. -/
theorem trail_combine_nest (xs ys zs : List (Source ε (List α))) (hys : ys ≠ []) :
    (combine (xs ++ combine ys :: zs)).trail = (combine (xs ++ ys ++ zs)).trail := by
  have hfused : ∀ ss : List (Source ε (List α)), ∀ t ∈ ss.map trail, t.Fused := by
    intro ss t ht
    obtain ⟨s, -, rfl⟩ := List.mem_map.1 ht
    exact s.fused_trail
  have hjoin : ∀ as bs cs : List (List α),
      (as ++ bs.flatten :: cs).flatten = (as ++ bs ++ cs).flatten := by
    intro as bs cs
    rw [List.flatten_append, List.flatten_cons, List.flatten_append, List.flatten_append,
      List.append_assoc]
  simp only [trail_combine, List.map_append, List.map_cons]
  exact Trail.map_product_nest hjoin (hfused xs) (hfused ys) (hfused zs) (by simpa using hys)

end Source

end RegexWords
