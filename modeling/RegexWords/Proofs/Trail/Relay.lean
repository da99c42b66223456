import Mathlib.Data.Nat.Count
import RegexWords.Proofs.Trail.Watched

/-!
# Passing on Pulls

A source that is put together with others is not pulled by whoever pulls the whole, but by what
stands around it. How often it is pulled depends on all the others: on the end of those before it,
on the turning of a counter, on the greatest length of tuples. But whatever stands around it, one
pull of the whole is one pull of the source or none, and it is the next pull that is due. So the
whole **relays** its pulls, and an observer who knows the events of the source from all other
events sees, at any time, what would have been seen of the source alone, after fewer pulls perhaps.

Values that were kept are shown again without any pull. That is why nothing is seen twice.

## Main definitions

* `Trail.Silent`: no event of a trail is seen.
* `Trail.Relays`: **what is seen of a trail are the pulls of another**, one after the other.

## Main results

* `Trail.Relays.exists_history_eq`: what is seen after some pulls was seen after at most as many of
  the other trail.
* `Trail.relays_tap`, `Trail.relays_concat`, `Trail.relays_product`, `Trail.relays_power`: every way
  to put sources together relays the pulls.
-/

namespace RegexWords

variable {ε α β γ δ : Type}

namespace Trail

/-! ### What an observer sees -/

/-- The trail is **silent** to an observer who sees none of its events. -/
def Silent (seen : ε → Option δ) (t : Trail ε α) : Prop :=
  ∀ e ∈ t.reports, seen e = none

variable {seen : ε → Option δ} {t : Trail ε α} {u : Trail ε β} {v : Trail ε γ}

/-- In no pull of a silent trail anything is seen. -/
theorem Silent.filterMap_events (h : t.Silent seen) (n : ℕ) : (t.events n).filterMap seen = [] :=
  List.filterMap_eq_nil_iff.2 fun e he => h e ⟨n, he⟩

/-- The trail `t` **relays** its pulls to the trail `u`: in each of its pulls the observer sees
either nothing or what is seen in the next pull of `u`. -/
def Relays (seen : ε → Option δ) (t : Trail ε α) (u : Trail ε β) : Prop :=
  ∃ asked : ℕ → ℕ, asked 0 = 0 ∧ ∀ n,
    asked (n + 1) = asked n ∧ (t.events n).filterMap seen = [] ∨
      asked (n + 1) = asked n + 1 ∧
        (t.events n).filterMap seen = (u.events (asked n)).filterMap seen

/-- Pulls are relayed to the trail itself. -/
theorem Relays.refl (seen : ε → Option δ) (t : Trail ε α) : t.Relays seen t :=
  ⟨fun n => n, rfl, fun _ => Or.inr ⟨rfl, rfl⟩⟩

/-- A trail of which nothing is seen relays no pull. -/
theorem relays_of_filterMap_eq_nil (h : ∀ n, (t.events n).filterMap seen = []) :
    t.Relays seen u :=
  ⟨fun _ => 0, rfl, fun n => Or.inl ⟨rfl, h n⟩⟩

/-- **Relayed pulls are relayed further.** -/
theorem Relays.trans (htu : t.Relays seen u) (huv : u.Relays seen v) : t.Relays seen v := by
  obtain ⟨asked, hzero, hstep⟩ := htu
  obtain ⟨asked', hzero', hstep'⟩ := huv
  refine ⟨fun n => asked' (asked n), (congrArg asked' hzero).trans hzero', fun n => ?_⟩
  rcases hstep n with ⟨hasked, hseen⟩ | ⟨hasked, hseen⟩
  · exact Or.inl ⟨congrArg asked' hasked, hseen⟩
  · simp only [hasked, hseen]
    exact hstep' (asked n)

/-- **What is seen** after some pulls was seen after at most as many pulls of the other trail. -/
theorem Relays.exists_history_eq (h : t.Relays seen u) (n : ℕ) :
    ∃ m ≤ n, (t.history n).filterMap seen = (u.history m).filterMap seen := by
  obtain ⟨asked, hzero, hstep⟩ := h
  have key : asked n ≤ n ∧
      (t.history n).filterMap seen = (u.history (asked n)).filterMap seen := by
    induction n with
    | zero => rw [hzero]; exact ⟨le_rfl, rfl⟩
    | succ n ih =>
        obtain ⟨hle, hhistory⟩ := ih
        rw [history_succ, List.filterMap_append, hhistory]
        rcases hstep n with ⟨hasked, hseen⟩ | ⟨hasked, hseen⟩
        · rw [hasked, hseen, List.append_nil]
          exact ⟨hle.trans (Nat.le_succ n), rfl⟩
        · rw [hasked, hseen, history_succ, List.filterMap_append]
          exact ⟨Nat.succ_le_succ hle, rfl⟩
  exact ⟨asked n, key⟩

/-- All pulls are relayed that come before a cut, if there is one, and none from the cut on. -/
theorem relays_of_cut (cut : ℕ → Prop) (hcut : ∀ n, cut n → cut (n + 1))
    (hnone : ∀ n, cut n → (t.events n).filterMap seen = [])
    (hsome : ∀ n, ¬ cut n → (t.events n).filterMap seen = (u.events n).filterMap seen) :
    t.Relays seen u := by
  classical
  refine ⟨Nat.count fun n => ¬ cut n, Nat.count_zero _, fun n => ?_⟩
  by_cases hn : cut n
  · exact Or.inl ⟨by rw [Nat.count_succ, if_neg (not_not.2 hn), Nat.add_zero], hnone n hn⟩
  · have hbefore : ∀ m < n, ¬ cut m := fun m hm hc =>
      hn (Nat.le_induction hc (fun k _ => hcut k) n hm.le)
    have hcount : Nat.count (fun n => ¬ cut n) n = n := Nat.count_iff_forall.2 hbefore
    refine Or.inr ⟨by rw [Nat.count_succ, if_pos hn], ?_⟩
    rw [hcount]
    exact hsome n hn

/-- A pull is relayed at first and at the end of every round of `p` pulls, where `p` may be `0`. -/
theorem relays_of_rounds (p : ℕ)
    (h : ∀ n, (t.events n).filterMap seen =
      if n % p = 0 then (u.events (n / p)).filterMap seen else []) : t.Relays seen u := by
  refine ⟨fun n => min n 1 + (n - 1) / p, by simp, fun n => ?_⟩
  rw [h]
  cases n with
  | zero =>
      rw [Nat.zero_mod, if_pos rfl, Nat.zero_div]
      exact Or.inr ⟨by simp, by simp⟩
  | succ n =>
      have hasked : ∀ k, min (k + 1) 1 + (k + 1 - 1) / p = 1 + k / p := fun k => by
        rw [Nat.min_eq_right (Nat.succ_pos k), Nat.add_sub_cancel]
      simp only [hasked]
      by_cases hmod : (n + 1) % p = 0
      · rw [if_pos hmod, Nat.succ_div_of_mod_eq_zero hmod, Nat.add_comm 1 (n / p)]
        exact Or.inr ⟨Nat.add_comm _ _, rfl⟩
      · rw [if_neg hmod, Nat.succ_div_of_mod_ne_zero hmod]
        exact Or.inl ⟨rfl, rfl⟩

/-! ### One trail -/

/-- Changing the values leaves the events. -/
theorem relays_map (f : α → β) (t : Trail ε α) : (t.map f).Relays seen t :=
  ⟨fun n => n, rfl, fun _ => Or.inr ⟨rfl, rfl⟩⟩

/-- Reports that are not seen do not matter. -/
theorem relays_tap {event : α → ε} (hevent : ∀ a, seen (event a) = none) (t : Trail ε α) :
    (t.tap event).Relays seen t := by
  refine ⟨fun n => n, rfl, fun n => Or.inr ⟨rfl, ?_⟩⟩
  rw [events_tap, List.filterMap_append]
  have hnil : ((t.value? n).map event).toList.filterMap seen = [] := by
    cases t.value? n with
    | none => rfl
    | some a => exact List.filterMap_cons_none (hevent a)
  rw [hnil, List.append_nil]

/-- A first value that is not pulled defers the others. -/
theorem relays_prepend (a : α) (t : Trail ε α) : (prepend a t).Relays seen t := by
  refine ⟨fun n => n - 1, rfl, fun n => ?_⟩
  cases n with
  | zero => exact Or.inl ⟨rfl, rfl⟩
  | succ n => exact Or.inr ⟨rfl, rfl⟩

/-- Tuples of increasing length pull until they are too long. -/
theorem relays_lengths (length : ℕ) (max : Option ℕ) (t : Trail ε α) :
    (lengths length max t).Relays seen t := by
  refine relays_of_cut
    (fun n => Repetition.tooLong max (place t.period length (n - 1)).1 ∨ n ≠ 0 ∧ t.value? 0 = none)
    (fun n hn => ?_) (fun n hn => ?_) fun n hn => ?_
  · rcases hn with hlong | hzero
    · exact Or.inl (Repetition.tooLong_mono (place_fst_mono _ _ (by omega)) hlong)
    · exact Or.inr ⟨Nat.succ_ne_zero n, hzero.2⟩
  · rw [events_lengths, if_pos hn, List.filterMap_nil]
  · rw [events_lengths, if_neg hn]

/-- **A power relays its pulls.** -/
theorem relays_power (min : ℕ) (max : Option ℕ) (t : Trail ε α) :
    (power min max t).Relays seen t := by
  cases min with
  | zero => exact (relays_prepend [] _).trans (relays_lengths 1 max t)
  | succ min => exact relays_lengths (min + 1) max t

/-! ### One trail after the other -/

/-- A trail is pulled before one that is silent. -/
theorem relays_append_left {u : Trail ε α} (hu : u.Silent seen) : (t.append u).Relays seen t := by
  refine ⟨fun n => n, rfl, fun n => Or.inr ⟨rfl, ?_⟩⟩
  rw [events_append, List.filterMap_append]
  split
  · exact List.append_nil _
  · rw [hu.filterMap_events, List.append_nil]

/-- A trail is pulled from the end of a silent one on. -/
theorem Fused.relays_append_right (ht : t.Fused) (hsilent : t.Silent seen) (u : Trail ε α) :
    (t.append u).Relays seen u := by
  have hevents : ∀ n, ((t.append u).events n).filterMap seen =
      if (t.value? n).isSome then [] else (u.events (n - t.period)).filterMap seen := by
    intro n
    rw [events_append, List.filterMap_append, hsilent.filterMap_events, List.nil_append]
    split <;> rfl
  by_cases hend : ∃ m, t.value? m = none
  · obtain ⟨m, hm⟩ := hend
    refine ⟨fun n => n - t.period, Nat.zero_sub _, fun n => ?_⟩
    rw [hevents]
    cases hn : t.value? n with
    | some a =>
        have hlt : n < t.period := by
          by_contra hc
          have hnone := (ht.value?_eq_none_iff hm n).2 (not_lt.1 hc)
          rw [hn] at hnone
          exact Option.some_ne_none a hnone
        have hasked : n + 1 - t.period = n - t.period := by omega
        exact Or.inl ⟨hasked, rfl⟩
    | none =>
        have hle := (ht.value?_eq_none_iff hm n).1 hn
        exact Or.inr ⟨Nat.sub_add_comm hle, rfl⟩
  · -- the other trail is never pulled
    refine relays_of_filterMap_eq_nil fun n => ?_
    rw [hevents, if_pos (Option.isSome_iff_ne_none.2 fun hn => hend ⟨n, hn⟩)]

/-- **Several trails one after the other** relay their pulls to the one that is not silent. -/
theorem relays_concat {ts us : List (Trail ε α)} (hts : ∀ t ∈ ts, t.Fused ∧ t.Silent seen)
    (hus : ∀ u ∈ us, u.Silent seen) (t : Trail ε α) :
    (concat (ts ++ t :: us)).Relays seen t := by
  induction ts with
  | nil =>
      refine relays_append_left fun e he => ?_
      obtain ⟨u, hu, heu⟩ := reports_concat he
      exact hus u hu e heu
  | cons s ts ih =>
      obtain ⟨hfused, hsilent⟩ := hts s List.mem_cons_self
      exact (hfused.relays_append_right hsilent _).trans
        (ih fun t ht => hts t (List.mem_cons_of_mem s ht))

/-! ### Tuples -/

/-- The first trail of a tuple is pulled as long as there are tuples of the others. -/
theorem relays_cons_left {u : Trail ε (List α)} (hu : u.Silent seen) :
    (cons t u).Relays seen t := by
  refine relays_of_cut (fun n => n ≠ 0 ∧ u.value? 0 = none)
    (fun n hn => ⟨Nat.succ_ne_zero n, hn.2⟩) (fun n hn => ?_) fun n hn => ?_
  · rw [events_cons, if_pos hn, List.filterMap_nil]
  · rw [events_cons, if_neg hn, List.filterMap_append]
    split
    · rw [hu.filterMap_events, List.append_nil]
    · exact List.append_nil _

/-- The tuples of the others are pulled when the first trail begins anew. -/
theorem relays_cons_right (ht : t.Silent seen) (u : Trail ε (List α)) :
    (cons t u).Relays seen u := by
  have hevents : ∀ n, ((cons t u).events n).filterMap seen =
      if n ≠ 0 ∧ u.value? 0 = none then []
      else if t.value? 0 ≠ none ∧ n % t.period = 0 then
        (u.events (n / t.period)).filterMap seen
      else [] := by
    intro n
    rw [events_cons]
    split
    · rfl
    · rw [List.filterMap_append, ht.filterMap_events, List.nil_append]
      split <;> rfl
  by_cases ht0 : t.value? 0 = none
  · -- the others are never pulled
    refine relays_of_filterMap_eq_nil fun n => ?_
    rw [hevents, if_neg fun h : t.value? 0 ≠ none ∧ n % t.period = 0 => h.1 ht0, ite_self]
  by_cases hu0 : u.value? 0 = none
  · -- there are no tuples, and the others are pulled once
    refine relays_of_cut (fun n => n ≠ 0) (fun n _ => Nat.succ_ne_zero n) (fun n hn => ?_)
      fun n hn => ?_
    · rw [hevents, if_pos ⟨hn, hu0⟩]
    · obtain rfl : n = 0 := not_not.1 hn
      rw [hevents, if_neg fun h => h.1 rfl, if_pos ⟨ht0, Nat.zero_mod _⟩, Nat.zero_div]
  · refine relays_of_rounds t.period fun n => ?_
    simp only [hevents, hu0, and_false, if_false, ne_eq, ht0, not_false_eq_true, true_and]

/-- **Tuples** relay their pulls to the trail that is not silent. -/
theorem relays_tuples {ts us : List (Trail ε α)} (hts : ∀ t ∈ ts, t.Silent seen)
    (hus : ∀ u ∈ us, u.Silent seen) (t : Trail ε α) :
    (tuples (ts ++ t :: us)).Relays seen t := by
  induction ts with
  | nil =>
      refine relays_cons_left fun e he => ?_
      obtain ⟨u, hu, heu⟩ := reports_tuples he
      exact hus u hu e heu
  | cons s ts ih =>
      exact (relays_cons_right (hts s List.mem_cons_self) _).trans
        (ih fun t ht => hts t (List.mem_cons_of_mem s ht))

/-- **A product relays its pulls** to the trail that is not silent. -/
theorem relays_product {ts us : List (Trail ε α)} (hts : ∀ t ∈ ts, t.Silent seen)
    (hus : ∀ u ∈ us, u.Silent seen) (t : Trail ε α) :
    (product (ts ++ t :: us)).Relays seen t := by
  rw [product_eq_tuples (by simp)]
  exact relays_tuples hts hus t

end Trail

end RegexWords
