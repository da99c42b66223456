import Mathlib.Order.Lattice.Nat
import RegexWords.Source

/-!
# The Trail of a Source

What can be seen of a lazy source is its **trail**: for every number of pulls made before, the
value that the next pull gives, if any, and the events on the way. Sources with different
states may leave the same trail, and whoever pulls cannot tell them apart. This module defines
the trail of a source and computes the trails of the simple combinators from the trails of
their parts; the odometer and the repetition have modules of their own.

A trail may go on for ever. Its `period` is the number of its values if it ends, and `0` if it
does not. Division by the period then does the right thing in both cases: for an endless trail
`n % period = n` and `n / period = 0`.

## Main results

* `Pull.Fused.trail`: an end of a fused machine stays an end, in values and in events.
* `Pull.trail_eq`: a trail is established by an invariant of the states, step by step.
* `Source.answers_eq`: the answers to `n` pulls are read off the trail.
* `Source.trail_items`, `Source.trail_range`, `Source.trail_map`, `Source.trail_tap`:
  the trails of the simple sources.
* `Source.trail_chain_cons`: a machine asked before others leaves its trail before theirs.
* `Source.fused_chain`: machines asked one after the other are fused.
-/

namespace RegexWords

variable {ε δ α β : Type} {σ τ : Type}

/-- The **trail** of a source: the value and the events of the pull that follows `n` others. -/
@[ext] structure Trail (ε α : Type) where
  value? : ℕ → Option α
  events : ℕ → List ε

namespace Trail

/-- A trail is **fused** if nothing comes after its end. -/
structure Fused (t : Trail ε α) : Prop where
  value?_succ : ∀ n, t.value? n = none → t.value? (n + 1) = none
  events_succ : ∀ n, t.value? n = none → t.events (n + 1) = []

/-- The trail of the pulls after the first one. -/
def tail (t : Trail ε α) : Trail ε α where
  value? n := t.value? (n + 1)
  events n := t.events (n + 1)

/-- The number of values of a trail that ends, and `0` for one that does not. -/
noncomputable def period (t : Trail ε α) : ℕ :=
  sInf {n | t.value? n = none}

/-- **Bisimulation.** Two trails agree if they are related by a relation that forces equal first
pulls and relates what comes after them, or makes it equal. -/
theorem ext_tail {t u : Trail ε α} (R : Trail ε α → Trail ε α → Prop)
    (hstep : ∀ t u, R t u → t.value? 0 = u.value? 0 ∧ t.events 0 = u.events 0 ∧
      (R t.tail u.tail ∨ t.tail = u.tail)) (h : R t u) : t = u := by
  have key : ∀ n t u, R t u → t.value? n = u.value? n ∧ t.events n = u.events n := by
    intro n
    induction n with
    | zero =>
        intro t u h
        exact ⟨(hstep t u h).1, (hstep t u h).2.1⟩
    | succ n ih =>
        intro t u h
        rcases (hstep t u h).2.2 with htail | htail
        · exact ih t.tail u.tail htail
        · have hvalue := congrArg (fun v => v.value? n) htail
          have hevents := congrArg (fun v => v.events n) htail
          exact ⟨hvalue, hevents⟩
  ext1 <;> funext n
  · exact (key n t u h).1
  · exact (key n t u h).2

/-! ### Ends -/

/-- After an end there are no values. -/
theorem Fused.value?_eq_none {t : Trail ε α} (ht : t.Fused) {m n : ℕ} (hmn : m ≤ n)
    (hm : t.value? m = none) : t.value? n = none := by
  induction n, hmn using Nat.le_induction with
  | base => exact hm
  | succ n _ ih => exact ht.value?_succ n ih

/-- After an end there are no events. -/
theorem Fused.events_eq_nil {t : Trail ε α} (ht : t.Fused) {m n : ℕ} (hmn : m < n)
    (hm : t.value? m = none) : t.events n = [] := by
  obtain ⟨k, rfl⟩ : ∃ k, n = k + 1 := ⟨n - 1, by omega⟩
  exact ht.events_succ k (ht.value?_eq_none (by omega) hm)

/-- A trail that has ended somewhere ends after as many values as its period says. -/
theorem Fused.value?_eq_none_iff {t : Trail ε α} (ht : t.Fused) {m : ℕ}
    (hm : t.value? m = none) (n : ℕ) : t.value? n = none ↔ t.period ≤ n := by
  constructor
  · intro hn
    exact Nat.sInf_le hn
  · intro hn
    have hp : t.value? t.period = none := Nat.sInf_mem (s := {n | t.value? n = none}) ⟨m, hm⟩
    exact ht.value?_eq_none hn hp

/-- A trail that never ends has period `0`. -/
theorem period_eq_zero {t : Trail ε α} (ht : ∀ n, t.value? n ≠ none) : t.period = 0 := by
  have hs : {n | t.value? n = none} = ∅ := by
    ext n
    simpa using ht n
  rw [period, hs, Nat.sInf_empty]

/-- A trail that has a value has one at every number below its period. -/
theorem Fused.value?_mod_period_ne_none {t : Trail ε α} (ht : t.Fused)
    (h0 : t.value? 0 ≠ none) (n : ℕ) : t.value? (n % t.period) ≠ none := by
  by_cases hend : ∃ m, t.value? m = none
  · obtain ⟨m, hm⟩ := hend
    have hiff := ht.value?_eq_none_iff hm
    have hpos : 0 < t.period := by
      by_contra hc
      exact h0 ((hiff 0).2 (by omega))
    rw [ne_eq, hiff, not_le]
    exact Nat.mod_lt n hpos
  · have hall : ∀ k, t.value? k ≠ none := fun k hk => hend ⟨k, hk⟩
    exact hall _

/-- The period loses one when the first value is taken off, provided there is an end. -/
theorem period_tail {t : Trail ε α} (h0 : t.value? 0 ≠ none) {n : ℕ}
    (hn : t.tail.value? n = none) : t.period = t.tail.period + 1 := by
  have hmem : t.tail.value? t.tail.period = none :=
    Nat.sInf_mem (s := {n | t.tail.value? n = none}) ⟨n, hn⟩
  have hmem' : t.value? t.period = none :=
    Nat.sInf_mem (s := {n | t.value? n = none}) ⟨n + 1, hn⟩
  apply le_antisymm
  · exact Nat.sInf_le hmem
  · obtain ⟨k, hk⟩ : ∃ k, t.period = k + 1 := by
      refine ⟨t.period - 1, ?_⟩
      rcases Nat.eq_zero_or_pos t.period with h | h
      · exact absurd (h ▸ hmem') h0
      · omega
    have htail : t.tail.value? k = none := by
      rw [hk] at hmem'
      exact hmem'
    have hle : t.tail.period ≤ k := Nat.sInf_le htail
    omega

/-! ### Putting trails together -/

/-- The trail of the given values, without events. -/
def items (values : List α) : Trail ε α where
  value? n := values[n]?
  events _ := []

/-- The trail with every value changed by `f`. -/
def map (f : α → β) (t : Trail ε α) : Trail ε β where
  value? n := (t.value? n).map f
  events := t.events

/-- The trail with one more event for each value. -/
def tap (event : α → ε) (t : Trail ε α) : Trail ε α where
  value? := t.value?
  events n := t.events n ++ ((t.value? n).map event).toList

/-- One trail and, from its end on, another. -/
noncomputable def append (t u : Trail ε α) : Trail ε α where
  value? n := (t.value? n).or (u.value? (n - t.period))
  events n := t.events n ++ if (t.value? n).isSome then [] else u.events (n - t.period)

/-- Several trails, each from the end of the one before on. -/
noncomputable def concat : List (Trail ε α) → Trail ε α
  | [] => items []
  | t :: ts => t.append (concat ts)

@[simp] theorem value?_items (values : List α) (n : ℕ) :
    (items values : Trail ε α).value? n = values[n]? := rfl

@[simp] theorem value?_map (f : α → β) (t : Trail ε α) (n : ℕ) :
    (t.map f).value? n = (t.value? n).map f := rfl

@[simp] theorem events_map (f : α → β) (t : Trail ε α) (n : ℕ) :
    (t.map f).events n = t.events n := rfl

@[simp] theorem value?_tap (event : α → ε) (t : Trail ε α) (n : ℕ) :
    (t.tap event).value? n = t.value? n := rfl

theorem events_tap (event : α → ε) (t : Trail ε α) (n : ℕ) :
    (t.tap event).events n = t.events n ++ ((t.value? n).map event).toList := rfl

@[simp] theorem value?_tail (t : Trail ε α) (n : ℕ) : t.tail.value? n = t.value? (n + 1) := rfl

@[simp] theorem events_tail (t : Trail ε α) (n : ℕ) : t.tail.events n = t.events (n + 1) := rfl

theorem value?_append (t u : Trail ε α) (n : ℕ) :
    (t.append u).value? n = (t.value? n).or (u.value? (n - t.period)) := rfl

theorem events_append (t u : Trail ε α) (n : ℕ) :
    (t.append u).events n =
      t.events n ++ if (t.value? n).isSome then [] else u.events (n - t.period) := rfl

/-- The given values are as many as the period of their trail. -/
@[simp] theorem period_items (values : List α) :
    (items values : Trail ε α).period = values.length := by
  have hs : {n | (items values : Trail ε α).value? n = none} = Set.Ici values.length := by
    ext n
    simp
  rw [period, hs, csInf_Ici]

/-- Changing the values keeps their number. -/
@[simp] theorem period_map (f : α → β) (t : Trail ε α) : (t.map f).period = t.period := by
  simp only [period, value?_map, Option.map_eq_none_iff]

/-- The tail of a trail that follows another one, as long as that one has values. -/
theorem tail_append {t : Trail ε α} (u : Trail ε α) (h0 : t.value? 0 ≠ none) :
    (t.append u).tail = t.tail.append u := by
  have hsub : ∀ n, t.value? (n + 1) = none → n + 1 - t.period = n - t.tail.period := by
    intro n hn
    rw [period_tail h0 hn]
    omega
  ext1 <;> funext n
  · rw [value?_tail, value?_append, value?_append, value?_tail]
    cases hn : t.value? (n + 1) with
    | none => rw [hsub n hn]
    | some a => rfl
  · rw [events_tail, events_append, events_append, events_tail, value?_tail]
    cases hn : t.value? (n + 1) with
    | none => rw [hsub n hn]
    | some a => rfl

/-- The tail of a trail that follows one without values. -/
theorem Fused.tail_append {t : Trail ε α} (ht : t.Fused) (u : Trail ε α)
    (h0 : t.value? 0 = none) : (t.append u).tail = u.tail := by
  have hperiod : t.period = 0 := by
    have h := (ht.value?_eq_none_iff h0 0).1 h0
    omega
  ext1 <;> funext n
  · rw [value?_tail, value?_append, ht.value?_eq_none (Nat.zero_le _) h0, hperiod]
    rfl
  · rw [events_tail, events_append, ht.value?_eq_none (Nat.zero_le _) h0,
      ht.events_eq_nil (Nat.succ_pos n) h0, hperiod]
    rfl

/-! ### Rounds -/

/-- Within a round the remainder goes up by one. -/
theorem succ_mod_eq {n p : ℕ} (h : (n + 1) % p ≠ 0) : (n + 1) % p = n % p + 1 := by
  have h₁ := Nat.div_add_mod n p
  have h₂ := Nat.div_add_mod (n + 1) p
  rw [Nat.succ_div_of_mod_ne_zero h] at h₂
  omega

/-- At the end of a round the remainder is the largest one. -/
theorem mod_add_one_eq {n p : ℕ} (h : (n + 1) % p = 0) : n % p + 1 = p := by
  have h₁ := Nat.div_add_mod n p
  have h₂ := Nat.div_add_mod (n + 1) p
  rw [Nat.succ_div_of_mod_eq_zero h, Nat.mul_succ] at h₂
  omega

/-- A trail that has a value at a number does not turn before it. -/
theorem Fused.mod_period_eq {t : Trail ε α} (ht : t.Fused) {n : ℕ} (hn : t.value? n ≠ none) :
    n % t.period = n ∧ n / t.period = 0 := by
  by_cases hend : ∃ m, t.value? m = none
  · obtain ⟨m, hm⟩ := hend
    have hlt : n < t.period := by
      by_contra hc
      exact hn ((ht.value?_eq_none_iff hm n).2 (by omega))
    exact ⟨Nat.mod_eq_of_lt hlt, Nat.div_eq_of_lt hlt⟩
  · have hp : t.period = 0 := period_eq_zero fun k hk => hend ⟨k, hk⟩
    rw [hp]
    exact ⟨Nat.mod_zero n, Nat.div_zero n⟩

/-- Once a trail with values has turned, it has ended before. -/
theorem Fused.value?_eq_none_of_div_pos {t : Trail ε α} (ht : t.Fused) {n : ℕ}
    (hn : 0 < n / t.period) : t.value? n = none := by
  by_contra hc
  exact hn.ne' (ht.mod_period_eq hc).2

/-- A trail that has ended, but not at the end of a round, has ended before. -/
theorem Fused.value?_eq_none_of_mod {t : Trail ε α} (ht : t.Fused) {n : ℕ}
    (hn : t.value? (n + 1) = none) (hmod : (n + 1) % t.period ≠ 0) : t.value? n = none := by
  have hle := (ht.value?_eq_none_iff hn (n + 1)).1 hn
  rw [ht.value?_eq_none_iff hn]
  by_contra hc
  have heq : n + 1 = t.period := by omega
  exact hmod (heq ▸ Nat.mod_self _)

/-! ### Caches -/

/-- The array holds the values of a trail up to number `n`, as far as there are any. -/
def Discovered (t : Trail ε α) (n : ℕ) (values : Array α) : Prop :=
  ∀ j, values[j]? = if j ≤ n then t.value? j else none

namespace Discovered

variable {t : Trail ε α} {n : ℕ} {values : Array α}

/-- At first there is one value. -/
theorem single {v : α} (h0 : t.value? 0 = some v) : t.Discovered 0 #[v] := by
  intro j
  cases j with
  | zero => simp [h0]
  | succ j => simp

/-- The cache gives the values of the trail. -/
theorem getElem?_eq (h : t.Discovered n values) {j : ℕ} (hj : j ≤ n) :
    values[j]? = t.value? j := by
  rw [h j, if_pos hj]

/-- Where something was discovered there is a first value. -/
theorem value?_zero (h : t.Discovered n values) (hpos : 0 < values.size) :
    t.value? 0 ≠ none := by
  rw [← h.getElem?_eq (Nat.zero_le n), ne_eq, Array.getElem?_eq_none_iff]
  omega

/-- As long as there are values, the cache holds one for each number. -/
theorem size_eq (h : t.Discovered n values) (hn : t.value? n ≠ none) : values.size = n + 1 := by
  have hlast : values[n + 1]? = none := by
    rw [h, if_neg (by omega)]
  have hnew : values[n]? ≠ none := by
    rw [h.getElem?_eq (le_refl n)]
    exact hn
  rw [Array.getElem?_eq_none_iff] at hlast
  rw [ne_eq, Array.getElem?_eq_none_iff] at hnew
  omega

/-- After the end the cache holds all values. -/
theorem size_eq_period (h : t.Discovered n values) (ht : t.Fused)
    (hn : t.value? (n + 1) = none) : values.size = t.period := by
  have hiff := ht.value?_eq_none_iff hn
  have hle := (hiff (n + 1)).1 hn
  have hget : ∀ j, values.size ≤ j ↔ t.period ≤ j := by
    intro j
    rw [← Array.getElem?_eq_none_iff, h]
    split
    · exact hiff j
    · simp only [true_iff]
      omega
  have h₁ := (hget values.size).1 (le_refl _)
  have h₂ := (hget t.period).2 (le_refl _)
  omega

/-- A new value goes to the end of the cache. -/
theorem push (h : t.Discovered n values) (ht : t.Fused) {v : α}
    (hnew : t.value? (n + 1) = some v) : t.Discovered (n + 1) (values.push v) := by
  have hlast : t.value? n ≠ none := fun hc => absurd (ht.value?_succ n hc) (by simp [hnew])
  intro j
  rw [Array.getElem?_push, h j, h.size_eq hlast]
  rcases Nat.lt_trichotomy j (n + 1) with hj | rfl | hj
  · rw [if_neg (by omega), if_pos (by omega), if_pos (by omega)]
  · rw [if_pos rfl, if_pos (le_refl _), hnew]
  · rw [if_neg (by omega), if_neg (by omega), if_neg (by omega)]

/-- Without a new value the cache stays. -/
theorem succ (h : t.Discovered n values) (hn : t.value? (n + 1) = none) :
    t.Discovered (n + 1) values := by
  intro j
  rw [h j]
  rcases Nat.lt_trichotomy j (n + 1) with hj | rfl | hj
  · rw [if_pos (by omega), if_pos (by omega)]
  · rw [if_neg (by omega), if_pos (le_refl _), hn]
  · rw [if_neg (by omega), if_neg (by omega)]

end Discovered

end Trail

/-! ### The trail of a machine -/

namespace Pull

/-- The state of a machine after `n` pulls. -/
def stateAt (step : σ → Pull ε α σ) : ℕ → σ → σ
  | 0, s => s
  | n + 1, s => stateAt step n (step s).rest

/-- The **trail** of a machine from a state on. -/
def trail (step : σ → Pull ε α σ) (s : σ) : Trail ε α where
  value? n := (step (stateAt step n s)).value?
  events n := (step (stateAt step n s)).events

theorem value?_trail (step : σ → Pull ε α σ) (s : σ) (n : ℕ) :
    (trail step s).value? n = (step (stateAt step n s)).value? := rfl

theorem events_trail (step : σ → Pull ε α σ) (s : σ) (n : ℕ) :
    (trail step s).events n = (step (stateAt step n s)).events := rfl

theorem value?_trail_zero (step : σ → Pull ε α σ) (s : σ) :
    (trail step s).value? 0 = (step s).value? := rfl

theorem events_trail_zero (step : σ → Pull ε α σ) (s : σ) :
    (trail step s).events 0 = (step s).events := rfl

/-- One more pull is the last of them. -/
theorem stateAt_succ (step : σ → Pull ε α σ) (n : ℕ) (s : σ) :
    stateAt step (n + 1) s = (step (stateAt step n s)).rest := by
  induction n generalizing s with
  | zero => rfl
  | succ n ih => exact ih (step s).rest

/-- The trail after the first pull is the trail from the state that that pull leaves. -/
theorem tail_trail (step : σ → Pull ε α σ) (s : σ) :
    (trail step s).tail = trail step (step s).rest := rfl

/-- **Establishing a trail.** If an invariant of the state after `n` pulls holds at the beginning,
gives the value and the events of the next pull, and is kept by it, then the machine leaves the
trail it describes. -/
theorem trail_eq {step : σ → Pull ε α σ} {s : σ} {t : Trail ε α} (Inv : ℕ → σ → Prop)
    (hstep : ∀ n s, Inv n s → (step s).value? = t.value? n ∧ (step s).events = t.events n ∧
      Inv (n + 1) (step s).rest) (h0 : Inv 0 s) : trail step s = t := by
  have hinv : ∀ n, Inv n (stateAt step n s) := by
    intro n
    induction n with
    | zero => exact h0
    | succ n ih =>
        rw [stateAt_succ]
        exact (hstep n _ ih).2.2
  ext1 <;> funext n
  · exact (hstep n _ (hinv n)).1
  · exact (hstep n _ (hinv n)).2.1

/-- The trail of a machine that gives nothing and stays where it is. -/
theorem trail_of_done {step : σ → Pull ε α σ} {s : σ} (h : step s = done s) :
    trail step s = Trail.items [] := by
  refine trail_eq (fun _ s' => s' = s) ?_ rfl
  rintro n _ rfl
  rw [h]
  exact ⟨rfl, rfl, rfl⟩

/-- A machine whose states stand for lists, each without its head after a pull, leaves the trail
of the list it begins with. -/
theorem trail_eq_items {step : σ → Pull ε α σ} (view : σ → List α)
    (h : ∀ s, (step s).events = [] ∧ (step s).value? = (view s).head? ∧
      view (step s).rest = (view s).tail) (s : σ) :
    trail step s = Trail.items (view s) := by
  refine trail_eq (fun n s' => view s' = (view s).drop n) ?_ rfl
  intro n s' hs'
  obtain ⟨hevents, hvalue, hview⟩ := h s'
  refine ⟨?_, hevents, ?_⟩
  · rw [hvalue, hs', List.head?_drop]
    rfl
  · rw [hview, hs', List.tail_drop]

/-- A machine that goes from state to state as another one does leaves the trail of its own answers
in those states. -/
theorem trail_of_rest_eq (step : σ → Pull ε α σ) {step' : σ → Pull δ β σ}
    (h : ∀ s, (step' s).rest = (step s).rest) (s : σ) :
    trail step' s = ⟨fun n => (step' (stateAt step n s)).value?,
      fun n => (step' (stateAt step n s)).events⟩ := by
  refine trail_eq (fun n s' => s' = stateAt step n s) ?_ rfl
  rintro n _ rfl
  exact ⟨rfl, rfl, (h _).trans (stateAt_succ step n s).symm⟩

/-- A machine whose states stand for the states of another one leaves the same trail. -/
theorem trail_map_state {step : σ → Pull ε α σ} {step' : τ → Pull ε α τ} {g : σ → τ}
    (h : ∀ s, step' (g s) = (step s).mapState g) (s : σ) :
    trail step' (g s) = trail step s := by
  refine trail_eq (fun n s' => s' = g (stateAt step n s)) ?_ rfl
  rintro n _ rfl
  rw [h, stateAt_succ]
  exact ⟨rfl, rfl, rfl⟩

/-- The answers to `n` pulls are the first `n` entries of the trail. -/
theorem answers_eq (step : σ → Pull ε α σ) (n : ℕ) (s : σ) :
    answers step n s =
      (List.range n).map fun k => ((trail step s).value? k, (trail step s).events k) := by
  induction n generalizing s with
  | zero => rfl
  | succ n ih =>
      rw [List.range_succ_eq_map, List.map_cons, List.map_map, answers, ih]
      rfl

/-! ### Ends of machines -/

/-- A fused machine is where it stays once it has ended. -/
theorem Fused.step_stateAt {step : σ → Pull ε α σ} (h : Fused step) {s : σ} {n : ℕ}
    (hn : (trail step s).value? n = none) :
    step (stateAt step (n + 1) s) = done (stateAt step (n + 1) s) := by
  rw [stateAt_succ]
  exact h _ hn

/-- The state after an end is the state after the next one. -/
theorem Fused.stateAt_succ_eq {step : σ → Pull ε α σ} (h : Fused step) {s : σ} {n : ℕ}
    (hn : (trail step s).value? n = none) :
    stateAt step (n + 1 + 1) s = stateAt step (n + 1) s := by
  rw [stateAt_succ step (n + 1), h.step_stateAt hn]
  rfl

/-- **An end stays an end.** The trail of a fused machine is fused. -/
theorem Fused.trail {step : σ → Pull ε α σ} (h : Fused step) (s : σ) :
    (trail step s).Fused where
  value?_succ n hn := by
    rw [value?_trail, h.step_stateAt hn]
    rfl
  events_succ n hn := by
    rw [events_trail, h.step_stateAt hn]
    rfl

/-- **Fusing a fused machine** changes nothing that can be seen. -/
theorem Fused.trail_fuse {step : σ → Pull ε α σ} (h : Fused step) (s : σ) :
    Pull.trail (fuse step) (some s) = Pull.trail step s := by
  refine trail_eq (fun n rest => rest = some (stateAt step n s) ∨
    rest = none ∧ step (stateAt step n s) = done (stateAt step n s)) ?_ (Or.inl rfl)
  rintro n _ (rfl | ⟨rfl, hdone⟩)
  · refine ⟨rfl, rfl, ?_⟩
    cases hvalue : (step (stateAt step n s)).value? with
    | none =>
        refine Or.inr ⟨?_, h.step_stateAt hvalue⟩
        simp only [fuse, hvalue, Option.map_none]
    | some a =>
        refine Or.inl ?_
        simp only [fuse, hvalue, Option.map_some, stateAt_succ]
  · rw [value?_trail, events_trail, stateAt_succ, hdone]
    exact ⟨rfl, rfl, Or.inr ⟨rfl, hdone⟩⟩

/-- The trail of a machine **up to its first end**. -/
abbrev fusedTrail (step : σ → Pull ε α σ) (s : σ) : Trail ε α :=
  Pull.trail (fuse step) (some s)

/-- Up to its first end every machine leaves a fused trail. -/
theorem fused_fusedTrail (step : σ → Pull ε α σ) (s : σ) : (fusedTrail step s).Fused :=
  (fused_fuse step).trail (some s)

/-- **Changing the answers** keeps a machine fused, if ends stay as they are and there are no new
ones. -/
theorem Fused.comp {step : σ → Pull ε α σ} (h : Fused step) {g : Pull ε α σ → Pull δ β σ}
    (hvalue : ∀ p, (g p).value? = none → p.value? = none) (hrest : ∀ p, (g p).rest = p.rest)
    (hdone : ∀ s, g (done s) = done s) : Fused fun s => g (step s) := by
  intro s hend
  have hstep := h s (hvalue _ hend)
  simp only [hrest, hstep, hdone]

/-- Changing the values keeps a machine fused. -/
theorem Fused.map {step : σ → Pull ε α σ} (h : Fused step) (f : α → β) :
    Fused fun s => (step s).map f :=
  h.comp (fun _ => Option.map_eq_none_iff.1) (fun _ => rfl) fun _ => rfl

/-- Reporting the values keeps a machine fused: without a value there is no report. -/
theorem Fused.tap {step : σ → Pull ε α σ} (h : Fused step) (event : α → ε) :
    Fused fun s => (step s).tap event :=
  h.comp (fun _ => id) (fun _ => rfl) fun _ => rfl

end Pull

/-! ### The trails of simple sources -/

namespace Source

/-- The **trail** of a source. -/
def trail (s : Source ε α) : Trail ε α :=
  Pull.trail s.step s.state

/-- The trail of a source is fused. -/
theorem fused_trail (s : Source ε α) : s.trail.Fused :=
  s.fused.trail s.state

/-- The answers to `n` pulls are the first `n` entries of the trail. -/
theorem answers_eq (s : Source ε α) (n : ℕ) :
    s.answers n = (List.range n).map fun k => (s.trail.value? k, s.trail.events k) :=
  Pull.answers_eq s.step n s.state

/-- The source of a fused machine leaves the trail of the machine. -/
theorem trail_boxed {step : σ → Pull ε α σ} (h : Pull.Fused step) (state : σ) :
    (boxed state step).trail = Pull.trail step state :=
  h.trail_fuse state

/-- Changing the values of a source changes those of its trail. -/
@[simp] theorem trail_map (f : α → β) (s : Source ε α) : (s.map f).trail = s.trail.map f := by
  have hrest : ∀ state, ((s.step state).map f).rest = (s.step state).rest := fun _ => rfl
  rw [map, trail_boxed (s.fused.map f)]
  exact Pull.trail_of_rest_eq s.step hrest s.state

/-- Reporting the values of a source adds an event for each value of its trail. -/
@[simp] theorem trail_tap (event : α → ε) (s : Source ε α) :
    (s.tap event).trail = s.trail.tap event := by
  have hrest : ∀ state, ((s.step state).tap event).rest = (s.step state).rest := fun _ => rfl
  rw [tap, trail_boxed (s.fused.tap event)]
  exact Pull.trail_of_rest_eq s.step hrest s.state

/-- A list of values leaves the trail of these values. -/
@[simp] theorem trail_items (values : List α) :
    (items values : Source ε α).trail = Trail.items values := by
  rw [items, trail_boxed fun vs hend => ?fused]
  case fused =>
    cases vs with
    | nil => rfl
    | cons v vs => cases hend
  refine Pull.trail_eq_items (fun vs : List α => vs) (fun vs => ?_) values
  cases vs <;> exact ⟨rfl, rfl, rfl⟩

/-- Looking for the first number with a value is looking at the head of the list of all values:
what is left to look at holds the others. -/
theorem seek_eq (value? : ℕ → Option α) (first count : ℕ) :
    (seek value? first count = none ∧ (List.range' first count).filterMap value? = []) ∨
      ∃ v first' count', seek value? first count = some (v, first', count') ∧
        (List.range' first count).filterMap value? =
          v :: (List.range' first' count').filterMap value? := by
  induction count generalizing first with
  | zero => exact Or.inl ⟨rfl, rfl⟩
  | succ count ih =>
      rw [List.range'_succ, List.filterMap_cons]
      cases hv : value? first with
      | none =>
          rcases ih (first + 1) with ⟨hs, hl⟩ | ⟨v, first', count', hs, hl⟩
          · exact Or.inl ⟨by rw [seek, hv]; exact hs, hl⟩
          · exact Or.inr ⟨v, first', count', by rw [seek, hv]; exact hs, hl⟩
      | some v => exact Or.inr ⟨v, first + 1, count, by rw [seek, hv], rfl⟩

/-- A range leaves the trail of the values that its numbers have. -/
@[simp] theorem trail_range (value? : ℕ → Option α) (first count : ℕ) :
    (range value? first count : Source ε α).trail =
      Trail.items ((List.range' first count).filterMap value?) := by
  rw [range, trail_boxed fun state hend => ?fused]
  case fused =>
    cases hseek : seek value? state.1 state.2 with
    | none => simp only [hseek, Pull.done]
    | some found => simp only [hseek, Pull.yield, reduceCtorEq] at hend
  refine Pull.trail_eq_items
    (fun state : ℕ × ℕ => (List.range' state.1 state.2).filterMap value?)
    (fun state => ?_) (first, count)
  rcases seek_eq value? state.1 state.2 with ⟨hs, hl⟩ | ⟨v, first', count', hs, hl⟩
  · simp only [hs, hl]
    exact ⟨rfl, rfl, hl⟩
  · simp only [hs, hl]
    exact ⟨rfl, rfl, rfl⟩

/-! ### One source after the other -/

/-- Without machines there is nothing. -/
theorem trail_chain_nil (step : σ → Pull ε α σ) :
    Pull.trail (chain step) [] = Trail.items [] :=
  Pull.trail_of_done rfl

/-- **Chaining.** Machines that are asked one after the other leave the trail of the first and,
from its end on, that of the others. The pull in which the first one ends has the events of
both. -/
theorem trail_chain_cons {step : σ → Pull ε α σ} (hstep : Pull.Fused step) (s : σ) (ss : List σ) :
    Pull.trail (chain step) (s :: ss) =
      (Pull.trail step s).append (Pull.trail (chain step) ss) := by
  refine Trail.ext_tail (fun t u => ∃ s, t = Pull.trail (chain step) (s :: ss) ∧
    u = (Pull.trail step s).append (Pull.trail (chain step) ss)) ?_ ⟨s, rfl, rfl⟩
  rintro _ _ ⟨s, rfl, rfl⟩
  cases hvalue : (step s).value? with
  | none =>
      -- The first machine ends at once, so from here on both sides are the other machines.
      have hend : (Pull.trail step s).value? 0 = none := hvalue
      have hperiod : (Pull.trail step s).period = 0 := by
        have h := ((hstep.trail s).value?_eq_none_iff hend 0).1 hend
        omega
      have hchain : chain step (s :: ss) = (chain step ss).after (step s).events := by
        simp only [chain, hvalue]
      rw [Trail.value?_append, Trail.events_append, hend, hperiod, Pull.value?_trail_zero,
        Pull.events_trail_zero, hchain]
      refine ⟨rfl, rfl, Or.inr ?_⟩
      rw [(hstep.trail s).tail_append _ hend, Pull.tail_trail, hchain]
      rfl
  | some v =>
      have hzero : (Pull.trail step s).value? 0 = some v := hvalue
      have hchain : chain step (s :: ss) =
          { events := (step s).events, value? := some v, rest := (step s).rest :: ss } := by
        simp only [chain, hvalue]
      rw [Trail.tail_append _ (by simp [hzero]), Pull.tail_trail, Pull.tail_trail,
        Trail.value?_append, Trail.events_append, hzero, Pull.value?_trail_zero,
        Pull.events_trail_zero, Pull.events_trail_zero, hchain]
      exact ⟨rfl, (List.append_nil _).symm, Or.inl ⟨_, rfl, rfl⟩⟩

/-- Machines that are asked one after the other are fused: once the last one has ended there is
none to ask. -/
theorem fused_chain (step : σ → Pull ε α σ) : Pull.Fused (chain step) := by
  intro states hend
  have hrest : (chain step states).rest = [] := by
    induction states with
    | nil => rfl
    | cons s ss ih =>
        cases hvalue : (step s).value? with
        | none =>
            simp only [chain, hvalue, Pull.after] at hend ⊢
            exact ih hend
        | some v => simp only [chain, hvalue, reduceCtorEq] at hend
  rw [hrest]
  rfl

end Source

end RegexWords
