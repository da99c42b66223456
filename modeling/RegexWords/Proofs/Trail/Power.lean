import Mathlib.Algebra.BigOperators.Intervals
import RegexWords.Proofs.Trail

/-!
# The Trail of the Repetition

The repetition counts upward in the number of values of its source, first with tuples of one
length, then with longer ones. `place` says where the tuple number `n` stands: in which length,
and at which index among the tuples of that length. The draws of the tuple are the digits of the
index, the last position being the last digit. If the source never ends then the period is `0`,
all tuples have the first length, and only the last position moves.

While it runs the repetition discovers one value for each tuple, until there are no more. So the
base of its counter grows, but the counter never wraps around before the source has ended:
`Tumbler.At` is the invariant that says so. Once the source has ended it is left alone, so any
machine will do, and only its trail up to the first end counts.

## Main results

* `Repetition.increment_digits`: a step of the counter in a fixed base.
* `Repetition.fused_pull`: the repetition is fused, whatever its source does after its end.
* `Tumbler.Asked.increment_counter`: a step of the counter in the base discovered by then.
* `Repetition.trail_pull`: **the closed form of the repetition**, in values and in events.
-/

namespace RegexWords

variable {ε σ α : Type}

/-! ### Counting -/

/-- The last `length` digits of `i` in base `p`, the lowest one first. -/
def digits (p : ℕ) : ℕ → ℕ → List ℕ
  | 0, _ => []
  | length + 1, i => i % p :: digits p length (i / p)

/-- Where the tuple number `n` stands if tuples are counted from those of a given length on: its
length, and its index among the `p ^ length` tuples of that length. In base `0` the tuples of the
first length never end. -/
def place (p length n : ℕ) : ℕ × ℕ :=
  if p = 0 ∨ n < p ^ length then (length, n) else place p (length + 1) (n - p ^ length)
termination_by n
decreasing_by
  have hp : 0 < p ^ length := Nat.pow_pos (by omega)
  omega

/-- The number zero has only zeros. -/
theorem digits_zero (p length : ℕ) : digits p length 0 = List.replicate length 0 := by
  induction length with
  | zero => rfl
  | succ length ih => rw [digits, Nat.zero_mod, Nat.zero_div, ih, List.replicate_succ]

/-- There are as many digits as asked for. -/
@[simp] theorem length_digits (p length i : ℕ) : (digits p length i).length = length := by
  induction length generalizing i with
  | zero => rfl
  | succ length ih => rw [digits, List.length_cons, ih]

/-- A tuple of the first length stands there. -/
theorem place_of_lt {p length n : ℕ} (h : p = 0 ∨ n < p ^ length) :
    place p length n = (length, n) := by
  rw [place, if_pos h]

/-- A tuple after those of the first length stands among the longer ones. -/
theorem place_of_le {p length n : ℕ} (hp : 0 < p) (h : p ^ length ≤ n) :
    place p length n = place p (length + 1) (n - p ^ length) := by
  rw [place, if_neg (by omega)]

/-- An index is one of those that its length has. -/
theorem place_lt (p length n : ℕ) (hp : 0 < p) :
    (place p length n).2 < p ^ (place p length n).1 := by
  induction length, n using place.induct (p := p) with
  | case1 length n h =>
      rw [place_of_lt h]
      exact h.resolve_left hp.ne'
  | case2 length n h ih =>
      rw [place_of_le hp (by omega)]
      exact ih

/-- The next tuple has the next index, or it is the first one of the next length. -/
theorem place_succ (p length n : ℕ) :
    place p length (n + 1) =
      if p = 0 ∨ (place p length n).2 + 1 < p ^ (place p length n).1 then
        ((place p length n).1, (place p length n).2 + 1)
      else ((place p length n).1 + 1, 0) := by
  induction length, n using place.induct (p := p) with
  | case1 length n h =>
      rw [place_of_lt h]
      by_cases hnext : p = 0 ∨ n + 1 < p ^ length
      · rw [if_pos hnext, place_of_lt hnext]
      · have hp : 0 < p := by omega
        have hsub : n + 1 - p ^ length = 0 := by omega
        rw [if_neg hnext, place_of_le hp (by omega), hsub,
          place_of_lt (Or.inr (Nat.pow_pos hp))]
  | case2 length n h ih =>
      have hp : 0 < p := by omega
      have hsub : n + 1 - p ^ length = n - p ^ length + 1 := by omega
      rw [place_of_le hp (n := n) (by omega), place_of_le hp (by omega), hsub]
      exact ih

/-- The tuples of a length come after all shorter ones, index by index. -/
theorem place_sum_add {p length k i : ℕ} (hk : length ≤ k) (hi : i < p ^ k) :
    place p length (∑ j ∈ Finset.Ico length k, p ^ j + i) = (k, i) := by
  obtain ⟨d, rfl⟩ := Nat.exists_eq_add_of_le hk
  induction d generalizing length with
  | zero =>
      rw [Nat.add_zero, Finset.Ico_self, Finset.sum_empty, Nat.zero_add]
      exact place_of_lt (Or.inr hi)
  | succ d ih =>
      have hp : 0 < p := by
        rcases Nat.eq_zero_or_pos p with rfl | hp
        · simp at hi
        · exact hp
      have hnext : length + (d + 1) = length + 1 + d := by omega
      rw [Finset.sum_eq_sum_Ico_succ_bot (by omega), Nat.add_assoc, place_of_le hp (by omega),
        Nat.add_sub_cancel_left]
      rw [hnext] at hi ⊢
      exact ih (by omega) hi

/-- Every place from the first length on comes up. -/
theorem exists_place_eq {p length k i : ℕ} (hk : length ≤ k) (hi : i < p ^ k) :
    ∃ n, place p length n = (k, i) :=
  ⟨_, place_sum_add hk hi⟩

/-- The lengths do not go down. -/
theorem place_fst_mono (p length : ℕ) {m n : ℕ} (h : m ≤ n) :
    (place p length m).1 ≤ (place p length n).1 := by
  induction n, h using Nat.le_induction with
  | base => exact le_refl _
  | succ n _ ih =>
      rw [place_succ]
      split
      · exact ih
      · exact Nat.le_succ_of_le ih

/-- The first tuple has the first length. -/
@[simp] theorem place_zero (p length : ℕ) : place p length 0 = (length, 0) := by
  apply place_of_lt
  rcases Nat.eq_zero_or_pos p with hp | hp
  · exact Or.inl hp
  · exact Or.inr (Nat.pow_pos hp)

/-- The tuples have come to a length once there were all shorter ones. -/
theorem le_place_fst_iff {p length k : ℕ} (hp : 0 < p) (hk : length ≤ k) (n : ℕ) :
    k ≤ (place p length n).1 ↔ ∑ j ∈ Finset.Ico length k, p ^ j ≤ n := by
  induction length, n using place.induct (p := p) with
  | case1 length n h =>
      rw [place_of_lt h]
      rcases Nat.eq_or_lt_of_le hk with rfl | hlt
      · simp
      · rw [Finset.sum_eq_sum_Ico_succ_bot hlt]
        omega
  | case2 length n h ih =>
      rw [place_of_le hp (by omega)]
      rcases Nat.eq_or_lt_of_le hk with rfl | hlt
      · have hmono := place_fst_mono p (length + 1) (Nat.zero_le (n - p ^ length))
        rw [place_zero] at hmono
        simp only [Finset.Ico_self, Finset.sum_empty, Nat.zero_le, iff_true]
        exact Nat.le_of_succ_le hmono
      · rw [ih hlt, Finset.sum_eq_sum_Ico_succ_bot hlt]
        omega

/-! ### The closed form -/

/-- A length is too long if it exceeds the greatest allowed one. -/
theorem Repetition.tooLong_iff {max : Option ℕ} {k : ℕ} :
    Repetition.tooLong max k ↔ ∃ m ∈ max, m < k := by
  cases max <;> simp [Repetition.tooLong]

/-- A length is allowed if it does not exceed the greatest allowed one. -/
theorem Repetition.not_tooLong_iff {max : Option ℕ} {k : ℕ} :
    ¬ Repetition.tooLong max k ↔ ∀ m ∈ max, k ≤ m := by
  cases max <;> simp [Repetition.tooLong]

theorem Repetition.tooLong_some {m k : ℕ} : Repetition.tooLong (some m) k ↔ m < k := by
  simp [Repetition.tooLong]

/-- What is longer than something too long is too long. -/
theorem Repetition.tooLong_mono {max : Option ℕ} {k l : ℕ} (h : k ≤ l)
    (hk : Repetition.tooLong max k) : Repetition.tooLong max l := by
  obtain ⟨m, hm, hlt⟩ := Repetition.tooLong_iff.1 hk
  exact Repetition.tooLong_iff.2 ⟨m, hm, Nat.lt_of_lt_of_le hlt h⟩

namespace Trail

/-- The draw from a slot of a trail. -/
def draw? (t : Trail ε α) (slot : ℕ) : Option (Draw α) :=
  (t.value? slot).map (Draw.mk slot)

/-- The draws of the tuple at an index among those of a length. -/
noncomputable def draws? (t : Trail ε α) (place : ℕ × ℕ) : Option (List (Draw α)) :=
  (digits t.period place.1 place.2).reverse.mapM t.draw?

/-- The tuples of draws, of a given length that is not `0` and of the longer ones up to `max`. -/
noncomputable def lengths (length : ℕ) (max : Option ℕ) (t : Trail ε α) :
    Trail ε (List (Draw α)) where
  value? n :=
    if Repetition.tooLong max (place t.period length n).1 then none
    else t.draws? (place t.period length n)
  events n :=
    if Repetition.tooLong max (place t.period length (n - 1)).1 ∨ n ≠ 0 ∧ t.value? 0 = none then []
    else t.events n

theorem value?_lengths (length : ℕ) (max : Option ℕ) (t : Trail ε α) (n : ℕ) :
    (lengths length max t).value? n =
      if Repetition.tooLong max (place t.period length n).1 then none
      else t.draws? (place t.period length n) := rfl

/-- A trail with one more value in front, which has no events. -/
def prepend (value : α) (t : Trail ε α) : Trail ε α where
  value?
    | 0 => some value
    | n + 1 => t.value? n
  events
    | 0 => []
    | n + 1 => t.events n

/-- The trail of the **power** of a trail: the empty tuple, if it is allowed, and the tuples of
every longer length up to `max`. -/
noncomputable def power : (min : ℕ) → (max : Option ℕ) → Trail ε α → Trail ε (List (Draw α))
  | 0, max, t => prepend [] (lengths 1 max t)
  | min + 1, max, t => lengths (min + 1) max t

/-- Drawing fails exactly if some draw does. -/
theorem mapM_eq_none_iff {β γ : Type} {g : β → Option γ} {l : List β} :
    l.mapM g = none ↔ ∃ b ∈ l, g b = none := by
  induction l with
  | nil => simp
  | cons b l ih =>
      cases hb : g b with
      | none => simp [hb]
      | some c => cases hl : l.mapM g <;> simp [hb, ← ih, hl]

/-- Every digit of a tuple is a slot of a trail that has values. -/
theorem Fused.value?_digits_ne_none {t : Trail ε α} (ht : t.Fused) (h0 : t.value? 0 ≠ none)
    (length i : ℕ) : ∀ j ∈ digits t.period length i, t.value? j ≠ none := by
  induction length generalizing i with
  | zero => simp [digits]
  | succ length ih =>
      intro j hj
      rw [digits, List.mem_cons] at hj
      rcases hj with rfl | hj
      · exact ht.value?_mod_period_ne_none h0 i
      · exact ih (i / t.period) j hj

/-- A tuple is missing exactly if it is too long or there is nothing to draw. -/
theorem Fused.value?_lengths_eq_none_iff {t : Trail ε α} (ht : t.Fused) {length : ℕ}
    (hlength : 0 < length) (max : Option ℕ) (n : ℕ) :
    (lengths length max t).value? n = none ↔
      Repetition.tooLong max (place t.period length n).1 ∨ t.value? 0 = none := by
  obtain ⟨l, rfl⟩ : ∃ l, length = l + 1 := ⟨length - 1, by omega⟩
  by_cases hlong : Repetition.tooLong max (place t.period (l + 1) n).1
  · simp [lengths, hlong]
  · have hnone : t.draws? (place t.period (l + 1) n) = none ↔ t.value? 0 = none := by
      simp only [draws?, mapM_eq_none_iff, List.mem_reverse, draw?, Option.map_eq_none_iff]
      constructor
      · rintro ⟨j, hj, hvalue⟩
        by_contra h0
        exact ht.value?_digits_ne_none h0 _ _ j hj hvalue
      · intro h0
        -- Without values the period is `0`, so the lowest digit is the index itself.
        have hperiod : t.period = 0 := by
          have h := (ht.value?_eq_none_iff h0 0).1 h0
          omega
        refine ⟨n, ?_, ht.value?_eq_none (Nat.zero_le n) h0⟩
        rw [place_of_lt (Or.inl hperiod), hperiod, digits, Nat.mod_zero]
        exact List.mem_cons_self
    simp [lengths, hlong, hnone]

/-- The tuples of increasing length are fused. -/
theorem Fused.lengths {t : Trail ε α} (ht : t.Fused) {length : ℕ} (hlength : 0 < length)
    (max : Option ℕ) : (lengths length max t).Fused where
  value?_succ n h := by
    rw [ht.value?_lengths_eq_none_iff hlength] at h ⊢
    rcases h with hlong | h0
    · exact Or.inl (Repetition.tooLong_mono (place_fst_mono _ _ (Nat.le_succ n)) hlong)
    · exact Or.inr h0
  events_succ n h := by
    rw [ht.value?_lengths_eq_none_iff hlength] at h
    refine if_pos ?_
    rcases h with hlong | h0
    · exact Or.inl hlong
    · exact Or.inr ⟨Nat.succ_ne_zero n, h0⟩

end Trail

namespace Repetition

/-- **A step of the counter** in a fixed base goes to the digits of the next number, or wraps
around if there are not enough digits for it. -/
theorem increment_digits {p length i : ℕ} (hi : i < p ^ length) :
    increment p (digits p length i) =
      if i + 1 < p ^ length then some (digits p length (i + 1)) else none := by
  induction length generalizing i with
  | zero =>
      rw [pow_zero] at hi ⊢
      rw [if_neg (by omega)]
      rfl
  | succ length ih =>
      have hp : 0 < p := by
        rcases Nat.eq_zero_or_pos p with rfl | hp
        · simp at hi
        · exact hp
      have hdiv : i / p < p ^ length := by
        rw [Nat.div_lt_iff_lt_mul hp, ← pow_succ]
        exact hi
      rw [digits, increment, digits]
      by_cases hmod : (i + 1) % p = 0
      · -- The lowest digit wraps around, so the others go one step further.
        have hlast := Trail.mod_add_one_eq hmod
        have hsucc : (i + 1) / p = i / p + 1 := Nat.succ_div_of_mod_eq_zero hmod
        have hiff : i + 1 < p ^ (length + 1) ↔ i / p + 1 < p ^ length := by
          rw [← hsucc, Nat.div_lt_iff_lt_mul hp, ← pow_succ]
        rw [if_neg (by omega), ih hdiv, hmod, hsucc]
        by_cases hnext : i / p + 1 < p ^ length
        · rw [if_pos hnext, if_pos (hiff.2 hnext)]
          rfl
        · rw [if_neg hnext, if_neg (fun h => hnext (hiff.1 h))]
          rfl
      · have hnext : i + 1 < p ^ (length + 1) := by
          refine lt_of_le_of_ne hi fun heq => hmod ?_
          have hdvd : p ∣ i + 1 := heq ▸ dvd_pow_self p (Nat.succ_ne_zero length)
          exact Nat.mod_eq_zero_of_dvd hdvd
        rw [← Trail.succ_mod_eq hmod, if_pos (Nat.mod_lt _ hp), if_pos hnext,
          Nat.succ_div_of_mod_ne_zero hmod]

end Repetition

/-! ### The run -/

/-- What is left of the source of a tumbler; nothing once it has ended. -/
def Tumbler.remaining (t : Tumbler σ α) : Option σ :=
  if t.drained then none else some t.source

/-- A tumbler over the source `s` whose counter **stands** at the tuple number `n`, counted from
those of a given length on, and which has discovered the values up to number `newest`. -/
structure Tumbler.Stands (step : σ → Pull ε α σ) (s : σ) (length newest n : ℕ)
    (t : Tumbler σ α) : Prop where
  remaining_eq : t.remaining = Pull.stateAt (Pull.fuse step) (newest + 1) (some s)
  discovered : (Pull.fusedTrail step s).Discovered newest t.values
  counter_eq : t.counter =
    digits (Pull.fusedTrail step s).period
      (place (Pull.fusedTrail step s).period length n).1
      (place (Pull.fusedTrail step s).period length n).2

/-- The tumbler over `s` after `n` further tuples: it has discovered one value for each of them,
as far as there are any. -/
abbrev Tumbler.At (step : σ → Pull ε α σ) (s : σ) (length n : ℕ) (t : Tumbler σ α) : Prop :=
  t.Stands step s length n n

/-- The tumbler over `s` that has asked for its next value and not yet moved its counter. -/
abbrev Tumbler.Asked (step : σ → Pull ε α σ) (s : σ) (length n : ℕ) (t : Tumbler σ α) : Prop :=
  t.Stands step s length (n + 1) n

/-- Drawing from slots that all have a value. -/
theorem mapM_eq_some_pmap {β γ : Type} {g : β → Option γ} {p : β → Prop} {f : ∀ b, p b → γ}
    (hf : ∀ b h, g b = some (f b h)) (l : List β) (hl : ∀ b ∈ l, p b) :
    l.mapM g = some (l.pmap f hl) := by
  induction l with
  | nil => rfl
  | cons b l ih =>
      have hrest := ih fun c hc => hl c (List.mem_cons_of_mem b hc)
      simp [hf b (hl b List.mem_cons_self), hrest]

/-- A tuple of a trail that still has new values has the first length. -/
theorem place_of_value? {t : Trail ε α} (ht : t.Fused) {length n : ℕ} (hn : t.value? n ≠ none)
    (hlength : 0 < length) : place t.period length n = (length, n) := by
  apply place_of_lt
  rcases Nat.eq_zero_or_pos t.period with hp | hp
  · exact Or.inl hp
  · have hlt : n < t.period := (ht.mod_period_eq hn).1 ▸ Nat.mod_lt n hp
    exact Or.inr (lt_of_lt_of_le hlt (Nat.le_self_pow hlength.ne' _))

/-- A counter that does not wrap around gives the next tuple of its length. -/
theorem Repetition.advance_of_some {t : Tumbler σ α} {counter : List ℕ}
    (h : Repetition.increment t.values.size t.counter = some counter) (events : List ε)
    (max : Option ℕ) :
    Repetition.advance events max t = Repetition.yield events
      { t with
        counter
        counter_lt := Repetition.lt_of_mem_increment t.nonempty t.counter_lt h } := by
  unfold Repetition.advance
  split
  · next counter' h' =>
    obtain rfl : counter' = counter := Option.some.inj (h'.symm.trans h)
    rfl
  · next h' => rw [h] at h'; cases h'

/-- A counter that wraps around gives the first tuple of the next length. -/
theorem Repetition.advance_of_none {t : Tumbler σ α}
    (h : Repetition.increment t.values.size t.counter = none) (events : List ε)
    (max : Option ℕ) :
    Repetition.advance events max t =
      Repetition.start events max t (t.counter.length + 1) := by
  unfold Repetition.advance
  split
  · next h' => rw [h] at h'; cases h'
  · rfl

namespace Tumbler

variable {step : σ → Pull ε α σ} {s : σ} {length n : ℕ} {t : Tumbler σ α}

/-- The source of a tumbler has a first value. -/
theorem At.value?_zero (h : t.At step s length n) : (Pull.fusedTrail step s).value? 0 ≠ none :=
  h.discovered.value?_zero t.nonempty

/-- The tuple at which a tumbler stands. -/
theorem At.draws?_eq (h : t.At step s length n) :
    (Pull.fusedTrail step s).draws? (place (Pull.fusedTrail step s).period length n) =
      some t.draws := by
  rw [Trail.draws?, ← h.counter_eq, Tumbler.draws]
  apply mapM_eq_some_pmap
  intro i hi
  have hget : t.values[i]? = some t.values[i] := Array.getElem?_eq_getElem hi
  rw [h.discovered i] at hget
  split at hget
  · rw [Trail.draw?, hget]
    rfl
  · simp at hget

/-- Starting a length stands at the first tuple of that length. -/
theorem At.restart {k : ℕ}
    (hremaining : t.remaining = Pull.stateAt (Pull.fuse step) (n + 1) (some s))
    (hdiscovered : (Pull.fusedTrail step s).Discovered n t.values)
    (hplace : place (Pull.fusedTrail step s).period length n = (k, 0)) :
    (t.restart k).At step s length n := by
  refine ⟨hremaining, hdiscovered, ?_⟩
  rw [hplace, digits_zero]
  rfl

/-- A pull of a running repetition asks for the next value, unless there are no more, and then
moves the counter. -/
theorem At.pull_running (h : t.At step s length n) (max : Option ℕ) :
    ∃ t', t'.Asked step s length n ∧ Repetition.pull step max (.running t) =
      Repetition.advance ((Pull.fusedTrail step s).events (n + 1)) max t' := by
  have hfused := Pull.fused_fusedTrail step s
  obtain ⟨source, drained, values, nonempty, counter, counter_lt⟩ := t
  have hvalue : (Pull.fusedTrail step s).value? (n + 1) = _ :=
    congrArg (fun rest => (Pull.fuse step rest).value?) h.remaining_eq.symm
  have hevents : (Pull.fusedTrail step s).events (n + 1) = _ :=
    congrArg (fun rest => (Pull.fuse step rest).events) h.remaining_eq.symm
  have hrest : Pull.stateAt (Pull.fuse step) (n + 1 + 1) (some s) = _ :=
    (Pull.stateAt_succ _ _ _).trans
      (congrArg (fun rest => (Pull.fuse step rest).rest) h.remaining_eq.symm)
  cases drained with
  | true =>
      -- the source has ended before, and is left alone
      refine ⟨⟨source, true, values, nonempty, counter, counter_lt⟩,
        ⟨hrest.symm, h.discovered.succ hvalue, h.counter_eq⟩, ?_⟩
      rw [hevents]
      rfl
  | false =>
      cases hnext : (step source).value? with
      | none =>
          have hend : (Pull.fusedTrail step s).value? (n + 1) = none := hvalue.trans hnext
          refine ⟨⟨(step source).rest, true, values, nonempty, counter, counter_lt⟩,
            ⟨?_, h.discovered.succ hend, h.counter_eq⟩, ?_⟩
          · rw [hrest]
            simp [remaining, Pull.fuse, hnext]
          · rw [hevents]
            simp only [Repetition.pull, hnext]
            rfl
      | some v =>
          have hnew : (Pull.fusedTrail step s).value? (n + 1) = some v := hvalue.trans hnext
          refine ⟨Tumbler.push ⟨(step source).rest, false, values, nonempty, counter, counter_lt⟩ v,
            ⟨?_, h.discovered.push hfused hnew, h.counter_eq⟩, ?_⟩
          · rw [hrest]
            simp [remaining, push, Pull.fuse, hnext]
          · rw [hevents]
            simp only [Repetition.pull, hnext]
            rfl

/-- **The step of the counter.** In the base of the values discovered by then, the counter goes to
the place of the next tuple, and it wraps around exactly if that tuple is the first one of a new
length. Then there are no more values. -/
theorem Asked.increment_counter (h : t.Asked step s length n) (hlength : 0 < length) :
    (Repetition.increment t.values.size t.counter =
        some (digits (Pull.fusedTrail step s).period
          (place (Pull.fusedTrail step s).period length (n + 1)).1
          (place (Pull.fusedTrail step s).period length (n + 1)).2) ∧
      (place (Pull.fusedTrail step s).period length (n + 1)).1 =
        (place (Pull.fusedTrail step s).period length n).1) ∨
    (Repetition.increment t.values.size t.counter = none ∧
      place (Pull.fusedTrail step s).period length (n + 1) = (t.counter.length + 1, 0) ∧
      (Pull.fusedTrail step s).value? (n + 1) = none) := by
  have hfused := Pull.fused_fusedTrail step s
  have hcounter := h.counter_eq
  by_cases hnew : (Pull.fusedTrail step s).value? (n + 1) = none
  · -- All values are discovered, so the base is the period.
    have hsize := h.discovered.size_eq_period hfused (hfused.value?_succ _ hnew)
    have hperiod : 0 < (Pull.fusedTrail step s).period := hsize ▸ t.nonempty
    have hlt := place_lt _ length n hperiod
    rw [hcounter, hsize, Repetition.increment_digits hlt, length_digits, place_succ]
    by_cases hnext : (place (Pull.fusedTrail step s).period length n).2 + 1 <
        (Pull.fusedTrail step s).period ^ (place (Pull.fusedTrail step s).period length n).1
    · exact Or.inl ⟨by rw [if_pos hnext, if_pos (Or.inr hnext)], by rw [if_pos (Or.inr hnext)]⟩
    · have hstop : ¬ ((Pull.fusedTrail step s).period = 0 ∨ _) := not_or.2 ⟨hperiod.ne', hnext⟩
      exact Or.inr ⟨if_neg hnext, if_neg hstop, hnew⟩
  · -- Only the lowest position has moved so far, and it stands at the newest value but one.
    have hmod := hfused.mod_period_eq hnew
    have hmod' := hfused.mod_period_eq (n := n) fun hc => hnew (hfused.value?_succ n hc)
    have hsize := h.discovered.size_eq hnew
    obtain ⟨l, rfl⟩ : ∃ l, length = l + 1 := ⟨length - 1, by omega⟩
    have hplace := place_of_value? hfused hnew hlength
    have hplace' := place_of_value? hfused (fun hc => hnew (hfused.value?_succ n hc)) hlength
    rw [hcounter, hsize, hplace, hplace']
    refine Or.inl ⟨?_, rfl⟩
    rw [digits, digits, hmod.1, hmod.2, hmod'.1, hmod'.2, Repetition.increment, if_pos (by omega)]

/-- Once the tumbler has asked, the repetition goes to the next tuple, or it ends if that tuple is
too long, and then there are no more values either. -/
theorem Asked.advance_eq (h : t.Asked step s length n) (hlength : 0 < length) {max : Option ℕ}
    (hfits : ¬ Repetition.tooLong max (place (Pull.fusedTrail step s).period length n).1)
    (events : List ε) :
    if Repetition.tooLong max (place (Pull.fusedTrail step s).period length (n + 1)).1 then
      (Pull.fusedTrail step s).value? (n + 1) = none ∧
        Repetition.advance events max t = { events, value? := none, rest := .ended t.values }
    else ∃ t', t'.At step s length (n + 1) ∧
      Repetition.advance events max t = Repetition.yield events t' := by
  rcases h.increment_counter hlength with ⟨hincrement, hsame⟩ | ⟨hincrement, hplace, hend⟩
  · rw [hsame, if_neg hfits, Repetition.advance_of_some hincrement]
    refine ⟨_, ?_, rfl⟩
    exact ⟨h.remaining_eq, h.discovered, rfl⟩
  · rw [Repetition.advance_of_none hincrement, hplace, Repetition.start]
    split
    · exact ⟨hend, rfl⟩
    · exact ⟨_, At.restart h.remaining_eq h.discovered hplace, rfl⟩

end Tumbler

/-! ### Ends -/

namespace Repetition

/-- A length that is too long is the end. -/
theorem exists_ended_of_start {events : List ε} {max : Option ℕ} {t : Tumbler σ α} {k : ℕ}
    (h : (start events max t k).value? = none) :
    ∃ values, (start events max t k).rest = ended values := by
  unfold start at h ⊢
  split at h
  · next hlong => exact ⟨t.values, by rw [if_pos hlong]⟩
  · cases h

/-- A counter without a further tuple is at the end. -/
theorem exists_ended_of_advance {events : List ε} {max : Option ℕ} {t : Tumbler σ α}
    (h : (advance events max t).value? = none) :
    ∃ values, (advance events max t).rest = ended values := by
  cases hincrement : increment t.values.size t.counter with
  | some counter =>
      rw [advance_of_some hincrement] at h
      cases h
  | none =>
      rw [advance_of_none hincrement] at h ⊢
      exact exists_ended_of_start h

/-- A pull without a tuple leaves the end. -/
theorem exists_ended_of_pull {step : σ → Pull ε α σ} {max : Option ℕ} {r : Repetition σ α}
    (h : (pull step max r).value? = none) : ∃ values, (pull step max r).rest = ended values := by
  cases r with
  | waiting source length =>
      cases length with
      | zero => cases h
      | succ length =>
          simp only [pull] at h ⊢
          split at h
          · next hlong => exact ⟨#[], by rw [if_pos hlong]; rfl⟩
          · next hfits =>
            rw [if_neg hfits]
            cases hvalue : (step source).value? with
            | none => exact ⟨#[], rfl⟩
            | some v =>
                rw [hvalue] at h
                exact exists_ended_of_start h
  | running t =>
      obtain ⟨source, drained, values, nonempty, counter, counter_lt⟩ := t
      cases drained with
      | true => exact exists_ended_of_advance h
      | false =>
          simp only [pull] at h ⊢
          cases hvalue : (step source).value? with
          | none =>
              rw [hvalue] at h
              exact exists_ended_of_advance h
          | some v =>
              rw [hvalue] at h
              exact exists_ended_of_advance h
  | ended values => exact ⟨values, rfl⟩

/-- **The repetition is fused**, even over a machine that goes on after its end: at its own end it
has forgotten it. -/
theorem fused_pull (step : σ → Pull ε α σ) (max : Option ℕ) : Pull.Fused (pull step max) := by
  intro r hend
  obtain ⟨values, hrest⟩ := exists_ended_of_pull hend
  rw [hrest]
  rfl

/-! ### The whole run -/

variable {step : σ → Pull ε α σ} {s : σ} {length n : ℕ} {max : Option ℕ}

/-- The state of a repetition after `n` pulls: it still waits to start, or there is the tumbler of
the last tuple, which was not too long, or the tuples have ended. As many values are known at the
end as there are, but none if there was no tuple to draw them for. -/
inductive Left (step : σ → Pull ε α σ) (s : σ) (length : ℕ) (max : Option ℕ) :
    ℕ → Repetition σ α → Prop
  | fresh : Left step s length max 0 (waiting s length)
  | tumbler {n : ℕ} {t : Tumbler σ α} :
      t.At step s length n →
      ¬ tooLong max (place (Pull.fusedTrail step s).period length n).1 →
      Left step s length max (n + 1) (running t)
  | ended {n : ℕ} {values : Array α} :
      (Trail.lengths length max (Pull.fusedTrail step s)).value? n = none →
      (∀ k, values.size ≤ k ↔ (Pull.fusedTrail step s).value? k = none ∨
        (Trail.lengths length max (Pull.fusedTrail step s)).value? k = none) →
      Left step s length max (n + 1) (ended values)

/-- Yielding the tuple at which a tumbler stands is the pull that the closed form has there. -/
theorem yield_eq {t : Tumbler σ α} (h : t.At step s length n)
    (hfits : ¬ tooLong max (place (Pull.fusedTrail step s).period length n).1)
    (events : List ε) :
    (yield events t).value? =
        (Trail.lengths length max (Pull.fusedTrail step s)).value? n ∧
      Left step s length max (n + 1) (yield events t).rest := by
  refine ⟨?_, Left.tumbler h hfits⟩
  simp only [Trail.lengths, if_neg hfits, h.draws?_eq]
  rfl

/-- Without a first tuple there is nothing, and nothing is known. -/
theorem Left.ended_of_zero
    (hend : (Trail.lengths length max (Pull.fusedTrail step s)).value? 0 = none)
    (hlength : 0 < length) : Left step s length max 1 (Repetition.ended #[]) := by
  have hfused := (Pull.fused_fusedTrail step s).lengths hlength max
  refine .ended hend fun k => ?_
  simp only [List.size_toArray, List.length_nil, Nat.zero_le, true_iff]
  exact Or.inr (hfused.value?_eq_none (Nat.zero_le k) hend)

/-- The first pull of a repetition that has to draw something. -/
theorem pull_waiting (step : σ → Pull ε α σ) (s : σ) (hlength : 0 < length) (max : Option ℕ) :
    (pull step max (waiting s length)).value? =
        (Trail.lengths length max (Pull.fusedTrail step s)).value? 0 ∧
      (pull step max (waiting s length)).events =
        (Trail.lengths length max (Pull.fusedTrail step s)).events 0 ∧
      Left step s length max 1 (pull step max (waiting s length)).rest := by
  have hiff := (Pull.fused_fusedTrail step s).value?_lengths_eq_none_iff hlength max 0
  rw [place_zero] at hiff
  obtain ⟨l, rfl⟩ : ∃ l, length = l + 1 := ⟨length - 1, by omega⟩
  by_cases hlong : tooLong max (l + 1)
  · have hend := hiff.2 (Or.inl hlong)
    have hpull : pull step max (waiting s (l + 1)) = .done (ended #[]) := by
      simp only [pull, if_pos hlong]
    rw [hpull, hend]
    refine ⟨rfl, ?_, Left.ended_of_zero hend hlength⟩
    simp [Trail.lengths, hlong, Pull.done]
  · have hevents : (Trail.lengths (l + 1) max (Pull.fusedTrail step s)).events 0 =
        (step s).events := by
      simp [Trail.lengths, hlong]
      rfl
    rw [hevents]
    cases hvalue : (step s).value? with
    | none =>
        have h0 : (Pull.fusedTrail step s).value? 0 = none := hvalue
        have hend := hiff.2 (Or.inr h0)
        have hpull : pull step max (waiting s (l + 1)) =
            { events := (step s).events, value? := none, rest := ended #[] } := by
          simp only [pull, if_neg hlong, hvalue]
        rw [hpull, hend]
        exact ⟨rfl, rfl, Left.ended_of_zero hend hlength⟩
    | some v =>
        have h0 : (Pull.fusedTrail step s).value? 0 = some v := hvalue
        have hpull : pull step max (waiting s (l + 1)) =
            yield (step s).events ((Tumbler.first v (step s).rest).restart (l + 1)) := by
          simp only [pull, if_neg hlong, hvalue, start]
        have hremaining : (Tumbler.first v (step s).rest).remaining =
            Pull.stateAt (Pull.fuse step) 1 (some s) := by
          simp [Tumbler.remaining, Tumbler.first, Pull.stateAt, Pull.fuse, hvalue]
        have hat := Tumbler.At.restart hremaining (Trail.Discovered.single h0)
          (place_zero _ (l + 1))
        have hfits : ¬ tooLong max (place (Pull.fusedTrail step s).period (l + 1) 0).1 := by
          rwa [place_zero]
        rw [hpull]
        obtain ⟨hyield, hleft⟩ := yield_eq hat hfits (step s).events
        exact ⟨hyield, rfl, hleft⟩

/-- A tumbler after whose last value the tuples end knows all values. -/
theorem Left.ended_of_discovered {values : Array α} (hlength : 0 < length)
    (hvalues : (Pull.fusedTrail step s).Discovered (n + 1) values)
    (hdrained : (Pull.fusedTrail step s).value? (n + 1) = none)
    (hlast : (Trail.lengths length max (Pull.fusedTrail step s)).value? n ≠ none)
    (hend : (Trail.lengths length max (Pull.fusedTrail step s)).value? (n + 1) = none) :
    Left step s length max (n + 2) (Repetition.ended values) := by
  have hfused := Pull.fused_fusedTrail step s
  refine .ended hend fun k => ?_
  rw [← Array.getElem?_eq_none_iff, hvalues k]
  constructor
  · intro hk
    left
    split at hk
    · exact hk
    · exact hfused.value?_eq_none (by omega) hdrained
  · rintro (hk | hk)
    · rw [hk, ite_self]
    · have hlt : n < k := by
        by_contra hc
        exact hlast ((hfused.lengths hlength max).value?_eq_none (by omega) hk)
      rw [hfused.value?_eq_none hlt hdrained, ite_self]

/-- A later pull of a repetition. -/
theorem pull_running {t : Tumbler σ α} (h : t.At step s length n) (hlength : 0 < length)
    (hfits : ¬ tooLong max (place (Pull.fusedTrail step s).period length n).1) :
    (pull step max (running t)).value? =
        (Trail.lengths length max (Pull.fusedTrail step s)).value? (n + 1) ∧
      (pull step max (running t)).events =
        (Trail.lengths length max (Pull.fusedTrail step s)).events (n + 1) ∧
      Left step s length max (n + 2) (pull step max (running t)).rest := by
  have hiff := (Pull.fused_fusedTrail step s).value?_lengths_eq_none_iff hlength max
  have hevents : (Trail.lengths length max (Pull.fusedTrail step s)).events (n + 1) =
      (Pull.fusedTrail step s).events (n + 1) := by
    refine if_neg ?_
    simpa [hfits] using h.value?_zero
  obtain ⟨t', hasked, hpull⟩ := h.pull_running max
  have hadvance := hasked.advance_eq hlength hfits ((Pull.fusedTrail step s).events (n + 1))
  rw [hpull, hevents]
  split at hadvance
  · next hlong =>
    obtain ⟨hdrained, hended⟩ := hadvance
    have hend := (hiff (n + 1)).2 (Or.inl hlong)
    have hlast := (hiff n).not.2 (not_or.2 ⟨hfits, h.value?_zero⟩)
    rw [hended, hend]
    exact ⟨rfl, rfl, Left.ended_of_discovered hlength hasked.discovered hdrained hlast hend⟩
  · next hfits' =>
    obtain ⟨t'', hat, hyield⟩ := hadvance
    rw [hyield]
    obtain ⟨hvalue, hleft⟩ := yield_eq hat hfits' ((Pull.fusedTrail step s).events (n + 1))
    exact ⟨hvalue, rfl, hleft⟩

/-- **One more pull** of a repetition is the pull that the closed form has there. -/
theorem Left.pull_eq {r : Repetition σ α} (h : Left step s length max n r)
    (hlength : 0 < length) :
    (pull step max r).value? =
        (Trail.lengths length max (Pull.fusedTrail step s)).value? n ∧
      (pull step max r).events =
        (Trail.lengths length max (Pull.fusedTrail step s)).events n ∧
      Left step s length max (n + 1) (pull step max r).rest := by
  have hfused := (Pull.fused_fusedTrail step s).lengths hlength max
  cases h with
  | fresh => exact pull_waiting step s hlength max
  | tumbler hat hfits => exact pull_running hat hlength hfits
  | ended hend hvalues =>
      exact ⟨(hfused.value?_succ _ hend).symm, (hfused.events_succ _ hend).symm,
        .ended (hfused.value?_succ _ hend) hvalues⟩

/-- The run of a repetition that has to draw something. -/
theorem trail_waiting (step : σ → Pull ε α σ) (s : σ) (hlength : 0 < length) (max : Option ℕ) :
    Pull.trail (pull step max) (waiting s length) =
      Trail.lengths length max (Pull.fusedTrail step s) :=
  Pull.trail_eq (Left step s length max) (fun _ _ h => h.pull_eq hlength) Left.fresh

/-- **The closed form of the repetition.** The repetition over a machine leaves the power of its
trail up to its first end. What the machine would do after that cannot be seen. -/
theorem trail_pull (step : σ → Pull ε α σ) (s : σ) (min : ℕ) (max : Option ℕ) :
    Pull.trail (pull step max) (waiting s min) =
      Trail.power min max (Pull.fusedTrail step s) := by
  cases min with
  | zero =>
      rw [Trail.power, ← trail_waiting step s Nat.zero_lt_one max]
      ext1 <;> funext n <;> cases n <;> rfl
  | succ min => exact trail_waiting step s (Nat.succ_pos min) max

end Repetition

end RegexWords
