import RegexWords.Proofs.Trail.Watched

/-!
# Sources Are Pulled on Demand

A product and a power ask their sources for no more values than their tuples need. The number of
values that a product has drawn from a source is one more than the number of times the source was
turned, until there are no more values; a source that is never turned is asked for one value. A
power draws one value for each tuple that is not empty, until there are no more, and it remembers
that there are no more.

What a source was asked for is read off a ledger: the source is put under watch, which changes
nothing else. In the ledger of a power every question to the source is an entry, so that one asked
after the end would show. In that of a product the questions after an end are left out; there are
such questions, but they draw nothing.

## Main definitions

* `Source.ledger`, `Source.powerLedger`: the product and the power of sources under watch.
* `demand`: the number of values of a source that are needed for the first tuples.
* `Source.ProductOnDemand`, `Source.PowerOnDemand`: what is drawn for a product and for a power.

## Main results

* `Repetition.Left.discovered_answers`: what a repetition has discovered, pull by pull.
* `Source.drawn_on_demand`: **products and powers draw on demand**.
-/

namespace RegexWords

variable {ε σ α : Type}

/-! ### What a repetition has discovered -/

namespace Trail

/-- The number of tuples among the first `n` pulls that are not empty. -/
def filled (u : Trail ε (List (Draw α))) (n : ℕ) : ℕ :=
  (u.first n).countP (!·.isEmpty)

/-- Tuples of increasing length are not empty. -/
theorem filled_lengths {length : ℕ} (hlength : 0 < length) (max : Option ℕ) (t : Trail ε α)
    (n : ℕ) : (lengths length max t).filled n = ((lengths length max t).first n).length := by
  rw [filled, List.countP_eq_length]
  intro ds hds
  obtain ⟨k, -, hk⟩ := List.mem_filterMap.1 hds
  have hle := (values_lengths ⟨k, hk⟩).1
  cases ds with
  | nil => exact absurd (hlength.trans_le hle) (lt_irrefl 0)
  | cons d ds => rfl

/-- An empty tuple in front does not count. -/
theorem filled_prepend (u : Trail ε (List (Draw α))) (n : ℕ) :
    (prepend [] u).filled (n + 1) = u.filled n := by
  have hfirst : (prepend [] u).first (n + 1) = [] :: u.first n := by
    rw [first, List.range_succ_eq_map, List.filterMap_cons, List.filterMap_map]
    rfl
  rw [filled, hfirst, List.countP_cons_of_neg (by simp)]
  rfl

end Trail

namespace Repetition

variable {step : σ → Pull ε α σ} {s : σ} {length n : ℕ} {max : Option ℕ} {r : Repetition σ α}

/-- A tuple at which a tumbler stands is one of those that there are. -/
theorem lt_size_of_at {t : Tumbler σ α} (h : t.At step s length n) (hlength : 0 < length)
    (hfits : ¬ tooLong max (place (Pull.fusedTrail step s).period length n).1) :
    (n : ℕ∞) < (Trail.lengths length max (Pull.fusedTrail step s)).size := by
  have hfused := Pull.fused_fusedTrail step s
  have hne := (hfused.value?_lengths_eq_none_iff hlength max n).not.2
    (not_or.2 ⟨hfits, h.value?_zero⟩)
  rwa [(hfused.lengths hlength max).value?_eq_none_iff_size_le, not_le] at hne

/-- After `n` pulls a repetition has discovered one value for each tuple, or all values. -/
theorem Left.discovered_eq (h : Left step s length max n r) (hlength : 0 < length) :
    (r.discovered : ℕ∞) = min (Pull.fusedTrail step s).size
      ((Trail.lengths length max (Pull.fusedTrail step s)).first n).length := by
  have hfused := Pull.fused_fusedTrail step s
  have hlengths := hfused.lengths hlength max
  rw [hlengths.length_first]
  cases h with
  | fresh =>
      rw [Nat.cast_zero, min_eq_right zero_le, min_eq_right zero_le]
      rfl
  | @tumbler n t hat hfits =>
      have hle := Order.add_one_le_of_lt (lt_size_of_at hat hlength hfits)
      rw [Nat.cast_add, Nat.cast_one, min_eq_right hle]
      exact hat.discovered.size_eq_min hfused
  | @ended n values hend hvalues =>
      have hle : (Trail.lengths length max (Pull.fusedTrail step s)).size ≤ ((n + 1 : ℕ) : ℕ∞) :=
        ((hlengths.value?_eq_none_iff_size_le n).1 hend).trans (Nat.cast_le.2 (Nat.le_succ n))
      rw [min_eq_left hle]
      -- the values that are known end where the values or the tuples do
      have hsize := Trail.size_eq_of_forall (t := (Trail.items values.toList : Trail ε α))
        (m := min (Pull.fusedTrail step s).size
          (Trail.lengths length max (Pull.fusedTrail step s)).size) fun k => by
        rw [Trail.value?_items, List.getElem?_eq_none_iff, Array.length_toList, hvalues,
          hfused.value?_eq_none_iff_size_le, hlengths.value?_eq_none_iff_size_le, min_le_iff]
      rw [← hsize, Trail.size_items, Array.length_toList]
      rfl

/-- **What a repetition has discovered**, pull by pull: one value for each tuple so far, until
there are no more. -/
theorem Left.discovered_answers (h : Left step s length max n r) (hlength : 0 < length)
    {m k : ℕ} {answer : Option (List (Draw α)) × ℕ × List ε}
    (hk : (answers step max m r)[k]? = some answer) :
    (answer.2.1 : ℕ∞) = min (Pull.fusedTrail step s).size
      ((Trail.lengths length max (Pull.fusedTrail step s)).first (n + k + 1)).length := by
  induction m generalizing n k r with
  | zero => exact absurd hk.symm (Option.some_ne_none answer)
  | succ m ih =>
      obtain ⟨-, -, hleft⟩ := h.pull_eq hlength
      cases k with
      | zero =>
          obtain rfl := Option.some.inj hk
          exact hleft.discovered_eq hlength
      | succ k =>
          have hindex : n + (k + 1) + 1 = n + 1 + k + 1 := by omega
          rw [hindex]
          exact ih hleft hk

end Repetition

namespace Source

/-! ### Products -/

/-- The **ledger** of a product: the same product with its sources under watch. It has an entry for
each answer of a source up to its end, with the position of the source as label. A product asks a
source that has ended again and again; that gives no value, and no entry. -/
def ledger (ss : List (Source ε α)) : Source (ℕ × Option α) (List α) :=
  product (ss.zipIdx.map fun e => e.1.watched (Prod.mk e.2)).toArray

/-- The ledger of a product leaves the product of the trails under watch. -/
theorem trail_ledger (ss : List (Source ε α)) :
    (ledger ss).trail = Trail.product (Trail.labelled 0 (ss.map trail)) := by
  rw [ledger, trail_product, Trail.labelled, List.zipIdx_map, List.map_map, List.map_map]
  exact congrArg Trail.product (List.map_congr_left fun e _ => trail_watched _ e.1)

/-- Where there are sources, these are tuples. -/
theorem trail_ledger_of_ne_nil {ss : List (Source ε α)} (h : ss ≠ []) :
    (ledger ss).trail = Trail.tuples (Trail.labelled 0 (ss.map trail)) := by
  obtain ⟨s, ss, rfl⟩ := List.exists_cons_of_ne_nil h
  exact trail_ledger (s :: ss)

/-- Sources with values have first values. -/
theorem value?_zero_ne_none {ss : List (Source ε α)} (h : ∀ s ∈ ss, s.size ≠ 0) :
    ∀ t ∈ ss.map trail, t.value? 0 ≠ none := by
  intro t ht
  obtain ⟨s, hs, rfl⟩ := List.mem_map.1 ht
  exact s.fused_trail.size_eq_zero_iff.not.1 (h s hs)

/-- **Watching the sources of a product** does not change its tuples. -/
theorem value?_ledger (ss : List (Source ε α)) :
    (ledger ss).trail.value? = (product ss.toArray).trail.value? := by
  rcases eq_or_ne ss [] with rfl | hne
  · rw [trail_ledger, trail_product]
    rfl
  · rw [trail_ledger_of_ne_nil hne, trail_product, Trail.value?_tuples_labelled,
      Trail.product_eq_tuples (by simpa using hne)]

/-- The **number of values** of a source that the first `n` tuples need, if the source turns after
every `place` tuples. A source that never turns is asked for one. -/
noncomputable def demand (place : ℕ∞) (n : ℕ) : ℕ :=
  if place = ⊤ then 1 else (n - 1) / place.toNat + 1

/-- Division by `0` does what the case of a source that never turns asks for. -/
theorem demand_eq (place : ℕ∞) (n : ℕ) : demand place n = (n - 1) / place.toNat + 1 := by
  rw [demand]
  split
  · next h => rw [h, ENat.toNat_top, Nat.div_zero]
  · rfl

/-- A product of the given sources **draws on demand**. -/
structure ProductOnDemand (ss : List (Source ε α)) : Prop where
  /-- Watching the sources does not change the tuples. -/
  value?_ledger : ∀ n, (ledger ss).trail.value? n = (product ss.toArray).trail.value? n
  /-- After `n` pulls, so after `n` tuples if there are that many, a source has given its first
  values, as many as the tuples need. -/
  drawn : ∀ n, 0 < n → ∀ i s, ss[i]? = some s →
    drawnFrom i ((ledger ss).trail.history n) =
      s.trail.first (demand ((ss.take i).map size).prod n)
  /-- So it has given that many values, or all if there are fewer. -/
  length_drawn : ∀ n, 0 < n → ∀ i s, ss[i]? = some s →
    ((drawnFrom i ((ledger ss).trail.history n)).length : ℕ∞) =
      min s.size ((demand ((ss.take i).map size).prod n : ℕ) : ℕ∞)
  /-- After the first pull, which asks all sources, a pull draws no value or one, and then it gives
  a tuple that shows the value at the position of its source. -/
  pull_draws : ∀ n, 0 < n → valued ((ledger ss).trail.events n) = [] ∨
    ∃ i v tuple, valued ((ledger ss).trail.events n) = [(i, some v)] ∧
      (product ss.toArray).trail.value? n = some tuple ∧ tuple[i]? = some v

variable {ss : List (Source ε α)} {n : ℕ}

/-- **What a product has drawn** from one of its sources. -/
theorem drawnFrom_ledger (h : ∀ s ∈ ss, s.size ≠ 0) (hn : 0 < n) {i : ℕ} {s : Source ε α}
    (hi : ss[i]? = some s) :
    drawnFrom i ((ledger ss).trail.history n) =
      s.trail.first (demand ((ss.take i).map size).prod n) := by
  obtain ⟨n, rfl⟩ := Nat.exists_eq_succ_of_ne_zero hn.ne'
  obtain ⟨hlt, rfl⟩ := List.getElem?_eq_some_iff.1 hi
  have hsplit : (ss.take i).map trail ++ ss[i].trail :: (ss.drop (i + 1)).map trail =
      ss.map trail := by
    rw [← List.map_cons, ← List.map_append, List.getElem_cons_drop, List.take_append_drop]
  have hlength : ((ss.take i).map trail).length = i := by
    rw [List.length_map, List.length_take_of_le hlt.le]
  have hplace : ((ss.take i).map size).prod.toNat =
      (((ss.take i).map trail).map Trail.period).prod := by
    rw [← Trail.toNat_prod_size, List.map_map]
    rfl
  have hdrawn := Trail.drawnFrom_tuples ss[i].fused_trail
    (hsplit ▸ value?_zero_ne_none h) n
  rw [hlength, hsplit] at hdrawn
  rw [trail_ledger_of_ne_nil (List.ne_nil_of_length_pos (by omega)), hdrawn, demand_eq, hplace]
  rfl

/-- **What one pull of a product draws.** -/
theorem onDemand_ledger (h : ∀ s ∈ ss, s.size ≠ 0) : (ledger ss).trail.OnDemand 0 := by
  rcases eq_or_ne ss [] with rfl | hne
  · rw [trail_ledger]
    exact fun n => Or.inl rfl
  · rw [trail_ledger_of_ne_nil hne]
    refine Trail.OnDemand.tuples ?_ (value?_zero_ne_none h) 0
    intro t ht
    obtain ⟨s, -, rfl⟩ := List.mem_map.1 ht
    exact s.fused_trail

/-- **A product draws on demand** if each of its sources has a value. -/
theorem productOnDemand (h : ∀ s ∈ ss, s.size ≠ 0) : ProductOnDemand ss where
  value?_ledger n := congrFun (value?_ledger ss) n
  drawn n hn i s hi := drawnFrom_ledger h hn hi
  length_drawn n hn i s hi := by
    rw [drawnFrom_ledger h hn hi]
    exact s.fused_trail.length_first _
  pull_draws n hn := by
    obtain ⟨n, rfl⟩ := Nat.exists_eq_succ_of_ne_zero hn.ne'
    have hpull := onDemand_ledger h n
    rw [value?_ledger] at hpull
    simpa only [Nat.zero_add] using hpull

end Source

/-! ### Powers -/

namespace Trail

variable {t : Trail ε α} {n : ℕ}

/-- A value in front has no events. -/
theorem history_prepend (a : α) (t : Trail ε α) (n : ℕ) :
    (prepend a t).history (n + 1) = t.history n := by
  rw [history_succ_eq_append_tail]
  rfl

/-- Watching a trail does not change the tuples of its power. -/
theorem value?_power_watched (least : ℕ) (most : Option ℕ) (t : Trail ε α) (n : ℕ) :
    (power least most (t.watched id)).value? n = (power least most t).value? n := by
  cases least with
  | zero => cases n <;> rfl
  | succ least => rfl

/-- **What a power has drawn**: one value for each tuple that is not empty. -/
theorem Fused.reduceOption_history_power (ht : t.Fused) (least : ℕ) (most : Option ℕ) (n : ℕ) :
    ((Trail.power least most (t.watched id)).history n).reduceOption =
      t.first ((Trail.power least most t).filled n) := by
  cases least with
  | zero =>
      cases n with
      | zero => rfl
      | succ n =>
          rw [Trail.power, Trail.power, history_prepend, filled_prepend,
            ht.reduceOption_history_lengths Nat.zero_lt_one, filled_lengths Nat.zero_lt_one]
  | succ least =>
      rw [Trail.power, Trail.power, ht.reduceOption_history_lengths (Nat.succ_pos least),
        filled_lengths (Nat.succ_pos least)]

/-- **What one pull of a power draws** is used in its tuple. -/
theorem Fused.exists_mem_of_mem_events_power (ht : t.Fused) {least : ℕ} {most : Option ℕ} {v : α}
    (h : some v ∈ (Trail.power least most (t.watched id)).events n) :
    ∃ ds, (Trail.power least most t).value? n = some ds ∧ v ∈ ds.map Draw.value := by
  cases least with
  | zero =>
      cases n with
      | zero => exact absurd h List.not_mem_nil
      | succ n => exact ht.exists_mem_of_mem_events_lengths Nat.zero_lt_one h
  | succ least => exact ht.exists_mem_of_mem_events_lengths (Nat.succ_pos least) h

/-- The trail of a power is not asked again after its end. -/
theorem Fused.pairwise_history_power (ht : t.Fused) (least : ℕ) (most : Option ℕ) (n : ℕ) :
    ((Trail.power least most (t.watched id)).history n).Pairwise
      fun earlier _ => earlier ≠ none := by
  cases least with
  | zero =>
      cases n with
      | zero => exact List.Pairwise.nil
      | succ n =>
          rw [Trail.power, history_prepend]
          exact (ht.pairwise_history_watched n).sublist (history_lengths_sublist _ _ _ n)
  | succ least => exact (ht.pairwise_history_watched n).sublist (history_lengths_sublist _ _ _ n)

end Trail

namespace Source

/-- The **ledger** of a power: the same power, with the machine of its source under watch. Whatever
the source is asked has an entry with the answer, also what it is asked after its end. -/
def powerLedger (least : ℕ) (most : Option ℕ) (s : Source ε α) :
    Source (Option α) (List (Draw α)) :=
  boxed (.waiting s.state least) (Repetition.pull (Pull.watch id s.step) most)

/-- A power of the source **draws on demand**. -/
structure PowerOnDemand (least : ℕ) (most : Option ℕ) (s : Source ε α) : Prop where
  /-- Watching the source does not change the tuples. -/
  value?_ledger : ∀ n,
    (powerLedger least most s).trail.value? n = (power least most s).trail.value? n
  /-- After `n` pulls the source has given its first values, one for each tuple that is not
  empty. -/
  drawn : ∀ n, ((powerLedger least most s).trail.history n).reduceOption =
    s.trail.first ((power least most s).trail.filled n)
  /-- So it has given that many values, or all if there are fewer. -/
  length_drawn : ∀ n,
    (((powerLedger least most s).trail.history n).reduceOption.length : ℕ∞) =
      min s.size (((power least most s).trail.filled n : ℕ) : ℕ∞)
  /-- As many values are known to the power, which says so with every answer. -/
  discovered : ∀ n k answer, (s.powerAnswers least most n)[k]? = some answer →
    (answer.2.1 : ℕ∞) = min s.size (((power least most s).trail.filled (k + 1) : ℕ) : ℕ∞)
  /-- A value is drawn for a tuple and used in it. -/
  used : ∀ n v, some v ∈ (powerLedger least most s).trail.events n →
    ∃ ds, (power least most s).trail.value? n = some ds ∧ v ∈ ds.map Draw.value
  /-- Once the source has ended it is not asked again: no question to it has an entry after that of
  the end, whatever the answer. -/
  ended : ∀ n, ((powerLedger least most s).trail.history n).Pairwise
    fun earlier _ => earlier ≠ none

/-- **The number of values known to a power**, pull by pull. -/
theorem discovered_powerAnswers (s : Source ε α) {least : ℕ} {most : Option ℕ} {n k : ℕ}
    {answer : Option (List (Draw α)) × ℕ × List ε}
    (h : (s.powerAnswers least most n)[k]? = some answer) :
    (answer.2.1 : ℕ∞) = min s.size (((power least most s).trail.filled (k + 1) : ℕ) : ℕ∞) := by
  have htrail : Pull.fusedTrail s.step s.state = s.trail := s.fused.trail_fuse s.state
  rw [trail_power]
  cases least with
  | zero =>
      cases n with
      | zero => exact absurd h.symm (Option.some_ne_none answer)
      | succ n =>
          rw [Trail.power, Trail.filled_prepend]
          cases k with
          | zero =>
              obtain rfl := Option.some.inj h
              exact (min_eq_right zero_le).symm
          | succ k =>
              have hk := Repetition.Left.fresh.discovered_answers Nat.zero_lt_one h
              rwa [Nat.zero_add, ← Trail.filled_lengths Nat.zero_lt_one, htrail] at hk
  | succ least =>
      have hk := Repetition.Left.fresh.discovered_answers (Nat.succ_pos least) h
      rwa [Nat.zero_add, ← Trail.filled_lengths (Nat.succ_pos least), htrail] at hk

/-- The ledger of a power leaves the power of the trail under watch: the machine under watch is not
asked after its end, so it does not matter that it would report. -/
theorem trail_powerLedger (least : ℕ) (most : Option ℕ) (s : Source ε α) :
    (powerLedger least most s).trail = Trail.power least most (s.trail.watched id) := by
  have htrail : Pull.fusedTrail s.step s.state = s.trail := s.fused.trail_fuse s.state
  rw [powerLedger, trail_boxed (Repetition.fused_pull _ most), Repetition.trail_pull,
    Pull.fusedTrail_watch, htrail]

/-- **A power draws on demand.** -/
theorem powerOnDemand (least : ℕ) (most : Option ℕ) (s : Source ε α) :
    PowerOnDemand least most s where
  value?_ledger n := by
    rw [trail_powerLedger, trail_power, Trail.value?_power_watched]
  drawn n := by
    rw [trail_powerLedger, trail_power, s.fused_trail.reduceOption_history_power]
  length_drawn n := by
    rw [trail_powerLedger, trail_power, s.fused_trail.reduceOption_history_power]
    exact s.fused_trail.length_first _
  discovered n k answer h := discovered_powerAnswers s h
  used n v h := by
    rw [trail_powerLedger] at h
    rw [trail_power]
    exact s.fused_trail.exists_mem_of_mem_events_power h
  ended n := by
    rw [trail_powerLedger]
    exact s.fused_trail.pairwise_history_power least most n

/-- **Sources are pulled on demand.** A product of sources that have values draws from each of them
as many values as its tuples need, and after the first pull at most one value for a tuple. A power
draws one value for each tuple that is not empty, until there are no more. -/
theorem drawn_on_demand :
    (∀ ss : List (Source ε α), (∀ s ∈ ss, s.size ≠ 0) → ProductOnDemand ss) ∧
      ∀ (least : ℕ) (most : Option ℕ) (s : Source ε α), PowerOnDemand least most s :=
  ⟨fun _ h => productOnDemand h, powerOnDemand⟩

/-- Five tuples need three values of a source that turns after two of them, and one value of a
source behind an endless one. Four tuples of an optional repetition need the two values there
are. -/
theorem drawn_on_demand_endless :
    drawnFrom 1 ((ledger [(items [10, 20] : Source Unit ℕ), numbers id 0,
        items [7, 8]]).trail.history 5) = [0, 1, 2] ∧
      drawnFrom 2 ((ledger [(items [10, 20] : Source Unit ℕ), numbers id 0,
        items [7, 8]]).trail.history 5) = [7] ∧
      ((powerLedger 0 none (items [10, 20] : Source Unit ℕ)).trail.history 4).reduceOption =
        [10, 20] := by
  have hvalues : ∀ s ∈ [(items [10, 20] : Source Unit ℕ), numbers id 0, items [7, 8]],
      s.size ≠ 0 := by
    simp
  have hproduct := drawn_on_demand.1 _ hvalues
  have hpower := drawn_on_demand.2 0 none (items [10, 20] : Source Unit ℕ)
  refine ⟨?_, ?_, ?_⟩
  · rw [hproduct.drawn 5 (by decide) 1 _ rfl, demand_eq]
    simp only [List.take_succ_cons, List.take_zero, List.map_cons, List.map_nil, List.prod_cons,
      List.prod_nil, mul_one, size_items, ENat.toNat_natCast]
    rfl
  · rw [hproduct.drawn 5 (by decide) 2 _ rfl, demand_eq]
    simp only [List.take_succ_cons, List.take_zero, List.map_cons, List.map_nil, List.prod_cons,
      List.prod_nil, mul_one, size_items, size_numbers]
    rw [ENat.mul_top (by simp), ENat.toNat_top, Nat.div_zero]
    rfl
  · rw [hpower.drawn 4]
    rfl

end Source

end RegexWords
