import Mathlib.Data.List.Lex
import RegexWords.Proofs.Trail.Size
import RegexWords.Proofs.Trail.Tuples

/-!
# Products and Powers in Closed Form

Which tuple a product or a power gives after `n` others can be said without running it. In a
product every source has a place value, the number of tuples that pass before it turns; the value
it contributes is the digit of `n` at that place. In a power the tuples of one length come after
all shorter ones and in the lexicographic order of the indices of their entries.

Sizes and place values are extended natural numbers. Where a source never ends, the sources after
it stay at their first value for ever, and a power never leaves its first length.

## Main definitions

* `shownAt`: the number of the value that a source contributes to a tuple.
* `Trail.Repeats`: the tuples of a power.

## Main results

* `Source.value?_product`: **the closed form of a product**.
* `Source.repeats_power`: **the closed form of a power**.
-/

namespace RegexWords

variable {ε α : Type}

/-! ### Products -/

/-- The **number of the value** that a source of the given size contributes to tuple `n` if it
turns after every `place` tuples. A source that never turns stays at its first value, and a source
that never ends never begins anew. -/
noncomputable def shownAt (place size : ℕ∞) (n : ℕ) : ℕ :=
  let turns := if place = ⊤ then 0 else n / place.toNat
  if size = ⊤ then turns else turns % size.toNat

/-- Division and remainder by `0` do what the cases without end ask for. -/
theorem shownAt_eq (place size : ℕ∞) (n : ℕ) :
    shownAt place size n = n / place.toNat % size.toNat := by
  have hplace : (if place = ⊤ then 0 else n / place.toNat) = n / place.toNat := by
    split
    · next h => rw [h, ENat.toNat_top, Nat.div_zero]
    · rfl
  rw [shownAt, hplace]
  split
  · next h => rw [h, ENat.toNat_top, Nat.mod_zero]
  · rfl

namespace Trail

/-- The product of sizes as a natural number is the product of the periods. -/
theorem toNat_prod_size (ts : List (Trail ε α)) :
    (ts.map size).prod.toNat = (ts.map period).prod := by
  calc (ts.map size).prod.toNat
      = ((ts.map size).map ENat.toNatHom).prod := map_list_prod ENat.toNatHom _
    _ = (ts.map period).prod := by
        rw [List.map_map]
        exact congrArg List.prod (List.map_congr_left fun t _ => toNat_size t)

/-- **The entries of a tuple.** There is one for each trail, and its number is the digit of the
tuple at the place of the trail. -/
theorem getElem?_of_tuples {ts : List (Trail ε α)} {n : ℕ} {as : List α}
    (h : (tuples ts).value? n = some as) :
    as.length = ts.length ∧ ∀ (i : ℕ) (t : Trail ε α), ts[i]? = some t →
      as[i]? = t.value? (shownAt ((ts.take i).map size).prod t.size n) := by
  simp only [shownAt_eq, toNat_prod_size, toNat_size]
  induction ts generalizing n as with
  | nil =>
      obtain rfl := List.mem_singleton.1 (List.mem_of_getElem? h)
      simp
  | cons u ts ih =>
      rw [tuples, value?_cons] at h
      obtain ⟨b, hb, hrest⟩ := Option.bind_eq_some_iff.1 h
      obtain ⟨bs, hbs, heq⟩ := Option.bind_eq_some_iff.1 hrest
      obtain rfl := Option.some.inj heq
      obtain ⟨hlength, hentries⟩ := ih hbs
      refine ⟨by rw [List.length_cons, List.length_cons, hlength], fun i t ht => ?_⟩
      cases i with
      | zero =>
          obtain rfl := Option.some.inj ht
          rw [List.take_zero, List.map_nil, List.prod_nil, Nat.div_one]
          exact hb.symm
      | succ i =>
          rw [List.getElem?_cons_succ] at ht ⊢
          rw [List.take_succ_cons, List.map_cons, List.prod_cons, ← Nat.div_div_eq_div_mul]
          exact hentries i t ht

end Trail

namespace Source

/-- The size of a source is the number of its values, `⊤` if it never ends. -/
noncomputable def size (s : Source ε α) : ℕ∞ :=
  s.trail.size

@[simp] theorem size_items (values : List α) : (items values : Source ε α).size = values.length := by
  rw [size, trail_items, Trail.size_items]

@[simp] theorem size_numbers (value : ℕ → α) (first : ℕ) :
    (numbers value first : Source ε α).size = ⊤ :=
  Trail.size_numbers value first

/-- **The closed form of a product.** Without sources there are no tuples. Otherwise tuple `n` is
missing exactly if all tuples there are, as many as the product of the sizes, come before it; so
there is none if a source has no value, and there is no end to them if all have one and some never
ends. A tuple has one entry for each source, whose number is the digit of `n` at the place given
by the sizes of the sources before it. -/
theorem value?_product (ss : List (Source ε α)) (n : ℕ) :
    (ss = [] → (product ss.toArray).trail.value? n = none) ∧
      (ss ≠ [] → ((product ss.toArray).trail.value? n = none ↔ (ss.map size).prod ≤ n)) ∧
      ((∃ s ∈ ss, s.size = 0) → (product ss.toArray).trail.value? n = none) ∧
      ∀ tuple, (product ss.toArray).trail.value? n = some tuple →
        tuple.length = ss.length ∧ ∀ (i : ℕ) (s : Source ε α), ss[i]? = some s →
          tuple[i]? = s.trail.value? (shownAt ((ss.take i).map size).prod s.size n) := by
  have hsizes : ∀ l : List (Source ε α), (l.map trail).map Trail.size = l.map size :=
    fun l => List.map_map
  have hfused : ∀ t ∈ ss.map trail, t.Fused := by
    intro t ht
    obtain ⟨s, -, rfl⟩ := List.mem_map.1 ht
    exact s.fused_trail
  rw [trail_product]
  rcases ss with _ | ⟨s, ss⟩
  · refine ⟨fun _ => rfl, fun h => absurd rfl h, fun _ => rfl, fun tuple h => ?_⟩
    exact absurd h.symm (Option.some_ne_none tuple)
  · have htuples : Trail.product ((s :: ss).toArray.toList.map trail) =
        Trail.tuples ((s :: ss).map trail) := rfl
    have hend : (Trail.tuples ((s :: ss).map trail)).value? n = none ↔
        ((s :: ss).map size).prod ≤ n := by
      rw [(Trail.Fused.tuples hfused).value?_eq_none_iff_size_le, Trail.size_tuples hfused, hsizes]
    rw [htuples]
    refine ⟨fun h => absurd h (List.cons_ne_nil s ss), fun _ => hend, ?_, fun tuple h => ?_⟩
    · rintro ⟨s', hs', hzero⟩
      rw [hend, List.prod_eq_zero (hzero ▸ List.mem_map_of_mem hs')]
      exact zero_le
    · obtain ⟨hlength, hentries⟩ := Trail.getElem?_of_tuples h
      refine ⟨by rw [hlength, List.length_map], fun i s' hs' => ?_⟩
      have hi : ((s :: ss).map trail)[i]? = some s'.trail := by
        rw [List.getElem?_map, hs', Option.map_some]
      rw [hentries i s'.trail hi, ← List.map_take, hsizes]
      rfl

/-- Behind an endless source the last one stays at its first value. -/
theorem value?_product_endless :
    (product [items [10, 20], numbers id 0, items [7, 8]].toArray :
      Source Unit (List ℕ)).trail.value? 5 = some [20, 2, 7] := by
  have hpair : ∀ a b : ℕ, (items [a, b] : Source Unit ℕ).size = 2 := fun a b => size_items [a, b]
  have hendless : (numbers id 0 : Source Unit ℕ).size = ⊤ := size_numbers id 0
  obtain ⟨-, hend, -, hentries⟩ := value?_product
    [(items [10, 20] : Source Unit ℕ), numbers id 0, items [7, 8]] 5
  have hprod : ([(items [10, 20] : Source Unit ℕ), numbers id 0, items [7, 8]].map size).prod =
      ⊤ := by
    simp [hpair, hendless]
  have hne := (hend (List.cons_ne_nil _ _)).not.2 (by rw [hprod]; decide)
  obtain ⟨tuple, htuple⟩ := Option.ne_none_iff_exists'.1 hne
  obtain ⟨hlength, hentry⟩ := hentries tuple htuple
  obtain ⟨a, b, c, rfl⟩ := List.length_eq_three.1 hlength
  have ha := hentry 0 _ rfl
  have hb := hentry 1 _ rfl
  have hc := hentry 2 _ rfl
  simp [shownAt_eq, hpair, hendless, Trail.value?_numbers] at ha hb hc
  rw [htuple, ha, hb, hc]

end Source

/-! ### Powers -/

/-- The tuples of a list are those of the right length with entries from the list. -/
theorem mem_tuplesOf_iff {xs : List α} {k : ℕ} {w : List α} :
    w ∈ tuplesOf xs k ↔ w.length = k ∧ ∀ x ∈ w, x ∈ xs := by
  induction k generalizing w with
  | zero =>
      rw [tuplesOf, List.mem_singleton, List.length_eq_zero_iff]
      exact ⟨fun h => ⟨h, by simp [h]⟩, fun h => h.1⟩
  | succ k ih =>
      simp only [tuplesOf, List.mem_flatMap, List.mem_map, ih]
      constructor
      · rintro ⟨x, hx, v, ⟨hlength, hv⟩, rfl⟩
        exact ⟨by rw [List.length_cons, hlength], List.forall_mem_cons.2 ⟨hx, hv⟩⟩
      · rintro ⟨hlength, hw⟩
        obtain ⟨x, v, rfl⟩ := List.exists_cons_of_length_eq_add_one hlength
        obtain ⟨hx, hv⟩ := List.forall_mem_cons.1 hw
        exact ⟨x, hx, v, ⟨Nat.succ.inj hlength, hv⟩, rfl⟩

/-- The tuples of an ascending list are in lexicographic order, each of them once. -/
theorem pairwise_lex_tuplesOf {xs : List ℕ} (h : xs.Pairwise (· < ·)) (k : ℕ) :
    (tuplesOf xs k).Pairwise (List.Lex (· < ·)) := by
  induction k with
  | zero => exact List.pairwise_singleton _ _
  | succ k ih =>
      rw [tuplesOf, List.pairwise_flatMap]
      refine ⟨fun x _ => List.pairwise_map.2 (ih.imp List.Lex.cons), h.imp fun hlt => ?_⟩
      intro v hv w hw
      obtain ⟨v, -, rfl⟩ := List.mem_map.1 hv
      obtain ⟨w, -, rfl⟩ := List.mem_map.1 hw
      exact List.Lex.rel hlt

/-- The digits of a number are below the base. -/
theorem lt_of_mem_digits {p : ℕ} (hp : 0 < p) (length i : ℕ) : ∀ j ∈ digits p length i, j < p := by
  induction length generalizing i with
  | zero => simp [digits]
  | succ length ih => exact List.forall_mem_cons.2 ⟨Nat.mod_lt i hp, ih (i / p)⟩

/-- The tuple of indices at an index has its digits, the lowest one last. -/
theorem getElem?_tuplesOf_range {p k i : ℕ} (hp : 0 < p) (hi : i < p ^ k) :
    (tuplesOf (List.range p) k)[i]? = some (digits p k i).reverse := by
  have hdraw : ∀ w : List ℕ, (∀ j ∈ w, j < p) → w.mapM ((List.range p)[·]?) = some w := by
    intro w hw
    rw [mapM_eq_some_pmap (p := (· < p)) (f := fun j _ => j)
      (fun j hj => List.getElem?_range hj) w hw, List.pmap_eq_map, List.map_id']
  rw [getElem?_tuplesOf _ k i (by rwa [List.length_range]), List.length_range]
  exact hdraw _ fun j hj => lt_of_mem_digits hp k i j (List.mem_reverse.1 hj)

namespace Trail

/-- The number of empty tuples in a power. -/
def empties (min : ℕ) : ℕ :=
  if min = 0 then 1 else 0

theorem empties_zero : empties 0 = 1 := if_pos rfl

theorem empties_succ (min : ℕ) : empties (min + 1) = 0 := if_neg (Nat.succ_ne_zero min)

/-- The number of tuples in a power of `size` values that are shorter than `k`. -/
def tuplesBefore (min size k : ℕ) : ℕ :=
  empties min + ∑ j ∈ Finset.Ico (Nat.max 1 min) k, size ^ j

/-- The trail `u` has the tuples that arise if `t` is **repeated** between `min` and `max`
times. -/
structure Repeats (min : ℕ) (max : Option ℕ) (t : Trail ε α) (u : Trail ε (List (Draw α))) :
    Prop where
  /-- A draw is the value that its slot says. -/
  value?_slot : ∀ n ds, u.value? n = some ds → ∀ d ∈ ds, t.value? d.slot = some d.value
  /-- The empty tuple comes first exactly if it is allowed. -/
  empty_iff : u.value? 0 = some [] ↔ min = 0
  /-- If there are finitely many values, the tuples of every allowed length come up after those
  that are shorter, in the lexicographic order of their indices and each of them once. -/
  lexicographic : ∀ size : ℕ, 0 < size → t.size = size →
    ∀ k, Nat.max 1 min ≤ k → (∀ m ∈ max, k ≤ m) →
      ∃ indices : List (List ℕ), indices.length = size ^ k ∧
        indices.Pairwise (List.Lex (· < ·)) ∧
        (∀ w, w ∈ indices ↔ w.length = k ∧ ∀ j ∈ w, j < size) ∧
        ∀ i < size ^ k,
          (u.value? (tuplesBefore min size k + i)).map (List.map Draw.slot) = indices[i]?
  /-- After the tuples of the greatest allowed length there are no more. -/
  longest : ∀ size : ℕ, 0 < size → t.size = size →
    ∀ m ∈ max, ∀ n, tuplesBefore min size (m + 1) ≤ n → u.value? n = none
  /-- Without values there is no tuple but the empty one. -/
  nothing : t.size = 0 → ∀ n, empties min ≤ n → u.value? n = none
  /-- If the values never end, only the last entry of the shortest tuples ever moves. -/
  endless : t.size = ⊤ → (∀ m ∈ max, Nat.max 1 min ≤ m) → ∀ i,
    (u.value? (empties min + i)).map (List.map Draw.slot) =
      some (List.replicate (Nat.max 1 min - 1) 0 ++ [i])
  /-- If the shortest tuples are too long already, there is none but the empty one; in particular
  there is none at all if the bounds are out of order. -/
  tooLong : ∀ m ∈ max, m < Nat.max 1 min → ∀ n, empties min ≤ n → u.value? n = none
  /-- After the end there is nothing. -/
  ended : ∀ n, u.value? n = none → ∀ n', n ≤ n' → u.value? n' = none

theorem max_one_succ (min : ℕ) : Nat.max 1 (min + 1) = min + 1 :=
  Nat.max_eq_right (Nat.succ_pos min)

/-- After the empty tuple a power has the tuples of increasing length. -/
theorem value?_power_add (min : ℕ) (max : Option ℕ) (t : Trail ε α) (n : ℕ) :
    (power min max t).value? (empties min + n) =
      (lengths (Nat.max 1 min) max t).value? n := by
  cases min with
  | zero =>
      rw [empties_zero, Nat.add_comm]
      rfl
  | succ min =>
      rw [empties_succ, Nat.zero_add, max_one_succ]
      rfl

/-- The shortest tuples of a power that are not empty have a length. -/
theorem least_pos (min : ℕ) : 0 < Nat.max 1 min :=
  Nat.lt_of_lt_of_le Nat.zero_lt_one (Nat.le_max_left 1 min)

/-- What holds of all pulls after the empty tuple holds from there on. -/
theorem forall_ge_empties {P : ℕ → Prop} {min k : ℕ} (h : ∀ n, k ≤ n → P (empties min + n)) :
    ∀ n, empties min + k ≤ n → P n := by
  intro n hn
  obtain ⟨m, rfl⟩ := Nat.exists_eq_add_of_le (Nat.le_of_add_right_le hn)
  exact h m (by omega)

variable {t : Trail ε α}

/-- The slots of a tuple of increasing length are the digits of its place, the lowest one last. -/
theorem Fused.map_slot_lengths (ht : t.Fused) {length : ℕ} (hlength : 0 < length)
    {max : Option ℕ} {n : ℕ} (hfits : ¬ Repetition.tooLong max (place t.period length n).1)
    (h0 : t.size ≠ 0) :
    ((Trail.lengths length max t).value? n).map (List.map Draw.slot) =
      some (digits t.period (place t.period length n).1 (place t.period length n).2).reverse := by
  have hne : (Trail.lengths length max t).value? n ≠ none := by
    rw [ne_eq, ht.value?_lengths_eq_none_iff hlength, ← ht.size_eq_zero_iff]
    exact not_or.2 ⟨hfits, h0⟩
  obtain ⟨ds, hds⟩ := Option.ne_none_iff_exists'.1 hne
  rw [hds, Option.map_some]
  rw [value?_lengths, if_neg hfits] at hds
  rw [(slots_of_mapM hds).1]

/-- A power of a fused trail is fused. -/
theorem Fused.power (ht : t.Fused) (min : ℕ) (max : Option ℕ) :
    (Trail.power min max t).Fused := by
  cases min with
  | zero => exact (ht.lengths Nat.zero_lt_one max).prepend []
  | succ min => exact ht.lengths (Nat.succ_pos min) max

/-- **The tuples of a power.** -/
theorem Fused.repeats (ht : t.Fused) (min : ℕ) (max : Option ℕ) :
    Repeats min max t (Trail.power min max t) where
  value?_slot n _ h := (values_power ⟨n, h⟩).2.2
  empty_iff := by
    cases min with
    | zero => exact iff_of_true rfl rfl
    | succ min =>
        refine iff_of_false (fun hempty => ?_) (Nat.succ_ne_zero min)
        obtain ⟨hlength, -, -⟩ := values_power (t := t) ⟨0, hempty⟩
        exact absurd hlength (Nat.not_succ_le_zero min)
  lexicographic size hpos hsize k hk hmax := by
    have hperiod : t.period = size := by rw [← toNat_size, hsize, ENat.toNat_natCast]
    have h0 : t.size ≠ 0 := by rw [hsize, Nat.cast_ne_zero]; exact hpos.ne'
    refine ⟨tuplesOf (List.range size) k, by rw [length_tuplesOf, List.length_range],
      pairwise_lex_tuplesOf List.pairwise_lt_range k, fun w => ?_, fun i hi => ?_⟩
    · simp only [mem_tuplesOf_iff, List.mem_range]
    · have hplace := place_sum_add hk hi
      rw [tuplesBefore, Nat.add_assoc, value?_power_add, getElem?_tuplesOf_range hpos hi,
        ht.map_slot_lengths (least_pos min) _ h0, hperiod, hplace]
      rw [hperiod, hplace]
      exact Repetition.not_tooLong_iff.2 hmax
  longest size hpos hsize m hm := by
    refine forall_ge_empties fun n hn => ?_
    obtain rfl : max = some m := hm
    rw [value?_power_add, (ht.lengths (least_pos min) _).value?_eq_none_iff_size_le,
      ht.size_lengths_some (least_pos min), hsize]
    exact_mod_cast hn
  nothing hsize := by
    refine forall_ge_empties (k := 0) fun n _ => ?_
    rw [value?_power_add, ht.value?_lengths_eq_none_iff (least_pos min)]
    exact Or.inr (ht.size_eq_zero_iff.1 hsize)
  endless hsize hmax i := by
    have hperiod : t.period = 0 := by rw [← toNat_size, hsize, ENat.toNat_top]
    have hplace : place t.period (Nat.max 1 min) i = (Nat.max 1 min, i) :=
      place_of_lt (Or.inl hperiod)
    have h0 : t.size ≠ 0 := by rw [hsize]; exact ENat.top_ne_zero
    obtain ⟨l, hl⟩ := Nat.exists_eq_succ_of_ne_zero (least_pos min).ne'
    have hdigits : digits 0 (Nat.max 1 min) i = i :: List.replicate l 0 := by
      rw [hl, digits, Nat.mod_zero, Nat.div_zero, digits_zero]
    rw [value?_power_add, ht.map_slot_lengths (least_pos min) _ h0, hplace, hperiod, hdigits,
      List.reverse_cons, List.reverse_replicate, hl, Nat.succ_sub_one]
    rw [hplace]
    exact Repetition.not_tooLong_iff.2 hmax
  tooLong m hm hlt := by
    refine forall_ge_empties (k := 0) fun n _ => ?_
    have hfirst := place_fst_mono t.period (Nat.max 1 min) (Nat.zero_le n)
    rw [place_zero] at hfirst
    rw [value?_power_add, value?_lengths, if_pos]
    exact Repetition.tooLong_iff.2 ⟨m, hm, Nat.lt_of_lt_of_le hlt hfirst⟩
  ended n hn n' hle := (ht.power min max).value?_eq_none hle hn

end Trail

/-- **The closed form of a power.** The repetition of a source between `min` and `max` times has
the tuples that it should have, whether the source ends or not. -/
theorem Source.repeats_power (s : Source ε α) (min : ℕ) (max : Option ℕ) :
    Trail.Repeats min max s.trail (power min max s).trail := by
  rw [trail_power]
  exact s.fused_trail.repeats min max

/-- Of an endless source only the last entry of pairs ever moves, and no triple comes up. -/
theorem Source.repeats_power_endless :
    (Source.power 0 (some 3) (Source.numbers id 0) : Source Unit (List (Draw ℕ))).trail.value? 0 =
        some [] ∧
      ∀ i, ((Source.power 2 (some 3) (Source.numbers id 0) :
        Source Unit (List (Draw ℕ))).trail.value? i).map (List.map Draw.slot) = some [0, i] := by
  refine ⟨(repeats_power _ 0 (some 3)).empty_iff.2 rfl, fun i => ?_⟩
  have hfits : ∀ m ∈ some 3, Nat.max 1 2 ≤ m := by decide
  have hendless := (repeats_power (Source.numbers id 0 : Source Unit ℕ) 2 (some 3)).endless
    (Trail.size_numbers id 0) hfits i
  rwa [Trail.empties_succ, Nat.zero_add] at hendless

end RegexWords
