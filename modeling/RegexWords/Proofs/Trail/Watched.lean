import Mathlib.Data.List.ReduceOption
import RegexWords.Proofs.ClosedForm
import RegexWords.Proofs.Trail.History

/-!
# Trails under Watch

How far a source is pulled cannot be seen in the values of what is made of it. So the source is
put **under watch**: it does what it did before, but it reports every answer it gives, also that
it has come to its end. What is made of sources under watch has the same values, and its history
is a ledger of the pulls that the parts have seen.

A machine under watch reports also what it is asked after its end, so it is not fused. A source
under watch is one that reports up to its end: what it is asked after that, it answers itself.

Tuples draw a value from one of their parts only when they need it. In the ledger of a product
every part has a label, the part number `i` has the entries with label `i`, and an observer takes
down the values of one part only. By the closed form the history of the parts before it is
nothing to that observer, and neither is the history of those after it.

## Main definitions

* `Pull.watch`, `Source.watched`, `Trail.watched`: a machine, a source and a trail under watch.
* `Trail.first`: the values of the first pulls.
* `Trail.labelled`: trails under watch, each with its position as label.
* `drawnFrom`: the values that a ledger has for one part.

## Main results

* `Trail.drawnFrom_tuples`: **what tuples have drawn** from one of their parts.
* `Trail.OnDemand.tuples`: **what one pull of tuples draws**.
* `Trail.Fused.reduceOption_history_lengths`: **what tuples of increasing length have drawn**.
-/

namespace RegexWords

variable {ε δ α σ : Type}

/-- The machine **under watch**: it reports every answer it gives, in place of its own events. -/
def Pull.watch (report : Option α → δ) (step : σ → Pull ε α σ) (s : σ) : Pull δ α σ :=
  { events := [report (step s).value?], value? := (step s).value?, rest := (step s).rest }

/-- The source **under watch**: it reports every answer it gives up to its end, in place of its own
events. -/
def Source.watched (report : Option α → δ) (s : Source ε α) : Source δ α :=
  boxed s.state (Pull.watch report s.step)

namespace Trail

/-- The trail **under watch**. After the end nothing is asked any more. -/
def watched (report : Option α → δ) (t : Trail ε α) : Trail δ α where
  value? := t.value?
  events
    | 0 => [report (t.value? 0)]
    | n + 1 => if (t.value? n).isSome then [report (t.value? (n + 1))] else []

@[simp] theorem value?_watched (report : Option α → δ) (t : Trail ε α) :
    (t.watched report).value? = t.value? := rfl

@[simp] theorem period_watched (report : Option α → δ) (t : Trail ε α) :
    (t.watched report).period = t.period := rfl

theorem events_watched_succ (report : Option α → δ) (t : Trail ε α) (n : ℕ) :
    (t.watched report).events (n + 1) =
      if (t.value? n).isSome then [report (t.value? (n + 1))] else [] := rfl

/-- What is reported is the answer to the pull. -/
theorem eq_of_mem_events_watched {report : Option α → δ} {t : Trail ε α} {n : ℕ} {e : δ}
    (h : e ∈ (t.watched report).events n) : e = report (t.value? n) := by
  cases n with
  | zero => exact List.mem_singleton.1 h
  | succ n =>
      rw [events_watched_succ] at h
      split at h
      · exact List.mem_singleton.1 h
      · exact absurd h List.not_mem_nil

/-- A watched trail is fused. -/
theorem Fused.watched {t : Trail ε α} (ht : t.Fused) (report : Option α → δ) :
    (t.watched report).Fused where
  value?_succ := ht.value?_succ
  events_succ n hn := by
    have hn' : t.value? n = none := hn
    rw [events_watched_succ, hn']
    rfl

end Trail

namespace Pull

/-- Fusing leaves nothing to ask exactly after a pull without a value. -/
theorem stateAt_fuse_succ_eq_none_iff (step : σ → Pull ε α σ) (s : σ) (n : ℕ) :
    stateAt (fuse step) (n + 1) (some s) = none ↔ (fusedTrail step s).value? n = none := by
  rw [stateAt_succ, value?_trail]
  cases stateAt (fuse step) n (some s) with
  | none => exact iff_of_true rfl rfl
  | some state => exact Option.map_eq_none_iff

/-- **Watching a machine** does not change its trail up to its end, but for the reports. -/
theorem fusedTrail_watch (report : Option α → δ) (step : σ → Pull ε α σ) (s : σ) :
    fusedTrail (watch report step) s = (fusedTrail step s).watched report := by
  have hsame : ∀ rest, (fuse (watch report step) rest).value? = (fuse step rest).value? ∧
      (fuse (watch report step) rest).rest = (fuse step rest).rest := by
    intro rest
    cases rest <;> exact ⟨rfl, rfl⟩
  rw [fusedTrail, trail_of_rest_eq (fuse step) fun rest => (hsame rest).2]
  ext1 <;> funext n
  · exact (hsame _).1
  · cases n with
    | zero => rfl
    | succ n =>
        have hend := stateAt_fuse_succ_eq_none_iff step s n
        rw [Trail.events_watched_succ, value?_trail (fuse step) (some s) (n + 1)]
        dsimp only
        cases hstate : stateAt (fuse step) (n + 1) (some s) with
        | none =>
            rw [hend.1 hstate]
            rfl
        | some state =>
            have hsome : (fusedTrail step s).value? n ≠ none :=
              hend.not.1 (hstate ▸ Option.some_ne_none state)
            rw [if_pos (Option.isSome_iff_ne_none.2 hsome)]
            rfl

/-- Without a fuse a machine under watch reports its end as often as it is asked. -/
example : answers (watch id fun xs : List ℕ => if xs = [] then (done xs : Pull Unit ℕ (List ℕ))
    else yield 1 []) 3 [1] = [(some 1, [some 1]), (none, [none]), (none, [none])] := by decide

end Pull

/-- The source under watch leaves the trail under watch. -/
theorem Source.trail_watched (report : Option α → δ) (s : Source ε α) :
    (s.watched report).trail = s.trail.watched report := by
  have h : (s.watched report).trail = Pull.fusedTrail (Pull.watch report s.step) s.state := rfl
  rw [h, Pull.fusedTrail_watch]
  exact congrArg (Trail.watched report) (s.fused.trail_fuse s.state)

/-! ### The first values -/

namespace Trail

/-- The values of the **first** `n` pulls, as far as there are any. -/
def first (t : Trail ε α) (n : ℕ) : List α :=
  (List.range n).filterMap t.value?

theorem first_zero (t : Trail ε α) : t.first 0 = [] := rfl

/-- One more pull adds its value. -/
theorem first_succ (t : Trail ε α) (n : ℕ) :
    t.first (n + 1) = t.first n ++ (t.value? n).toList := by
  rw [first, List.range_succ, List.filterMap_append, first]
  cases h : t.value? n with
  | none => rw [List.filterMap_cons_none h]; rfl
  | some a => rw [List.filterMap_cons_some h]; rfl

variable {t : Trail ε α}

/-- **The number of first values** is that of the pulls, or that of all values if it is smaller. -/
theorem Fused.length_first (ht : t.Fused) (n : ℕ) : ((t.first n).length : ℕ∞) = min t.size n := by
  induction n with
  | zero => rw [first_zero, Nat.cast_zero, min_eq_right zero_le]; rfl
  | succ n ih =>
      rw [first_succ, List.length_append, Nat.cast_add, ih]
      cases hn : t.value? n with
      | none =>
          have hle := (ht.value?_eq_none_iff_size_le n).1 hn
          have hle' : t.size ≤ (n + 1 : ℕ) := hle.trans (Nat.cast_le.2 (Nat.le_succ n))
          rw [min_eq_left hle, min_eq_left hle']
          exact add_zero t.size
      | some a =>
          have hlt : (n : ℕ∞) < t.size := by
            rw [← not_le, ← ht.value?_eq_none_iff_size_le, hn]
            exact Option.some_ne_none a
          have hle : ((n + 1 : ℕ) : ℕ∞) ≤ t.size := by
            rw [Nat.cast_add, Nat.cast_one]
            exact Order.add_one_le_of_lt hlt
          rw [min_eq_right hlt.le, min_eq_right hle, Nat.cast_add]
          rfl

/-- As long as there are values, each pull has one. -/
theorem Fused.length_first_of_ne_none (ht : t.Fused) {n : ℕ} (hn : t.value? n ≠ none) :
    (t.first n).length = n := by
  rw [ne_eq, ht.value?_eq_none_iff_size_le, not_le] at hn
  exact Nat.cast_injective (R := ℕ∞) (by rw [ht.length_first, min_eq_right hn.le])

/-- A cache holds one value for each number up to its own, or all values if there are fewer. -/
theorem Discovered.size_eq_min {n : ℕ} {values : Array α} (h : t.Discovered n values)
    (ht : t.Fused) : (values.size : ℕ∞) = min t.size (n + 1 : ℕ) := by
  have hiff : ∀ j : ℕ, values.size ≤ j ↔ min t.size (n + 1 : ℕ) ≤ j := by
    intro j
    rw [← Array.getElem?_eq_none_iff, h j, min_le_iff, ← ht.value?_eq_none_iff_size_le, Nat.cast_le]
    split
    · exact ⟨Or.inl, fun h => h.resolve_right (by omega)⟩
    · exact iff_of_true rfl (Or.inr (by omega))
  have hfinite : min t.size (n + 1 : ℕ) ≠ ⊤ :=
    ne_top_of_le_ne_top (ENat.natCast_ne_top (n + 1)) (min_le_right _ _)
  obtain ⟨m, hm⟩ := ENat.ne_top_iff_exists.1 hfinite
  rw [← hm] at hiff ⊢
  have hle := (hiff m).2 le_rfl
  have hge := Nat.cast_le.1 ((hiff values.size).1 le_rfl)
  rw [le_antisymm hle hge]

end Trail

/-! ### Tuples -/

/-- Takes down a value that the part number `i` has given. -/
def note (i : ℕ) (values : List α) (entry : ℕ × Option α) : List α :=
  if entry.1 = i then values ++ entry.2.toList else values

/-- The values that have been **drawn** from the part number `i` according to a ledger, in
order. -/
def drawnFrom (i : ℕ) (ledger : List (ℕ × Option α)) : List α :=
  ledger.foldl (note i) []

/-- Entries of other parts are not taken down. -/
theorem note_of_ne {i : ℕ} {entry : ℕ × Option α} (h : entry.1 ≠ i) (values : List α) :
    note i values entry = values :=
  if_neg h

/-- Entries of the part itself are taken down if they have a value. -/
theorem note_self (i : ℕ) (a? : Option α) (values : List α) :
    note i values (i, a?) = values ++ a?.toList :=
  if_pos rfl

/-- The entries of a ledger that have a value. -/
def valued (ledger : List (ℕ × Option α)) : List (ℕ × Option α) :=
  ledger.filter fun entry => entry.2.isSome

theorem valued_append (ledger ledger' : List (ℕ × Option α)) :
    valued (ledger ++ ledger') = valued ledger ++ valued ledger' :=
  List.filter_append ledger ledger'

namespace Trail

/-- Trails **under watch**, each with its position as label, the first of which is `k`. -/
def labelled (k : ℕ) (ts : List (Trail ε α)) : List (Trail (ℕ × Option α) α) :=
  (ts.zipIdx k).map fun e => e.1.watched (Prod.mk e.2)

theorem labelled_cons (k : ℕ) (t : Trail ε α) (ts : List (Trail ε α)) :
    labelled k (t :: ts) = t.watched (Prod.mk k) :: labelled (k + 1) ts := rfl

/-- Labels go on where those of the trails before end. -/
theorem labelled_append (k : ℕ) (ts us : List (Trail ε α)) :
    labelled k (ts ++ us) = labelled k ts ++ labelled (k + ts.length) us := by
  rw [labelled, List.zipIdx_append, List.map_append]
  rfl

/-- A label is one of the positions. -/
theorem label_mem_range {k : ℕ} {ts : List (Trail ε α)} {u : Trail (ℕ × Option α) α}
    (hu : u ∈ labelled k ts) {n : ℕ} {e : ℕ × Option α} (he : e ∈ u.events n) :
    k ≤ e.1 ∧ e.1 < k + ts.length := by
  obtain ⟨x, hx, rfl⟩ := List.mem_map.1 hu
  rw [eq_of_mem_events_watched he]
  have hlt := List.snd_lt_of_mem_zipIdx hx
  exact ⟨List.le_snd_of_mem_zipIdx hx, by omega⟩

/-- Watching does not change the periods. -/
theorem map_period_labelled (k : ℕ) (ts : List (Trail ε α)) :
    (labelled k ts).map period = ts.map period := by
  induction ts generalizing k with
  | nil => rfl
  | cons t ts ih =>
      rw [labelled_cons, List.map_cons, List.map_cons, ih, period_watched]

/-- Watching does not change the values of tuples. -/
theorem value?_tuples_labelled (k : ℕ) (ts : List (Trail ε α)) :
    (tuples (labelled k ts)).value? = (tuples ts).value? := by
  induction ts generalizing k with
  | nil => rfl
  | cons t ts ih =>
      funext n
      rw [labelled_cons, tuples, tuples, value?_cons, value?_cons, ih, value?_watched,
        period_watched]

/-- There is a first tuple if every trail has a first value. -/
theorem value?_tuples_zero {ts : List (Trail ε α)} (h : ∀ t ∈ ts, t.value? 0 ≠ none) :
    (tuples ts).value? 0 ≠ none := by
  induction ts with
  | nil => exact Option.some_ne_none []
  | cons t ts ih =>
      exact (value?_cons_zero t _).2
        ⟨h t List.mem_cons_self, ih fun u hu => h u (List.mem_cons_of_mem t hu)⟩

/-- **What is seen of tuples** in front of others whose events change nothing. -/
theorem foldl_history_cons_of_inert {ρ : Type} {f : ρ → ε → ρ} {t : Trail ε α}
    {u : Trail ε (List α)} (hu : ∀ n, ∀ e ∈ u.events n, ∀ r, f r e = r)
    (h0 : (cons t u).value? 0 ≠ none) (n : ℕ) (r : ρ) :
    ((cons t u).history n).foldl f r = (t.history n).foldl f r := by
  induction n with
  | zero => rfl
  | succ n ih =>
      rw [history_succ, history_succ, List.foldl_append, List.foldl_append, ih,
        events_cons_of_ne_none h0, List.foldl_append]
      split
      · exact foldl_eq_self (hu _) _
      · rfl

/-- A trail under watch has given its first values. -/
theorem drawnFrom_history_watched {t : Trail ε α} (ht : t.Fused) (i : ℕ) (n : ℕ) :
    drawnFrom i ((t.watched (Prod.mk i)).history n) = t.first n := by
  rw [drawnFrom]
  induction n with
  | zero => rfl
  | succ n ih =>
      rw [history_succ, List.foldl_append, ih, first_succ]
      cases n with
      | zero => exact note_self i _ _
      | succ n =>
          rw [events_watched_succ]
          split
          · exact note_self i _ _
          · next hend =>
            rw [ht.value?_succ n (Option.not_isSome_iff_eq_none.1 hend)]
            exact (List.append_nil _).symm

/-- **What tuples have drawn** from one of their parts after `n` further tuples: its first values,
one for each time it was turned, and one from the beginning. -/
theorem drawnFrom_tuples {ts us : List (Trail ε α)} {t : Trail ε α} (ht : t.Fused)
    (h0 : ∀ u ∈ ts ++ t :: us, u.value? 0 ≠ none) (n : ℕ) :
    drawnFrom ts.length ((tuples (labelled 0 (ts ++ t :: us))).history (n + 1)) =
      t.first (n / (ts.map period).prod + 1) := by
  have hfirst : (tuples (labelled 0 (ts ++ t :: us))).value? 0 ≠ none := by
    rw [value?_tuples_labelled]
    exact value?_tuples_zero h0
  rw [labelled_append, labelled_cons, Nat.zero_add] at hfirst ⊢
  -- who takes down this part passes over those before it and after it, by their labels
  have hlower : ∀ u ∈ labelled 0 ts, ∀ n, ∀ e ∈ u.events n, ∀ values,
      note ts.length values e = values := by
    intro u hu n e he
    have hlt := (label_mem_range hu he).2
    exact note_of_ne (by omega)
  rw [drawnFrom, foldl_history_append (fun u hu n => hlower u hu (n + 1)) ?first hfirst,
    map_period_labelled, tuples,
    foldl_history_cons_of_inert ?upper (value?_tuples_zero_of_append hfirst)]
  · exact drawnFrom_history_watched ht ts.length _
  case first => exact fun u hu => foldl_eq_self (hlower u hu 0) _
  case upper =>
    intro n e he
    obtain ⟨u, hu, m, hm⟩ := reports_tuples ⟨n, he⟩
    have hle := (label_mem_range hu hm).1
    exact note_of_ne (by omega)

/-- After the first pull a trail under watch has drawn the value that it gives. -/
theorem Fused.valued_events_watched {t : Trail ε α} (ht : t.Fused) (k n : ℕ) :
    valued ((t.watched (Prod.mk k)).events (n + 1)) =
      if t.value? (n + 1) = none then [] else [(k, t.value? (n + 1))] := by
  rw [events_watched_succ]
  cases hn : t.value? n with
  | none =>
      rw [ht.value?_succ n hn]
      rfl
  | some a => cases t.value? (n + 1) <;> rfl

/-- The tuples `u`, whose parts have the labels from `k` on, draw values **on demand**: after the
first pull, which asks all parts, a pull draws no value or one, and shows it in its tuple. -/
def OnDemand (k : ℕ) (u : Trail (ℕ × Option α) (List α)) : Prop :=
  ∀ n, valued (u.events (n + 1)) = [] ∨ ∃ i v tuple, valued (u.events (n + 1)) = [(k + i, some v)] ∧
    u.value? (n + 1) = some tuple ∧ tuple[i]? = some v

/-- **One more part** keeps it so. As long as the part has new values the others are not asked, and
whenever they are asked the part begins anew. -/
theorem OnDemand.cons {t : Trail ε α} {k : ℕ} {u : Trail (ℕ × Option α) (List α)}
    (hu : OnDemand (k + 1) u) (ht : t.Fused) (ht0 : t.value? 0 ≠ none) (hu0 : u.value? 0 ≠ none) :
    OnDemand k (Trail.cons (t.watched (Prod.mk k)) u) := by
  intro n
  rw [events_cons_of_ne_none ((value?_cons_zero _ u).2 ⟨ht0, hu0⟩), valued_append,
    ht.valued_events_watched, value?_cons, period_watched, value?_watched]
  cases hnew : t.value? (n + 1) with
  | some v =>
      -- the part is in its first round, so the others show their first tuple
      obtain ⟨hmod, hdiv⟩ := ht.mod_period_eq (hnew ▸ Option.some_ne_none v)
      obtain ⟨tuple, htuple⟩ := Option.ne_none_iff_exists'.1 hu0
      refine Or.inr ⟨0, v, v :: tuple, ?_, ?_, rfl⟩
      · rw [hmod]
        rfl
      · rw [hmod, hdiv, hnew, htuple]
        rfl
  | none =>
      rw [if_pos rfl, List.nil_append]
      by_cases hmod : (n + 1) % t.period = 0
      · -- the others are pulled, and not for the first time
        obtain ⟨m, hm⟩ := Nat.exists_eq_succ_of_ne_zero (div_pos_of_mod_eq_zero hmod).ne'
        obtain ⟨a, ha⟩ := Option.ne_none_iff_exists'.1 ht0
        rw [if_pos hmod, hmod, hm, ha]
        rcases hu m with hnone | ⟨i, v, tuple, hvalued, htuple, hv⟩
        · exact Or.inl hnone
        · refine Or.inr ⟨i + 1, v, a :: tuple, ?_, ?_, hv⟩
          · rw [hvalued, Nat.add_assoc, Nat.add_comm 1 i]
          · rw [htuple]
            rfl
      · exact Or.inl (by rw [if_neg hmod]; rfl)

/-- **Tuples draw on demand.** -/
theorem OnDemand.tuples {ts : List (Trail ε α)} (ht : ∀ t ∈ ts, t.Fused)
    (h0 : ∀ t ∈ ts, t.value? 0 ≠ none) (k : ℕ) : OnDemand k (Trail.tuples (labelled k ts)) := by
  induction ts generalizing k with
  | nil => exact fun n => Or.inl rfl
  | cons t ts ih =>
      have hrest : ∀ u ∈ ts, u.value? 0 ≠ none := fun u hu => h0 u (List.mem_cons_of_mem t hu)
      have hu0 : (Trail.tuples (labelled (k + 1) ts)).value? 0 ≠ none := by
        rw [value?_tuples_labelled]
        exact value?_tuples_zero hrest
      exact (ih (fun u hu => ht u (List.mem_cons_of_mem t hu)) hrest (k + 1)).cons
        (ht t List.mem_cons_self) (h0 t List.mem_cons_self) hu0

/-! ### Tuples of increasing length -/

variable {t : Trail ε α} {length : ℕ}

/-- The values among the answers under watch are those of the trail. -/
theorem Fused.reduceOption_events_watched (ht : t.Fused) (n : ℕ) :
    ((t.watched id).events n).reduceOption = (t.value? n).toList := by
  cases n with
  | zero => exact List.reduceOption_singleton _
  | succ n =>
      rw [events_watched_succ]
      split
      · exact List.reduceOption_singleton _
      · next hend =>
        rw [ht.value?_succ n (Option.not_isSome_iff_eq_none.1 hend)]
        rfl

theorem events_lengths (length : ℕ) (max : Option ℕ) (t : Trail ε α) (n : ℕ) :
    (lengths length max t).events n =
      if Repetition.tooLong max (place t.period length (n - 1)).1 ∨ n ≠ 0 ∧ t.value? 0 = none then
        []
      else t.events n := rfl

/-- **The value that one pull draws** for a tuple of increasing length: that with the number of
the tuple, if there is one. -/
theorem Fused.reduceOption_events_lengths (ht : t.Fused) (hlength : 0 < length) (max : Option ℕ)
    (n : ℕ) : ((Trail.lengths length max (t.watched id)).events n).reduceOption =
      if (Trail.lengths length max t).value? n = none then [] else (t.value? n).toList := by
  have hiff := ht.value?_lengths_eq_none_iff hlength max n
  rw [events_lengths, period_watched, value?_watched]
  cases hn : t.value? n with
  | none =>
      have hnil := ht.reduceOption_events_watched n
      rw [hn] at hnil
      rw [Option.toList_none, ite_self]
      split
      · rfl
      · exact hnil
  | some v =>
      -- new values come with tuples of the first length, so this tuple and the one before have it
      have hne : ∀ m ≤ n, t.value? m ≠ none := fun m hm hc => by
        rw [ht.value?_eq_none hm hc] at hn
        exact Option.some_ne_none v hn.symm
      have h0 := hne 0 (Nat.zero_le n)
      rw [place_of_value? ht (hne n le_rfl) hlength] at hiff
      rw [place_of_value? ht (hne (n - 1) (Nat.sub_le n 1)) hlength]
      by_cases hlong : Repetition.tooLong max length
      · rw [if_pos (Or.inl hlong), if_pos (hiff.2 (Or.inl hlong))]
        rfl
      · rw [if_neg (not_or.2 ⟨hlong, fun h => h0 h.2⟩), if_neg (hiff.not.2 (not_or.2 ⟨hlong, h0⟩)),
          ht.reduceOption_events_watched, hn]

/-- **What tuples of increasing length have drawn**: as many first values as there were tuples. -/
theorem Fused.reduceOption_history_lengths (ht : t.Fused) (hlength : 0 < length) (max : Option ℕ)
    (n : ℕ) : ((Trail.lengths length max (t.watched id)).history n).reduceOption =
      t.first ((Trail.lengths length max t).first n).length := by
  induction n with
  | zero => rfl
  | succ n ih =>
      rw [history_succ, List.reduceOption_append, ih, ht.reduceOption_events_lengths hlength,
        first_succ, List.length_append]
      cases hn : (Trail.lengths length max t).value? n with
      | none => exact List.append_nil _
      | some ds =>
          have hne : (Trail.lengths length max t).value? n ≠ none := hn ▸ Option.some_ne_none ds
          rw [(ht.lengths hlength max).length_first_of_ne_none hne, if_neg (Option.some_ne_none ds)]
          exact (first_succ t n).symm

/-- **A drawn value is used** in the tuple it was drawn for. -/
theorem Fused.exists_mem_of_mem_events_lengths (ht : t.Fused) (hlength : 0 < length)
    {max : Option ℕ} {n : ℕ} {v : α}
    (h : some v ∈ (Trail.lengths length max (t.watched id)).events n) :
    ∃ ds, (Trail.lengths length max t).value? n = some ds ∧ v ∈ ds.map Draw.value := by
  rw [← List.reduceOption_mem_iff, ht.reduceOption_events_lengths hlength] at h
  split at h
  · exact absurd h List.not_mem_nil
  · next hne =>
    have hn : t.value? n = some v := Option.mem_toList.1 h
    obtain ⟨ds, hds⟩ := Option.ne_none_iff_exists'.1 hne
    have hplace := place_of_value? ht (hn ▸ Option.some_ne_none v) hlength
    have hmod := (ht.mod_period_eq (n := n) (hn ▸ Option.some_ne_none v)).1
    obtain ⟨l, rfl⟩ := Nat.exists_eq_succ_of_ne_zero hlength.ne'
    have hdraws := hds
    rw [value?_lengths, hplace] at hdraws
    split at hdraws
    · exact absurd hdraws.symm (Option.some_ne_none ds)
    obtain ⟨hslots, hvalues⟩ := slots_of_mapM hdraws
    have hmem : n ∈ ds.map Draw.slot := by
      rw [hslots, List.mem_reverse, digits, hmod]
      exact List.mem_cons_self
    obtain ⟨d, hd, rfl⟩ := List.mem_map.1 hmem
    obtain rfl := Option.some.inj (hn.symm.trans (hvalues d hd))
    exact ⟨ds, hds, List.mem_map_of_mem hd⟩

/-- **The end comes last.** After the end of its trail a source under watch is not asked again. -/
theorem Fused.pairwise_history_watched (ht : t.Fused) (n : ℕ) :
    ((t.watched id).history n).Pairwise fun earlier _ => earlier ≠ none := by
  induction n with
  | zero => exact List.Pairwise.nil
  | succ n ih =>
      rw [history_succ, List.pairwise_append]
      refine ⟨ih, ?single, ?earlier⟩
      case single =>
        cases n with
        | zero => exact List.pairwise_singleton _ _
        | succ n =>
            rw [events_watched_succ]
            split
            · exact List.pairwise_singleton _ _
            · exact List.Pairwise.nil
      case earlier =>
        intro a ha b hb hnone
        obtain ⟨m, hm, ham⟩ := List.mem_flatMap.1 ha
        rw [eq_of_mem_events_watched ham] at hnone
        have hlt := List.mem_range.1 hm
        rw [(ht.watched id).events_eq_nil hlt hnone] at hb
        exact absurd hb List.not_mem_nil

/-- What tuples of increasing length report is part of what their trail reports. -/
theorem history_lengths_sublist (length : ℕ) (max : Option ℕ) (t : Trail ε α) (n : ℕ) :
    ((lengths length max t).history n).Sublist (t.history n) := by
  induction n with
  | zero => exact List.Sublist.refl _
  | succ n ih =>
      rw [history_succ, history_succ, events_lengths]
      split
      · exact ih.append (List.nil_sublist _)
      · exact ih.append (List.Sublist.refl _)

end Trail

end RegexWords
