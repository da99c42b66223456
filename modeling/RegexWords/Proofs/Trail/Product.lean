import RegexWords.Proofs.Trail

/-!
# The Trail of the Odometer

The odometer pairs the trails of its sources like a counter whose position `0` turns fastest.
Its tuple number `n` has the value number `n % p` of the first source, where `p` is the period
of that source, and the tuple number `n / p` of the others. If the first source never ends then
`p = 0`, so the quotient stays `0` and the remainder is `n` itself: one formula serves finite
and endless sources.

The counter discovers the values of its sources while it runs. What keeps it right is the
invariant `Odometer.At`: after `n` further tuples a wheel has discovered the values up to number
`n`, as far as there are any, and shows number `n % p`, and the wheels above it stand as after
`n / p` further tuples. A source that has ended is asked again and again, so the sources have to be
fused.

## Main results

* `Trail.Fused.tuples`: the tuples of fused trails are fused.
* `Odometer.fused_pull`: the odometer is fused, whatever its sources do after their ends.
* `Odometer.At.advances`: **one step of the counter** keeps the invariant.
* `Odometer.trail_pull`: **the closed form of the odometer**, in values and in events.
-/

namespace RegexWords

variable {ε σ α : Type}

namespace Trail

/-- The value of one trail before the tuples of another, the values turning fastest. The events
of the tuples come when the values begin anew. -/
noncomputable def cons (t : Trail ε α) (u : Trail ε (List α)) : Trail ε (List α) where
  value? n := do
    let a ← t.value? (n % t.period)
    let as ← u.value? (n / t.period)
    return a :: as
  events n :=
    if n ≠ 0 ∧ u.value? 0 = none then []
    else t.events n ++
      if t.value? 0 ≠ none ∧ n % t.period = 0 then u.events (n / t.period) else []

/-- The tuples of one value of each trail, position `0` turning fastest. -/
noncomputable def tuples : List (Trail ε α) → Trail ε (List α)
  | [] => items [[]]
  | t :: ts => cons t (tuples ts)

/-- The trail of the **product** of several trails. Without trails there are no tuples. -/
noncomputable def product : List (Trail ε α) → Trail ε (List α)
  | [] => items []
  | t :: ts => tuples (t :: ts)

/-- The product of some trails has their tuples. -/
theorem product_eq_tuples {ts : List (Trail ε α)} (h : ts ≠ []) : product ts = tuples ts := by
  cases ts with
  | nil => exact absurd rfl h
  | cons t ts => rfl

theorem value?_cons (t : Trail ε α) (u : Trail ε (List α)) (n : ℕ) :
    (cons t u).value? n = (t.value? (n % t.period)).bind fun a =>
      (u.value? (n / t.period)).bind fun as => some (a :: as) := rfl

theorem events_cons (t : Trail ε α) (u : Trail ε (List α)) (n : ℕ) :
    (cons t u).events n = if n ≠ 0 ∧ u.value? 0 = none then []
      else t.events n ++
        if t.value? 0 ≠ none ∧ n % t.period = 0 then u.events (n / t.period) else [] := rfl

/-- The items of a list are a fused trail. -/
theorem fused_items (values : List α) : (items values : Trail ε α).Fused where
  value?_succ n h := by
    simp only [value?_items, List.getElem?_eq_none_iff] at h ⊢
    omega
  events_succ _ _ := rfl

/-- One more trail keeps tuples fused. -/
theorem Fused.cons {t : Trail ε α} {u : Trail ε (List α)} (ht : t.Fused) (hu : u.Fused) :
    (cons t u).Fused := by
  by_cases h0 : t.value? 0 = none
  · have hall : ∀ n, t.value? n = none := fun n => ht.value?_eq_none (Nat.zero_le n) h0
    refine ⟨fun n _ => ?_, fun n _ => ?_⟩
    · simp [Trail.cons, hall]
    · simp [Trail.cons, h0, ht.events_eq_nil (Nat.succ_pos n) h0]
  · have hvalue : ∀ n, (Trail.cons t u).value? n = none ↔ u.value? (n / t.period) = none := by
      intro n
      obtain ⟨a, ha⟩ := Option.ne_none_iff_exists'.1 (ht.value?_mod_period_ne_none h0 n)
      rw [value?_cons, ha, Option.bind_some]
      cases u.value? (n / t.period) <;> simp
    refine ⟨fun n hn => ?_, fun n hn => ?_⟩
    · rw [hvalue] at hn ⊢
      exact hu.value?_eq_none (Nat.div_le_div_right (Nat.le_succ n)) hn
    · rw [hvalue] at hn
      rw [events_cons]
      split
      · rfl
      · next hu0 =>
        have hdiv : 0 < n / t.period := by
          by_contra hc
          have hzero : n / t.period = 0 := Nat.eq_zero_of_not_pos hc
          exact hu0 ⟨Nat.succ_ne_zero n, hzero ▸ hn⟩
        rw [ht.events_succ n (ht.value?_eq_none_of_div_pos hdiv), List.nil_append]
        split
        · next hmod =>
          rw [Nat.succ_div_of_mod_eq_zero hmod.2]
          exact hu.events_succ _ hn
        · rfl

/-- Tuples from fused trails are fused. -/
theorem Fused.tuples {ts : List (Trail ε α)} (h : ∀ t ∈ ts, t.Fused) : (tuples ts).Fused := by
  induction ts with
  | nil => exact fused_items _
  | cons t ts ih =>
      exact (h t List.mem_cons_self).cons (ih fun u hu => h u (List.mem_cons_of_mem t hu))

end Trail

/-! ### The counter -/

/-- A wheel of the source `s` after `n` further tuples: it has discovered the values up to number
`n` and shows number `n` modulo the period. -/
structure Wheel.At (step : σ → Pull ε α σ) (s : σ) (n : ℕ) (w : Wheel σ α) : Prop where
  source_eq : w.source = Pull.stateAt step (n + 1) s
  discovered : (Pull.trail step s).Discovered n w.values
  cursor_eq : w.cursor = n % (Pull.trail step s).period

namespace Wheel.At

/-- The wheel that has its first value. -/
theorem single {step : σ → Pull ε α σ} {s : σ} {v : α} (h : (step s).value? = some v) :
    (Wheel.single v (step s).rest).At step s 0 :=
  ⟨rfl, Trail.Discovered.single h, (Nat.zero_mod _).symm⟩

variable {step : σ → Pull ε α σ} {s : σ} {n : ℕ} {w : Wheel σ α}

/-- The next pull of the source of a wheel is the one that its trail has there. -/
theorem value?_source (h : w.At step s n) :
    (step w.source).value? = (Pull.trail step s).value? (n + 1) := by
  rw [h.source_eq]
  rfl

theorem events_source (h : w.At step s n) :
    (step w.source).events = (Pull.trail step s).events (n + 1) := by
  rw [h.source_eq]
  rfl

theorem rest_source (h : w.At step s n) :
    (step w.source).rest = Pull.stateAt step (n + 1 + 1) s := by
  rw [h.source_eq, Pull.stateAt_succ step (n + 1)]

/-- The source of a wheel that had ended before stays where it is. -/
theorem rest_source_eq (hstep : Pull.Fused step) (h : w.At step s n)
    (hn : (Pull.trail step s).value? n = none) : (step w.source).rest = w.source := by
  rw [h.rest_source, h.source_eq, hstep.stateAt_succ_eq hn]

/-- The value that the wheel shows. -/
theorem value?_mod (h : w.At step s n) :
    (Pull.trail step s).value? (n % (Pull.trail step s).period) = some w.value := by
  have hlt := w.cursor_lt
  rw [← h.discovered.getElem?_eq (Nat.mod_le _ _), ← h.cursor_eq]
  simp only [Array.getElem?_eq_getElem hlt, Wheel.value]

/-- The source of a wheel has a first value. -/
theorem value?_zero (h : w.At step s n) : (Pull.trail step s).value? 0 ≠ none :=
  h.discovered.value?_zero (Nat.zero_lt_of_lt w.cursor_lt)

/-- A wheel shows its newest value while its source has another one. -/
theorem turn?_eq_none (hstep : Pull.Fused step) (h : w.At step s n)
    (hn : (Pull.trail step s).value? (n + 1) ≠ none) : w.turn? = none := by
  have hlast : (Pull.trail step s).value? n ≠ none := fun hc =>
    hn ((hstep.trail s).value?_succ n hc)
  have hmod := ((hstep.trail s).mod_period_eq hlast).1
  have hsize := h.discovered.size_eq hlast
  have hcursor := h.cursor_eq
  rw [Wheel.turn?, dif_neg (by omega)]

/-- A wheel that got another value stands one step further. -/
theorem push (hstep : Pull.Fused step) (h : w.At step s n) {v : α}
    (hvalue : (step w.source).value? = some v) :
    (Wheel.push { w with source := (step w.source).rest } v).At step s (n + 1) := by
  have hfused := hstep.trail s
  have hnew : (Pull.trail step s).value? (n + 1) = some v := by
    rw [← h.value?_source, hvalue]
  have hpush := h.discovered.push hfused hnew
  have hcursor : (Wheel.push { w with source := (step w.source).rest } v).cursor =
      (w.values.push v).size - 1 := rfl
  refine ⟨h.rest_source, hpush, ?_⟩
  rw [hcursor, hpush.size_eq (by simp [hnew]),
    (hfused.mod_period_eq (n := n + 1) (by simp [hnew])).1, Nat.add_sub_cancel]

/-- A wheel whose source has ended turns, unless it comes to the end of a round. -/
theorem turn?_eq_some (hstep : Pull.Fused step) (h : w.At step s n)
    (hn : (Pull.trail step s).value? (n + 1) = none)
    (hmod : (n + 1) % (Pull.trail step s).period ≠ 0) :
    ∃ w', w.turn? = some w' ∧ w'.At step s (n + 1) := by
  have hfused := hstep.trail s
  have hsize := h.discovered.size_eq_period hfused hn
  have hlt : w.cursor + 1 < w.values.size := by
    rw [h.cursor_eq, ← Trail.succ_mod_eq hmod, hsize]
    exact Nat.mod_lt _ (hsize ▸ Nat.zero_lt_of_lt w.cursor_lt)
  have hsource : w.source = Pull.stateAt step (n + 1 + 1) s := by
    rw [← h.rest_source, h.rest_source_eq hstep (hfused.value?_eq_none_of_mod hn hmod)]
  have hcursor : w.cursor + 1 = (n + 1) % (Pull.trail step s).period := by
    rw [Trail.succ_mod_eq hmod, h.cursor_eq]
  exact ⟨_, dif_pos hlt, hsource, h.discovered.succ hn, hcursor⟩

/-- A wheel at the end of a round cannot turn. -/
theorem turn?_eq_none_of_mod (hstep : Pull.Fused step) (h : w.At step s n)
    (hn : (Pull.trail step s).value? (n + 1) = none)
    (hmod : (n + 1) % (Pull.trail step s).period = 0) : w.turn? = none := by
  have hlast := Trail.mod_add_one_eq hmod
  rw [Wheel.turn?, dif_neg]
  rw [h.discovered.size_eq_period (hstep.trail s) hn, h.cursor_eq]
  omega

/-- A wheel whose source has ended stands one step further when it begins a new round. -/
theorem rewind (h : w.At step s n) (hn : (Pull.trail step s).value? (n + 1) = none)
    (hmod : (n + 1) % (Pull.trail step s).period = 0) :
    (Wheel.rewind { w with source := (step w.source).rest }).At step s (n + 1) where
  source_eq := h.rest_source
  discovered := h.discovered.succ hn
  cursor_eq := hmod.symm

end Wheel.At

namespace Odometer

/-- The wheels of several sources after `n` further tuples. The wheels above the first stand as
after as many further tuples as the first one has gone around. -/
inductive At (step : σ → Pull ε α σ) : List σ → ℕ → List (Wheel σ α) → Prop
  | nil : At step [] 0 []
  | cons {s : σ} {ss : List σ} {n : ℕ} {w : Wheel σ α} {ws : List (Wheel σ α)} :
      w.At step s n → At step ss (n / (Pull.trail step s).period) ws →
      At step (s :: ss) n (w :: ws)

/-- The trails of several states of one machine. -/
abbrev trails (step : σ → Pull ε α σ) (ss : List σ) : List (Trail ε α) :=
  ss.map (Pull.trail step)

/-- One step of the counter: the ordinary one if there is one, else the one that asks for a new
value. -/
def advance (step : σ → Pull ε α σ) (ws : List (Wheel σ α)) :
    List ε × Option (List (Wheel σ α)) :=
  match turn ws with
  | some ws => ([], some ws)
  | none => extend step ws

/-- A pull of a running odometer shows the wheels one step further. -/
theorem pull_running (step : σ → Pull ε α σ) (ws : List (Wheel σ α)) :
    pull step (running ws) = show? (advance step ws) := by
  cases h : turn ws <;> simp only [pull, advance, h]

/-- What an odometer shows without a value is its end. -/
theorem show?_eq_ended {p : List ε × Option (List (Wheel σ α))} (h : (show? p).value? = none) :
    (show? p).rest = ended := by
  obtain ⟨events, wheels⟩ := p
  cases wheels with
  | none => rfl
  | some ws => cases h

/-- **The odometer is fused**, even over machines that go on after their ends: at its own end it
forgets them. -/
theorem fused_pull (step : σ → Pull ε α σ) : Pull.Fused (pull step) := by
  intro o hend
  have hrest : (pull step o).rest = ended := by
    cases o with
    | unseeded sources =>
        cases sources with
        | nil => rfl
        | cons s ss => exact show?_eq_ended hend
    | running ws =>
        rw [pull_running] at hend ⊢
        exact show?_eq_ended hend
    | ended => rfl
  rw [hrest]
  rfl

variable {step : σ → Pull ε α σ} {ss : List σ} {n : ℕ} {ws : List (Wheel σ α)}

/-- The wheels show the tuple whose number they have. -/
theorem At.value?_tuples (h : At step ss n ws) :
    (Trail.tuples (trails step ss)).value? n = some (ws.map Wheel.value) := by
  induction h with
  | nil => rfl
  | cons hw _ ih =>
      rw [trails, List.map_cons, Trail.tuples, Trail.value?_cons, hw.value?_mod, ih]
      rfl

/-- Where there are wheels there is a first tuple. -/
theorem At.value?_tuples_zero (h : At step ss n ws) :
    (Trail.tuples (trails step ss)).value? 0 ≠ none := by
  induction h with
  | nil => simp [Trail.tuples]
  | cons hw _ ih =>
      obtain ⟨a, ha⟩ := Option.ne_none_iff_exists'.1 hw.value?_zero
      obtain ⟨as, has⟩ := Option.ne_none_iff_exists'.1 ih
      simp [Trail.tuples, Trail.cons, ha, has]

/-- At the first tuple every wheel shows its only value, so none can turn. -/
theorem At.turn_eq_none (h : At step ss n ws) (hn : n = 0) : turn ws = none := by
  induction h with
  | nil => rfl
  | @cons s ss n w ws hw _ ih =>
      subst hn
      have hsize := hw.discovered.size_eq hw.value?_zero
      have hturn : w.turn? = none := by
        rw [Wheel.turn?, dif_neg (by omega)]
      rw [turn, hturn, ih (Nat.zero_div _)]
      rfl

/-- Asking for a new value, wheel by wheel. -/
theorem extend_cons (step : σ → Pull ε α σ) (w : Wheel σ α) (ws : List (Wheel σ α)) :
    extend step (w :: ws) = match (step w.source).value? with
      | some v => ((step w.source).events,
          some (Wheel.push { w with source := (step w.source).rest } v :: ws))
      | none => ((step w.source).events ++ (extend step ws).1,
          (extend step ws).2.map
            (Wheel.rewind { w with source := (step w.source).rest } :: ·)) := rfl

/-- What one step of the counter should do to the wheels after `n` further tuples: it comes to
those after `n + 1`, with the events that the closed form has there, or there is no such tuple. -/
structure Advances (step : σ → Pull ε α σ) (ss : List σ) (n : ℕ) (ws : List (Wheel σ α)) :
    Prop where
  events_eq : (advance step ws).1 = (Trail.tuples (trails step ss)).events (n + 1)
  at_of_eq_some : ∀ ws', (advance step ws).2 = some ws' → At step ss (n + 1) ws'
  value?_of_eq_none : (advance step ws).2 = none →
    (Trail.tuples (trails step ss)).value? (n + 1) = none

variable {s : σ} {w : Wheel σ α}

/-- The events of the next step: those of the first source, and at the end of a round those of
the others. -/
theorem events_tuples_cons (hw : w.At step s n)
    (hws : At step ss (n / (Pull.trail step s).period) ws) :
    (Trail.tuples (trails step (s :: ss))).events (n + 1) =
      (Pull.trail step s).events (n + 1) ++
        if (n + 1) % (Pull.trail step s).period = 0 then
          (Trail.tuples (trails step ss)).events ((n + 1) / (Pull.trail step s).period)
        else [] := by
  simp [Trail.tuples, Trail.cons, hws.value?_tuples_zero, hw.value?_zero]

/-- While the first source has new values, the step takes the next of them, and the other wheels
stay at their first tuple. -/
theorem Advances.cons_of_new (hstep : Pull.Fused step) (hw : w.At step s n)
    (hws : At step ss (n / (Pull.trail step s).period) ws) {v : α}
    (hnew : (Pull.trail step s).value? (n + 1) = some v) :
    Advances step (s :: ss) n (w :: ws) := by
  have hfused := hstep.trail s
  have hlast : (Pull.trail step s).value? n ≠ none := fun hc =>
    absurd (hfused.value?_succ n hc) (by simp [hnew])
  have hmod := hfused.mod_period_eq (n := n + 1) (by simp [hnew])
  have hdiv := (hfused.mod_period_eq hlast).2
  have hturn : turn (w :: ws) = none := by
    rw [turn, hw.turn?_eq_none hstep (by simp [hnew]), hws.turn_eq_none hdiv]
    rfl
  have hvalue : (step w.source).value? = some v := by
    rw [hw.value?_source, hnew]
  have hadvance : advance step (w :: ws) = ((step w.source).events,
      some (Wheel.push { w with source := (step w.source).rest } v :: ws)) := by
    simp only [advance, hturn, extend_cons, hvalue]
  refine ⟨?_, ?_, by simp [hadvance]⟩
  · rw [hadvance, events_tuples_cons hw hws, hmod.1, if_neg (Nat.succ_ne_zero n),
      List.append_nil, hw.events_source]
  · rw [hadvance]
    rintro _ ⟨⟩
    refine At.cons (hw.push hstep hvalue) ?_
    rw [hmod.2, ← hdiv]
    exact hws

/-- Within a round of the first source, the step turns its wheel only. -/
theorem Advances.cons_of_turn (hstep : Pull.Fused step) (hw : w.At step s n)
    (hws : At step ss (n / (Pull.trail step s).period) ws)
    (hend : (Pull.trail step s).value? (n + 1) = none)
    (hmod : (n + 1) % (Pull.trail step s).period ≠ 0) :
    Advances step (s :: ss) n (w :: ws) := by
  have hfused := hstep.trail s
  obtain ⟨w', hturn, hw'⟩ := hw.turn?_eq_some hstep hend hmod
  have hadvance : advance step (w :: ws) = ([], some (w' :: ws)) := by
    simp only [advance, turn, hturn]
  refine ⟨?_, ?_, by simp [hadvance]⟩
  · rw [hadvance, events_tuples_cons hw hws, if_neg hmod,
      hfused.events_succ n (hfused.value?_eq_none_of_mod hend hmod)]
    rfl
  · rw [hadvance]
    rintro _ ⟨⟩
    refine At.cons hw' ?_
    rw [Nat.succ_div_of_mod_ne_zero hmod]
    exact hws

/-- A step that turns the wheels above one at the end of its round, or asks above it, is the step
of those above with that one rewound. If it is not asked, its source had ended before, so that
asking would change nothing. -/
theorem advance_cons_of_round (hstep : Pull.Fused step) (hw : w.At step s n)
    (hws : At step ss (n / (Pull.trail step s).period) ws)
    (hend : (Pull.trail step s).value? (n + 1) = none)
    (hmod : (n + 1) % (Pull.trail step s).period = 0) :
    advance step (w :: ws) =
      ((Pull.trail step s).events (n + 1) ++ (advance step ws).1,
        (advance step ws).2.map
          (Wheel.rewind { w with source := (step w.source).rest } :: ·)) := by
  have hfused := hstep.trail s
  have hstuck := hw.turn?_eq_none_of_mod hstep hend hmod
  cases hturn : turn ws with
  | some ws' =>
      have hrounds : 0 < n / (Pull.trail step s).period := by
        by_contra hc
        rw [hws.turn_eq_none (Nat.eq_zero_of_not_pos hc)] at hturn
        simp at hturn
      have hended := hfused.value?_eq_none_of_div_pos hrounds
      simp [advance, turn, hstuck, hturn, hfused.events_succ n hended,
        hw.rest_source_eq hstep hended]
  | none =>
      have hvalue : (step w.source).value? = none := by
        rw [hw.value?_source, hend]
      simp only [advance, turn, hstuck, hturn, Option.map_none, extend_cons, hvalue,
        hw.events_source]

/-- At the end of a round of the first source, the step begins a new round and the other wheels
go one step further. -/
theorem Advances.cons_of_round (hstep : Pull.Fused step) (hw : w.At step s n)
    (hws : At step ss (n / (Pull.trail step s).period) ws)
    (ih : Advances step ss (n / (Pull.trail step s).period) ws)
    (hend : (Pull.trail step s).value? (n + 1) = none)
    (hmod : (n + 1) % (Pull.trail step s).period = 0) :
    Advances step (s :: ss) n (w :: ws) := by
  have hdiv : (n + 1) / (Pull.trail step s).period =
      n / (Pull.trail step s).period + 1 := Nat.succ_div_of_mod_eq_zero hmod
  have hadvance := advance_cons_of_round hstep hw hws hend hmod
  refine ⟨?_, ?_, ?_⟩
  · rw [hadvance, events_tuples_cons hw hws, if_pos hmod, hdiv, ih.events_eq]
  · intro ws' hws'
    rw [hadvance] at hws'
    obtain ⟨ws'', hws'', rfl⟩ := Option.map_eq_some_iff.1 hws'
    refine At.cons (hw.rewind hend hmod) ?_
    rw [hdiv]
    exact ih.at_of_eq_some ws'' hws''
  · intro hnone
    rw [hadvance] at hnone
    have h := ih.value?_of_eq_none (Option.map_eq_none_iff.1 hnone)
    simp [Trail.tuples, Trail.cons, hdiv, h]

/-- **The step of the counter.** Wheels after `n` further tuples advance as they should. -/
theorem At.advances (hstep : Pull.Fused step) (h : At step ss n ws) : Advances step ss n ws := by
  induction h with
  | nil => exact ⟨rfl, by simp [advance, turn, extend], fun _ => rfl⟩
  | @cons s ss n w ws hw hws ih =>
      cases hnew : (Pull.trail step s).value? (n + 1) with
      | some v => exact Advances.cons_of_new hstep hw hws hnew
      | none =>
          by_cases hmod : (n + 1) % (Pull.trail step s).period = 0
          · exact Advances.cons_of_round hstep hw hws ih hnew hmod
          · exact Advances.cons_of_turn hstep hw hws hnew hmod

/-! ### The whole run -/

/-- Asking every source for its first value gives the wheels of the first tuple, or there is
none. -/
theorem seed_eq (step : σ → Pull ε α σ) (ss : List σ) :
    (seed step ss).1 = (Trail.tuples (trails step ss)).events 0 ∧
      (∀ ws, (seed step ss).2 = some ws → At step ss 0 ws) ∧
      ((seed step ss).2 = none → (Trail.tuples (trails step ss)).value? 0 = none) := by
  induction ss with
  | nil =>
      refine ⟨rfl, ?_, by simp [seed]⟩
      rintro _ ⟨⟩
      exact At.nil
  | cons s ss ih =>
      obtain ⟨ihevents, ihsome, ihnone⟩ := ih
      cases hvalue : (step s).value? with
      | none =>
          have h0 : (Pull.trail step s).value? 0 = none := hvalue
          refine ⟨?_, by simp [seed, hvalue], fun _ => ?_⟩
          · simp only [seed, hvalue]
            simp [Trail.tuples, Trail.cons, h0]
            rfl
          · simp [Trail.tuples, Trail.cons, h0]
      | some v =>
          have h0 : (Pull.trail step s).value? 0 = some v := hvalue
          have hseed : seed step (s :: ss) = ((step s).events ++ (seed step ss).1,
              (seed step ss).2.map (Wheel.single v (step s).rest :: ·)) := by
            simp only [seed, hvalue]
          rw [hseed]
          refine ⟨?_, ?_, fun hnone => ?_⟩
          · simp only [ihevents]
            simp [Trail.tuples, Trail.cons, h0]
            rfl
          · intro ws hws
            obtain ⟨ws', hws', rfl⟩ := Option.map_eq_some_iff.1 hws
            refine At.cons (Wheel.At.single hvalue) ?_
            rw [Nat.zero_div]
            exact ihsome ws' hws'
          · have h := ihnone (Option.map_eq_none_iff.1 hnone)
            simp [Trail.tuples, Trail.cons, h]

/-- The state of an odometer after `n` pulls: nothing was asked yet, or there are the wheels of the
last tuple, or the tuples have ended. -/
inductive Left (step : σ → Pull ε α σ) (ss : List σ) : ℕ → Odometer σ α → Prop
  | fresh : Left step ss 0 (unseeded ss)
  | wheels {n : ℕ} {ws : List (Wheel σ α)} :
      At step ss n ws → Left step ss (n + 1) (running ws)
  | ended {n : ℕ} :
      (Trail.tuples (trails step ss)).value? n = none → Left step ss (n + 1) ended

/-- Showing the wheels of the next tuple, if there is one, is the pull that the closed form has
there. -/
theorem show?_eq {p : List ε × Option (List (Wheel σ α))}
    (hevents : p.1 = (Trail.tuples (trails step ss)).events n)
    (hsome : ∀ ws, p.2 = some ws → At step ss n ws)
    (hnone : p.2 = none → (Trail.tuples (trails step ss)).value? n = none) :
    (show? p).value? = (Trail.tuples (trails step ss)).value? n ∧
      (show? p).events = (Trail.tuples (trails step ss)).events n ∧
      Left step ss (n + 1) (show? p).rest := by
  obtain ⟨events, wheels⟩ := p
  cases wheels with
  | none => exact ⟨(hnone rfl).symm, hevents, Left.ended (hnone rfl)⟩
  | some ws =>
      have hat := hsome ws rfl
      exact ⟨hat.value?_tuples.symm, hevents, Left.wheels hat⟩

/-- **The closed form of the odometer.** The odometer over several fused machines leaves the
product of their trails. -/
theorem trail_pull (hstep : Pull.Fused step) (ss : List σ) :
    Pull.trail (pull step) (unseeded ss) = Trail.product (trails step ss) := by
  cases ss with
  | nil =>
      refine Pull.trail_eq (fun _ o => o = unseeded [] ∨ o = ended) ?_ (Or.inl rfl)
      rintro n _ (rfl | rfl)
      · exact ⟨rfl, rfl, Or.inr rfl⟩
      · exact ⟨rfl, rfl, Or.inr rfl⟩
  | cons s ss =>
      have hfused : (Trail.tuples (trails step (s :: ss))).Fused :=
        Trail.Fused.tuples fun u hu => by
          obtain ⟨s', -, rfl⟩ := List.mem_map.1 hu
          exact hstep.trail s'
      refine Pull.trail_eq (Left step (s :: ss)) ?_ Left.fresh
      rintro n o (_ | hat | hend)
      · obtain ⟨hevents, hsome, hnone⟩ := seed_eq step (s :: ss)
        exact show?_eq hevents hsome hnone
      · obtain ⟨hevents, hsome, hnone⟩ := hat.advances hstep
        rw [pull_running]
        exact show?_eq hevents hsome hnone
      · exact ⟨(hfused.value?_succ _ hend).symm, (hfused.events_succ _ hend).symm,
          Left.ended (hfused.value?_succ _ hend)⟩

end Odometer

end RegexWords
