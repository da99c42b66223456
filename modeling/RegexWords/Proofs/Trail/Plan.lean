import RegexWords.Plan
import RegexWords.Proofs.Trail.Power
import RegexWords.Proofs.Trail.Product

/-!
# The Trail of a Plan

One equation for each way to put a source together. With them the trail of a plan is computed
from the plan alone, and no proof about plans needs to open a machine again. The second half says
that changing the values first and putting trails together then is the same as the other way
around.

## Main results

* `Source.trail_concat`, `Source.trail_product`, `Source.trail_power`: the trails of the
  combinators.
* `Plan.trail_concat`, `Plan.trail_product`, `Plan.trail_power`: **the trail of a plan** by
  recursion on the plan.
* `Trail.map_concat`, `Trail.map_product`, `Trail.map_power`: changing values commutes with
  putting trails together.
-/

namespace RegexWords

variable {ε α β σ : Type}

namespace Source

/-! ### Several sources side by side -/

/-- A member of a family leaves the trail that its source leaves. -/
theorem trail_family (ss : Array (Source ε α)) (i : ℕ) (hi : i < ss.size) :
    Pull.trail (Family.step ss) ⟨⟨i, hi⟩, ss[i].state⟩ = ss[i].trail :=
  Pull.trail_map_state (g := fun state => (⟨⟨i, hi⟩, state⟩ : Family ss)) (fun _ => rfl)
    ss[i].state

/-- A family of sources is fused, as each of its members is. -/
theorem fused_family (ss : Array (Source ε α)) : Pull.Fused (Family.step ss) := by
  rintro ⟨i, state⟩ hend
  have hdone := ss[i].fused state hend
  simp only [Family.step, Pull.mapState, hdone]
  rfl

/-- The states of a family leave the trails of its sources. -/
theorem trails_states (ss : Array (Source ε α)) :
    Odometer.trails (Family.step ss) (Family.states ss) = ss.toList.map trail := by
  calc Odometer.trails (Family.step ss) (Family.states ss)
      = (List.finRange ss.size).map fun i =>
          Pull.trail (Family.step ss) ⟨i, ss[i].state⟩ := List.map_map
    _ = (List.finRange ss.size).map fun i => ss[i].trail :=
          List.map_congr_left fun i _ => trail_family ss i i.isLt
    _ = ss.toList.map trail := by
          apply List.ext_getElem <;> simp

/-- Machines asked one after the other leave their trails one after the other. -/
theorem trail_chain {step : σ → Pull ε α σ} (hstep : Pull.Fused step) (ss : List σ) :
    Pull.trail (chain step) ss = Trail.concat (Odometer.trails step ss) := by
  induction ss with
  | nil => exact trail_chain_nil step
  | cons s ss ih =>
      rw [trail_chain_cons hstep, ih]
      rfl

/-- Sources one after the other leave their trails one after the other. -/
theorem trail_concat (ss : Array (Source ε α)) :
    (concat ss).trail = Trail.concat (ss.toList.map trail) := by
  rw [concat, trail_boxed (fused_chain (Family.step ss)), ← trails_states]
  exact trail_chain (fused_family ss) (Family.states ss)

/-- The product of sources leaves the product of their trails. -/
theorem trail_product (ss : Array (Source ε α)) :
    (product ss).trail = Trail.product (ss.toList.map trail) := by
  rw [product, trail_boxed (Odometer.fused_pull (Family.step ss)), ← trails_states]
  exact Odometer.trail_pull (fused_family ss) (Family.states ss)

/-- The power of a source leaves the power of its trail. -/
theorem trail_power (min : ℕ) (max : Option ℕ) (s : Source ε α) :
    (power min max s).trail = Trail.power min max s.trail := by
  rw [power, trail_boxed (Repetition.fused_pull s.step max), Repetition.trail_pull]
  exact congrArg (Trail.power min max) (s.fused.trail_fuse s.state)

end Source

namespace Plan

/-! ### The trail of a plan -/

/-- The **trail** of a plan is that of its source. -/
def trail (p : Plan ε α) : Trail ε α :=
  p.source.trail

/-- The trail of a plan is fused. -/
theorem fused_trail (p : Plan ε α) : p.trail.Fused :=
  p.source.fused_trail

/-- The sources of several plans, one by one. -/
theorem sources_eq (ps : List (Plan ε α)) : sources ps = ps.map source := by
  induction ps with
  | nil => rfl
  | cons p ps ih => rw [sources, ih, List.map_cons]

/-- The trails of several plans are those of their sources. -/
theorem trails_sources (ps : List (Plan ε α)) :
    (sources ps).toArray.toList.map Source.trail = ps.map trail := by
  rw [sources_eq, List.map_map]
  rfl

@[simp] theorem trail_items (values : List α) :
    (items values : Plan ε α).trail = Trail.items values :=
  Source.trail_items values

@[simp] theorem trail_once (value : α) : (once value : Plan ε α).trail = Trail.items [value] :=
  trail_items [value]

@[simp] theorem trail_empty : (empty : Plan ε α).trail = Trail.items [] :=
  trail_items []

@[simp] theorem trail_range (value? : ℕ → Option α) (first count : ℕ) :
    (range value? first count : Plan ε α).trail =
      Trail.items ((List.range' first count).filterMap value?) :=
  Source.trail_range value? first count

@[simp] theorem trail_map (f : α → α) (p : Plan ε α) : (p.map f).trail = p.trail.map f :=
  Source.trail_map f p.source

@[simp] theorem trail_tap (event : α → ε) (p : Plan ε α) :
    (p.tap event).trail = p.trail.tap event :=
  Source.trail_tap event p.source

@[simp] theorem trail_concat (ps : List (Plan ε α)) :
    (concat ps).trail = Trail.concat (ps.map trail) := by
  rw [← trails_sources]
  exact Source.trail_concat (sources ps).toArray

@[simp] theorem trail_product (join : List α → α) (ps : List (Plan ε α)) :
    (product join ps).trail = (Trail.product (ps.map trail)).map join := by
  rw [← trails_sources, ← Source.trail_product]
  exact Source.trail_map join (Source.product (sources ps).toArray)

@[simp] theorem trail_power (join : List (Draw α) → α) (min : ℕ) (max : Option ℕ)
    (p : Plan ε α) :
    (power join min max p).trail = (Trail.power min max p.trail).map join := by
  have hpower : (Source.power min max p.source).trail = Trail.power min max p.trail :=
    Source.trail_power min max p.source
  rw [← hpower]
  exact Source.trail_map join (Source.power min max p.source)

end Plan

/-! ### Changing values -/

/-- The draw with its value changed. -/
def Draw.map (f : α → β) (d : Draw α) : Draw β :=
  ⟨d.slot, f d.value⟩

namespace Trail

/-- Changing values twice. -/
theorem map_map {γ : Type} (g : β → γ) (f : α → β) (t : Trail ε α) :
    (t.map f).map g = t.map fun a => g (f a) := by
  ext1
  · funext n
    simp [Function.comp_def]
  · rfl

/-- Changing given values. -/
theorem map_items (f : α → β) (values : List α) :
    (items values : Trail ε α).map f = items (values.map f) := by
  ext1
  · funext n
    simp
  · rfl

/-- Changing values before they are reported, if the reports stay the same. -/
theorem map_tap (f : α → β) (event : β → ε) (t : Trail ε α) :
    (t.tap fun a => event (f a)).map f = (t.map f).tap event := by
  ext1
  · rfl
  · funext n
    simp [tap, Function.comp_def]

/-- Changing the values of one trail after another. -/
theorem map_append (f : α → β) (t u : Trail ε α) :
    (t.append u).map f = (t.map f).append (u.map f) := by
  ext1
  · funext n
    simp only [append, value?_map, period_map]
    cases t.value? n <;> rfl
  · funext n
    simp only [append, value?_map, events_map, period_map, Option.isSome_map]

/-- Changing the values of several trails one after the other. -/
theorem map_concat (f : α → β) (ts : List (Trail ε α)) :
    (concat ts).map f = concat (ts.map (map f)) := by
  induction ts with
  | nil => exact map_items f []
  | cons t ts ih => rw [concat, map_append, ih, List.map_cons, concat]

/-- Changing the values in tuples with one more trail. -/
theorem map_cons (f : α → β) (t : Trail ε α) (u : Trail ε (List α)) :
    (cons t u).map (List.map f) = cons (t.map f) (u.map (List.map f)) := by
  ext1
  · funext n
    simp only [cons, value?_map, period_map]
    cases t.value? (n % t.period) with
    | none => rfl
    | some a => cases u.value? (n / t.period) <;> rfl
  · funext n
    simp only [cons, value?_map, events_map, period_map, Option.map_eq_none_iff, ne_eq]

/-- Changing the values in tuples. -/
theorem map_tuples (f : α → β) (ts : List (Trail ε α)) :
    (tuples ts).map (List.map f) = tuples (ts.map (map f)) := by
  induction ts with
  | nil => exact map_items (List.map f) [[]]
  | cons t ts ih => rw [tuples, map_cons, ih, List.map_cons, tuples]

/-- **Changing the values in a product.** -/
theorem map_product (f : α → β) (ts : List (Trail ε α)) :
    (product ts).map (List.map f) = product (ts.map (map f)) := by
  cases ts with
  | nil => exact map_items (List.map f) []
  | cons t ts => exact map_tuples f (t :: ts)

/-- Changing the values of the draws of a tuple. -/
theorem draws?_map (f : α → β) (t : Trail ε α) (place : ℕ × ℕ) :
    (t.map f).draws? place = (t.draws? place).map (List.map (Draw.map f)) := by
  have hdraw : (t.map f).draw? = fun slot => (t.draw? slot).map (Draw.map f) := by
    funext slot
    simp only [draw?, value?_map, Option.map_map]
    rfl
  rw [draws?, draws?, period_map, hdraw]
  induction (digits t.period place.1 place.2).reverse with
  | nil => rfl
  | cons slot slots ih =>
      simp only [List.mapM_cons, ih]
      cases t.draw? slot with
      | none => rfl
      | some d => cases List.mapM t.draw? slots <;> rfl

/-- Changing the values in tuples of increasing length. -/
theorem map_lengths (f : α → β) (length : ℕ) (max : Option ℕ) (t : Trail ε α) :
    (lengths length max t).map (List.map (Draw.map f)) = lengths length max (t.map f) := by
  ext1
  · funext n
    simp only [lengths, value?_map, period_map, draws?_map]
    split <;> rfl
  · funext n
    simp only [lengths, value?_map, events_map, period_map, Option.map_eq_none_iff]

/-- **Changing the values in a power.** -/
theorem map_power (f : α → β) (min : ℕ) (max : Option ℕ) (t : Trail ε α) :
    (power min max t).map (List.map (Draw.map f)) = power min max (t.map f) := by
  cases min with
  | zero =>
      rw [power, power, ← map_lengths]
      ext1 <;> funext n <;> cases n <;> rfl
  | succ min => exact map_lengths f (min + 1) max t

end Trail

end RegexWords
