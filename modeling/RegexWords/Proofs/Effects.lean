import RegexWords.Proofs.Trail.Plan
import RegexWords.Proofs.Trail.Relay
import RegexWords.Proofs.Trail.Watched

/-!
# Effects

Sources are put together in all ways, and anywhere a source may report its values. What stands
around it pulls it on demand, keeps its values and shows them again and again. This module says
that a report is not repeated with the value: what has been reported at any time are the first
values of the source, each once and in order. And at the end of the whole there are no more
reports, not even of sources that have more values.

The sources around the one that reports may be of any kind and may report values of their own. So
that its reports can be told from theirs, they are marked; the marks are the only difference.

## Main definitions

* `Source.relabel`, `Trail.relabel`: every event changed.
* `Assembly`: **sources put together** in any way, with one place left open.
* `Assembly.fill`, `Assembly.observed`: a source in the open place, and one under observation.
* `Pull.StaysEnded`, `Pull.KeepsEnds`, `Assembly.FiresOnce`: what the main result says.

## Main results

* `Pull.keepsEnds`: each combinator keeps its ends.
* `Assembly.relays_fill`: an assembly relays its pulls to the source in its open place.
* `Assembly.fires_once`: **values are reported once**.
* `Plan.IsPart.exists_fill`: every part of a plan stands in the open place of an assembly.
-/

namespace RegexWords

variable {ε α β γ δ σ : Type}

/-! ### Changing events -/

namespace Trail

/-- The trail with every event changed by `g`. -/
def relabel (g : ε → δ) (t : Trail ε α) : Trail δ α where
  value? := t.value?
  events n := (t.events n).map g

variable (g : ε → δ)

@[simp] theorem value?_relabel (t : Trail ε α) : (t.relabel g).value? = t.value? := rfl

theorem events_relabel (t : Trail ε α) (n : ℕ) :
    (t.relabel g).events n = (t.events n).map g := rfl

@[simp] theorem period_relabel (t : Trail ε α) : (t.relabel g).period = t.period := rfl

/-- Events that are changed and changed back. -/
theorem relabel_relabel {h : δ → ε} (hgh : ∀ e, h (g e) = e) (t : Trail ε α) :
    (t.relabel g).relabel h = t := by
  have hid : h ∘ g = id := funext hgh
  ext1
  · rfl
  · funext n
    rw [events_relabel, events_relabel, List.map_map, hid, List.map_id]

theorem relabel_map (f : α → β) (t : Trail ε α) : (t.map f).relabel g = (t.relabel g).map f := rfl

theorem relabel_tap (event : α → ε) (t : Trail ε α) :
    (t.tap event).relabel g = (t.relabel g).tap fun a => g (event a) := by
  ext1
  · rfl
  · funext n
    rw [events_relabel, events_tap, events_tap, events_relabel, List.map_append, value?_relabel]
    cases t.value? n <;> rfl

theorem relabel_append (t u : Trail ε α) :
    (t.append u).relabel g = (t.relabel g).append (u.relabel g) := by
  ext1
  · rfl
  · funext n
    simp only [events_relabel, events_append, List.map_append, apply_ite (List.map g),
      List.map_nil, value?_relabel, period_relabel]
    rfl

theorem relabel_concat (ts : List (Trail ε α)) :
    (concat ts).relabel g = concat (ts.map (relabel g)) := by
  induction ts with
  | nil => rfl
  | cons t ts ih => rw [concat, relabel_append, ih, List.map_cons, concat]

theorem relabel_cons (t : Trail ε α) (u : Trail ε (List α)) :
    (cons t u).relabel g = cons (t.relabel g) (u.relabel g) := by
  ext1
  · rfl
  · funext n
    simp only [events_relabel, events_cons, List.map_append, apply_ite (List.map g),
      List.map_nil, value?_relabel, period_relabel]
    rfl

theorem relabel_tuples (ts : List (Trail ε α)) :
    (tuples ts).relabel g = tuples (ts.map (relabel g)) := by
  induction ts with
  | nil => rfl
  | cons t ts ih => rw [tuples, relabel_cons, ih, List.map_cons, tuples]

theorem relabel_product (ts : List (Trail ε α)) :
    (product ts).relabel g = product (ts.map (relabel g)) := by
  cases ts with
  | nil => rfl
  | cons t ts => exact relabel_tuples g (t :: ts)

theorem relabel_lengths (length : ℕ) (max : Option ℕ) (t : Trail ε α) :
    (lengths length max t).relabel g = lengths length max (t.relabel g) := by
  ext1
  · rfl
  · funext n
    simp only [events_relabel, events_lengths, apply_ite (List.map g), List.map_nil,
      value?_relabel, period_relabel]
    rfl

theorem relabel_power (min : ℕ) (max : Option ℕ) (t : Trail ε α) :
    (power min max t).relabel g = power min max (t.relabel g) := by
  cases min with
  | zero =>
      rw [power, power, ← relabel_lengths]
      ext1 <;> funext n <;> cases n <;> rfl
  | succ min => exact relabel_lengths g (min + 1) max t

end Trail

/-- The answer with every event changed by `g`. -/
def Pull.relabel (g : ε → δ) (p : Pull ε α σ) : Pull δ α σ :=
  { events := p.events.map g, value? := p.value?, rest := p.rest }

namespace Source

/-- The source with every event changed by `g`. -/
def relabel (g : ε → δ) (s : Source ε α) : Source δ α :=
  boxed s.state fun state => (s.step state).relabel g

/-- Changing the events of a source changes those of its trail. -/
@[simp] theorem trail_relabel (g : ε → δ) (s : Source ε α) :
    (s.relabel g).trail = s.trail.relabel g := by
  have hfused : Pull.Fused fun state => (s.step state).relabel g :=
    s.fused.comp (fun _ => id) (fun _ => rfl) fun _ => rfl
  have hrest : ∀ state, ((s.step state).relabel g).rest = (s.step state).rest := fun _ => rfl
  rw [relabel, trail_boxed hfused]
  exact Pull.trail_of_rest_eq s.step hrest s.state

end Source

/-! ### What is seen of a source -/

/-- The first values of fewer pulls come first. -/
theorem Trail.first_isPrefix (t : Trail ε α) {m n : ℕ} (h : m ≤ n) : t.first m <+: t.first n := by
  induction n, h using Nat.le_induction with
  | base => exact List.prefix_rfl
  | succ n _ ih => exact ih.trans (t.first_succ n ▸ List.prefix_append _ _)

namespace Source

/-- The events of the first `n` pulls, also past the end. -/
def log (n : ℕ) (s : Source ε α) : List ε :=
  (s.answers n).flatMap (·.2)

/-- The values of the first `n` pulls, as far as there are any. -/
def given (n : ℕ) (s : Source ε α) : List α :=
  (s.answers n).filterMap (·.1)

/-- The events of some pulls are those of the trail. -/
theorem log_eq_history (n : ℕ) (s : Source ε α) : s.log n = s.trail.history n := by
  rw [log, answers_eq, List.flatMap_map]
  rfl

/-- The values of some pulls are those of the trail. -/
theorem given_eq_first (n : ℕ) (s : Source ε α) : s.given n = s.trail.first n := by
  rw [given, answers_eq, List.filterMap_map]
  rfl

end Source

/-! ### Ends -/

namespace Pull

/-- The end of a machine **stays** from a state on: after an answer without a value, all answers are
without a value and without events. -/
def StaysEnded (step : σ → Pull ε α σ) (s : σ) : Prop :=
  ∀ n i j, i < j → j < n → (∃ events, (answers step n s)[i]? = some (none, events)) →
    (answers step n s)[j]? = some (none, [])

/-- An answer is read off the trail. -/
theorem getElem?_answers (step : σ → Pull ε α σ) (s : σ) {n i : ℕ} (hi : i < n) :
    (answers step n s)[i]? = some ((trail step s).value? i, (trail step s).events i) := by
  rw [answers_eq, List.getElem?_map, List.getElem?_range hi]
  rfl

/-- **The ends of a fused machine stay ends.** -/
theorem Fused.staysEnded {step : σ → Pull ε α σ} (h : Fused step) (s : σ) :
    StaysEnded step s := by
  rintro n i j hij hj ⟨events, hend⟩
  rw [getElem?_answers step s (hij.trans hj)] at hend
  have hnone : (Pull.trail step s).value? i = none := congrArg Prod.fst (Option.some.inj hend)
  rw [getElem?_answers step s hj, (h.trail s).value?_eq_none hij.le hnone,
    (h.trail s).events_eq_nil hij hnone]

/-- A machine that gives a value at every second pull goes on after its ends. -/
example : ¬ StaysEnded (fun b => if b then .yield 1 false else .done true : Bool → Pull Unit ℕ Bool)
    false := fun h => absurd (h 2 0 1 (by decide) (by decide) ⟨[], rfl⟩) (by decide)

/-- What sources are put together with **keeps its ends**, over any machine and from any state, even
if the machine itself goes on after its ends. -/
structure KeepsEnds (ε α : Type) : Prop where
  /-- What is asked through a fuse. -/
  fuse : ∀ {σ : Type} (step : σ → Pull ε α σ) (rest : Option σ),
    StaysEnded (Pull.fuse step) rest
  /-- Machines one after the other. -/
  chain : ∀ {σ : Type} (step : σ → Pull ε α σ) (states : List σ),
    StaysEnded (Source.chain step) states
  /-- The odometer, over machines that it asks again after their ends. -/
  odometer : ∀ {σ : Type} (step : σ → Pull ε α σ) (o : Odometer σ α),
    StaysEnded (Odometer.pull step) o
  /-- The repetition. -/
  repetition : ∀ {σ : Type} (step : σ → Pull ε α σ) (max : Option ℕ) (r : Repetition σ α),
    StaysEnded (Repetition.pull step max) r

/-- **Each combinator keeps its ends.** -/
theorem keepsEnds (ε α : Type) : KeepsEnds ε α where
  fuse step := (fused_fuse step).staysEnded
  chain step := (Source.fused_chain step).staysEnded
  odometer step := (Odometer.fused_pull step).staysEnded
  repetition step max := (Repetition.fused_pull step max).staysEnded

end Pull

/-- The **end** of a source stays, in values and in events. -/
def Source.StaysEnded (s : Source ε α) : Prop :=
  Pull.StaysEnded s.step s.state

/-- **Ends stay ends**, as every source is that of a fused machine. -/
theorem Source.staysEnded (s : Source ε α) : s.StaysEnded :=
  s.fused.staysEnded s.state

/-! ### Assemblies -/

/-- An **assembly**: sources put together in any way, with one place left open. What is put there
has values `β`, and the whole has values `α`. The sources beside the open place are any sources.
Combining sources of tuples is changing the values of a product, and joining and flattening are
changing values, so they need no cases of their own. -/
inductive Assembly (ε β : Type) : Type → Type 1
  /-- The open place itself. -/
  | here : Assembly ε β β
  /-- Every value changed by `f`. -/
  | map {α γ : Type} (f : α → γ) (inner : Assembly ε β α) : Assembly ε β γ
  /-- Every value as it is, with the event it causes. -/
  | tap {α : Type} (event : α → ε) (inner : Assembly ε β α) : Assembly ε β α
  /-- Sources one after the other. -/
  | concat {α : Type} (before : List (Source ε α)) (inner : Assembly ε β α)
      (after : List (Source ε α)) : Assembly ε β α
  /-- Tuples of one value of each source. -/
  | product {α : Type} (before : List (Source ε α)) (inner : Assembly ε β α)
      (after : List (Source ε α)) : Assembly ε β (List α)
  /-- Tuples of `min` draws, then of more, up to `max` draws. -/
  | power {α : Type} (min : ℕ) (max : Option ℕ) (inner : Assembly ε β α) :
      Assembly ε β (List (Draw α))

namespace Assembly

/-- The source with `s` in the open place. -/
def fill (s : Source ε β) : {α : Type} → Assembly ε β α → Source ε α
  | _, here => s
  | _, map f inner => (inner.fill s).map f
  | _, tap event inner => (inner.fill s).tap event
  | _, concat before inner after => .concat (before ++ inner.fill s :: after).toArray
  | _, product before inner after => .product (before ++ inner.fill s :: after).toArray
  | _, power min max inner => (inner.fill s).power min max

/-- The assembly with every event changed by `g`. -/
def relabel (g : ε → δ) : {α : Type} → Assembly ε β α → Assembly δ β α
  | _, here => here
  | _, map f inner => map f (inner.relabel g)
  | _, tap event inner => tap (fun a => g (event a)) (inner.relabel g)
  | _, concat before inner after =>
    concat (before.map (Source.relabel g)) (inner.relabel g) (after.map (Source.relabel g))
  | _, product before inner after =>
    product (before.map (Source.relabel g)) (inner.relabel g) (after.map (Source.relabel g))
  | _, power min max inner => power min max (inner.relabel g)

/-- The source with `s` in the open place and **under observation**: whenever `s` gives a value, the
value itself is reported, and all other events are kept apart from that. -/
def observed (a : Assembly ε β α) (s : Source ε β) : Source (ε ⊕ β) α :=
  (a.relabel Sum.inl).fill ((s.relabel Sum.inl).tap Sum.inr)

/-- The values that have been reported under observation in the first `n` pulls. -/
def recorded (n : ℕ) (s : Source (ε ⊕ β) α) : List β :=
  (s.log n).filterMap Sum.getRight?

/-- The reports of the source `s` in the open place of an assembly **fire once**. -/
structure FiresOnce (a : Assembly ε β α) (event : β → ε) (s : Source ε β) : Prop where
  /-- Observing the reports changes nothing else. -/
  answers_eq : ∀ n, (a.fill (s.tap event)).answers n =
    ((a.observed s).answers n).map fun answer => (answer.1, answer.2.map (Sum.elim id event))
  /-- The reports are the first values of the source, each once and in order. -/
  recorded_isPrefix : ∀ n, recorded n (a.observed s) <+: s.given n

/-! ### Observing -/

/-- Sources whose events are changed leave trails whose events are changed. -/
theorem trails_relabel (g : ε → δ) (ss : List (Source ε α)) :
    (ss.map (Source.relabel g)).map Source.trail = (ss.map Source.trail).map (Trail.relabel g) := by
  rw [List.map_map, List.map_map]
  exact List.map_congr_left fun s _ => s.trail_relabel g

/-- Events that are changed and changed back in an assembly. -/
theorem relabel_trail_fill {g : ε → δ} {h : δ → ε} (hgh : ∀ e, h (g e) = e) {s : Source ε β}
    {s' : Source δ β} (hs : s'.trail.relabel h = s.trail) (a : Assembly ε β α) :
    ((a.relabel g).fill s').trail.relabel h = (a.fill s).trail := by
  have hback : ∀ {α : Type} (ss : List (Source ε α)),
      ((ss.map (Source.relabel g)).map Source.trail).map (Trail.relabel h) =
        ss.map Source.trail := by
    intro α ss
    rw [trails_relabel, List.map_map]
    exact (List.map_congr_left fun t _ => t.relabel_relabel g hgh).trans (List.map_id _)
  induction a with
  | here => exact hs
  | map f inner ih =>
      simp only [relabel, fill, Source.trail_map, Trail.relabel_map, ih]
  | tap event inner ih =>
      simp only [relabel, fill, Source.trail_tap, Trail.relabel_tap, ih, hgh]
  | concat before inner after ih =>
      simp only [relabel, fill, Source.trail_concat, Trail.relabel_concat, List.map_append,
        List.map_cons, hback, ih]
  | product before inner after ih =>
      simp only [relabel, fill, Source.trail_product, Trail.relabel_product, List.map_append,
        List.map_cons, hback, ih]
  | power min max inner ih =>
      simp only [relabel, fill, Source.trail_power, Trail.relabel_power, ih]

/-! ### Relaying -/

/-- Beside the open place nothing is observed. -/
theorem silent_of_mem_map_relabel {ss : List (Source ε α)} {t : Trail (ε ⊕ β) α}
    (ht : t ∈ (ss.map (Source.relabel Sum.inl)).map Source.trail) :
    t.Fused ∧ t.Silent Sum.getRight? := by
  obtain ⟨s', hs', rfl⟩ := List.mem_map.1 ht
  obtain ⟨s, -, rfl⟩ := List.mem_map.1 hs'
  refine ⟨Source.fused_trail _, ?_⟩
  rw [Source.trail_relabel]
  rintro e ⟨n, he⟩
  obtain ⟨d, -, rfl⟩ := List.mem_map.1 he
  rfl

/-- **An assembly relays its pulls** to the source in its open place. -/
theorem relays_fill (a : Assembly ε β α) (s : Source (ε ⊕ β) β) :
    ((a.relabel Sum.inl).fill s).trail.Relays Sum.getRight? s.trail := by
  induction a with
  | here => exact Trail.Relays.refl _ _
  | map f inner ih =>
      rw [relabel, fill, Source.trail_map]
      exact (Trail.relays_map f _).trans ih
  | tap event inner ih =>
      rw [relabel, fill, Source.trail_tap]
      exact (Trail.relays_tap (fun _ => rfl) _).trans ih
  | concat before inner after ih =>
      rw [relabel, fill, Source.trail_concat, List.map_append, List.map_cons]
      exact (Trail.relays_concat (fun t ht => silent_of_mem_map_relabel ht)
        (fun u hu => (silent_of_mem_map_relabel hu).2) _).trans ih
  | product before inner after ih =>
      rw [relabel, fill, Source.trail_product, List.map_append, List.map_cons]
      exact (Trail.relays_product (fun t ht => (silent_of_mem_map_relabel ht).2)
        (fun u hu => (silent_of_mem_map_relabel hu).2) _).trans ih
  | power min max inner ih =>
      rw [relabel, fill, Source.trail_power]
      exact (Trail.relays_power min max _).trans ih

/-- A source under observation that stands alone reports its values. -/
theorem filterMap_history_tap (s : Source ε β) (n : ℕ) :
    (((s.relabel Sum.inl).tap Sum.inr).trail.history n).filterMap Sum.getRight? =
      s.trail.first n := by
  have hother : ∀ events : List ε,
      (events.map (Sum.inl : ε → ε ⊕ β)).filterMap Sum.getRight? = [] := by
    intro events
    rw [List.filterMap_map]
    exact List.filterMap_eq_nil_iff.2 fun _ _ => rfl
  rw [Source.trail_tap, Source.trail_relabel]
  induction n with
  | zero => rfl
  | succ n ih =>
      rw [Trail.history_succ, List.filterMap_append, ih, Trail.first_succ, Trail.events_tap,
        List.filterMap_append, Trail.events_relabel, hother, Trail.value?_relabel, List.nil_append]
      cases s.trail.value? n <;> rfl

/-- **Values are reported once.** After the end of a source there are no more values and no more
reports; every combinator sees to that itself. And wherever a source is put that reports its values,
what it has reported after any number of pulls of the whole are its first values, each once and in
order. -/
theorem fires_once :
    Pull.KeepsEnds ε α ∧ (∀ s : Source ε α, s.StaysEnded) ∧
      ∀ (a : Assembly ε β α) (event : β → ε) (s : Source ε β), a.FiresOnce event s := by
  refine ⟨Pull.keepsEnds ε α, fun s => s.staysEnded, fun a event s => ⟨fun n => ?_, fun n => ?_⟩⟩
  · have hs : (((s.relabel Sum.inl).tap Sum.inr).trail).relabel (Sum.elim id event) =
        (s.tap event).trail := by
      rw [Source.trail_tap, Source.trail_tap, Trail.relabel_tap, Source.trail_relabel,
        Trail.relabel_relabel Sum.inl fun _ => rfl]
      rfl
    rw [Source.answers_eq, Source.answers_eq, List.map_map, observed,
      ← relabel_trail_fill (g := Sum.inl) (fun _ => rfl) hs a]
    rfl
  · obtain ⟨m, hm, hseen⟩ := (a.relays_fill ((s.relabel Sum.inl).tap Sum.inr)).exists_history_eq n
    rw [recorded, Source.log_eq_history, observed, hseen, filterMap_history_tap,
      Source.given_eq_first]
    exact s.trail.first_isPrefix hm

/-- A repetition without end shows the values `1` and `2` in pairs again and again, but each of them
is reported once. -/
example : recorded 12 ((power 1 none (product [] here [.items [5, 6]])).observed
    (.items [1, 2] : Source Unit ℕ)) = [1, 2] := by decide

end Assembly

/-! ### Plans -/

namespace Plan

/-- The plan `q` is a **part** of a plan, at any depth. -/
inductive IsPart (q : Plan ε α) : Plan ε α → Prop
  | self : IsPart q q
  | map (f : α → α) {p : Plan ε α} : IsPart q p → IsPart q (p.map f)
  | tap (event : α → ε) {p : Plan ε α} : IsPart q p → IsPart q (p.tap event)
  | concat (before : List (Plan ε α)) {p : Plan ε α} (after : List (Plan ε α)) :
      IsPart q p → IsPart q (concat (before ++ p :: after))
  | product (join : List α → α) (before : List (Plan ε α)) {p : Plan ε α}
      (after : List (Plan ε α)) : IsPart q p → IsPart q (product join (before ++ p :: after))
  | power (join : List (Draw α) → α) (min : ℕ) (max : Option ℕ) {p : Plan ε α} :
      IsPart q p → IsPart q (power join min max p)

/-- **Every part of a plan** stands in the open place of an assembly, so what is said of assemblies
holds of it. -/
theorem IsPart.exists_fill {p q : Plan ε α} (h : q.IsPart p) :
    ∃ a : Assembly ε α α, p.source = a.fill q.source := by
  have hsources : ∀ before after : List (Plan ε α), ∀ p : Plan ε α,
      sources (before ++ p :: after) = sources before ++ p.source :: sources after := by
    intro before after p
    rw [sources_eq, sources_eq, sources_eq, List.map_append, List.map_cons]
  induction h with
  | self => exact ⟨.here, rfl⟩
  | map f _ ih =>
      obtain ⟨a, ha⟩ := ih
      exact ⟨.map f a, by rw [source, ha, Assembly.fill]⟩
  | tap event _ ih =>
      obtain ⟨a, ha⟩ := ih
      exact ⟨.tap event a, by rw [source, ha, Assembly.fill]⟩
  | concat before after _ ih =>
      obtain ⟨a, ha⟩ := ih
      exact ⟨.concat (sources before) a (sources after), by
        rw [source, hsources, ha, Assembly.fill]⟩
  | product join before after _ ih =>
      obtain ⟨a, ha⟩ := ih
      exact ⟨.map join (.product (sources before) a (sources after)), by
        rw [source, hsources, ha, Assembly.fill, Assembly.fill]⟩
  | power join min max _ ih =>
      obtain ⟨a, ha⟩ := ih
      exact ⟨.map join (.power min max a), by rw [source, ha, Assembly.fill, Assembly.fill]⟩

end Plan

end RegexWords
