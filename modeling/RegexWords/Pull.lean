/-!
# Pulls

A lazy source is a machine that is asked for one value at a time. One answer, a `Pull`, holds
the events that happened on the way, a value unless there was none, and the state after it. There
is a state also after an end, so a machine can be asked again then, and it may go on. A machine is
**fused** if it does not: then nothing happens any more. Every machine can be fused from outside.
Events may also happen on the way to an end.

## Main definitions

* `Pull`: the answer to one question.
* `Pull.Fused`: nothing comes after an end.
* `Pull.fuse`: the machine that is not asked again after its end.
* `Pull.collect`: the events and values of up to `n` pulls.
* `Pull.answers`: the answers to `n` pulls, also past the end.
-/

namespace RegexWords

universe u v

/-- The **answer** of a lazy source: the events on the way, a value unless there was none, and the
state after it. -/
structure Pull (ε α : Type) (σ : Type u) where
  events : List ε := []
  value? : Option α
  rest : σ

namespace Pull

variable {ε α β : Type} {σ : Type u} {τ : Type v}

/-- The end of a source, with nothing on the way. -/
def done (state : σ) : Pull ε α σ :=
  { value? := none, rest := state }

/-- A value, with nothing on the way. -/
def yield (value : α) (state : σ) : Pull ε α σ :=
  { value? := some value, rest := state }

/-- The answer with its value changed. -/
def map (f : α → β) (p : Pull ε α σ) : Pull ε β σ :=
  { events := p.events, value? := p.value?.map f, rest := p.rest }

/-- The answer with its state changed. -/
def mapState (f : σ → τ) (p : Pull ε α σ) : Pull ε α τ :=
  { events := p.events, value? := p.value?, rest := f p.rest }

/-- The answer with more events before its own. -/
def after (earlier : List ε) (p : Pull ε α σ) : Pull ε α σ :=
  { p with events := earlier ++ p.events }

/-- The answer with one more event if there is a value, after its own events. -/
def tap (event : α → ε) (p : Pull ε α σ) : Pull ε α σ :=
  { p with events := p.events ++ (p.value?.map event).toList }

/-! ### Ends -/

/-- A machine is **fused** if it stays where it is after an end, without values and without
events. -/
def Fused (step : σ → Pull ε α σ) : Prop :=
  ∀ s, (step s).value? = none → step (step s).rest = done (step s).rest

/-- The machine that is **asked up to its first end** only. Without a state it has ended. -/
def fuse (step : σ → Pull ε α σ) : Option σ → Pull ε α (Option σ)
  | none => done none
  | some s =>
    let p := step s
    { events := p.events, value? := p.value?, rest := p.value?.map fun _ => p.rest }

/-- Whatever a machine does after its end, it does not once it is fused. -/
theorem fused_fuse (step : σ → Pull ε α σ) : Fused (fuse step) := by
  intro rest hend
  cases rest with
  | none => rfl
  | some s =>
    have hvalue : (step s).value? = none := hend
    have hrest : (fuse step (some s)).rest = none := by
      simp only [fuse, hvalue, Option.map_none]
    rw [hrest]
    rfl

/-! ### Asking several times -/

/-- The events and the values of up to `n` pulls from `state`, stopping at the end, added to
those that are there already. -/
def collect (step : σ → Pull ε α σ) :
    Nat → σ → Array ε → Array α → Array ε × Array α
  | 0, _, events, values => (events, values)
  | n + 1, state, events, values =>
    let p := step state
    match p.value? with
    | none => (events ++ p.events, values)
    | some value => collect step n p.rest (events ++ p.events) (values.push value)

/-- The answers to `n` pulls from `state`, each with its events. An end does not keep anyone from
asking on. -/
def answers (step : σ → Pull ε α σ) : Nat → σ → List (Option α × List ε)
  | 0, _ => []
  | n + 1, state =>
    let p := step state
    (p.value?, p.events) :: answers step n p.rest

end Pull

end RegexWords
