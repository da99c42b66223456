import RegexWords.Pull

/-!
# The odometer

The lazy cartesian product of several sources. Each source drives one wheel of a counter, and
a wheel's base is the number of values discovered from its source so far. Position 0 turns
fastest: for the values `1 2 3` and `4 5 6` the order is `(1,4) (2,4) (3,4) (1,5) …`. Only when
every wheel shows its newest value is a further value asked for, from the lowest source that
still has one; so no source is pulled further than the tuples need. The sources below that one are
asked again each time, although they have ended.

## Main definitions

* `Wheel`: the values discovered from one source, with the one that is shown.
* `Odometer.turn`: the ordinary step of a mixed-radix counter.
* `Odometer.extend`: the step that discovers a value.
* `Odometer.pull`: the next tuple.
-/

namespace RegexWords

variable {ε σ α : Type}

/-- One **wheel**: its source, the values discovered so far in order, and the place of the value it
shows. -/
structure Wheel (σ α : Type) where
  source : σ
  values : Array α
  cursor : Nat
  cursor_lt : cursor < values.size

namespace Wheel

/-- The wheel that has discovered one value. -/
def single (value : α) (source : σ) : Wheel σ α :=
  { source, values := #[value], cursor := 0, cursor_lt := Nat.zero_lt_one }

/-- The value the wheel shows. -/
def value (w : Wheel σ α) : α :=
  have := w.cursor_lt
  w.values[w.cursor]

/-- The wheel turned to its next value, unless it shows its newest one. -/
def turn? (w : Wheel σ α) : Option (Wheel σ α) :=
  if h : w.cursor + 1 < w.values.size then
    some { w with cursor := w.cursor + 1, cursor_lt := h }
  else none

/-- The wheel turned back to its first value. -/
def rewind (w : Wheel σ α) : Wheel σ α :=
  { w with cursor := 0, cursor_lt := Nat.zero_lt_of_lt w.cursor_lt }

/-- The wheel with a newly discovered value, which it shows. -/
def push (w : Wheel σ α) (value : α) : Wheel σ α :=
  let values := w.values.push value
  { source := w.source, values, cursor := values.size - 1, cursor_lt := by simp [values] }

end Wheel

/-- The state of the product: sources that were never asked, wheels in position order, or the
end. -/
inductive Odometer (σ α : Type)
  | unseeded (sources : List σ)
  | running (wheels : List (Wheel σ α))
  | ended

namespace Odometer

/-- Asks every source for its first value, in position order, up to the first that has none.
The wheels are there only if every source had one. -/
def seed (step : σ → Pull ε α σ) : List σ → List ε × Option (List (Wheel σ α))
  | [] => ([], some [])
  | s :: ss =>
    let p := step s
    match p.value? with
    | none => (p.events, none)
    | some value =>
      let (events, wheels) := seed step ss
      (p.events ++ events, wheels.map (Wheel.single value p.rest :: ·))

/-- Turns the lowest wheel that does not show its newest value, and turns back the wheels below
it. There is no such wheel exactly when all show their newest value. -/
def turn : List (Wheel σ α) → Option (List (Wheel σ α))
  | [] => none
  | w :: ws =>
    match w.turn? with
    | some w' => some (w' :: ws)
    | none => (turn ws).map (w.rewind :: ·)

/-- Asks the sources for a new value, lowest position first, and turns back the wheels below
the one that got it. There are no wheels if no source has one. A wheel hands over its source, so
that nothing else holds on to it while it is asked. -/
def extend (step : σ → Pull ε α σ) : List (Wheel σ α) → List ε × Option (List (Wheel σ α))
  | [] => ([], none)
  | ⟨source, values, cursor, cursor_lt⟩ :: ws =>
    let p := step source
    let w : Wheel σ α := ⟨p.rest, values, cursor, cursor_lt⟩
    match p.value? with
    | some value => (p.events, some (w.push value :: ws))
    | none =>
      let (events, wheels) := extend step ws
      (p.events ++ events, wheels.map (w.rewind :: ·))

/-- The answer that shows the given wheels, or the end if there are none. -/
def show? (wheels : List ε × Option (List (Wheel σ α))) : Pull ε (List α) (Odometer σ α) :=
  match wheels with
  | (events, some ws) => { events, value? := some (ws.map Wheel.value), rest := running ws }
  | (events, none) => { events, value? := none, rest := ended }

/-- The next tuple. Without sources there is none. After the end no source is asked any more. -/
def pull (step : σ → Pull ε α σ) : Odometer σ α → Pull ε (List α) (Odometer σ α)
  | unseeded [] => .done ended
  | unseeded sources => show? (seed step sources)
  | running wheels =>
    match turn wheels with
    | some wheels => show? ([], some wheels)
    | none => show? (extend step wheels)
  | ended => .done ended

end Odometer

end RegexWords
