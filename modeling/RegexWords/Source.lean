import RegexWords.Source.Odometer
import RegexWords.Source.Repetition

/-!
# Lazy sources

A `Source` is a fused machine with its present state. The combinators put machines together; none
of them asks a machine for a value before it needs it, and none asks it twice for the same one. What
they put together is fused from outside, so that every source is a fused one whatever its parts
would do after their ends. Machines of different states stand side by side in a `Family`, whose
states carry the position of the machine they belong to.

## Main definitions

* `Source.boxed`: the source of any machine.
* `Source.next`: one pull, with the source that is left.
* `Source.items`, `Source.range`, `Source.numbers`: sources of given values, of the values of a
  range of numbers, and of endlessly many values.
* `Source.map`, `Source.tap`: change every value, report every value.
* `Source.concat`: one source after the other.
* `Source.product`, `Source.power`: the odometer and the repetition over sources.
* `Source.take`: the first values.
-/

namespace RegexWords

/-- A **lazy source** of values `α` with events `ε`: a step function on states of its own, which
does not go on after an end, and the state it is in. -/
structure Source (ε α : Type) : Type 1 where
  State : Type
  state : State
  step : State → Pull ε α State
  fused : Pull.Fused step

namespace Source

variable {ε α β σ : Type}

/-- The source of a machine, from a state on. Past its end the machine is not asked. -/
def boxed (state : σ) (step : σ → Pull ε α σ) : Source ε α where
  State := Option σ
  state := some state
  step := Pull.fuse step
  fused := Pull.fused_fuse step

/-- One pull, with the source that is left. -/
def next (s : Source ε α) : Pull ε α (Source ε α) :=
  (s.step s.state).mapState fun state => { s with state }

/-- The events and the values of up to `n` pulls. No more pulls are made than that, and none
after the end. -/
def take (n : Nat) (s : Source ε α) : List ε × List α :=
  let (events, values) := Pull.collect s.step n s.state #[] #[]
  (events.toList, values.toList)

/-- The answers to `n` pulls, also past the end, each with its events. -/
def answers (n : Nat) (s : Source ε α) : List (Option α × List ε) :=
  Pull.answers s.step n s.state

/-! ### Sources of their own -/

/-- The given values, in order. -/
def items (values : List α) : Source ε α :=
  boxed values fun
    | [] => .done []
    | v :: vs => .yield v vs

/-- The value of the first of `count` numbers from `n` on that has one, with the number after it
and the count that is left. -/
def seek (value? : Nat → Option α) : (n count : Nat) → Option (α × Nat × Nat)
  | _, 0 => none
  | n, count + 1 =>
    match value? n with
    | some value => some (value, n + 1, count)
    | none => seek value? (n + 1) count

/-- The values of `count` numbers from `first` on, those that have one. A number is looked at
only when its turn has come. -/
def range (value? : Nat → Option α) (first count : Nat) : Source ε α :=
  boxed (first, count) fun state =>
    match seek value? state.1 state.2 with
    | none => .done state
    | some (value, state) => .yield value state

/-- The values of the numbers from `first` on, without end. -/
def numbers (value : Nat → α) (first : Nat) : Source ε α :=
  boxed first fun n => .yield (value n) (n + 1)

/-! ### Sources over one source -/

/-- Every value changed by `f`. -/
def map (f : α → β) (s : Source ε α) : Source ε β :=
  boxed s.state fun state => (s.step state).map f

/-- Every value as it is, with the event it causes. -/
def tap (event : α → ε) (s : Source ε α) : Source ε α :=
  boxed s.state fun state => (s.step state).tap event

/-- Every tuple of `min` draws, then of more, up to `max` draws. -/
def power (min : Nat) (max : Option Nat) (s : Source ε α) : Source ε (List (Draw α)) :=
  boxed (.waiting s.state min) (Repetition.pull s.step max)

/-- The answers to `n` pulls from a power, each with its events and the number of values
discovered until then. -/
def powerAnswers (min : Nat) (max : Option Nat) (n : Nat) (s : Source ε α) :
    List (Option (List (Draw α)) × Nat × List ε) :=
  Repetition.answers s.step max n (.waiting s.state min)

/-! ### Sources over several sources -/

/-- The states of several sources, each with the position of the source it belongs to. -/
def Family (ss : Array (Source ε α)) : Type :=
  Σ i : Fin ss.size, ss[i].State

/-- One step of the source that a state belongs to. -/
def Family.step (ss : Array (Source ε α)) : Family ss → Pull ε α (Family ss)
  | ⟨i, state⟩ => (ss[i].step state).mapState (Sigma.mk i)

/-- The states that the sources are in, in order. -/
def Family.states (ss : Array (Source ε α)) : List (Family ss) :=
  (List.finRange ss.size).map fun i => ⟨i, ss[i].state⟩

/-- The next value of machines that are asked one after the other. When one has ended, the next
one is asked in the same pull, and that one not any more. -/
def chain (step : σ → Pull ε α σ) : List σ → Pull ε α (List σ)
  | [] => .done []
  | state :: states =>
    let p := step state
    match p.value? with
    | some value => { events := p.events, value? := some value, rest := p.rest :: states }
    | none => (chain step states).after p.events

/-- The values of every source, one source after the other. -/
def concat (ss : Array (Source ε α)) : Source ε α :=
  boxed (Family.states ss) (chain (Family.step ss))

/-- The tuples of one value of each source, position 0 turning fastest. -/
def product (ss : Array (Source ε α)) : Source ε (List α) :=
  boxed (.unseeded (Family.states ss)) (Odometer.pull (Family.step ss))

end Source

end RegexWords
