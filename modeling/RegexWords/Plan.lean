import RegexWords.Source

/-!
# Plans

A **plan** describes a lazy source as data: how it is put together, before anything is asked.
From a plan one gets the source itself and the number of values it has, and what holds of every
source can be stated by recursion on plans.

## Main definitions

* `Plan`: the ways to put a source together.
* `Plan.source`: the source of a plan, ready to be asked.
* `Plan.isEmpty`: whether a plan has no value.
* `Plan.size?`: the number of values of a plan, unless they never end.
* `Plan.run?`: the values up to an optional limit, with the events on the way.
-/

namespace RegexWords

/-- A lazy source of values `α` with events `ε`, described as data. -/
inductive Plan (ε α : Type)
  /-- The given values, in order. -/
  | items (values : List α)
  /-- The values of `count` numbers from `first` on, those that have one. -/
  | range (value? : Nat → Option α) (first count : Nat)
  /-- The values of the numbers from `first` on, without end. -/
  | numbers (value : Nat → α) (first : Nat)
  /-- Every value changed by `f`. -/
  | map (f : α → α) (plan : Plan ε α)
  /-- Every value as it is, with the event it causes. -/
  | tap (event : α → ε) (plan : Plan ε α)
  /-- The values of every plan, one plan after the other. -/
  | concat (plans : List (Plan ε α))
  /-- One value of each plan joined, position 0 turning fastest. -/
  | product (join : List α → α) (plans : List (Plan ε α))
  /-- From `min` to `max` draws joined, the last one turning fastest within a length. -/
  | power (join : List (Draw α) → α) (min : Nat) (max : Option Nat) (plan : Plan ε α)

namespace Plan

variable {ε α : Type}

/-- The plan of a single value. -/
def once (value : α) : Plan ε α :=
  items [value]

/-- The plan without values. -/
def empty : Plan ε α :=
  items []

mutual

/-- The source that a plan describes. -/
def source : Plan ε α → Source ε α
  | items values => .items values
  | range value? first count => .range value? first count
  | numbers value first => .numbers value first
  | map f plan => plan.source.map f
  | tap event plan => plan.source.tap event
  | concat plans => .concat (sources plans).toArray
  | product join plans => (Source.product (sources plans).toArray).map join
  | power join min max plan => (plan.source.power min max).map join

/-- The sources that several plans describe. -/
def sources : List (Plan ε α) → List (Source ε α)
  | [] => []
  | p :: ps => p.source :: sources ps

end

/-! ### How many values there are

Counting first asks whether there is a value at all. A plan without values may hold a part with
more values than can be counted, and that part must not be counted then. -/

mutual

/-- Whether a plan has no value. A power has one if it allows the empty tuple, or else if it
allows tuples of its least length and has a value to fill them with. -/
def isEmpty : Plan ε α → Bool
  | items values => values.isEmpty
  | range value? first count => (Source.seek value? first count).isNone
  | numbers _ _ => false
  | map _ plan => plan.isEmpty
  | tap _ plan => plan.isEmpty
  | concat plans => (emptiness plans).all id
  | product _ plans => plans.isEmpty || (emptiness plans).any id
  | power _ min max plan => min != 0 && (Repetition.tooLong max min || plan.isEmpty)

/-- Whether each of several plans has no value. -/
def emptiness : List (Plan ε α) → List Bool
  | [] => []
  | p :: ps => p.isEmpty :: emptiness ps

end

/-- The size of several plans one after the other; `none` stands for no end. -/
def sumSizes : List (Option Nat) → Option Nat
  | [] => some 0
  | n :: ns => do return (← n) + (← sumSizes ns)

/-- The size of a product of plans that all have a value: one without end is enough for a
product without end. -/
def productSize : List (Option Nat) → Option Nat
  | [] => some 1
  | n :: ns => do return (← n) * (← productSize ns)

/-- The number of tuples of `n` values with lengths from `least` up to `most`. -/
def tupleCount (n least most : Nat) : Nat :=
  (List.range' least (most + 1 - least)).foldr (fun length total => n.pow length + total) 0

mutual

/-- The number of values of a plan; `none` if they never end. A power has the empty tuple, if it
is allowed, and the tuples of every longer length; they never end if the lengths or the values
to fill them with never do. -/
def size? : Plan ε α → Option Nat
  | items values => some values.length
  | range value? first count => some ((List.range' first count).countP (value? · |>.isSome))
  | numbers _ _ => none
  | map _ plan => plan.size?
  | tap _ plan => plan.size?
  | concat plans => sumSizes (sizes plans)
  | product _ plans =>
    if plans.isEmpty || (emptiness plans).any id then some 0 else productSize (sizes plans)
  | power _ min max plan =>
    let empty := if min = 0 then 1 else 0
    let least := Nat.max 1 min
    if Repetition.tooLong max least || plan.isEmpty then some empty
    else do return empty + tupleCount (← plan.size?) least (← max)

/-- The number of values of each of several plans. -/
def sizes : List (Plan ε α) → List (Option Nat)
  | [] => []
  | p :: ps => p.size? :: sizes ps

end

/-- The number of pulls that give the values up to an optional limit. Without a limit this is
one pull more than there are values, since only the end shows that they are all; it is `none`
if there is neither a limit nor an end. -/
def pulls? (plan : Plan ε α) (limit : Option Nat) : Option Nat :=
  match limit with
  | some n => some n
  | none => plan.size?.map (· + 1)

/-- The events and the values of a plan up to an optional limit; `none` if there is neither a
limit nor an end. -/
def run? (plan : Plan ε α) (limit : Option Nat) : Option (List ε × List α) :=
  (plan.pulls? limit).map plan.source.take

end Plan

end RegexWords
