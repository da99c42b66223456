import RegexWords.Pull

/-!
# Repetition

Every ordered tuple of values of one source, with repetition, lengths ascending. Within one
length the tuples count upward with the last position turning fastest, in a base that grows by
one whenever the source yields a new value. The source is asked at most once for each value:
longer tuples reuse what was discovered, and once the source has ended it is not asked again.

## Main definitions

* `Draw`: a value with the slot it was drawn from; `Draw.distinct`: every draw once.
* `Repetition.increment`: the step of the counter.
* `Repetition.pull`: the next tuple.
-/

namespace RegexWords

variable {ε σ α : Type}

/-- A value drawn from a repeated source, with the **slot** it has among the values discovered
there. Two draws are the same draw exactly when their slots agree, whatever their values. -/
structure Draw (α : Type) where
  slot : Nat
  value : α

namespace Draw

/-- The draws from slots that are not among `seen`, each slot once, at its first use. -/
def distinctFrom (seen : List Nat) : List (Draw α) → List (Draw α)
  | [] => []
  | d :: ds =>
    if seen.contains d.slot then distinctFrom seen ds
    else d :: distinctFrom (d.slot :: seen) ds

/-- Every draw once, in the order of first use. -/
def distinct (draws : List (Draw α)) : List (Draw α) :=
  distinctFrom [] draws

end Draw

/-- The state of a repetition that has discovered something: the source, whether it has ended, the
values discovered in order, and the counter, last position first. -/
structure Tumbler (σ α : Type) where
  source : σ
  drained : Bool
  values : Array α
  nonempty : 0 < values.size
  counter : List Nat
  counter_lt : ∀ i ∈ counter, i < values.size

/-- The draws that the counter stands at. -/
def Tumbler.draws (t : Tumbler σ α) : List (Draw α) :=
  t.counter.reverse.pmap (fun i (_ : i < t.values.size) => ⟨i, t.values[i]⟩)
    (fun i h => t.counter_lt i (List.mem_reverse.1 h))

/-- The tumbler that has discovered one value, with the empty tuple. -/
def Tumbler.first (value : α) (source : σ) : Tumbler σ α :=
  { source, drained := false, values := #[value], nonempty := Nat.zero_lt_one, counter := []
    counter_lt := fun _ h => nomatch h }

/-- The tumbler after a new value was discovered. The counter stays. -/
def Tumbler.push (t : Tumbler σ α) (value : α) : Tumbler σ α :=
  { source := t.source, drained := t.drained, values := t.values.push value, nonempty := by simp
    counter := t.counter
    counter_lt := fun i h => Array.size_push .. ▸ Nat.lt_succ_of_lt (t.counter_lt i h) }

/-- The tumbler at the first tuple of a length, every position at the first value. -/
def Tumbler.restart (t : Tumbler σ α) (length : Nat) : Tumbler σ α :=
  { source := t.source, drained := t.drained, values := t.values, nonempty := t.nonempty
    counter := List.replicate length 0
    counter_lt := fun _ h => List.eq_of_mem_replicate h ▸ t.nonempty }

/-- The state of a repetition: it waits to start with tuples of some length, or it is running, or
it has ended with the values discovered by then. -/
inductive Repetition (σ α : Type)
  | waiting (source : σ) (length : Nat)
  | running (tumbler : Tumbler σ α)
  | ended (values : Array α)

namespace Repetition

/-- The number of values discovered so far. -/
def discovered : Repetition σ α → Nat
  | waiting _ _ => 0
  | running t => t.values.size
  | ended values => values.size

/-- The counter, last position first, one step further in the given base; `none` when it
wraps around. -/
def increment (base : Nat) : List Nat → Option (List Nat)
  | [] => none
  | i :: is => if i + 1 < base then some ((i + 1) :: is) else (increment base is).map (0 :: ·)

theorem lt_of_mem_increment {base : Nat} {counter counter' : List Nat}
    (hbase : 0 < base) (hlt : ∀ i ∈ counter, i < base)
    (h : increment base counter = some counter') : ∀ i ∈ counter', i < base := by
  induction counter generalizing counter' with
  | nil => simp [increment] at h
  | cons i is ih =>
    rw [increment] at h
    split at h
    · next hi =>
      cases h
      intro j hj
      rcases List.mem_cons.1 hj with rfl | hj
      · exact hi
      · exact hlt j (List.mem_cons_of_mem _ hj)
    · obtain ⟨is', his, rfl⟩ := Option.map_eq_some_iff.1 h
      intro j hj
      rcases List.mem_cons.1 hj with rfl | hj
      · exact hbase
      · exact ih (fun j hj => hlt j (List.mem_cons_of_mem _ hj)) his j hj

/-- The answer that stands at the counter of `t`. -/
def yield (events : List ε) (t : Tumbler σ α) : Pull ε (List (Draw α)) (Repetition σ α) :=
  { events, value? := some t.draws, rest := running t }

/-- Whether tuples of a length are longer than the optional longest length. -/
def tooLong (max : Option Nat) (length : Nat) : Bool :=
  max.any (· < length)

/-- The first tuple of a length, or the end if it is too long. -/
def start (events : List ε) (max : Option Nat) (t : Tumbler σ α) (length : Nat) :
    Pull ε (List (Draw α)) (Repetition σ α) :=
  if tooLong max length then { events, value? := none, rest := ended t.values }
  else yield events (t.restart length)

/-- The tuple after the one that `t` stands at, once the source was asked again. -/
def advance (events : List ε) (max : Option Nat) (t : Tumbler σ α) :
    Pull ε (List (Draw α)) (Repetition σ α) :=
  match h : increment t.values.size t.counter with
  | some counter =>
    yield events { t with counter, counter_lt := lt_of_mem_increment t.nonempty t.counter_lt h }
  | none => start events max t (t.counter.length + 1)

/-- The next tuple of at most `max` draws. A repetition that may be empty begins with the empty
tuple. Before every further tuple the source is asked for one more value, until it has ended; the
tumbler hands it over for that. -/
def pull (step : σ → Pull ε α σ) (max : Option Nat) :
    Repetition σ α → Pull ε (List (Draw α)) (Repetition σ α)
  | waiting source 0 => .yield [] (waiting source 1)
  | waiting source (n + 1) =>
    if tooLong max (n + 1) then .done (ended #[])
    else
      let p := step source
      match p.value? with
      | none => { events := p.events, value? := none, rest := ended #[] }
      | some value => start p.events max (.first value p.rest) (n + 1)
  | running ⟨source, true, values, nonempty, counter, counter_lt⟩ =>
    advance [] max ⟨source, true, values, nonempty, counter, counter_lt⟩
  | running ⟨source, false, values, nonempty, counter, counter_lt⟩ =>
    let p := step source
    match p.value? with
    | none => advance p.events max ⟨p.rest, true, values, nonempty, counter, counter_lt⟩
    | some value =>
      advance p.events max
        (Tumbler.push ⟨p.rest, false, values, nonempty, counter, counter_lt⟩ value)
  | ended values => .done (ended values)

/-- The answers to `n` pulls, each with its events and the number of values discovered until
then. -/
def answers (step : σ → Pull ε α σ) (max : Option Nat) :
    Nat → Repetition σ α → List (Option (List (Draw α)) × Nat × List ε)
  | 0, _ => []
  | n + 1, r =>
    let p := pull step max r
    (p.value?, p.rest.discovered, p.events) :: answers step max n p.rest

end Repetition

end RegexWords
