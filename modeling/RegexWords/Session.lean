import RegexWords.Enumeration

/-!
# Sessions

Values are pulled from the sources of patterns while captures are recorded. In a `Session`
several sources share one set of captures; an `Enumeration` is one pattern with captures of its
own and an optional limit. Only whole patterns look at the captures, and only when a value of
theirs is assembled.

## Main definitions

* `Feed.next`: one pull, with the captures before and after.
* `Session.next`: one pull from one of several sources.
* `Enumeration.next`: one pull from a pattern.
* `Pattern.outcomes?`: the values of a pattern.
-/

namespace RegexWords

variable {ω : Type} [Outcome ω]

/-! ### Feeds -/

/-- A source of outcomes, and the pattern if it is that of a whole pattern. -/
structure Feed (ω : Type) : Type 1 where
  pattern? : Option Pattern
  source : Source Effect ω

namespace Feed

/-- The feed of a whole pattern. -/
def ofPattern (alphabet : CodeRange) (p : Pattern) : Feed ω :=
  { pattern? := some p, source := (p.plan alphabet).source }

/-- The feed of a tree by itself; its placeholders stay. -/
def ofBody (alphabet : CodeRange) (body : Option Regex) : Feed ω :=
  { pattern? := none, source := (Regex.planBody alphabet body).source }

/-- One pull. What it records is recorded before its value is assembled, and also when there
is no value. -/
def next (captures : Captures) (feed : Feed ω) : Option ω × Captures × Feed ω :=
  let pull := feed.source.next
  let captures := captures.perform pull.events
  let outcome := pull.value?.map fun outcome =>
    match feed.pattern? with
    | some p => Outcome.ofPattern p captures outcome
    | none => outcome
  (outcome, captures, { feed with source := pull.rest })

/-- One pull from the feed at a position; there is nothing at a position without a feed. -/
def nextAt (captures : Captures) : List (Feed ω) → Nat → Option ω × Captures × List (Feed ω)
  | [], _ => (none, captures, [])
  | feed :: feeds, 0 =>
    let (outcome, captures, feed) := feed.next captures
    (outcome, captures, feed :: feeds)
  | feed :: feeds, position + 1 =>
    let (outcome, captures, feeds) := nextAt captures feeds position
    (outcome, captures, feed :: feeds)

end Feed

/-! ### Sessions -/

/-- Several feeds that share their captures. -/
structure Session (ω : Type) : Type 1 where
  captures : Captures := {}
  feeds : List (Feed ω) := []

namespace Session

/-- The session with one more feed, at the end, for a whole pattern. -/
def addPattern (alphabet : CodeRange) (s : Session ω) (p : Pattern) : Session ω :=
  { captures := s.captures.referAll p.body, feeds := s.feeds ++ [.ofPattern alphabet p] }

/-- The session with one more feed, at the end, for a tree by itself. -/
def addBody (alphabet : CodeRange) (s : Session ω) (body : Option Regex) : Session ω :=
  { captures := s.captures.referAll body, feeds := s.feeds ++ [.ofBody alphabet body] }

/-- One pull from the feed at a position. -/
def next (s : Session ω) (position : Nat) : Option ω × Session ω :=
  let (outcome, captures, feeds) := Feed.nextAt s.captures s.feeds position
  (outcome, { captures, feeds })

/-- The answers to several pulls, each with the captures after it. -/
def run (s : Session ω) : List Nat → List (Option ω × Captures)
  | [] => []
  | position :: positions =>
    let (outcome, s) := s.next position
    (outcome, s.captures) :: s.run positions

end Session

/-! ### Enumerations -/

/-- The enumeration of one pattern: its feed, its captures, and how many more values may be
asked for if that is limited. -/
structure Enumeration (ω : Type) : Type 1 where
  feed : Feed ω
  captures : Captures := {}
  remaining : Option Nat := none

namespace Enumeration

/-- The enumeration of a pattern from its beginning. -/
def ofPattern (p : Pattern) (options : Options) : Enumeration ω :=
  { feed := .ofPattern options.alphabet p
    captures := Captures.referAll {} p.body
    remaining := options.limit }

/-- One pull. Past the limit the feed is not asked any more. -/
def next (e : Enumeration ω) : Option ω × Enumeration ω :=
  match e.remaining with
  | some 0 => (none, e)
  | _ =>
    let (outcome, captures, feed) := e.feed.next e.captures
    (outcome, { feed, captures, remaining := e.remaining.map (· - 1) })

/-- The values of up to `n` pulls, stopping at the end, added to those that are there. -/
def collect : Nat → Enumeration ω → Array ω → Array ω
  | 0, _, outcomes => outcomes
  | n + 1, e, outcomes =>
    match e.next with
    | (none, _) => outcomes
    | (some outcome, e) => e.collect n (outcomes.push outcome)

/-- The values of up to `n` pulls. -/
def take (n : Nat) (e : Enumeration ω) : List ω :=
  (e.collect n #[]).toList

/-- One pull from the enumeration at a position; there is nothing at a position without one. -/
def nextAt : List (Enumeration ω) → Nat → Option ω × List (Enumeration ω)
  | [], _ => (none, [])
  | e :: es, 0 =>
    let (outcome, e) := e.next
    (outcome, e :: es)
  | e :: es, position + 1 =>
    let (outcome, es) := nextAt es position
    (outcome, e :: es)

/-- The answers to pulls from several enumerations, in the order that `positions` gives. -/
def interleave (es : List (Enumeration ω)) : List Nat → List (Option ω)
  | [] => []
  | position :: positions =>
    let (outcome, es) := nextAt es position
    outcome :: interleave es positions

end Enumeration

/-- The number of pulls that give the values of a pattern, unless neither a limit nor an end
bounds them. -/
def Pattern.pulls? (p : Pattern) (options : Options) : Option Nat :=
  (p.plan options.alphabet : Plan Effect String).pulls? options.limit

/-- The values of a pattern in the order of their enumeration; `none` if neither a limit nor an
end bounds them. -/
def Pattern.outcomes? (p : Pattern) (options : Options) : Option (List ω) :=
  (p.pulls? options).map fun n => (Enumeration.ofPattern p options).take n

/-- The strings a pattern can match. -/
def Pattern.matches? (p : Pattern) (options : Options) : Option (List String) :=
  p.outcomes? options

/-- The strings a pattern can match, each with its provenance. -/
def Pattern.provenances? (p : Pattern) (options : Options) : Option (List Provenance) :=
  p.outcomes? options

end RegexWords
