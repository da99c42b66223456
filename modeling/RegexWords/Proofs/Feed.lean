import RegexWords.Proofs.Trail.Product
import RegexWords.Session

/-!
# Pulls from a Feed

A feed is pulled one value at a time while the captures around it change, also between its own
pulls. What it gives still depends on its trail only: the next pull records the first events of
the trail and assembles the first value, and leaves the tail.

## Main results

* `Source.next_eq`: one pull takes the head off the trail of a source.
* `Feed.next_eq`: **one pull from a feed**, in terms of its trail.
-/

namespace RegexWords

variable {ε α ω : Type}

/-- One pull of a source gives the first value and the first events of its trail, and leaves a
source with the tail. -/
theorem Source.next_eq (s : Source ε α) :
    s.next.value? = s.trail.value? 0 ∧ s.next.events = s.trail.events 0 ∧
      s.next.rest.trail = s.trail.tail :=
  ⟨rfl, rfl, rfl⟩

namespace Feed

/-- The trail of a feed is that of its source. -/
def trail (feed : Feed ω) : Trail Effect ω :=
  feed.source.trail

/-- The trail of a feed is fused. -/
theorem fused_trail (feed : Feed ω) : feed.trail.Fused :=
  feed.source.fused_trail

variable [Outcome ω]

/-- What a feed makes of an outcome: that of a whole pattern is assembled with the captures. -/
def assemble (pattern? : Option Pattern) (captures : Captures) (outcome : ω) : ω :=
  match pattern? with
  | some p => Outcome.ofPattern p captures outcome
  | none => outcome

/-- **One pull from a feed.** The first events of its trail are recorded, then the first value is
assembled; the tail of the trail is left. -/
theorem next_eq (captures : Captures) (feed : Feed ω) :
    (feed.next captures).1 = (feed.trail.value? 0).map
        (assemble feed.pattern? (captures.perform (feed.trail.events 0))) ∧
      (feed.next captures).2.1 = captures.perform (feed.trail.events 0) ∧
      (feed.next captures).2.2.trail = feed.trail.tail ∧
      (feed.next captures).2.2.pattern? = feed.pattern? := by
  obtain ⟨hvalue, hevents, hrest⟩ := feed.source.next_eq
  simp only [trail, ← hvalue, ← hevents, ← hrest]
  exact ⟨rfl, rfl, rfl, rfl⟩

end Feed

end RegexWords
