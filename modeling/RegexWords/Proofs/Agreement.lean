import RegexWords.Proofs.Feed
import RegexWords.Proofs.Trail.Pattern

/-!
# Strings and Provenance Agree

An enumeration runs the same machines whatever it produces. A **lawful** kind of outcome is one
whose texts are put together as strings are; strings and provenance trees both are. Forgetting
everything but the texts then turns the trail of a tree, event by event, into the trail of
strings, so an enumeration of outcomes and one of strings go in lockstep: their captures are the
same at every moment, although the captured texts are made from outcomes of different kinds.

## Main results

* `Regex.map_value_trail`: the texts and the events of a tree do not depend on the outcomes.
* `Enumeration.Agrees.next`: one pull keeps two enumerations in lockstep.
* `Enumeration.provenance_agrees`: **the two kinds of output agree**, pull by pull.
-/

namespace RegexWords

/-! ### Lawful outcomes -/

/-- A **lawful** kind of outcome: the text of an outcome is what the strings would give. -/
class LawfulOutcome (ω : Type) [Outcome ω] : Prop where
  value_leaf : ∀ (origin : Origin) (text : String),
    Outcome.value (Outcome.leaf origin text : ω) = text
  value_wrap : ∀ (origin : Origin) (child : ω),
    Outcome.value (Outcome.wrap origin child) = Outcome.value child
  value_joined : ∀ (origin : Origin) (parts : List ω),
    Outcome.value (Outcome.joined origin parts) = String.join (parts.map Outcome.value)
  value_repeated : ∀ (origin : Origin) (draws : List (Draw ω)),
    Outcome.value (Outcome.repeated origin draws) =
      String.join (draws.map fun d => Outcome.value d.value)
  value_withValue : ∀ (outcome : ω) (text : String),
    Outcome.value (Outcome.withValue outcome text) = text

instance : LawfulOutcome String where
  value_leaf _ _ := rfl
  value_wrap _ _ := rfl
  value_joined _ parts := congrArg String.join (List.map_id parts).symm
  value_repeated _ _ := rfl
  value_withValue _ _ := rfl

instance : LawfulOutcome Provenance where
  value_leaf _ _ := rfl
  value_wrap _ _ := rfl
  value_joined _ _ := rfl
  value_repeated _ _ := rfl
  value_withValue _ _ := rfl

open LawfulOutcome

variable {ω : Type} [Outcome ω]

/-! ### Trees -/

namespace Regex

variable {alphabet : CodeRange}

/-- The texts of a body do not depend on the outcomes if those of the tree in it do not. -/
theorem map_value_bodyTrail {body : Option Regex}
    (h : ∀ r ∈ body, (r.trail alphabet : Trail Effect ω).map Outcome.value = r.trail alphabet) :
    (bodyTrail alphabet body : Trail Effect ω).map Outcome.value = bodyTrail alphabet body := by
  cases body with
  | none =>
      rw [bodyTrail_none, bodyTrail_none]
      exact Trail.map_items _ []
  | some r => exact h r rfl

variable [LawfulOutcome ω]

/-- Passing outcomes on keeps their texts. -/
theorem map_value_wrap (origin : Origin) (t : Trail Effect ω) :
    (t.map (Outcome.wrap origin)).map Outcome.value = t.map Outcome.value := by
  rw [Trail.map_map]
  simp only [value_wrap]

/-- The texts of what some origins produce by themselves. -/
theorem map_value_leaves {β : Type} (l : List β) (origin : Origin) (text : β → String) :
    (Trail.items (l.map fun b => Outcome.leaf origin (text b)) : Trail Effect ω).map
        Outcome.value = Trail.items (l.map fun b => Outcome.leaf origin (text b)) := by
  rw [Trail.map_items, List.map_map]
  simp only [Function.comp_def, value_leaf]
  rfl

/-- **Forgetting everything but the texts.** The texts and the events of a tree are those of its
strings. -/
theorem map_value_trail (r : Regex) :
    (r.trail alphabet : Trail Effect ω).map Outcome.value = r.trail alphabet := by
  induction r with
  | literal c =>
      rw [trail_literal, trail_literal]
      exact map_value_leaves [c] _ Char.toString
  | dot =>
      rw [trail_dot, trail_dot]
      exact map_value_leaves alphabet.chars _ Char.toString
  | sequence parts ih =>
      have hparts : (parts.map (trail alphabet)).map (Trail.map (Outcome.value : ω → String)) =
          parts.map (trail alphabet) := by
        rw [List.map_map]
        exact List.map_congr_left ih
      rw [trail_sequence, trail_sequence, ← hparts, ← Trail.map_product, Trail.map_map,
        Trail.map_map]
      simp only [value_joined]
      rfl
  | either left right ihleft ihright =>
      have hsides : ([left, right].map (bodyTrail alphabet)).map
          (Trail.map (Outcome.value : ω → String)) = [left, right].map (bodyTrail alphabet) := by
        simp [map_value_bodyTrail ihleft, map_value_bodyTrail ihright]
      rw [trail_either, trail_either, map_value_wrap, Trail.map_wrap_string, Trail.map_concat,
        hsides]
  | repeated part q greedy ih =>
      have hjoin : ∀ ds : List (Draw ω),
          Outcome.value (Outcome.repeated (.regex (repeated part q greedy)) ds) =
            Outcome.repeated (.regex (repeated part q greedy))
              (ds.map (Draw.map (Outcome.value : ω → String))) := by
        intro ds
        have hvalues : (ds.map (Draw.map (Outcome.value : ω → String))).map Draw.value =
            ds.map fun d => Outcome.value d.value := List.map_map
        rw [value_repeated, ← hvalues]
        rfl
      rw [trail_repeated, trail_repeated, ← ih, ← Trail.map_power, Trail.map_map, Trail.map_map]
      simp only [hjoin]
  | charClass members negated =>
      have hmembers : (members.map fun m => (Trail.items ((m.chars alphabet negated).map fun c =>
          Outcome.leaf (.member m) c.toString) : Trail Effect ω)).map (Trail.map Outcome.value) =
          members.map fun m => Trail.items ((m.chars alphabet negated).map fun c =>
            Outcome.leaf (.member m) c.toString) := by
        rw [List.map_map]
        exact List.map_congr_left fun m _ => map_value_leaves _ _ Char.toString
      rw [trail_charClass, trail_charClass, map_value_wrap, Trail.map_wrap_string, Trail.map_concat,
        hmembers]
  | shorthand kind =>
      rw [trail_shorthand, trail_shorthand]
      exact Trail.map_items _ []
  | anchor kind =>
      rw [trail_anchor, trail_anchor]
      exact map_value_leaves [()] _ fun _ => ""
  | capturing number body ih =>
      rw [trail_capturing, trail_capturing, map_value_wrap, Trail.map_wrap_string,
        ← map_value_bodyTrail ih]
      exact Trail.map_tap Outcome.value (Effect.capture number) _
  | grouping body ih =>
      rw [trail_grouping, trail_grouping, map_value_wrap, Trail.map_wrap_string]
      exact map_value_bodyTrail ih
  | backreference number =>
      rw [trail_backreference, trail_backreference]
      have htap := Trail.map_tap (Outcome.value : ω → String) (fun _ => Effect.resolve number)
      rw [htap]
      exact congrArg (Trail.tap _) (map_value_leaves [()] _ fun _ => placeholder number)
  | lookaround body direction positive ih =>
      rw [trail_lookaround, trail_lookaround]
      exact map_value_leaves [()] _ fun _ => ""

end Regex

/-! ### Feeds -/

/-- Two feeds **agree** if they are feeds of the same pattern, or of none, and the texts and the
events that they have left are the same. -/
structure Feed.Agrees (feed : Feed ω) (feed' : Feed String) : Prop where
  pattern?_eq : feed.pattern? = feed'.pattern?
  trail_eq : feed.trail.map Outcome.value = feed'.trail

/-- An enumeration of outcomes and one of strings **agree** if their feeds do, their captures are
the same, and as many values may still be asked for. -/
structure Enumeration.Agrees (e : Enumeration ω) (e' : Enumeration String) : Prop where
  feed : e.feed.Agrees e'.feed
  captures_eq : e.captures = e'.captures
  remaining_eq : e.remaining = e'.remaining

/-- The enumeration after `k` pulls. -/
def Enumeration.after : ℕ → Enumeration ω → Enumeration ω
  | 0, e => e
  | k + 1, e => (after k e.next.2)

variable [LawfulOutcome ω]

/-- Assembling an outcome is assembling its text. -/
theorem Feed.value_assemble (pattern? : Option Pattern) (captures : Captures) (outcome : ω) :
    Outcome.value (assemble pattern? captures outcome) =
      assemble pattern? captures (Outcome.value outcome) := by
  cases pattern? with
  | none => rfl
  | some p => exact (value_wrap _ _).trans (value_withValue _ _)

/-- **One pull in lockstep.** Feeds that agree give the same text, if any, record the same, and
agree again. -/
theorem Feed.Agrees.next {feed : Feed ω} {feed' : Feed String} (h : feed.Agrees feed')
    (captures : Captures) :
    (feed.next captures).1.map Outcome.value = (feed'.next captures).1 ∧
      (feed.next captures).2.1 = (feed'.next captures).2.1 ∧
      (feed.next captures).2.2.Agrees (feed'.next captures).2.2 := by
  obtain ⟨hpattern, htrail⟩ := h
  obtain ⟨hvalue, hcaptures, htail, hsame⟩ := feed.next_eq captures
  obtain ⟨hvalue', hcaptures', htail', hsame'⟩ := feed'.next_eq captures
  have hevents : feed.trail.events 0 = feed'.trail.events 0 := by
    rw [← htrail]
    rfl
  refine ⟨?_, ?_, ?_, ?_⟩
  · rw [hvalue, hvalue', hpattern, hevents, ← htrail, Trail.value?_map, Option.map_map,
      Option.map_map]
    simp only [Function.comp_def, value_assemble]
  · rw [hcaptures, hcaptures', hevents]
  · rw [hsame, hsame', hpattern]
  · rw [htail, htail', ← htrail]
    rfl

/-! ### Enumerations -/

namespace Enumeration

/-- At the beginning the enumerations of a pattern agree. -/
theorem agrees_ofPattern (p : Pattern) (options : Options) :
    (ofPattern p options : Enumeration ω).Agrees (ofPattern p options) := by
  refine ⟨⟨rfl, ?_⟩, rfl, rfl⟩
  exact Regex.map_value_bodyTrail fun r _ => Regex.map_value_trail r

/-- **One pull in lockstep.** Enumerations that agree give the same text, if any, and agree
again. -/
theorem Agrees.next {e : Enumeration ω} {e' : Enumeration String} (h : e.Agrees e') :
    e.next.1.map Outcome.value = e'.next.1 ∧ e.next.2.Agrees e'.next.2 := by
  obtain ⟨feed, captures, remaining⟩ := e
  obtain ⟨feed', captures', remaining'⟩ := e'
  obtain ⟨hfeed, rfl, rfl⟩ := h
  obtain ⟨hvalue, hcaptures, hnext⟩ := hfeed.next captures
  rcases remaining with _ | _ | n
  · exact ⟨hvalue, hnext, hcaptures, rfl⟩
  · exact ⟨rfl, hfeed, rfl, rfl⟩
  · exact ⟨hvalue, hnext, hcaptures, rfl⟩

/-- Enumerations that agree still agree after any number of pulls. -/
theorem Agrees.after {e : Enumeration ω} {e' : Enumeration String} (h : e.Agrees e') (k : ℕ) :
    (e.after k).Agrees (e'.after k) := by
  induction k generalizing e e' with
  | zero => exact h
  | succ k ih => exact ih h.next.2

/-- **The two kinds of output agree.** Of the enumerations of a pattern with and without
provenance, each pull gives a value in both or in neither, the value with provenance has the
string as its text, and after the pull both have the same captures. -/
theorem provenance_agrees (p : Pattern) (options : Options) (k : ℕ) :
    ((ofPattern p options : Enumeration Provenance).after k).next.1.map Provenance.value =
        ((ofPattern p options : Enumeration String).after k).next.1 ∧
      ((ofPattern p options : Enumeration Provenance).after k).next.2.captures =
        ((ofPattern p options : Enumeration String).after k).next.2.captures := by
  have hagrees := (agrees_ofPattern p options : (ofPattern p options :
    Enumeration Provenance).Agrees _).after k
  obtain ⟨hvalue, hnext⟩ := hagrees.next
  exact ⟨hvalue, hnext.captures_eq⟩

end Enumeration

end RegexWords
