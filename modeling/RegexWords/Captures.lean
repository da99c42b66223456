import RegexWords.Text.Replace

/-!
# Captures

While values are pulled, capturing groups record the text they produced last, and a
backreference stands in a value as a **placeholder**. A reference is **live** once it was
evaluated after its group had captured something. When a whole value is assembled, the
placeholders of live groups give way to the captured texts and all others are deleted.

Groups are taken in ascending number, once each. So a captured text may bring in placeholders:
those of higher groups are still replaced, those of lower groups were passed already and are
deleted.

## Main definitions

* `placeholder`: what stands for a reference.
* `Captures.substitute`, `Captures.strip`: the two passes.
* `Effect`, `Captures.perform`: what a pull may record.
-/

namespace RegexWords

/-- The character that opens a placeholder. It is for private use, so no ordinary pattern
produces it. -/
def placeholderOpen : Char := '\ue000'

/-- The character that closes a placeholder. -/
def placeholderClose : Char := '\ue001'

/-- The **placeholder** of a reference to `group`. -/
def placeholder (group : Nat) : String :=
  placeholderOpen.toString ++ toString group ++ placeholderClose.toString

/-- What is known of one group: the text it captured last, whether a reference to it is live,
and whether the pattern refers to it at all. -/
structure GroupRecord where
  text? : Option String := none
  isLive : Bool := false
  isReferenced : Bool := false
deriving DecidableEq, Repr

/-- The groups of which something is known, in ascending number. -/
structure Captures where
  entries : List (Nat × GroupRecord) := []
  ascending : entries.Pairwise (·.1 < ·.1) := by exact .nil

namespace Captures

/-- Changes the record of one group in a list of ascending groups. -/
def updateEntries (group : Nat) (f : GroupRecord → GroupRecord) :
    List (Nat × GroupRecord) → List (Nat × GroupRecord)
  | [] => [(group, f {})]
  | (g, r) :: rest =>
    if group < g then (group, f {}) :: (g, r) :: rest
    else if group = g then (g, f r) :: rest
    else (g, r) :: updateEntries group f rest

theorem eq_or_mem_of_mem_updateEntries {group : Nat} {f : GroupRecord → GroupRecord}
    {entries : List (Nat × GroupRecord)} {e : Nat × GroupRecord}
    (h : e ∈ updateEntries group f entries) : e.1 = group ∨ ∃ e' ∈ entries, e'.1 = e.1 := by
  induction entries with
  | nil => exact .inl (by simp_all [updateEntries])
  | cons x rest ih =>
    obtain ⟨g, r⟩ := x
    rw [updateEntries] at h
    split at h
    · rcases List.mem_cons.1 h with rfl | h
      · exact .inl rfl
      · exact .inr ⟨e, h, rfl⟩
    · split at h
      · next hg =>
        rcases List.mem_cons.1 h with rfl | h
        · exact .inl hg.symm
        · exact .inr ⟨e, List.mem_cons_of_mem _ h, rfl⟩
      · rcases List.mem_cons.1 h with rfl | h
        · exact .inr ⟨_, List.mem_cons_self, rfl⟩
        · rcases ih h with h | ⟨e', he, h⟩
          · exact .inl h
          · exact .inr ⟨e', List.mem_cons_of_mem _ he, h⟩

theorem pairwise_updateEntries (group : Nat) (f : GroupRecord → GroupRecord)
    {entries : List (Nat × GroupRecord)} (h : entries.Pairwise (·.1 < ·.1)) :
    (updateEntries group f entries).Pairwise (·.1 < ·.1) := by
  induction h with
  | nil => simp [updateEntries]
  | @cons x rest hx hrest ih =>
    obtain ⟨g, r⟩ := x
    rw [updateEntries]
    split
    · next hlt =>
      refine .cons (fun e he => ?_) (.cons hx hrest)
      rcases List.mem_cons.1 he with rfl | he
      · exact hlt
      · exact Nat.lt_trans hlt (hx e he)
    · split
      · exact .cons hx hrest
      · next h₁ h₂ =>
        refine .cons (fun e he => ?_) ih
        rcases eq_or_mem_of_mem_updateEntries he with h | ⟨e', he', h⟩
        · show g < e.1
          omega
        · have := hx e' he'
          show g < e.1
          omega

/-- The captures after the record of one group has changed. -/
def update (c : Captures) (group : Nat) (f : GroupRecord → GroupRecord) : Captures :=
  { entries := updateEntries group f c.entries
    ascending := pairwise_updateEntries group f c.ascending }

/-- What is known of a group. -/
def record (c : Captures) (group : Nat) : GroupRecord :=
  (c.entries.lookup group).getD {}

/-- The text that a group captured last. -/
def text? (c : Captures) (group : Nat) : Option String :=
  (c.record group).text?

/-- Whether a reference to the group is live. -/
def isLive (c : Captures) (group : Nat) : Bool :=
  (c.record group).isLive

/-- Records the latest text of a group. -/
def capture (c : Captures) (group : Nat) (text : String) : Captures :=
  c.update group fun r => { r with text? := some text }

/-- Notes that the pattern refers to a group. -/
def refer (c : Captures) (group : Nat) : Captures :=
  c.update group fun r => { r with isReferenced := true }

/-- Evaluates a reference: it is live from now on if its group has captured something. -/
def resolve (c : Captures) (group : Nat) : Captures :=
  c.update group fun r => { r with isLive := r.isLive || r.text?.isSome }

/-- The live groups that have captured something, ascending, each with its text. -/
def liveTexts (c : Captures) : List (Nat × String) :=
  c.entries.filterMap fun (g, r) => if r.isLive then r.text?.map (g, ·) else none

/-- The groups whose placeholders are deleted, in the order in which that is done: those
referred to, then those that captured something. -/
def strippable (c : Captures) : List Nat :=
  (c.entries.filter (·.2.isReferenced)).map (·.1) ++
    (c.entries.filter (·.2.text?.isSome)).map (·.1)

/-- Replaces the placeholders of live groups with the captured texts. -/
def substitute (c : Captures) (value : String) : String :=
  c.liveTexts.foldl (fun value (g, text) => Text.replaceAll (placeholder g) text value) value

/-- Deletes the placeholders of all groups that are known. -/
def strip (c : Captures) (value : String) : String :=
  if value.toList.contains placeholderOpen then
    c.strippable.foldl (fun value g => Text.replaceAll (placeholder g) "" value) value
  else value

/-- Both passes over a value that is assembled. -/
def finish (c : Captures) (value : String) : String :=
  c.strip (c.substitute value)

end Captures

/-- What a pull may record. -/
inductive Effect
  /-- A group produced a text. -/
  | capture (group : Nat) (text : String)
  /-- A reference was evaluated. -/
  | resolve (group : Nat)
deriving DecidableEq, Repr

namespace Captures

/-- Records one effect. -/
def performOne (c : Captures) : Effect → Captures
  | .capture group text => c.capture group text
  | .resolve group => c.resolve group

/-- Records several effects, in order. -/
def perform (c : Captures) (effects : List Effect) : Captures :=
  effects.foldl performOne c

end Captures

end RegexWords
