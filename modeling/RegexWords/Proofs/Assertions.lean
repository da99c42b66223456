import RegexWords.Proofs.Nesting

/-!
# Assertions Do Nothing

An anchor or a lookaround gives the empty text once, whatever it asserts, and reports nothing. As
a part of a sequence it drives a wheel that never turns and contributes nothing to any text. If it
is left out then the wheel is gone, even where it was the fastest one, but what is enumerated stays
the same, and so do the captures at every pull. The body of a lookaround is not looked at at all.

## Main definitions

* `Regex.IsAssertion`: the nodes that assert something about a position.
* `Regex.Relaxes`: an assertion is left out of a sequence, or asserts something else.

## Main results

* `Regex.Relaxes.interchangeable`: relaxing an assertion changes neither strings nor references.
* `RegexWords.next_after_of_relaxed`: **assertions do nothing**, anywhere in a pattern.
-/

namespace RegexWords

namespace Regex

/-- The **assertions** about a position: anchors and lookarounds. -/
inductive IsAssertion : Regex → Prop
  | anchor (kind : Anchor) : IsAssertion (anchor kind)
  | lookaround (body : Option Regex) (direction : Direction) (positive : Bool) :
      IsAssertion (lookaround body direction positive)

/-- An assertion is **relaxed**: it is left out of a sequence that has other parts, or it is a
lookaround and gets another body. -/
inductive Relaxes : Regex → Regex → Prop
  | leaveOut (before after : List Regex) {assertion : Regex} : assertion.IsAssertion →
      before ++ after ≠ [] →
      Relaxes (sequence (before ++ assertion :: after)) (sequence (before ++ after))
  | replaceBody (body body' : Option Regex) (direction : Direction) (positive : Bool) :
      Relaxes (lookaround body direction positive) (lookaround body' direction positive)

variable {alphabet : CodeRange}

/-- An assertion gives the empty text once and reports nothing. -/
theorem IsAssertion.trail_eq {r : Regex} (h : r.IsAssertion) :
    (r.trail alphabet : Trail Effect String) = Trail.items [""] := by
  cases h with
  | anchor kind => exact trail_anchor alphabet kind
  | lookaround body direction positive => exact trail_lookaround alphabet body direction positive

/-- An assertion refers to no group, whatever its body does. -/
theorem IsAssertion.references_eq {r : Regex} (h : r.IsAssertion) : references (some r) = [] := by
  cases h <;> rfl

/-- **Relaxing** an assertion changes neither strings nor references. -/
theorem Relaxes.interchangeable {r r' : Regex} (h : r.Relaxes r') :
    r.Interchangeable alphabet r' := by
  cases h with
  | @leaveOut before after assertion hassertion hne =>
      refine ⟨?_, ?_⟩
      · -- the empty text is what no texts at all are joined to
        have hempty : (assertion.trail alphabet : Trail Effect String) =
            (Trail.tuples []).map String.join :=
          hassertion.trail_eq.trans (Trail.map_items String.join [[]]).symm
        have hparts : (before ++ after).map (trail alphabet : Regex → Trail Effect String) ≠ [] :=
          mt List.map_eq_nil_iff.1 hne
        rw [trail_sequence_string, trail_sequence_string, Trail.product_eq_tuples (by simp),
          Trail.product_eq_tuples hparts, List.map_append, List.map_append, List.map_cons, hempty,
          Trail.map_tuples_nest join_append_join (fused_trails alphabet before) (by simp)
            (fused_trails alphabet after), List.append_nil]
      · rw [references_sequence, references_sequence, List.flatMap_append, List.flatMap_append,
          List.flatMap_cons, hassertion.references_eq, List.nil_append]
  | replaceBody body body' direction positive =>
      refine ⟨?_, rfl⟩
      rw [trail_lookaround, trail_lookaround]
      rfl

end Regex

/-- **Assertions do nothing.** Of two patterns of which the second leaves out one assertion among
the parts of a sequence, anywhere, or has another body in one lookaround, each pull gives the same
string, or the end, in both. -/
theorem next_after_of_relaxed (alphabet : CodeRange) {r r' : Regex} (groupCount groupCount' n : ℕ)
    (h : r.Replaced Regex.Relaxes r') :
    ((Enumeration.ofPattern ⟨some r', groupCount'⟩ { alphabet } :
        Enumeration String).after n).next.1 =
      ((Enumeration.ofPattern ⟨some r, groupCount⟩ { alphabet } :
        Enumeration String).after n).next.1 := by
  have hsame : r.Interchangeable alphabet r' :=
    h.interchangeable fun _ _ => Regex.Relaxes.interchangeable
  exact (Enumeration.next_after_of_interchangeable hsame groupCount groupCount' n).symm

/-- The first part of a sequence below an endless repetition is left out, where a group and a
reference to it follow. The third string shows what the group has captured by then. -/
theorem next_after_of_relaxed_start :
    ∃ (parts : List Regex) (r r' : Regex),
      parts = [.capturing 1 (some (.either (some (.literal 'a')) (some (.literal 'b')))),
        .backreference 1] ∧
      r = .repeated (.sequence (.anchor .start :: parts)) .plus true ∧
      r' = .repeated (.sequence parts) .plus true ∧ r.Replaced Regex.Relaxes r' ∧
      ((Enumeration.ofPattern ⟨some r', 1⟩ { alphabet := .printable } :
        Enumeration String).after 2).next.1 = some "abab" := by
  let parts : List Regex :=
    [.capturing 1 (some (.either (some (.literal 'a')) (some (.literal 'b')))), .backreference 1]
  have hrelaxes : Regex.Relaxes (.sequence (.anchor .start :: parts)) (.sequence parts) :=
    .leaveOut [] parts (.anchor .start) (List.cons_ne_nil _ _)
  have hreplaced : (Regex.repeated (.sequence (.anchor .start :: parts)) .plus true).Replaced
      Regex.Relaxes (.repeated (.sequence parts) .plus true) := .repeated .plus true (.here hrelaxes)
  refine ⟨parts, _, _, rfl, rfl, rfl, hreplaced, ?_⟩
  rw [next_after_of_relaxed .printable 1 1 2 hreplaced]
  decide

end RegexWords
