import RegexWords.Proofs.Replacement
import RegexWords.Proofs.Trail.Nesting

/-!
# Sequences in Sequences

Some neighbouring parts of a sequence may be put into a group that does not capture. The counter
of the sequence then drives another counter in place of several wheels, which keeps whole joined
texts; what is enumerated stays the same, and so do the captures at every pull. For sources of
tuples it is the same with combining some of them first.

## Main definitions

* `Regex.Nests`: a sequence, and the same with some neighbouring parts in a group.

## Main results

* `Regex.Nests.interchangeable`: nesting a sequence changes neither strings nor references.
* `RegexWords.sequence_assoc`: **sequences are associative**, anywhere in a pattern, and so is the
  combination of sources.
-/

namespace RegexWords

namespace Regex

/-- Some neighbouring parts of a sequence, at least one, are put into a group of their own. -/
inductive Nests : Regex → Regex → Prop
  | intro (before inner after : List Regex) : inner ≠ [] →
      Nests (sequence (before ++ inner ++ after))
        (sequence (before ++ grouping (some (sequence inner)) :: after))

/-- Texts that were joined already may stand among texts that are joined. -/
theorem join_append_join (as bs cs : List String) :
    String.join (as ++ String.join bs :: cs) = String.join (as ++ bs ++ cs) := by
  rw [String.join_append, String.join_cons, List.append_assoc, String.join_append,
    String.join_append]

/-- **Nesting** a sequence changes neither its strings nor its references. -/
theorem Nests.interchangeable {alphabet : CodeRange} {r r' : Regex} (h : r.Nests r') :
    r.Interchangeable alphabet r' := by
  obtain ⟨before, inner, after, hinner⟩ := h
  have hgroup : ((grouping (some (sequence inner))).trail alphabet : Trail Effect String) =
      (Trail.product (inner.map (trail alphabet))).map String.join := by
    rw [trail_grouping, Trail.map_wrap_string]
    exact trail_sequence_string alphabet inner
  refine ⟨?_, ?_⟩
  · rw [trail_sequence_string, trail_sequence_string, List.map_append, List.map_append,
      List.map_append, List.map_cons, hgroup]
    exact (Trail.map_product_nest join_append_join (fused_trails alphabet before)
      (fused_trails alphabet inner) (fused_trails alphabet after) (by simpa using hinner)).symm
  · have hbody : references (some (grouping (some (sequence inner)))) =
        inner.flatMap fun r => references (some r) := references_sequence inner
    rw [references_sequence, references_sequence, List.flatMap_append, List.flatMap_append,
      List.flatMap_append, List.flatMap_cons, hbody, List.append_assoc]

end Regex

/-- **Sequences are associative.** Of two patterns that differ in one sequence, anywhere, of which
some neighbouring parts are in a group in the one but not in the other, each pull gives the same
string, or the end, in both. And if some sources of tuples are combined before they are combined
with others, each pull gives the same tuple and causes the same events as without. -/
theorem sequence_assoc :
    (∀ (alphabet : CodeRange) (r r' : Regex) (groupCount n : ℕ), r.Replaced Regex.Nests r' →
      ((Enumeration.ofPattern ⟨some r', groupCount⟩ { alphabet } :
          Enumeration String).after n).next.1 =
        ((Enumeration.ofPattern ⟨some r, groupCount⟩ { alphabet } :
          Enumeration String).after n).next.1) ∧
      ∀ (ε α : Type) (xs ys zs : List (Source ε (List α))) (n : ℕ), ys ≠ [] →
        (Source.combine (xs ++ Source.combine ys :: zs)).answers n =
          (Source.combine (xs ++ ys ++ zs)).answers n := by
  refine ⟨fun alphabet r r' groupCount n h => ?_, fun ε α xs ys zs n hys => ?_⟩
  · have hsame : r.Interchangeable alphabet r' :=
      h.interchangeable fun _ _ => Regex.Nests.interchangeable
    exact (Enumeration.next_after_of_interchangeable hsame groupCount groupCount n).symm
  · rw [Source.answers_eq, Source.answers_eq, Source.trail_combine_nest xs ys zs hys]

/-- A sequence below an endless repetition, of which a group and a reference to it are put
together; and endlessly many tuples before two sources that are combined first. -/
theorem sequence_assoc_repeated :
    ∃ (inner : List Regex) (flat nested : Regex),
      inner = [.capturing 1 (some (.either (some (.literal 'a')) (some (.literal 'b')))),
        .backreference 1] ∧
      flat = .repeated (.sequence (.literal 'x' :: inner)) .star true ∧
      nested = .repeated (.sequence [.literal 'x', .grouping (some (.sequence inner))]) .star true ∧
      (∀ n, ((Enumeration.ofPattern ⟨some nested, 1⟩ { alphabet := .printable } :
          Enumeration String).after n).next.1 =
        ((Enumeration.ofPattern ⟨some flat, 1⟩ { alphabet := .printable } :
          Enumeration String).after n).next.1) ∧
      (Source.combine [.numbers (fun k => [k]) 0,
          Source.combine [.items [[1], [2, 3]], .items [[], [4]]]] :
            Source String (List ℕ)).answers 9 =
        (Source.combine [.numbers (fun k => [k]) 0, .items [[1], [2, 3]], .items [[], [4]]] :
            Source String (List ℕ)).answers 9 := by
  let inner : List Regex :=
    [.capturing 1 (some (.either (some (.literal 'a')) (some (.literal 'b')))), .backreference 1]
  have hnests : Regex.Nests (.sequence (.literal 'x' :: inner))
      (.sequence [.literal 'x', .grouping (some (.sequence inner))]) :=
    .intro [.literal 'x'] inner [] (List.cons_ne_nil _ _)
  refine ⟨inner, _, _, rfl, rfl, rfl, fun n => ?_, ?_⟩
  · exact sequence_assoc.1 .printable _ _ 1 n (.repeated .star true (.here hnests))
  · exact sequence_assoc.2 String ℕ [.numbers (fun k => [k]) 0]
      [.items [[1], [2, 3]], .items [[], [4]]] [] 9 (List.cons_ne_nil _ _)

end RegexWords
