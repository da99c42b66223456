import Mathlib
import RegexWords.Proofs.Backreferences
import RegexWords.Proofs.Reading.Alternation
import RegexWords.Proofs.Trail.Append

/-!
# Enumerating Alternatives

The values of two texts with a bar between them are those of the first and then those of the
second. While the first pattern has values the captures are the same as if it were alone, since
nothing of the second is asked. Later the captures hold what groups of the first have recorded,
and the groups of the second record under numbers of their own; but a value without marks does not
ask for captures, so values of the second pattern come out as they do alone.

## Main results

* `Regex.bodyTrail_alternation`: the strings of alternatives, left before right.
* `Captures.finish_of_plain`: a text without marks is finished already.
* `Pattern.stringAt?_of_ofText_bar`: **the values of two texts with a bar between them**.
-/

namespace RegexWords

/-- Finishing leaves a text without marks as it is. -/
theorem Captures.finish_of_plain (c : Captures) {value : String}
    (h : ∀ ch ∈ value.toList, ¬ IsMark ch) : c.finish value = value := by
  rw [finish, substitute, List.foldl_fixed' fun gt =>
    Text.replaceAll_placeholder_of_plain gt.1 gt.2 h, strip_of_plain c h]

namespace Regex

variable {alphabet : CodeRange}

/-! ### Strings and references of alternatives -/

/-- The strings of `left|right` are those of `left` and then those of `right`. -/
theorem trail_either_string (left right : Option Regex) :
    ((either left right).trail alphabet : Trail Effect String) =
      (bodyTrail alphabet left).append (bodyTrail alphabet right) := by
  rw [trail_either, Trail.map_wrap_string]
  exact congrArg (Trail.append _) (Trail.append_items_nil _)

/-- The strings of the alternatives of a body after `left` if it is so for the tree in the body. -/
theorem bodyTrail_alternation_of_forall {left body : Option Regex}
    (h : ∀ r ∈ body, ((precede left r).trail alphabet : Trail Effect String) =
      (bodyTrail alphabet left).append (r.trail alphabet)) :
    (bodyTrail alphabet (some (alternation left body)) : Trail Effect String) =
      (bodyTrail alphabet left).append (bodyTrail alphabet body) := by
  cases body with
  | none => exact trail_either_string left none
  | some r => exact h r rfl

/-- The strings of the alternatives of a tree after `left`. -/
theorem trail_precede (left : Option Regex) (r : Regex) :
    ((precede left r).trail alphabet : Trail Effect String) =
      (bodyTrail alphabet left).append (r.trail alphabet) := by
  induction r with
  | either first second ihfirst =>
      rw [precede, trail_either_string, trail_either_string,
        bodyTrail_alternation_of_forall ihfirst]
      exact (fused_bodyStrings alphabet left).append_assoc (fused_bodyStrings alphabet first) _
  | _ => exact trail_either_string left _

/-- **The strings of alternatives** are those of the first body and then those of the second. -/
theorem bodyTrail_alternation (left right : Option Regex) :
    (bodyTrail alphabet (some (alternation left right)) : Trail Effect String) =
      (bodyTrail alphabet left).append (bodyTrail alphabet right) :=
  bodyTrail_alternation_of_forall fun r _ => trail_precede left r

/-- The references of the alternatives of a body after `left` if it is so for the tree in the
body. -/
theorem references_alternation_of_forall {left body : Option Regex}
    (h : ∀ r ∈ body, references (some (precede left r)) = references left ++ references (some r)) :
    references (some (alternation left body)) = references left ++ references body := by
  cases body with
  | none => exact references_either left none
  | some r => exact h r rfl

/-- The references of the alternatives of a tree after `left`. -/
theorem references_precede (left : Option Regex) (r : Regex) :
    references (some (precede left r)) = references left ++ references (some r) := by
  induction r with
  | either first second ihfirst =>
      rw [precede, references_either, references_either,
        references_alternation_of_forall ihfirst, List.append_assoc]
  | _ => exact references_either left _

/-- The references of alternatives are those of the first body and then those of the second. -/
theorem references_alternation (left right : Option Regex) :
    references (some (alternation left right)) = references left ++ references right :=
  references_alternation_of_forall fun r _ => references_precede left r

/-- A body without references produces no marks if its nodes outside lookarounds are plain. -/
theorem not_isMark_of_plain {body : Option Regex}
    (hplain : ∀ s ∈ preorderBody false body, s.Plain alphabet) (h : references body = []) :
    ∀ v ∈ (bodyStrings alphabet body).values, ∀ c ∈ v.toList, ¬ IsMark c := by
  intro v hv
  have htokened := (tokened_bodyTrail_references hplain).values v hv
  have hempty : {g | g ∈ references body} = (∅ : Set ℕ) := by
    rw [h]
    ext g
    exact List.mem_nil_iff g
  rw [hempty] at htokened
  exact htokened.not_isMark htokened.open_notMem

end Regex

namespace Pattern

/-- The string that the enumeration of a pattern gives after `n` others; there is none after its
end. -/
def stringAt? (alphabet : CodeRange) (p : Pattern) (n : ℕ) : Option String :=
  ((Enumeration.ofPattern p { alphabet }).after n).next.1

variable {alphabet : CodeRange} {p q : Pattern}

/-- A pattern gives a string exactly as often as its body does. -/
theorem stringAt?_eq_none_iff (n : ℕ) :
    p.stringAt? alphabet n = none ↔ (Regex.bodyStrings alphabet p.body).value? n = none := by
  rw [stringAt?, Enumeration.next_after_ofPattern, Option.map_eq_none_iff]

/-- A string without marks is given as the body produces it, whatever the captures. -/
theorem stringAt?_of_plain {n : ℕ}
    (h : ∀ v ∈ (Regex.bodyStrings alphabet p.body).value? n, ∀ c ∈ v.toList, ¬ IsMark c) :
    p.stringAt? alphabet n = (Regex.bodyStrings alphabet p.body).value? n := by
  rw [stringAt?, Enumeration.next_after_ofPattern]
  cases hvalue : (Regex.bodyTrail alphabet p.body : Trail Effect String).value? n with
  | none => rfl
  | some v => exact congrArg some (Captures.finish_of_plain _ (h v hvalue))

/-- While the first pattern has strings, these are the strings of both. -/
theorem stringAt?_alternation_of_ne_none (hreferences : Regex.references q.body = []) {n : ℕ}
    (hn : p.stringAt? alphabet n ≠ none) :
    (p.alternation q).stringAt? alphabet n = p.stringAt? alphabet n := by
  rw [ne_eq, stringAt?_eq_none_iff] at hn
  have hfused := Regex.fused_bodyStrings alphabet p.body
  have hsame : Regex.references (p.alternation q).body = Regex.references p.body := by
    rw [alternation, Regex.references_alternation, Regex.references_renumberBody, hreferences,
      List.append_nil]
  rw [stringAt?, stringAt?, Enumeration.next_after_ofPattern, Enumeration.next_after_ofPattern,
    Captures.referAll, Captures.referAll, hsame, alternation, Regex.bodyTrail_alternation,
    Trail.value?_append_of_ne_none _ hn, hfused.history_append _ hn]

/-- After the end of the first pattern come the strings of the second. -/
theorem stringAt?_alternation_add
    (hplain : ∀ v ∈ (Regex.bodyStrings alphabet q.body).values, ∀ c ∈ v.toList, ¬ IsMark c) {m : ℕ}
    (hm : p.stringAt? alphabet m = none) (hlt : ∀ k < m, p.stringAt? alphabet k ≠ none) (n : ℕ) :
    (p.alternation q).stringAt? alphabet (m + n) = q.stringAt? alphabet n := by
  have hfused := Regex.fused_bodyStrings alphabet p.body
  have hvalue : (Regex.bodyStrings alphabet (p.alternation q).body).value? (m + n) =
      (Regex.bodyStrings alphabet q.body).value? n := by
    have hfirst : ∀ k < m, (Regex.bodyStrings alphabet p.body).value? k ≠ none := fun k hk =>
      (stringAt?_eq_none_iff k).not.1 (hlt k hk)
    rw [alternation, Regex.bodyStrings, Regex.bodyTrail_alternation,
      hfused.value?_append_add _ ((stringAt?_eq_none_iff m).1 hm) hfirst]
    exact congrFun (Regex.value?_bodyTrail_renumberBody q.body) n
  have hvalues : ∀ v ∈ (Regex.bodyStrings alphabet q.body).value? n, ∀ c ∈ v.toList, ¬ IsMark c :=
    fun v hv => hplain v ⟨n, hv⟩
  rw [stringAt?_of_plain hvalues, stringAt?_of_plain (hvalue ▸ hvalues), hvalue]

/-- **The values of two texts with a bar between them.** Let two texts that begin with no slash be
read as patterns, the second without references and without marks in what it produces. Then both
with a bar between them are read as a pattern. It gives the strings of the first pattern, and if
these end, from then on those of the second. -/
theorem stringAt?_of_ofText_bar {a b : String} (ha : a.toList.head? ≠ some '/')
    (hb : b.toList.head? ≠ some '/') (hp : ofText a = .ok p) (hq : ofText b = .ok q)
    (hreferences : Regex.references q.body = [])
    (hplain : ∀ v ∈ (Regex.bodyStrings alphabet q.body).values, ∀ c ∈ v.toList, ¬ IsMark c) :
    ∃ s, ofText (a ++ "|" ++ b) = .ok s ∧
      (∀ n, p.stringAt? alphabet n ≠ none → s.stringAt? alphabet n = p.stringAt? alphabet n) ∧
      ∀ m, p.stringAt? alphabet m = none → (∀ k < m, p.stringAt? alphabet k ≠ none) →
        ∀ n, s.stringAt? alphabet (m + n) = q.stringAt? alphabet n :=
  ⟨p.alternation q, ofText_bar ha hb hp hq, fun _ => stringAt?_alternation_of_ne_none hreferences,
    fun _ => stringAt?_alternation_add hplain⟩

/-- A text with an empty alternative, a reference and an unfinished brace, and one with bars and a
group of its own whose strings never end. -/
theorem stringAt?_of_ofText_bar_unfinished :
    ∃ q s : Pattern, ofText "v|(w+)|" = .ok q ∧
      ofText ("(x|)\\1|z\x7b2" ++ "|" ++ "v|(w+)|") = .ok s ∧
      s.stringAt? .printable 0 = some "xx" ∧ s.stringAt? .printable 1 = some "z\x7b2" ∧
      s.stringAt? .printable (2 + 7) = q.stringAt? .printable 7 := by
  let p : Pattern := ⟨some (.either
    (some (.sequence [.capturing 1 (some (.either (some (.literal 'x')) none)), .backreference 1]))
    (some (.sequence [.literal 'z', .literal '\x7b', .literal '2']))), 1⟩
  let q : Pattern := ⟨some (.either
    (some (.either (some (.literal 'v'))
      (some (.capturing 1 (some (.repeated (.literal 'w') .plus true)))))) none), 1⟩
  have hp : ofText "(x|)\\1|z\x7b2" = .ok p := by cbv
  have hq : ofText "v|(w+)|" = .ok q := by cbv
  have hzero : p.stringAt? .printable 0 = some "xx" := by cbv
  have hone : p.stringAt? .printable 1 = some "z\x7b2" := by cbv
  have hend : p.stringAt? .printable 2 = none := by cbv
  have hplain : ∀ v ∈ (Regex.bodyStrings .printable q.body).values, ∀ c ∈ v.toList, ¬ IsMark c := by
    refine Regex.not_isMark_of_plain ?_ rfl
    simp only [q, Regex.preorderBody, Regex.preorder, Regex.Plain, List.cons_append,
      List.nil_append, List.append_nil, List.forall_mem_cons, true_and]
    exact ⟨by decide, by decide, fun _ h => absurd h List.not_mem_nil⟩
  have hlt : ∀ k < 2, p.stringAt? .printable k ≠ none := by
    intro k hk
    obtain rfl | rfl : k = 0 ∨ k = 1 := by omega
    · rw [hzero]
      exact Option.some_ne_none _
    · rw [hone]
      exact Option.some_ne_none _
  obtain ⟨s, hs, hbefore, hafter⟩ :=
    stringAt?_of_ofText_bar (by decide) (by decide) hp hq rfl hplain
  exact ⟨q, s, hq, hs, (hbefore 0 (hlt 0 (by decide))).trans hzero,
    (hbefore 1 (hlt 1 (by decide))).trans hone, hafter 2 hend hlt 7⟩

end Pattern

end RegexWords
