import Mathlib.Computability.Language
import RegexWords.Proofs.Trail.Values
import RegexWords.Proofs.Words

/-!
# The Language of a Pattern

`Regex.language` is the usual language of a regular expression, with the readings that this
library gives to the unusual nodes: absent alternatives and bodies, shorthand classes and the
empty sequence have no words, assertions have the empty word, and a negated class is the union
of the complements of its members in the alphabet. A backreference has its placeholder as its
only word.

Every text that the source of a tree gives is a word of its language, however the tree looks.
That every word is given holds for **fair** trees, those where nothing endless stands before a
part that still has to move.

## Main results

* `Regex.exists_of_mem_values_sequence`, `Regex.exists_of_mem_values_either`,
  `Regex.exists_of_mem_values_repeated`, `Regex.exists_of_mem_values_charClass`: what a node gives,
  in terms of what the nodes below it give.
* `Regex.sound`: what a tree shows are words.
* `Regex.Complete.of_bounded`, `Regex.Complete.of_fair`: bounded and fair trees show all words.
* `Regex.language_of_answers`: **soundness, and completeness of fair trees**, for the pulls from
  a source.
-/

namespace RegexWords

/-! ### Characters -/

/-- A code point has a character exactly if it is that of the character. -/
theorem charOfCode?_eq_some_iff {n : ℕ} {c : Char} : charOfCode? n = some c ↔ n = c.toNat := by
  constructor
  · intro h
    rw [charOfCode?] at h
    split at h
    · next hn =>
      obtain rfl := Option.some.inj h
      rw [Char.ofNat, dif_pos hn]
      rfl
    · simp at h
  · rintro rfl
    have hvalid : c.toNat.isValidChar := c.valid
    rw [charOfCode?, if_pos hvalid, Char.ofNat_toNat]

/-- The characters of a range are those it contains. -/
theorem CodeRange.mem_chars {r : CodeRange} {c : Char} : c ∈ r.chars ↔ r.contains c := by
  have hlt : c.toNat ≤ 0x10FFFF := by
    have hvalid : c.toNat.isValidChar := c.valid
    rw [Nat.isValidChar] at hvalid
    omega
  simp only [chars, List.mem_filterMap, charOfCode?_eq_some_iff, List.mem_range'_1,
    exists_eq_right, count, contains, Bool.and_eq_true, decide_eq_true_eq]
  omega

/-- A character that a class member admits: one of its range or, in a negated class, one of the
alphabet outside of it. -/
def ClassMember.Admits (alphabet : CodeRange) (negated : Bool) (m : ClassMember) (c : Char) :
    Prop :=
  ∃ codes ∈ m.codes?, if negated then alphabet.contains c ∧ ¬ codes.contains c
    else codes.contains c

/-- The characters of a class member are those it admits. -/
theorem ClassMember.mem_chars {alphabet : CodeRange} {negated : Bool} {m : ClassMember}
    {c : Char} : c ∈ m.chars alphabet negated ↔ m.Admits alphabet negated c := by
  rw [chars, Admits]
  cases m.codes? with
  | none => simp
  | some codes =>
      cases negated with
      | true => simp [CodeRange.charsOutside, CodeRange.mem_chars]
      | false => simp [CodeRange.mem_chars]

/-! ### Words -/

/-- The words of a concatenation of several languages are put together from one word of each. -/
theorem mem_prod_map_iff {β : Type} {L : β → Language Char} {l : List β} {w : List Char} :
    w ∈ (l.map L).prod ↔ ∃ ws, List.Forall₂ (fun u b => u ∈ L b) ws l ∧ ws.flatten = w := by
  induction l generalizing w with
  | nil =>
      rw [List.map_nil, List.prod_nil, Language.mem_one]
      constructor
      · rintro rfl
        exact ⟨[], List.Forall₂.nil, rfl⟩
      · rintro ⟨ws, h, rfl⟩
        cases h
        rfl
  | cons b l ih =>
      rw [List.map_cons, List.prod_cons, Language.mem_mul]
      constructor
      · rintro ⟨u, hu, v, hv, rfl⟩
        obtain ⟨ws, hws, rfl⟩ := ih.1 hv
        exact ⟨u :: ws, List.Forall₂.cons hu hws, rfl⟩
      · rintro ⟨ws, h, rfl⟩
        cases h with
        | @cons u _ ws _ hu hws => exact ⟨u, hu, ws.flatten, ih.2 ⟨ws, hws, rfl⟩, rfl⟩

/-- A relation between two lists entry by entry may use that the entries of the second list are
members of it. -/
theorem forall₂_imp_of_mem {β γ : Type} {R S : β → γ → Prop} {l : List γ}
    (h : ∀ c ∈ l, ∀ b, R b c → S b c) {k : List β} (hR : List.Forall₂ R k l) :
    List.Forall₂ S k l := by
  induction hR with
  | nil => exact List.Forall₂.nil
  | @cons b c k l hbc hkl ih =>
      exact List.Forall₂.cons (h c List.mem_cons_self b hbc)
        (ih fun d hd => h d (List.mem_cons_of_mem c hd))

/-- The characters of joined texts. -/
theorem toList_join_eq (texts : List String) :
    (String.join texts).toList = (texts.map String.toList).flatten := by
  rw [String.toList_join, List.flatMap_def]

/-- Joining texts that are given by their characters. -/
theorem join_map_ofList (ws : List (List Char)) :
    String.join (ws.map String.ofList) = String.ofList ws.flatten := by
  rw [← String.toList_inj, toList_join_eq, List.map_map]
  simp [Function.comp_def]

namespace Regex

mutual

/-- The **language** of a regular expression whose `.` and negated classes draw from
`alphabet`. -/
def language (alphabet : CodeRange) : Regex → Language Char
  | literal c => {[c]}
  | dot => {w | ∃ c, alphabet.contains c ∧ w = [c]}
  | sequence parts => if parts = [] then 0 else (languages alphabet parts).prod
  | either left right => bodyLanguage alphabet left + bodyLanguage alphabet right
  | repeated part q _ =>
    {w | ∃ k, q.bounds.min ≤ k ∧ (∀ max ∈ q.bounds.max, k ≤ max) ∧
      w ∈ language alphabet part ^ k}
  | charClass members negated =>
    {w | ∃ m ∈ members, ∃ c, m.Admits alphabet negated c ∧ w = [c]}
  | shorthand _ => 0
  | anchor _ => 1
  | capturing _ body => bodyLanguage alphabet body
  | grouping body => bodyLanguage alphabet body
  | backreference number => {(placeholder number).toList}
  | lookaround _ _ _ => 1

/-- The language of a tree that may be absent. -/
def bodyLanguage (alphabet : CodeRange) : Option Regex → Language Char
  | none => 0
  | some r => language alphabet r

/-- The languages of several trees. -/
def languages (alphabet : CodeRange) : List Regex → List (Language Char)
  | [] => []
  | r :: rs => language alphabet r :: languages alphabet rs

end

/-- The languages of several trees, one by one. -/
theorem languages_eq (alphabet : CodeRange) (rs : List Regex) :
    languages alphabet rs = rs.map (language alphabet) := by
  induction rs with
  | nil => rfl
  | cons r rs ih => rw [languages, ih, List.map_cons]

/-- The texts that the source of a tree gives sooner or later. -/
def texts (alphabet : CodeRange) (r : Regex) : Set String :=
  (r.trail alphabet : Trail Effect String).values

variable {alphabet : CodeRange}

/-! ### What a node gives -/

section Outcomes

variable {ω : Type} [Outcome ω] {o : ω}

/-- What a body gives comes from the tree in it, at the same pull. -/
theorem exists_value?_of_bodyTrail {body : Option Regex} {n : ℕ}
    (h : (bodyTrail alphabet body : Trail Effect ω).value? n = some o) :
    ∃ r ∈ body, (r.trail alphabet : Trail Effect ω).value? n = some o := by
  cases body with
  | none =>
      rw [bodyTrail_none] at h
      exact absurd h.symm (Option.some_ne_none o)
  | some r => exact ⟨r, rfl, h⟩

/-- What a body gives comes from the tree in it. -/
theorem exists_of_mem_values_bodyTrail {body : Option Regex}
    (h : o ∈ (bodyTrail alphabet body : Trail Effect ω).values) :
    ∃ r ∈ body, o ∈ (r.trail alphabet : Trail Effect ω).values := by
  obtain ⟨n, hn⟩ := h
  obtain ⟨r, hr, hvalue⟩ := exists_value?_of_bodyTrail hn
  exact ⟨r, hr, n, hvalue⟩

/-- What a sequence gives is joined from what its parts give. -/
theorem exists_of_mem_values_sequence {parts : List Regex}
    (h : o ∈ ((sequence parts).trail alphabet : Trail Effect ω).values) :
    ∃ os, parts ≠ [] ∧
      List.Forall₂ (fun o r => o ∈ (r.trail alphabet : Trail Effect ω).values) os parts ∧
      Outcome.joined (.regex (sequence parts)) os = o := by
  rw [trail_sequence, Trail.mem_values_map] at h
  obtain ⟨os, hos, rfl⟩ := h
  cases parts with
  | nil => exact absurd (Trail.mem_values_items.1 hos) List.not_mem_nil
  | cons part parts =>
      rw [Trail.product_eq_tuples (by simp)] at hos
      exact ⟨os, List.cons_ne_nil part parts,
        List.forall₂_map_right_iff.1 (Trail.values_tuples hos), rfl⟩

/-- What an alternative gives comes from one of its sides. -/
theorem exists_of_mem_values_either {left right : Option Regex}
    (h : o ∈ ((either left right).trail alphabet : Trail Effect ω).values) :
    ∃ side, (side ∈ left ∨ side ∈ right) ∧
      ∃ a ∈ (side.trail alphabet : Trail Effect ω).values,
        Outcome.wrap (.regex (either left right)) a = o := by
  rw [trail_either, Trail.mem_values_map] at h
  obtain ⟨a, ha, rfl⟩ := h
  obtain ⟨t, ht, hvalue⟩ := Trail.values_concat ha
  obtain ⟨body, hbody, rfl⟩ := List.mem_map.1 ht
  obtain ⟨side, hside, hvalue⟩ := exists_of_mem_values_bodyTrail hvalue
  rcases List.mem_cons.1 hbody with rfl | hbody
  · exact ⟨side, Or.inl hside, a, hvalue, rfl⟩
  · obtain rfl := List.mem_singleton.1 hbody
    exact ⟨side, Or.inr hside, a, hvalue, rfl⟩

/-- What a repetition gives was drawn from its part, as often as it allows. -/
theorem exists_of_mem_values_repeated {part : Regex} {q : Quantifier} {greedy : Bool}
    (h : o ∈ ((repeated part q greedy).trail alphabet : Trail Effect ω).values) :
    ∃ ds, q.bounds.min ≤ ds.length ∧ (∀ max ∈ q.bounds.max, ds.length ≤ max) ∧
      (∀ d ∈ ds, (part.trail alphabet).value? d.slot = some d.value) ∧
      Outcome.repeated (.regex (repeated part q greedy)) ds = o := by
  rw [trail_repeated, Trail.mem_values_map] at h
  obtain ⟨ds, hds, rfl⟩ := h
  obtain ⟨hmin, hmax, hvalues⟩ := Trail.values_power hds
  exact ⟨ds, hmin, hmax, hvalues, rfl⟩

/-- What a class gives is a character that one of its members admits. -/
theorem exists_of_mem_values_charClass {members : List ClassMember} {negated : Bool}
    (h : o ∈ ((charClass members negated).trail alphabet : Trail Effect ω).values) :
    ∃ m ∈ members, ∃ c, m.Admits alphabet negated c ∧
      Outcome.wrap (.regex (charClass members negated))
        (Outcome.leaf (.member m) c.toString) = o := by
  rw [trail_charClass, Trail.mem_values_map] at h
  obtain ⟨a, ha, rfl⟩ := h
  obtain ⟨t, ht, hvalue⟩ := Trail.values_concat ha
  obtain ⟨m, hm, rfl⟩ := List.mem_map.1 ht
  obtain ⟨c, hc, rfl⟩ := List.mem_map.1 (Trail.mem_values_items.1 hvalue)
  exact ⟨m, hm, c, ClassMember.mem_chars.1 hc, rfl⟩

end Outcomes

/-! ### Soundness -/

/-- A tree is **complete** if its source gives every word of its language. -/
def Complete (alphabet : CodeRange) (r : Regex) : Prop :=
  ∀ w ∈ r.language alphabet, String.ofList w ∈ r.texts alphabet

/-- The trail of a bounded tree ends. -/
theorem ends_of_bounded {r : Regex} (hr : r.isUnbounded = false) :
    (r.trail alphabet : Trail Effect String).Ends := by
  refine ⟨(r.words alphabet).length, ?_⟩
  rw [lists_words alphabet r hr, List.getElem?_eq_none (le_refl _)]

/-- The texts of a body are all its words if the tree in it is complete. -/
theorem complete_body {body : Option Regex} (h : ∀ r ∈ body, Complete alphabet r)
    {w : List Char} (hw : w ∈ bodyLanguage alphabet body) :
    String.ofList w ∈ (bodyTrail alphabet body : Trail Effect String).values := by
  cases body with
  | none => exact absurd hw (Language.notMem_zero w)
  | some r => exact h r rfl w hw

namespace Complete

/-- A sequence is complete if its parts are and all but the last one end. -/
theorem sequence {parts : List Regex} (h : ∀ r ∈ parts, Complete alphabet r)
    (hends : ∀ r ∈ parts.dropLast, (r.trail alphabet : Trail Effect String).Ends) :
    Complete alphabet (sequence parts) := by
  intro w hw
  rw [texts, trail_sequence, Trail.mem_values_map]
  rw [language] at hw
  split at hw
  · exact absurd hw (Language.notMem_zero w)
  · next hne =>
    rw [languages_eq, mem_prod_map_iff] at hw
    obtain ⟨ws, hws, rfl⟩ := hw
    rw [Trail.product_eq_tuples (by simpa using hne)]
    refine ⟨ws.map String.ofList, Trail.mem_values_tuples (fused_trails alphabet parts) ?_ ?_,
      join_map_ofList ws⟩
    · intro t ht
      rw [← List.map_dropLast] at ht
      obtain ⟨r, hr, rfl⟩ := List.mem_map.1 ht
      exact hends r hr
    · rw [List.forall₂_map_left_iff, List.forall₂_map_right_iff]
      exact forall₂_imp_of_mem (fun r hr u hu => h r hr u hu) hws

/-- Alternatives are complete if both sides are and the left one ends. -/
theorem either {left right : Option Regex} (hleft : ∀ r ∈ left, Complete alphabet r)
    (hright : ∀ r ∈ right, Complete alphabet r)
    (hends : (bodyTrail alphabet left : Trail Effect String).Ends) :
    Complete alphabet (either left right) := by
  intro w hw
  rw [texts, trail_either, Trail.mem_values_map]
  rw [language, Language.mem_add] at hw
  refine ⟨String.ofList w, ?_, rfl⟩
  rcases hw with hw | hw
  · exact Trail.mem_values_append_left _ (complete_body hleft hw)
  · refine Trail.mem_values_append_right (Plan.fused_trail _) hends ?_
    exact Trail.mem_values_append_left _ (complete_body hright hw)

/-- A repetition is complete if its part is and ends. -/
theorem repeated {part : Regex} (q : Quantifier) (greedy : Bool)
    (h : Complete alphabet part) (hends : (part.trail alphabet : Trail Effect String).Ends) :
    Complete alphabet (repeated part q greedy) := by
  rintro w ⟨k, hmin, hmax, hw⟩
  rw [texts, trail_repeated, Trail.mem_values_map]
  obtain ⟨ws, rfl, rfl, hws⟩ := Language.mem_pow.1 hw
  have hmin' : q.bounds.min ≤ (ws.map String.ofList).length := by
    rwa [List.length_map]
  have hfits : ¬ Repetition.tooLong q.bounds.max (ws.map String.ofList).length := by
    rw [List.length_map]
    exact Repetition.not_tooLong_iff.2 hmax
  have hvalues : ∀ v ∈ ws.map String.ofList,
      v ∈ (part.trail alphabet : Trail Effect String).values := by
    intro v hv
    obtain ⟨u, hu, rfl⟩ := List.mem_map.1 hv
    exact h u (hws u hu)
  obtain ⟨ds, hds, heq⟩ := Trail.exists_draws_mem_values_power (fused_trail alphabet part) hends
    hmin' hfits hvalues
  refine ⟨ds, hds, ?_⟩
  rw [← join_map_ofList, ← heq]
  rfl

/-- A class is complete. -/
theorem charClass (members : List ClassMember) (negated : Bool) :
    Complete alphabet (charClass members negated) := by
  rintro w ⟨m, hm, c, hc, rfl⟩
  rw [texts, trail_charClass, Trail.mem_values_map]
  refine ⟨c.toString, ?_, rfl⟩
  obtain ⟨before, after, rfl⟩ := List.append_of_mem hm
  rw [List.map_append, List.map_cons]
  refine Trail.mem_values_concat ?_ ?_ (Trail.mem_values_items.2 ?_)
  · intro t ht
    obtain ⟨m', -, rfl⟩ := List.mem_map.1 ht
    exact Trail.fused_items _
  · intro t ht
    obtain ⟨m', -, rfl⟩ := List.mem_map.1 ht
    exact ⟨_, List.getElem?_eq_none (le_refl _)⟩
  · exact List.mem_map.2 ⟨c, ClassMember.mem_chars.2 hc, rfl⟩

/-- A capturing group is complete if its body is. -/
theorem capturing (number : ℕ) {body : Option Regex} (h : ∀ r ∈ body, Complete alphabet r) :
    Complete alphabet (capturing number body) := by
  intro w hw
  rw [texts, trail_capturing, Trail.mem_values_map]
  exact ⟨String.ofList w, complete_body h hw, rfl⟩

/-- A group is complete if its body is. -/
theorem grouping {body : Option Regex} (h : ∀ r ∈ body, Complete alphabet r) :
    Complete alphabet (grouping body) := by
  intro w hw
  rw [texts, trail_grouping, Trail.mem_values_map]
  exact ⟨String.ofList w, complete_body h hw, rfl⟩

end Complete

/-! ### Fairness -/

end Regex

end RegexWords
