import RegexWords.Proofs.Backreferences

/-!
# Which Text Is Recalled

Three consequences of the way captures are recorded, for a capturing sequence whose other parts
do not meddle with the group.

The references of one value all contribute the same value of the group. In the first round of
the group that is the value which the group itself contributes; in all later rounds it is the
last value of the group, since cached values are not captured again. If all parts have lists of
values, this says which value it is in closed form.

References before the group are evaluated before anything is captured, and still they do not
contribute the empty text if a reference follows the group: whether references are live is known
per group and not per reference.

## Main results

* `CapturingSequence.Fits.exists_choice`: every value is a choice of values of the parts, with one
  value of the group for all references.
* `CapturingSequence.Fits.next_after_tuplesWith`: **the closed form** for parts with lists.
* `CapturingSequence.next_after_literals`: **the values between literals**, with references before
  and after the group.
-/

namespace RegexWords

namespace CapturingSequence

variable {alphabet : CodeRange} {s : CapturingSequence}

/-! ### No reference before the group -/

/-- The contributions of the parts, that of the group between the others. -/
theorem map_contribution_parts (text : String) :
    s.parts.map (Regex.contribution alphabet text) =
      s.before.map (Regex.contribution alphabet text) ++
        (Regex.bodyStrings alphabet s.body).tap (.capture s.group) ::
          s.after.map (Regex.contribution alphabet text) := by
  rw [parts, List.map_append, List.map_cons,
    Regex.contribution_of_not_isBackreference text rfl, strings_capturing]

/-- Without references it does not matter what references contribute. -/
theorem map_contribution_eq {rs : List Regex} (h : ∀ r ∈ rs, r.isBackreference = false)
    (text : String) :
    rs.map (Regex.contribution alphabet text) = rs.map (Regex.strings alphabet) :=
  List.map_congr_left fun r hr => Regex.contribution_of_not_isBackreference text (h r hr)

/-- Without references before the group, what is recalled is what the group captured last. -/
theorem Fits.next_after_latest (h : s.Fits alphabet)
    (hbefore : ∀ r ∈ s.before, r.isBackreference = false) (groupCount n : ℕ) :
    ((Enumeration.ofPattern (s.pattern groupCount) { alphabet } : Enumeration String).after
        n).next.1 =
      ((Trail.tuples (s.parts.map
        (Regex.contribution alphabet ((s.latestText? alphabet n).getD "")))).value? n).map
          String.join := by
  rw [h.next_after_pattern, recalled]
  by_cases hafter : s.after.any Regex.isBackreference
  · rw [if_pos hafter]
  · have hnone : ∀ r ∈ s.after, r.isBackreference = false := by simpa using hafter
    simp only [map_contribution_parts, map_contribution_eq hbefore, map_contribution_eq hnone]

/-- The trail of the group has as many values as that of its body. -/
theorem period_capture (s : CapturingSequence) :
    ((Regex.bodyStrings alphabet s.body).tap (.capture s.group)).period =
      (Regex.bodyStrings alphabet s.body).period :=
  Trail.period_congr rfl

/-- **The parts of a tuple** without references before the group: values of the parts before it,
its own value, and a tuple of the parts after it. -/
theorem value?_tuples_parts (hbefore : ∀ r ∈ s.before, r.isBackreference = false) (text : String)
    (n : ℕ) :
    (Trail.tuples (s.parts.map (Regex.contribution alphabet text))).value? n =
      (Trail.valuesAt? (s.before.map (Regex.strings alphabet))
        (Trail.numbers (s.before.map (Regex.strings alphabet)) n)).bind fun before =>
      ((Regex.bodyStrings alphabet s.body).value?
        (n / s.span alphabet % (Regex.bodyStrings alphabet s.body).period)).bind fun own =>
      ((Trail.tuples (s.after.map (Regex.contribution alphabet text))).value?
        (n / s.span alphabet / (Regex.bodyStrings alphabet s.body).period)).bind fun after =>
      some (before ++ own :: after) := by
  rw [map_contribution_parts, map_contribution_eq hbefore, Trail.value?_tuples_append,
    prod_period_before]
  simp only [Trail.tuples, Trail.value?_cons, period_capture, Trail.value?_tap]
  cases Trail.valuesAt? (s.before.map (Regex.strings alphabet)) _ with
  | none => rfl
  | some before =>
      cases (Regex.bodyStrings alphabet s.body).value? _ with
      | none => rfl
      | some own => cases (Trail.tuples _).value? _ <;> rfl

/-! ### Choices -/

/-- A **choice** of values, by their numbers: one value of each part before the group, one of the
group itself, one of the group for all references, and one of each part after the group. -/
structure Choice where
  before : List ℕ
  own : ℕ
  recalled : ℕ
  after : List ℕ

/-- The texts that a choice puts together. -/
def Choice.texts? (alphabet : CodeRange) (s : CapturingSequence) (c : Choice) :
    Option (List String) := do
  let recalled ← (Regex.bodyStrings alphabet s.body).value? c.recalled
  let before ← Trail.valuesAt? (s.before.map (Regex.contribution alphabet recalled)) c.before
  let own ← (Regex.bodyStrings alphabet s.body).value? c.own
  let after ← Trail.valuesAt? (s.after.map (Regex.contribution alphabet recalled)) c.after
  return before ++ own :: after

/-- The own value of the group in a choice is there. -/
theorem value?_own_ne_none {c : Choice} {texts : List String}
    (h : c.texts? alphabet s = some texts) :
    (Regex.bodyStrings alphabet s.body).value? c.own ≠ none := by
  intro hnone
  rw [Choice.texts?, hnone] at h
  obtain ⟨_, -, h⟩ := Option.bind_eq_some_iff.1 h
  obtain ⟨_, -, h⟩ := Option.bind_eq_some_iff.1 h
  exact Option.some_ne_none texts h.symm

/-- The choice that tuple `n` is when references contribute `text`. -/
noncomputable def choiceAt (alphabet : CodeRange) (s : CapturingSequence) (text : String) (n : ℕ) :
    Choice where
  before := Trail.numbers (s.before.map (Regex.strings alphabet)) n
  own := n / s.span alphabet % (Regex.bodyStrings alphabet s.body).period
  recalled := (Regex.bodyStrings alphabet s.body).latest (n / s.span alphabet)
  after := Trail.numbers (s.after.map (Regex.contribution alphabet text))
    (n / s.span alphabet / (Regex.bodyStrings alphabet s.body).period)

/-- A tuple in which the text that the group has captured is filled in is a choice, and its parts
after the group have their first values in the first round of the group only. -/
theorem choiceAt_of_value? (hbefore : ∀ r ∈ s.before, r.isBackreference = false) {n : ℕ}
    {text : String} (htext : s.latestText? alphabet n = some text) {texts : List String}
    (hn : (Trail.tuples (s.parts.map (Regex.contribution alphabet text))).value? n = some texts) :
    (s.choiceAt alphabet text n).texts? alphabet s = some texts ∧
      ((∀ k ∈ (s.choiceAt alphabet text n).after, k = 0) ↔
        n / s.span alphabet / (Regex.bodyStrings alphabet s.body).period = 0) := by
  rw [value?_tuples_parts hbefore] at hn
  obtain ⟨before, hbeforetexts, hn⟩ := Option.bind_eq_some_iff.1 hn
  obtain ⟨own, hown, hn⟩ := Option.bind_eq_some_iff.1 hn
  obtain ⟨after, hafter, hn⟩ := Option.bind_eq_some_iff.1 hn
  rw [Trail.value?_tuples] at hafter
  -- the round of the group is the number of the tuple of the parts after it, and a tuple has all
  -- first values exactly if its number is `0`
  split at hafter
  · next hround =>
    refine ⟨?_, Trail.forall_mem_numbers_iff hround⟩
    rw [latestText?] at htext
    simp only [Choice.texts?, choiceAt, map_contribution_eq hbefore, htext, hbeforetexts, hown,
      Option.bind_eq_bind, Option.bind_some, hafter]
    exact hn
  · exact absurd hafter (by simp)

/-- **One value of the group for all references.** Every value of the pattern is a choice of
values. As long as all parts after the group contribute their first values, the references
contribute the value that the group contributes itself; after that they contribute the last value
of the group. -/
theorem Fits.exists_choice (h : s.Fits alphabet)
    (hbefore : ∀ r ∈ s.before, r.isBackreference = false) (groupCount n : ℕ) {text : String}
    (hn : ((Enumeration.ofPattern (s.pattern groupCount) { alphabet } :
      Enumeration String).after n).next.1 = some text) :
    ∃ c : Choice, (c.texts? alphabet s).map String.join = some text ∧
      ((∀ k ∈ c.after, k = 0) → c.recalled = c.own) ∧
      ((∃ k ∈ c.after, k ≠ 0) →
        (Regex.bodyStrings alphabet s.body).value? (c.recalled + 1) = none) := by
  rw [h.next_after_latest hbefore] at hn
  obtain ⟨texts, htexts, rfl⟩ := Option.map_eq_some_iff.1 hn
  obtain ⟨recalled, hrecalled⟩ := Option.ne_none_iff_exists'.1 (h.latestText?_ne_none htexts n)
  rw [hrecalled, Option.getD_some] at htexts
  obtain ⟨htexts?, hround⟩ := choiceAt_of_value? hbefore hrecalled htexts
  refine ⟨s.choiceAt alphabet recalled n, congrArg (Option.map String.join) htexts?, ?_, ?_⟩
  · intro hfirst
    exact Trail.latest_of_div_eq_zero (value?_own_ne_none htexts?) (hround.1 hfirst)
  · rintro ⟨k, hk, hne⟩
    exact (Regex.fused_bodyStrings alphabet s.body).value?_latest_add_one fun hzero =>
      hne (hround.2 hzero k hk)

/-- The letter `a` or `b` in a group, a reference to it, and the letter `c` or `d`. -/
def replaying : CapturingSequence where
  before := []
  group := 1
  body := some (.either (some (.literal 'a')) (some (.literal 'b')))
  after := [.backreference 1, .charClass [.range 'c' 'd'] false]

/-- The letters around a reference fit. -/
theorem fits_replaying : replaying.Fits .printable where
  before _ hr := absurd hr List.not_mem_nil
  body r hr := by
    obtain rfl := Option.some.inj hr
    refine Regex.onlooker_of_plain ?_ (fun _ => by simp [Regex.preorder, Regex.preorderBody])
      (fun _ => by simp [Regex.preorder, Regex.preorderBody])
    intro s hs
    simp only [Regex.preorder, Regex.preorderBody, List.mem_cons,
      List.cons_append, List.nil_append, List.not_mem_nil, or_false] at hs
    rcases hs with rfl | rfl | rfl
    · trivial
    · exact (by decide : ¬ IsMark 'a')
    · exact (by decide : ¬ IsMark 'b')
  after r hr := by
    simp only [replaying, List.mem_cons, List.not_mem_nil, or_false] at hr
    rcases hr with rfl | rfl
    · exact Or.inl rfl
    · refine Or.inr (Regex.onlooker_of_plain ?_ (fun _ => by simp [Regex.preorder])
        (fun _ => by simp [Regex.preorder]))
      intro s hs
      obtain rfl := List.mem_singleton.1 hs
      intro m hm c hc
      obtain rfl := List.mem_singleton.1 hm
      have hchars : (ClassMember.range 'c' 'd').chars .printable false = ['c', 'd'] := by decide
      rw [hchars] at hc
      simp only [List.mem_cons, List.not_mem_nil, or_false] at hc
      rcases hc with rfl | rfl <;> decide

/-- The group gives `a` and then `b`. -/
theorem lists_body_replaying :
    (Regex.bodyStrings .printable replaying.body).Lists ["a", "b"] :=
  Regex.lists_words .printable (.either (some (.literal 'a')) (some (.literal 'b'))) rfl

/-- The third value: the group has begun its second round, and the reference contributes the last
value of the first one. -/
theorem exists_choice_replaying :
    replaying.Fits .printable ∧ (∀ r ∈ replaying.before, r.isBackreference = false) ∧
      ((Enumeration.ofPattern (replaying.pattern 1) {} : Enumeration String).after 2).next.1 =
        some "abd" ∧
      ∃ c : Choice, (c.texts? .printable replaying).map String.join = some "abd" ∧
        ((∀ k ∈ c.after, k = 0) → c.recalled = c.own) ∧
        ((∃ k ∈ c.after, k ≠ 0) →
          (Regex.bodyStrings .printable replaying.body).value? (c.recalled + 1) = none) := by
  have hthird : ((Enumeration.ofPattern (replaying.pattern 1) {} : Enumeration String).after
      2).next.1 = some "abd" := by decide
  exact ⟨fits_replaying, fun r hr => absurd hr List.not_mem_nil, hthird,
    fits_replaying.exists_choice (fun r hr => absurd hr List.not_mem_nil) 1 2 hthird⟩

/-- The third value is no choice in which the reference contributes the value that the group
contributes itself. -/
theorem not_exists_choice_replaying :
    replaying.Fits .printable ∧ (∀ r ∈ replaying.before, r.isBackreference = false) ∧
      ((Enumeration.ofPattern (replaying.pattern 1) {} : Enumeration String).after 2).next.1 =
        some "abd" ∧
      ¬ ∃ c : Choice, (c.texts? .printable replaying).map String.join = some "abd" ∧
        c.recalled = c.own := by
  refine ⟨fits_replaying, fun r hr => absurd hr List.not_mem_nil, by decide, ?_⟩
  rintro ⟨⟨before, own, recalled, after⟩, htexts, rfl : recalled = own⟩
  obtain ⟨texts, htexts, hjoin⟩ := Option.map_eq_some_iff.1 htexts
  obtain ⟨x, hx, htexts⟩ := Option.bind_eq_some_iff.1 htexts
  obtain ⟨us, hus, htexts⟩ := Option.bind_eq_some_iff.1 htexts
  obtain ⟨y, hy, htexts⟩ := Option.bind_eq_some_iff.1 htexts
  obtain ⟨vs, hvs, htexts⟩ := Option.bind_eq_some_iff.1 htexts
  obtain rfl := Option.some.inj htexts
  obtain rfl : x = y := Option.some.inj (hx.symm.trans hy)
  have hxmem : x ∈ ["a", "b"] := lists_body_replaying.mem_values.1 ⟨_, hx⟩
  obtain rfl : us = [] := List.forall₂_nil_right_iff.1 (Trail.values_of_valuesAt? hus)
  obtain ⟨v, vs, hv, hvs', rfl⟩ := List.forall₂_cons_right_iff.1 (Trail.values_of_valuesAt? hvs)
  obtain ⟨w, ws, hw, hws, rfl⟩ := List.forall₂_cons_right_iff.1 hvs'
  obtain rfl : ws = [] := List.forall₂_nil_right_iff.1 hws
  obtain rfl : v = x := List.mem_singleton.1 (Trail.mem_values_items.1 hv)
  have hwmem : w ∈ ["c", "d"] :=
    (Regex.lists_words .printable (.charClass [.range 'c' 'd'] false) rfl).mem_values.1 hw
  have hnone : ∀ v ∈ ["a", "b"], ∀ w ∈ ["c", "d"], String.join [v, v, w] ≠ "abd" := by decide
  exact hnone v hxmem w hwmem hjoin

/-! ### Parts with lists -/

/-- The lists of what the parts contribute if references contribute `text`. -/
def contributionList (list : Regex → List String) (text : String) (r : Regex) : List String :=
  if r.isBackreference then [text] else list r

/-- Parts with lists contribute their lists. -/
theorem lists_contribution {list : Regex → List String} {r : Regex}
    (h : r.isBackreference = false → (r.strings alphabet).Lists (list r)) (text : String) :
    (r.contribution alphabet text).Lists (contributionList list text r) := by
  rw [contributionList]
  cases hr : r.isBackreference with
  | true =>
      obtain ⟨number, rfl⟩ : ∃ number, r = .backreference number := by
        cases r with
        | backreference number => exact ⟨number, rfl⟩
        | _ => exact absurd hr Bool.false_ne_true
      exact Trail.Lists.items [text]
  | false =>
      rw [Regex.contribution_of_not_isBackreference text hr]
      exact h hr

/-- The tuples of the lists of the parts, position `0` turning fastest, in which references have
`text`. -/
def tuplesWith (s : CapturingSequence) (list : Regex → List String) (xs : List String)
    (text : String) : List (List String) :=
  List.sections (s.before.map list ++ xs :: s.after.map (contributionList list text))

/-- The tuples of contributions are those of the lists. -/
theorem lists_tuples_contribution (hbefore : ∀ r ∈ s.before, r.isBackreference = false)
    {list : Regex → List String}
    (hlist : ∀ r ∈ s.before ++ s.after, r.isBackreference = false →
      (r.strings alphabet).Lists (list r))
    {xs : List String} (hxs : (Regex.bodyStrings alphabet s.body).Lists xs) (text : String) :
    (Trail.tuples (s.parts.map (Regex.contribution alphabet text))).Lists
      (s.tuplesWith list xs text) := by
  have hfirst : List.Forall₂ Trail.Lists (s.before.map (Regex.strings alphabet))
      (s.before.map list) := by
    rw [List.forall₂_map_left_iff, List.forall₂_map_right_iff, List.forall₂_same]
    exact fun r hr => hlist r (List.mem_append_left _ hr) (hbefore r hr)
  have hlast : List.Forall₂ Trail.Lists (s.after.map (Regex.contribution alphabet text))
      (s.after.map (contributionList list text)) := by
    rw [List.forall₂_map_left_iff, List.forall₂_map_right_iff, List.forall₂_same]
    exact fun r hr => lists_contribution (hlist r (List.mem_append_right _ hr)) text
  rw [map_contribution_parts, map_contribution_eq hbefore]
  exact Trail.Lists.tuples_of_forall₂ (List.rel_append hfirst (.cons (hxs.tap _) hlast))

/-- The tuple that contributes value number `t` has the value of the group at its position. -/
theorem getElem?_tuple (hbefore : ∀ r ∈ s.before, r.isBackreference = false) {text : String}
    {t : ℕ} {tuple : List String}
    (ht : (Trail.tuples (s.parts.map (Regex.contribution alphabet text))).value? t = some tuple) :
    tuple[s.before.length]? = (Regex.bodyStrings alphabet s.body).value?
      (t / s.span alphabet % (Regex.bodyStrings alphabet s.body).period) := by
  rw [value?_tuples_parts hbefore] at ht
  obtain ⟨before, hbeforetexts, ht⟩ := Option.bind_eq_some_iff.1 ht
  obtain ⟨own, hown, ht⟩ := Option.bind_eq_some_iff.1 ht
  obtain ⟨after, -, ht⟩ := Option.bind_eq_some_iff.1 ht
  obtain rfl := Option.some.inj ht
  have hlength : s.before.length = before.length := by
    rw [(Trail.values_of_valuesAt? hbeforetexts).length_eq, List.length_map]
  rw [hown, hlength, List.getElem?_append_right (Nat.le_refl _), Nat.sub_self]
  rfl

/-- The latest value of a list: the present one, or the last one. -/
theorem latest_of_lists {t : Trail Effect String} {xs : List String} (h : t.Lists xs) (n : ℕ) :
    t.latest n = min (xs.length - 1) n := by
  rw [Trail.latest, h n, h.period_eq]
  rcases Nat.lt_or_ge n xs.length with hn | hn
  · rw [if_pos (by simpa using hn)]
    omega
  · rw [if_neg (by simpa using hn)]
    omega

/-- **The closed form for parts with lists.** If the values of the parts before the group, of the
group and of the parts after it are lists, then the values of the pattern are the tuples of the
lists, position `0` turning fastest, in which all references have one value of the group: for the
tuple number `t` this is value number `t / a`, where `a` is the number of tuples of the parts
before the group, or the last value if there are not so many. That is the value that stands in the
tuple itself during the first round of the group, and the last value in every tuple after it. -/
theorem Fits.next_after_tuplesWith (h : s.Fits alphabet)
    (hbefore : ∀ r ∈ s.before, r.isBackreference = false) {list : Regex → List String}
    (hlist : ∀ r ∈ s.before ++ s.after, r.isBackreference = false →
      (r.strings alphabet).Lists (list r))
    {xs : List String} (hxs : (Regex.bodyStrings alphabet s.body).Lists xs) (hne : xs ≠ [])
    {a : ℕ} (ha : (s.before.map fun r => (list r).length).prod = a) (groupCount t : ℕ) :
    ∃ text, xs[min (xs.length - 1) (t / a)]? = some text ∧
      ((Enumeration.ofPattern (s.pattern groupCount) { alphabet } : Enumeration String).after
          t).next.1 = ((s.tuplesWith list xs text)[t]?).map String.join ∧
      ∀ tuple, (s.tuplesWith list xs text)[t]? = some tuple →
        (t / a < xs.length → tuple[s.before.length]? = some text) ∧
        (xs.length ≤ t / a → xs.getLast? = some text) := by
  have hspan : s.span alphabet = a := by
    rw [← ha, span]
    refine congrArg List.prod (List.map_congr_left fun r hr => ?_)
    exact (hlist r (List.mem_append_left _ hr) (hbefore r hr)).period_eq
  have hlatest : s.latestText? alphabet t = xs[min (xs.length - 1) (t / a)]? := by
    rw [latestText?, hspan, latest_of_lists hxs, hxs]
  have hpos : 0 < xs.length := List.length_pos_iff.2 hne
  obtain ⟨text, htext⟩ : ∃ text, xs[min (xs.length - 1) (t / a)]? = some text :=
    ⟨_, List.getElem?_eq_getElem (by omega)⟩
  have htuples := lists_tuples_contribution hbefore hlist hxs text
  refine ⟨text, htext, ?_, fun tuple htuple => ⟨fun hfirst => ?_, fun hlater => ?_⟩⟩
  · rw [h.next_after_latest hbefore, hlatest, htext, Option.getD_some, htuples t]
  · rw [← htuples t] at htuple
    rw [getElem?_tuple hbefore htuple, hspan, hxs, hxs.period_eq, Nat.mod_eq_of_lt hfirst, ← htext]
    congr 1
    omega
  · rw [List.getLast?_eq_getElem?, ← htext]
    congr 1
    omega

/-- The third value in closed form: the last value of the group in the third tuple. -/
theorem next_after_tuplesWith_replaying :
    replaying.Fits .printable ∧ (∀ r ∈ replaying.before, r.isBackreference = false) ∧
      (∀ r ∈ replaying.before ++ replaying.after, r.isBackreference = false →
        (r.strings .printable).Lists (r.words .printable)) ∧
      ["a", "b"] ≠ [] ∧
      (replaying.before.map fun r => (r.words .printable).length).prod = 1 ∧
      ((Enumeration.ofPattern (replaying.pattern 1) {} : Enumeration String).after 2).next.1 =
        some "abd" := by
  have hlist : ∀ r ∈ replaying.before ++ replaying.after, r.isBackreference = false →
      (r.strings .printable).Lists (r.words .printable) := by
    intro r hr _
    refine Regex.lists_words .printable r ?_
    simp only [replaying, List.nil_append, List.mem_cons, List.not_mem_nil, or_false] at hr
    rcases hr with rfl | rfl <;> rfl
  obtain ⟨text, htext, hthird, -⟩ := fits_replaying.next_after_tuplesWith
    (fun r hr => absurd hr List.not_mem_nil) hlist lists_body_replaying (by decide) rfl 1 2
  obtain rfl : "b" = text := Option.some.inj htext
  exact ⟨fits_replaying, fun r hr => absurd hr List.not_mem_nil, hlist, by decide, rfl,
    hthird.trans (by decide)⟩

/-! ### Between literals -/

/-- What a literal or a reference contributes if references contribute `text`. -/
def written (text : String) : Regex → String
  | .literal c => c.toString
  | .backreference _ => text
  | _ => ""

/-- A part is **written** for a group if it is a reference to the group or a literal that is no
mark. -/
def IsWritten (group : ℕ) (r : Regex) : Prop :=
  r = .backreference group ∨ ∃ c, ¬ IsMark c ∧ r = .literal c

/-- A written part contributes one value. -/
theorem IsWritten.lists_contribution {group : ℕ} {r : Regex} (h : IsWritten group r)
    (text : String) : (r.contribution alphabet text).Lists [written text r] := by
  rcases h with rfl | ⟨c, -, rfl⟩
  · exact Trail.Lists.items [text]
  · rw [Regex.contribution_of_not_isBackreference text rfl, Regex.strings, Regex.trail_literal]
    exact Trail.Lists.items [c.toString]

/-- A written part fits. -/
theorem IsWritten.fits {group : ℕ} {r : Regex} (h : IsWritten group r) :
    r.Fits alphabet group := by
  rcases h with rfl | ⟨c, hc, rfl⟩
  · exact Or.inl rfl
  · refine Or.inr ⟨fun _ => by simp [Regex.preorder], fun _ => by simp [Regex.preorder], ?_⟩
    intro v hv d hd
    rw [Regex.strings, Regex.trail_literal, Trail.mem_values_items, List.mem_singleton] at hv
    have hmem : d ∈ [c] := by
      rw [← String.toList_singleton]
      rwa [hv] at hd
    obtain rfl := List.mem_singleton.1 hmem
    exact hc

/-- Without references it does not matter what is written for them. -/
theorem map_written_eq {group : ℕ} {rs : List Regex} (h : ∀ r ∈ rs, IsWritten group r)
    (hnone : rs.any Regex.isBackreference = false) (text text' : String) :
    rs.map (written text) = rs.map (written text') := by
  refine List.map_congr_left fun r hr => ?_
  rcases h r hr with rfl | ⟨c, -, rfl⟩
  · have hsome : rs.any Regex.isBackreference = true := List.any_eq_true.2 ⟨_, hr, rfl⟩
    exact absurd (hnone.symm.trans hsome) Bool.false_ne_true
  · rfl

/-- The tuples between written parts: one for each value of the group. -/
theorem value?_tuples_written (hbefore : ∀ r ∈ s.before, IsWritten s.group r)
    (hafter : ∀ r ∈ s.after, IsWritten s.group r) (text : String) (t : ℕ) :
    (Trail.tuples (s.parts.map (Regex.contribution alphabet text))).value? t =
      ((Regex.bodyStrings alphabet s.body).value? t).map fun own =>
        s.before.map (written text) ++ own :: s.after.map (written text) := by
  have hlast : (Trail.tuples (s.after.map (Regex.contribution alphabet text))).value? =
      (Trail.items [s.after.map (written text)] : Trail Effect (List String)).value? := by
    funext n
    have hlists : ∀ r ∈ s.after, (r.contribution alphabet text).Lists [written text r] :=
      fun r hr => (hafter r hr).lists_contribution text
    have hsingle := Trail.value?_tuples_append_of_lists_single hlists [] n
    rw [List.append_nil, Trail.tuples, Trail.value?_items, ← List.getElem?_map, List.map_singleton,
      List.append_nil] at hsingle
    exact hsingle
  have hcons := (Regex.fused_bodyStrings alphabet s.body).value?_cons_items_single
    (s.after.map (written text)) t
  rw [Trail.value?_cons, ← hlast] at hcons
  rw [map_contribution_parts, Trail.value?_tuples_append_of_lists_single fun r hr =>
    (hbefore r hr).lists_contribution text, Trail.tuples, Trail.value?_cons, period_capture,
    Trail.value?_tap, hcons, Option.map_map]
  rfl

/-- With written parts before the group, every pull gives a new value of the group. -/
theorem span_written (hbefore : ∀ r ∈ s.before, IsWritten s.group r) : s.span alphabet = 1 := by
  refine List.prod_eq_one fun p hp => ?_
  obtain ⟨r, hr, rfl⟩ := List.mem_map.1 hp
  rcases hbefore r hr with rfl | ⟨c, -, rfl⟩
  · rw [Regex.strings_backreference]
    exact ((Trail.Lists.items [placeholder s.group]).tap _).period_eq
  · rw [Regex.strings, Regex.trail_literal]
    exact Trail.period_items _

/-- **The values between literals.** For a group between literals and references to it there is
one value for each value of the group. The references after the group contribute the value; those
before it contribute the value as well if there is a reference after the group, and nothing
otherwise. -/
theorem next_after_literals (hbody : ∀ r ∈ s.body, r.Onlooker alphabet s.group)
    (hbefore : ∀ r ∈ s.before, IsWritten s.group r)
    (hafter : ∀ r ∈ s.after, IsWritten s.group r) (groupCount t : ℕ) :
    ((Enumeration.ofPattern (s.pattern groupCount) { alphabet } : Enumeration String).after
        t).next.1 =
      ((Regex.bodyStrings alphabet s.body).value? t).map fun own =>
        String.join (s.before.map
          (written (if s.after.any Regex.isBackreference then own else ""))) ++ own ++
            String.join (s.after.map (written own)) := by
  have hfits : s.Fits alphabet :=
    ⟨fun r hr => (hbefore r hr).fits, hbody, fun r hr => (hafter r hr).fits⟩
  rw [hfits.next_after_pattern, value?_tuples_written hbefore hafter, Option.map_map]
  cases hown : (Regex.bodyStrings alphabet s.body).value? t with
  | none => rfl
  | some own =>
      have hlatest : s.latestText? alphabet t = some own := by
        rw [latestText?, span_written hbefore, Nat.div_one, Trail.latest, hown]
        exact hown
      have hrecalled : s.recalled alphabet t =
          if s.after.any Regex.isBackreference then own else "" := by
        rw [recalled, hlatest, Option.getD_some]
      have hlast : s.after.map (written (s.recalled alphabet t)) = s.after.map (written own) := by
        rw [hrecalled]
        cases hany : s.after.any Regex.isBackreference with
        | true => rfl
        | false => exact map_written_eq hafter hany _ _
      rw [Option.map_some, Option.map_some, Function.comp_apply, hlast, hrecalled,
        String.join_append, String.join_cons, String.append_assoc]

/-- A letter before the group and one after the reference: the second value. -/
theorem next_after_literals_second :
    ∃ s : CapturingSequence, (∀ r ∈ s.body, r.Onlooker .printable s.group) ∧
      (∀ r ∈ s.before, IsWritten s.group r) ∧ (∀ r ∈ s.after, IsWritten s.group r) ∧
      ((Enumeration.ofPattern (s.pattern 1) {} : Enumeration String).after 1).next.1 =
        some "xbby" := by
  have hbefore : ∀ r ∈ [Regex.literal 'x'], IsWritten 1 r := by
    intro r hr
    exact Or.inr ⟨'x', by decide, List.mem_singleton.1 hr⟩
  have hafter : ∀ r ∈ [Regex.backreference 1, Regex.literal 'y'], IsWritten 1 r := by
    intro r hr
    rcases List.mem_cons.1 hr with rfl | hr
    · exact Or.inl rfl
    · exact Or.inr ⟨'y', by decide, List.mem_singleton.1 hr⟩
  let s : CapturingSequence :=
    ⟨[.literal 'x'], 1, replaying.body, [.backreference 1, .literal 'y']⟩
  have hsecond := next_after_literals (s := s) fits_replaying.body hbefore hafter 1 1
  refine ⟨s, fits_replaying.body, hbefore, hafter, hsecond.trans ?_⟩
  rw [lists_body_replaying 1]
  decide

/-- A reference before the group contributes the value of the group, since another one stands
after it. -/
theorem next_after_literals_early :
    ∃ s : CapturingSequence, (∀ r ∈ s.body, r.Onlooker .printable s.group) ∧
      (∀ r ∈ s.before, IsWritten s.group r) ∧ (∀ r ∈ s.after, IsWritten s.group r) ∧
      ((Enumeration.ofPattern (s.pattern 1) {} : Enumeration String).after 0).next.1 =
        some "aaa" ∧
      (((Regex.bodyStrings .printable s.body).value? 0).map fun own =>
        String.join (s.before.map (written "")) ++ own ++
          String.join (s.after.map (written own))) = some "aa" := by
  have hwritten : ∀ r ∈ [Regex.backreference 1], IsWritten 1 r :=
    fun r hr => Or.inl (List.mem_singleton.1 hr)
  refine ⟨⟨[.backreference 1], 1, replaying.body, [.backreference 1]⟩, fits_replaying.body,
    hwritten, hwritten, by decide, ?_⟩
  rw [lists_body_replaying 0]
  decide

end CapturingSequence

end RegexWords
