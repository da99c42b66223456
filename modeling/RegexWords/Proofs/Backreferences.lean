import RegexWords.Proofs.Leaks
import RegexWords.Proofs.Record
import RegexWords.Proofs.Run
import RegexWords.Proofs.Trail.Tuples
import RegexWords.Proofs.Words

/-!
# What Backreferences Contribute

A sequence with a capturing group and references to it: which text do the references contribute
to a value? The group captures when it gives a new value, and only then. While the counter goes
through the values of the group for the first time, a reference contributes the value that the
group itself contributes. From the second round on the group gives values from the cache of the
counter and captures no more, so every reference contributes the last value of the group,
whatever the group contributes itself.

Whether references contribute at all is one question for all of them: they are live once a
reference was evaluated after the group had captured, so a reference after the group makes those
before it live as well.

## Main results

* `CapturingSequence.record_history`: what is recorded of the group after any number of pulls.
* `CapturingSequence.next_after_pattern`: **every value of the pattern**, in terms of the text
  that is recalled for it.
-/

namespace RegexWords

/-! ### Parts of a sequence -/

/-- A trail stands **aside** of a group if its events are captures of other groups and its values
have no marks. -/
structure Trail.Aside (group : ℕ) (t : Trail Effect String) : Prop where
  exists_capture : ∀ e ∈ t.reports, ∃ k text, k ≠ group ∧ e = .capture k text
  not_isMark : ∀ v ∈ t.values, ∀ c ∈ v.toList, ¬ IsMark c

namespace Trail.Aside

variable {g : ℕ} {t : Trail Effect String}

/-- A trail without values and events stands aside. -/
theorem items_nil : (Trail.items [] : Trail Effect String).Aside g where
  exists_capture e he := absurd he (Trail.notMem_reports_items [] e)
  not_isMark _ hv := absurd (Trail.mem_values_items.1 hv) List.not_mem_nil

/-- What happens aside of a group leaves the record of the group as it is. -/
theorem after_eq_self (h : t.Aside g) {n : ℕ} {e : Effect} (he : e ∈ t.events n)
    (record : GroupRecord) : record.after g e = record := by
  obtain ⟨k, text, hk, rfl⟩ := h.exists_capture e ⟨n, he⟩
  exact if_neg hk

/-- Aside of a group no reference is evaluated. -/
theorem resolve_notMem (h : t.Aside g) (k : ℕ) : .resolve k ∉ t.reports := by
  intro he
  obtain ⟨_, _, _, heq⟩ := h.exists_capture _ he
  exact Effect.noConfusion heq

/-- Filling in changes no value. -/
theorem value?_map_fill (h : t.Aside g) (text : String) :
    (t.map (Fragment.fill g text)).value? = t.value? := by
  funext n
  rw [Trail.value?_map]
  cases hn : t.value? n with
  | none => rfl
  | some v => rw [Option.map_some, Fragment.fill_of_plain text (h.not_isMark v ⟨n, hn⟩)]

end Trail.Aside

namespace Regex

/-- The strings that a tree produces, with the events on the way. -/
abbrev strings (alphabet : CodeRange) (r : Regex) : Trail Effect String :=
  r.trail alphabet

/-- The strings that a tree produces that may be absent. -/
abbrev bodyStrings (alphabet : CodeRange) (body : Option Regex) : Trail Effect String :=
  bodyTrail alphabet body

/-- The strings of a body are fused. -/
theorem fused_bodyStrings (alphabet : CodeRange) (body : Option Regex) :
    (bodyStrings alphabet body).Fused :=
  (planBody alphabet body).fused_trail

/-- Whether a tree is a reference itself. -/
def isBackreference : Regex → Bool
  | backreference _ => true
  | _ => false

/-- What a part of a sequence contributes if references contribute `text`. -/
def contribution (alphabet : CodeRange) (text : String) : Regex → Trail Effect String
  | backreference _ => Trail.items [text]
  | r => r.strings alphabet

/-- A part is an **onlooker** of a group if outside lookarounds it refers to no group and does
not capture this one, and its values have no marks. -/
structure Onlooker (alphabet : CodeRange) (group : ℕ) (r : Regex) : Prop where
  backreference_notMem : ∀ number, backreference number ∉ r.preorder false
  capturing_notMem : ∀ body, capturing group body ∉ r.preorder false
  not_isMark : ∀ v ∈ (r.strings alphabet).values, ∀ c ∈ v.toList, ¬ IsMark c

/-- A part **fits** a group if it is a reference to the group or an onlooker of it. -/
def Fits (alphabet : CodeRange) (group : ℕ) (r : Regex) : Prop :=
  r = backreference group ∨ r.Onlooker alphabet group

variable {alphabet : CodeRange} {g : ℕ} {r : Regex}

/-- A tree that is no reference contributes its strings. -/
theorem contribution_of_not_isBackreference (text : String) (h : r.isBackreference = false) :
    r.contribution alphabet text = r.strings alphabet := by
  cases r with
  | backreference number => exact absurd h.symm Bool.false_ne_true
  | _ => rfl

/-- An onlooker is no reference. -/
theorem Onlooker.isBackreference_eq_false (h : r.Onlooker alphabet g) :
    r.isBackreference = false := by
  cases r with
  | backreference number => exact absurd List.mem_cons_self (h.backreference_notMem number)
  | _ => rfl

/-- An onlooker stands aside. -/
theorem Onlooker.aside (h : r.Onlooker alphabet g) : (r.strings alphabet).Aside g where
  exists_capture e he := by
    obtain ⟨s, hs, hcause⟩ := exists_causes_of_mem_reports r he
    cases hcause with
    | capturing number body text =>
        refine ⟨number, text, ?_, rfl⟩
        rintro rfl
        exact h.capturing_notMem body hs
    | backreference number => exact absurd hs (h.backreference_notMem number)
  not_isMark := h.not_isMark

/-- A body in which there is an onlooker at most stands aside. -/
theorem aside_bodyStrings {body : Option Regex} (h : ∀ r ∈ body, r.Onlooker alphabet g) :
    (bodyStrings alphabet body).Aside g := by
  cases body with
  | none =>
      rw [bodyStrings, bodyTrail_none]
      exact Trail.Aside.items_nil
  | some r => exact (h r rfl).aside

/-- A tree is an onlooker if its nodes outside lookarounds are plain, and none of them is a
reference or captures the group. -/
theorem onlooker_of_plain (hplain : ∀ s ∈ r.preorder false, s.Plain alphabet)
    (hreference : ∀ number, backreference number ∉ r.preorder false)
    (hcapture : ∀ body, capturing g body ∉ r.preorder false) : r.Onlooker alphabet g := by
  refine ⟨hreference, hcapture, fun v hv => ?_⟩
  have htokened : (r.strings alphabet).Tokened ∅ := by
    refine tokened_trail r fun s hs => ⟨hplain s hs, ?_⟩
    rintro number rfl
    exact absurd hs (hreference number)
  have hv' := htokened.values v hv
  exact hv'.not_isMark hv'.open_notMem

/-- The strings of a reference are its placeholder, and it reports that it was evaluated. -/
theorem strings_backreference (number : ℕ) :
    (backreference number).strings alphabet =
      (Trail.items [placeholder number]).tap fun _ => .resolve number :=
  trail_backreference alphabet number

/-- The values of a part that fits are fragments. -/
theorem Fits.fragment (h : r.Fits alphabet g) {v : String}
    (hv : v ∈ (r.strings alphabet).values) : Fragment g v := by
  rcases h with rfl | h
  · rw [strings_backreference, Trail.values_tap, Trail.mem_values_items, List.mem_singleton] at hv
    exact Or.inl hv
  · exact Or.inr (h.not_isMark v hv)

/-- Filling the strings of a part that fits gives its contribution. -/
theorem Fits.value?_map_fill (h : r.Fits alphabet g) (text : String) :
    ((r.strings alphabet).map (Fragment.fill g text)).value? =
      (r.contribution alphabet text).value? := by
  rcases h with rfl | h
  · funext n
    rw [Trail.value?_map, strings_backreference, Trail.value?_tap, contribution,
      Trail.value?_items, Trail.value?_items, ← List.getElem?_map, List.map_singleton,
      Fragment.fill_placeholder]
  · rw [contribution_of_not_isBackreference text h.isBackreference_eq_false]
    exact h.aside.value?_map_fill text

/-! ### What is recorded of the group -/

/-- The events of a part that fits mean nothing to the group after the first pull. -/
theorem Fits.settled (h : r.Fits alphabet g) :
    (r.strings alphabet).Settled (GroupRecord.after g) := by
  intro n e he
  rcases h with rfl | h
  · rw [strings_backreference] at he
    exact absurd he List.not_mem_nil
  · exact h.aside.after_eq_self he

/-- What the first pull of a part that fits means to the group: a reference makes it live if it
has captured something. -/
theorem Fits.foldl_events_zero (h : r.Fits alphabet g) (record : GroupRecord) :
    ((r.strings alphabet).events 0).foldl (GroupRecord.after g) record =
      { record with isLive := record.isLive || (r.isBackreference && record.text?.isSome) } := by
  rcases h with rfl | h
  · rw [strings_backreference]
    exact if_pos rfl
  · rw [h.isBackreference_eq_false, Bool.false_and, Bool.or_false]
    exact Trail.foldl_eq_self (fun e he => h.aside.after_eq_self he) record

/-- A part that fits means nothing to the group as long as it has not captured anything. -/
theorem Fits.foldl_events_zero_of_eq_none (h : r.Fits alphabet g) {record : GroupRecord}
    (hrecord : record.text? = none) :
    ((r.strings alphabet).events 0).foldl (GroupRecord.after g) record = record := by
  have hlive : (record.isLive || (r.isBackreference && record.text?.isSome)) = record.isLive := by
    rw [hrecord, Option.isSome_none, Bool.and_false, Bool.or_false]
  rw [h.foldl_events_zero, hlive]

/-- What the first tuple of parts that fit means to a group that has captured something: it is
live if there is a reference. -/
theorem foldl_events_zero_tuples {rs : List Regex} (h : ∀ r ∈ rs, r.Fits alphabet g)
    (h0 : (Trail.tuples (rs.map (strings alphabet))).value? 0 ≠ none) {record : GroupRecord}
    (hrecord : record.text?.isSome) :
    ((Trail.tuples (rs.map (strings alphabet))).events 0).foldl (GroupRecord.after g) record =
      { record with isLive := record.isLive || rs.any isBackreference } := by
  induction rs generalizing record with
  | nil =>
      rw [List.any_nil, Bool.or_false]
      rfl
  | cons r rs ih =>
      rw [List.map_cons, Trail.tuples] at h0 ⊢
      have hlive : (r.isBackreference && record.text?.isSome) = r.isBackreference := by
        rw [hrecord, Bool.and_true]
      have hsome : ({ record with isLive := record.isLive || r.isBackreference } :
          GroupRecord).text?.isSome := hrecord
      rw [Trail.events_cons_of_ne_none h0, Nat.zero_mod, if_pos rfl, Nat.zero_div,
        List.foldl_append, (h r List.mem_cons_self).foldl_events_zero, hlive,
        ih (fun s hs => h s (List.mem_cons_of_mem r hs)) ((Trail.value?_cons_zero _ _).1 h0).2
          hsome, List.any_cons, Bool.or_assoc]

/-- **What is recorded of a group whose values are captured**, before the tuples of parts that
fit: its latest text, and whether there is a reference. -/
theorem foldl_history_capture {t : Trail Effect String} (ht : t.Fused) (haside : t.Aside g)
    {rs : List Regex} (h : ∀ r ∈ rs, r.Fits alphabet g)
    (h0 : (Trail.cons (t.tap (.capture g)) (Trail.tuples (rs.map (strings alphabet)))).value? 0 ≠
      none) (n : ℕ) (record : GroupRecord) :
    ((Trail.cons (t.tap (.capture g)) (Trail.tuples (rs.map (strings alphabet)))).history
        (n + 1)).foldl (GroupRecord.after g) record =
      { record with
        text? := t.value? (t.latest n)
        isLive := record.isLive || rs.any isBackreference } := by
  obtain ⟨hfirst, hothers⟩ := (Trail.value?_cons_zero _ _).1 h0
  have hcapture : ∀ m (record : GroupRecord),
      ((t.tap (.capture g)).events m).foldl (GroupRecord.after g) record =
        { record with text? := (t.value? m).or record.text? } := by
    intro m record
    rw [Trail.events_tap, List.foldl_append,
      Trail.foldl_eq_self fun e he => haside.after_eq_self he]
    cases t.value? m with
    | none => rfl
    | some v => exact if_pos rfl
  induction n with
  | zero =>
      obtain ⟨v, hv⟩ := Option.ne_none_iff_exists'.1 hfirst
      rw [Trail.value?_tap] at hfirst hv
      rw [Trail.history_one, Trail.events_cons_of_ne_none h0, Nat.zero_mod, if_pos rfl,
        Nat.zero_div, List.foldl_append, hcapture, Trail.latest_zero hfirst, hv, Option.some_or,
        foldl_events_zero_tuples h hothers rfl]
  | succ n ih =>
      have hsettled : (Trail.tuples (rs.map (strings alphabet))).Settled (GroupRecord.after g) := by
        refine Trail.Settled.tuples fun u hu => ?_
        obtain ⟨r, hr, rfl⟩ := List.mem_map.1 hu
        exact (h r hr).settled
      rw [Trail.history_succ, List.foldl_append, ih, Trail.events_cons_of_ne_none h0,
        List.foldl_append, hcapture, ht.value?_latest_succ]
      -- when the group starts over, the parts after it move on, which means nothing to the group
      split
      · next hmod =>
        obtain ⟨m, hm⟩ := Nat.exists_eq_succ_of_ne_zero (Trail.div_pos_of_mod_eq_zero hmod).ne'
        rw [hm, Trail.foldl_eq_self (hsettled m)]
      · rfl

end Regex

/-! ### Capturing sequences -/

/-- A **capturing sequence**: one capturing group, with the parts before and after it. -/
structure CapturingSequence where
  before : List Regex
  group : ℕ
  body : Option Regex
  after : List Regex

namespace CapturingSequence

/-- The parts of the sequence, the group among them. -/
def parts (s : CapturingSequence) : List Regex :=
  s.before ++ .capturing s.group s.body :: s.after

/-- The pattern whose body is the sequence. -/
def pattern (s : CapturingSequence) (groupCount : ℕ) : Pattern :=
  ⟨some (.sequence s.parts), groupCount⟩

/-- A capturing sequence **fits** if its parts do: those before and after the group are references
to the group or onlookers of it, and the body of the group is an onlooker. -/
structure Fits (alphabet : CodeRange) (s : CapturingSequence) : Prop where
  before : ∀ r ∈ s.before, r.Fits alphabet s.group
  body : ∀ r ∈ s.body, r.Onlooker alphabet s.group
  after : ∀ r ∈ s.after, r.Fits alphabet s.group

variable (alphabet : CodeRange)

/-- The number of tuples of the parts before the group, or `0` if they never end. For so many
pulls the group stays at one value. -/
noncomputable def span (s : CapturingSequence) : ℕ :=
  (s.before.map fun r => (r.strings alphabet).period).prod

/-- The periods of the parts before the group. -/
theorem prod_period_before (s : CapturingSequence) :
    ((s.before.map (Regex.strings alphabet)).map Trail.period).prod = s.span alphabet := by
  rw [List.map_map]
  rfl

/-- The text that the group has captured when value number `n` is assembled. -/
noncomputable def latestText? (s : CapturingSequence) (n : ℕ) : Option String :=
  (Regex.bodyStrings alphabet s.body).value?
    ((Regex.bodyStrings alphabet s.body).latest (n / s.span alphabet))

/-- The text that references contribute to value number `n`: what the group has captured if there
is a reference after the group, and else nothing. -/
noncomputable def recalled (s : CapturingSequence) (n : ℕ) : String :=
  if s.after.any Regex.isBackreference then (s.latestText? alphabet n).getD "" else ""

variable {alphabet} {s : CapturingSequence}

/-- The strings of the group are those of its body, and it captures them. -/
theorem strings_capturing (s : CapturingSequence) :
    (Regex.capturing s.group s.body).strings alphabet =
      (Regex.bodyStrings alphabet s.body).tap (.capture s.group) := by
  rw [Regex.strings, Regex.trail_capturing, Trail.map_wrap_string]
  rfl

/-- The trails of the parts, the group between the others. -/
theorem map_strings_parts (s : CapturingSequence) :
    s.parts.map (Regex.strings alphabet) = s.before.map (Regex.strings alphabet) ++
      (Regex.bodyStrings alphabet s.body).tap (.capture s.group) ::
        s.after.map (Regex.strings alphabet) := by
  rw [parts, List.map_append, List.map_cons, strings_capturing]

/-- The parts are those before and after the group, and the group. -/
theorem Fits.of_mem_parts (h : s.Fits alphabet) {r : Regex} (hr : r ∈ s.parts) :
    r.Fits alphabet s.group ∨ r = .capturing s.group s.body := by
  rcases List.mem_append.1 hr with hr | hr
  · exact Or.inl (h.before r hr)
  · rcases List.mem_cons.1 hr with rfl | hr
    · exact Or.inr rfl
    · exact Or.inl (h.after r hr)

/-- The values of the parts are fragments. -/
theorem Fits.fragment (h : s.Fits alphabet) {r : Regex} (hr : r ∈ s.parts) {v : String}
    (hv : v ∈ (r.strings alphabet).values) : Fragment s.group v := by
  rcases h.of_mem_parts hr with hfits | rfl
  · exact hfits.fragment hv
  · rw [strings_capturing, Trail.values_tap] at hv
    exact Or.inr ((Regex.aside_bodyStrings h.body).not_isMark v hv)

/-- Filling the strings of the parts gives their contributions. -/
theorem Fits.value?_map_fill (h : s.Fits alphabet) {r : Regex} (hr : r ∈ s.parts)
    (text : String) :
    ((r.strings alphabet).map (Fragment.fill s.group text)).value? =
      (r.contribution alphabet text).value? := by
  rcases h.of_mem_parts hr with hfits | rfl
  · exact hfits.value?_map_fill text
  · rw [Regex.contribution_of_not_isBackreference text rfl, strings_capturing]
    exact (Regex.aside_bodyStrings h.body).value?_map_fill text

/-! ### What is recorded -/

/-- **What is recorded of the group** after any number of pulls. -/
theorem Fits.record_history (h : s.Fits alphabet)
    (h0 : (Trail.tuples (s.parts.map (Regex.strings alphabet))).value? 0 ≠ none) (n : ℕ)
    {record : GroupRecord} (hrecord : record.text? = none) :
    ((Trail.tuples (s.parts.map (Regex.strings alphabet))).history (n + 1)).foldl
        (GroupRecord.after s.group) record =
      { record with
        text? := s.latestText? alphabet n
        isLive := record.isLive || s.after.any Regex.isBackreference } := by
  rw [map_strings_parts] at h0 ⊢
  have hgroup := Trail.value?_tuples_zero_of_append h0
  rw [Trail.foldl_history_append ?_ ?_ h0, prod_period_before]
  · exact Regex.foldl_history_capture (Regex.fused_bodyStrings alphabet s.body)
      (Regex.aside_bodyStrings h.body) h.after hgroup (n / s.span alphabet) record
  · intro t ht
    obtain ⟨r, hr, rfl⟩ := List.mem_map.1 ht
    exact (h.before r hr).settled
  · intro t ht
    obtain ⟨r, hr, rfl⟩ := List.mem_map.1 ht
    exact (h.before r hr).foldl_events_zero_of_eq_none hrecord

/-- No reference to another group is evaluated. -/
theorem Fits.resolve_notMem_history (h : s.Fits alphabet) {k : ℕ} (hk : k ≠ s.group) (n : ℕ) :
    .resolve k ∉ (Trail.tuples (s.parts.map (Regex.strings alphabet))).history n := by
  intro hmem
  obtain ⟨m, -, hm⟩ := List.mem_flatMap.1 hmem
  obtain ⟨t, ht, he⟩ := Trail.reports_tuples ⟨m, hm⟩
  obtain ⟨r, hr, rfl⟩ := List.mem_map.1 ht
  rcases h.of_mem_parts hr with (rfl | hr) | rfl
  · obtain ⟨c, hc, hcause⟩ := Regex.exists_causes_of_mem_reports _ he
    cases hcause
    obtain rfl : k = s.group := by simpa [Regex.preorder] using hc
    exact hk rfl
  · exact hr.aside.resolve_notMem k he
  · rw [strings_capturing] at he
    rcases Trail.reports_tap he with he | ⟨v, -, heq⟩
    · exact (Regex.aside_bodyStrings h.body).resolve_notMem k he
    · exact Effect.noConfusion heq

/-! ### Values of the pattern -/

/-- The body of the pattern shows the joined tuples of its parts. -/
theorem bodyStrings_pattern (s : CapturingSequence) (groupCount : ℕ) :
    Regex.bodyStrings alphabet (s.pattern groupCount).body =
      (Trail.tuples (s.parts.map (Regex.strings alphabet))).map String.join := by
  have hne : s.parts.map (Regex.strings alphabet) ≠ [] := by simp [parts]
  rw [← Trail.product_eq_tuples hne]
  exact Regex.trail_sequence alphabet s.parts

/-- If there is any tuple, there is a first one. -/
theorem value?_zero_ne_none {n : ℕ}
    (hn : (Trail.tuples (s.parts.map (Regex.strings alphabet))).value? n ≠ none) :
    (Trail.tuples (s.parts.map (Regex.strings alphabet))).value? 0 ≠ none := by
  have hfused : (Trail.tuples (s.parts.map (Regex.strings alphabet))).Fused :=
    Trail.Fused.tuples fun t ht => by
      obtain ⟨r, -, rfl⟩ := List.mem_map.1 ht
      exact r.fused_trail alphabet
  exact fun hnone => hn (hfused.value?_eq_none (Nat.zero_le n) hnone)

/-- If there is a first tuple, the group has a first value. -/
theorem value?_body_zero
    (h0 : (Trail.tuples (s.parts.map (Regex.strings alphabet))).value? 0 ≠ none) :
    (Regex.bodyStrings alphabet s.body).value? 0 ≠ none := by
  rw [map_strings_parts] at h0
  exact ((Trail.value?_cons_zero _ _).1 (Trail.value?_tuples_zero_of_append h0)).1

/-- If there is a first tuple, the group has captured something at any time. -/
theorem latestText?_ne_none_of_zero
    (h0 : (Trail.tuples (s.parts.map (Regex.strings alphabet))).value? 0 ≠ none) (n : ℕ) :
    s.latestText? alphabet n ≠ none :=
  (Regex.fused_bodyStrings alphabet s.body).value?_latest_ne_none (value?_body_zero h0) _

/-- The contributions of the parts are their strings with the placeholders filled in. -/
theorem Fits.value?_tuples_contribution (h : s.Fits alphabet) (text : String) (n : ℕ) :
    (Trail.tuples (s.parts.map (Regex.contribution alphabet text))).value? n =
      ((Trail.tuples (s.parts.map (Regex.strings alphabet))).value? n).map
        (List.map (Fragment.fill s.group text)) := by
  have hfill := Trail.value?_tuples_congr fun r (hr : r ∈ s.parts) => h.value?_map_fill hr text
  rw [← hfill, ← Trail.value?_map, Trail.map_tuples, List.map_map]
  rfl

/-- If there is any tuple of contributions, the group has captured something at any time. -/
theorem Fits.latestText?_ne_none (h : s.Fits alphabet) {text : String} {n : ℕ}
    {texts : List String}
    (hn : (Trail.tuples (s.parts.map (Regex.contribution alphabet text))).value? n = some texts)
    (m : ℕ) : s.latestText? alphabet m ≠ none := by
  rw [h.value?_tuples_contribution] at hn
  obtain ⟨_, hstrings, -⟩ := Option.map_eq_some_iff.1 hn
  have h0 := value?_zero_ne_none (hstrings ▸ Option.some_ne_none _)
  exact latestText?_ne_none_of_zero h0 m

/-- **Finishing a value of the pattern** fills in the text that is recalled. -/
theorem Fits.finish_join (h : s.Fits alphabet) {n : ℕ} {texts : List String}
    (hn : (Trail.tuples (s.parts.map (Regex.strings alphabet))).value? n = some texts)
    (body : Option Regex) :
    ((Captures.referAll {} body).perform
        ((Trail.tuples (s.parts.map (Regex.strings alphabet))).history (n + 1))).finish
      (String.join texts) =
      String.join (texts.map (Fragment.fill s.group (s.recalled alphabet n))) := by
  have h0 := value?_zero_ne_none (hn ▸ Option.some_ne_none texts)
  obtain ⟨text, htext⟩ := Option.ne_none_iff_exists'.1 (latestText?_ne_none_of_zero h0 n)
  set c := (Captures.referAll {} body).perform
    ((Trail.tuples (s.parts.map (Regex.strings alphabet))).history (n + 1)) with hc
  obtain ⟨hnone, hdead⟩ := Captures.record_referAll body s.group
  have hrecord := h.record_history h0 n hnone
  rw [← Captures.record_perform, ← hc, htext, hdead, Bool.false_or] at hrecord
  -- no other group becomes live, so nothing else is filled in
  have hothers : ∀ k, k ≠ s.group → c.isLive k = false := fun k hk =>
    Captures.isLive_perform_eq_false (Captures.record_referAll body k).2
      (h.resolve_notMem_history hk (n + 1))
  have hcaptured : c.text? s.group = some text := by rw [Captures.text?, hrecord]
  have hplain : ∀ ch ∈ text.toList, ¬ IsMark ch :=
    (Regex.aside_bodyStrings h.body).not_isMark text ⟨_, htext⟩
  have hfragments : ∀ v ∈ texts, Fragment s.group v := by
    intro v hv
    obtain ⟨t, ht, hvalue⟩ := Trail.exists_mem_of_forall₂ (Trail.values_tuples ⟨n, hn⟩) v hv
    obtain ⟨r, hr, rfl⟩ := List.mem_map.1 ht
    exact h.fragment hr hvalue
  have hrecalled : s.recalled alphabet n = if c.isLive s.group then text else "" := by
    rw [Captures.isLive, hrecord, recalled, htext, Option.getD_some]
  rw [Captures.finish_join hothers hcaptured hplain hfragments, hrecalled]

/-- **Every value of the pattern** is the join of a tuple to which the references contribute the
text that is recalled. -/
theorem Fits.next_after_pattern (h : s.Fits alphabet) (groupCount n : ℕ) :
    ((Enumeration.ofPattern (s.pattern groupCount) { alphabet } : Enumeration String).after
        n).next.1 =
      ((Trail.tuples (s.parts.map (Regex.contribution alphabet (s.recalled alphabet n)))).value?
        n).map String.join := by
  rw [Enumeration.next_after_ofPattern, ← Regex.bodyStrings, bodyStrings_pattern,
    Trail.value?_map, h.value?_tuples_contribution, Option.map_map, Option.map_map]
  cases hn : (Trail.tuples (s.parts.map (Regex.strings alphabet))).value? n with
  | none => rfl
  | some texts => exact congrArg some (h.finish_join hn _)

end CapturingSequence

end RegexWords
