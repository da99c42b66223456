import RegexWords.Enumeration
import RegexWords.Proofs.Placeholders

/-!
# What Is Recorded of a Group

Captures are a list of records, but whoever reads them asks for one group at a time. Here the
record of a group is computed: an effect changes the record of its own group and no other, so
the record after many effects is a fold over them. When references to one group only are live,
finishing a text that is put together from plain texts and placeholders of that group is
replacing these placeholders one by one.

## Main results

* `Captures.record_update`: an update changes one record.
* `Captures.record_perform`: the record of a group after several effects.
* `Captures.liveTexts_eq`: what is substituted if references to one group only are live.
* `Captures.finish_join`: **finishing a text** whose references are to one group.
-/

namespace RegexWords

namespace Captures

/-! ### Records -/

/-- What is found for a group is the record at the head or among the others. -/
theorem lookup_cons_eq (k g : ℕ) (r : GroupRecord) (rest : List (ℕ × GroupRecord)) :
    ((g, r) :: rest).lookup k = if k = g then some r else rest.lookup k := by
  by_cases hk : k = g
  · rw [if_pos hk, hk, List.lookup_cons_self]
  · rw [if_neg hk, List.lookup_cons, beq_eq_false_iff_ne.2 hk]

/-- A group below all others in a list is not found there. -/
theorem lookup_eq_none_of_lt {entries : List (ℕ × GroupRecord)} {k : ℕ}
    (h : ∀ e ∈ entries, k < e.1) : entries.lookup k = none := by
  rw [List.lookup_eq_none_iff]
  intro e he
  have hlt := h e he
  rw [bne_iff_ne]
  omega

/-- An update of a list of records changes what is found for its group only. -/
theorem lookup_updateEntries (group k : ℕ) (f : GroupRecord → GroupRecord)
    {entries : List (ℕ × GroupRecord)} (h : entries.Pairwise (·.1 < ·.1)) :
    ((updateEntries group f entries).lookup k).getD {} =
      if k = group then f ((entries.lookup group).getD {}) else (entries.lookup k).getD {} := by
  induction h with
  | nil =>
      rw [updateEntries, lookup_cons_eq]
      split <;> rfl
  | @cons x rest hx hrest ih =>
      obtain ⟨g, r⟩ := x
      rw [updateEntries]
      split
      · next hlt =>
        have hnone : rest.lookup group = none :=
          lookup_eq_none_of_lt fun e he => hlt.trans (hx e he)
        rw [lookup_cons_eq, lookup_cons_eq group g, if_neg hlt.ne, hnone]
        split <;> rfl
      · split
        · next hg =>
          subst hg
          rw [lookup_cons_eq, lookup_cons_eq, lookup_cons_eq, if_pos rfl]
          split <;> rfl
        · next hg =>
          rw [lookup_cons_eq, lookup_cons_eq group, lookup_cons_eq k, if_neg hg]
          by_cases hk : k = g
          · have hne : k ≠ group := fun heq => hg (heq.symm.trans hk)
            rw [if_pos hk, if_neg hne, if_pos hk]
          · rw [if_neg hk, if_neg hk, ih]

/-- **An update changes one record.** -/
theorem record_update (c : Captures) (group k : ℕ) (f : GroupRecord → GroupRecord) :
    (c.update group f).record k = if k = group then f (c.record group) else c.record k :=
  lookup_updateEntries group k f c.ascending

/-- Every entry is what is found for its group. -/
theorem lookup_of_mem {entries : List (ℕ × GroupRecord)} (h : entries.Pairwise (·.1 < ·.1))
    {g : ℕ} {r : GroupRecord} (hmem : (g, r) ∈ entries) : entries.lookup g = some r := by
  induction h with
  | nil => exact absurd hmem List.not_mem_nil
  | @cons x rest hx _ ih =>
      rcases List.mem_cons.1 hmem with rfl | hrest
      · exact List.lookup_cons_self
      · obtain ⟨k, s⟩ := x
        rw [lookup_cons_eq, if_neg (hx _ hrest).ne', ih hrest]

/-- Every entry is the record of its group. -/
theorem record_of_mem {c : Captures} {g : ℕ} {r : GroupRecord} (h : (g, r) ∈ c.entries) :
    c.record g = r := by
  rw [record, lookup_of_mem c.ascending h]
  rfl

/-- A group that has captured something has an entry. -/
theorem mem_entries_of_text? {c : Captures} {g : ℕ} (h : (c.text? g).isSome) :
    (g, c.record g) ∈ c.entries := by
  cases hlookup : c.entries.lookup g with
  | none => simp [text?, record, hlookup] at h
  | some r =>
      obtain ⟨l₁, l₂, heq, -⟩ := List.lookup_eq_some_iff.1 hlookup
      rw [record, hlookup, heq]
      simp

/-- A group that has captured something is known. -/
theorem mem_known_of_text? {c : Captures} {g : ℕ} (h : (c.text? g).isSome) : g ∈ c.known :=
  mem_known.2 ⟨c.record g, mem_entries_of_text? h, Or.inr h⟩

end Captures

/-! ### Effects on one record -/

/-- The record of a group after an effect; effects of other groups leave it as it is. -/
def GroupRecord.after (group : ℕ) (r : GroupRecord) : Effect → GroupRecord
  | .capture g text => if g = group then { r with text? := some text } else r
  | .resolve g => if g = group then { r with isLive := r.isLive || r.text?.isSome } else r

namespace Captures

/-- One effect changes the record of its group. -/
theorem record_performOne (c : Captures) (e : Effect) (group : ℕ) :
    (c.performOne e).record group = (c.record group).after group e := by
  cases e with
  | capture g text =>
      rw [performOne, capture, record_update, GroupRecord.after]
      by_cases hg : group = g
      · rw [if_pos hg, if_pos hg.symm, hg]
      · rw [if_neg hg, if_neg fun heq => hg heq.symm]
  | resolve g =>
      rw [performOne, resolve, record_update, GroupRecord.after]
      by_cases hg : group = g
      · rw [if_pos hg, if_pos hg.symm, hg]
      · rw [if_neg hg, if_neg fun heq => hg heq.symm]

/-- **The record of a group** after several effects. -/
theorem record_perform (c : Captures) (effects : List Effect) (group : ℕ) :
    (c.perform effects).record group =
      effects.foldl (GroupRecord.after group) (c.record group) := by
  rw [perform]
  induction effects generalizing c with
  | nil => rfl
  | cons e effects ih => rw [List.foldl_cons, List.foldl_cons, ih, record_performOne]

/-- Only a reference that is evaluated can make its group live. -/
theorem isLive_perform_eq_false {c : Captures} {effects : List Effect} {group : ℕ}
    (hc : c.isLive group = false) (h : .resolve group ∉ effects) :
    (c.perform effects).isLive group = false := by
  rw [isLive] at hc ⊢
  rw [record_perform]
  induction effects generalizing c with
  | nil => exact hc
  | cons e effects ih =>
      rw [List.mem_cons, not_or] at h
      rw [List.foldl_cons, ← record_performOne]
      refine ih ?_ h.2
      rw [record_performOne]
      cases e with
      | capture g text =>
          rw [GroupRecord.after]
          split
          · exact hc
          · exact hc
      | resolve g =>
          have hne : g ≠ group := fun heq => h.1 (by rw [heq])
          rw [GroupRecord.after, if_neg hne]
          exact hc

/-- Before anything was pulled, no group has captured anything and none is live. -/
theorem record_referAll (body : Option Regex) (group : ℕ) :
    ((referAll {} body).record group).text? = none ∧
      ((referAll {} body).record group).isLive = false := by
  rw [referAll]
  have hfold : ∀ (gs : List ℕ) (c : Captures), (c.record group).text? = none ∧
      (c.record group).isLive = false → ((gs.foldl refer c).record group).text? = none ∧
        ((gs.foldl refer c).record group).isLive = false := by
    intro gs
    induction gs with
    | nil => exact fun _ hc => hc
    | cons g gs ih =>
        intro c hc
        refine ih (c.refer g) ?_
        rw [refer, record_update]
        split
        · next hg => rwa [hg] at hc
        · exact hc
  exact hfold (Regex.references body) {} ⟨rfl, rfl⟩

/-! ### Finishing -/

/-- In an ascending list of which one entry only is live, only that one gives a text. -/
theorem filterMap_liveText {entries : List (ℕ × GroupRecord)} {g : ℕ}
    (h : entries.Pairwise (·.1 < ·.1)) (hdead : ∀ e ∈ entries, e.1 ≠ g → e.2.isLive = false) :
    (entries.filterMap fun (k, r) => if r.isLive then r.text?.map (k, ·) else none) =
      (if ((entries.lookup g).getD {}).isLive then
        ((entries.lookup g).getD {}).text?.map (g, ·) else none).toList := by
  induction h with
  | nil => rfl
  | @cons x rest hx _ ih =>
      obtain ⟨k, r⟩ := x
      have hrest := ih fun e he => hdead e (List.mem_cons_of_mem _ he)
      rw [List.filterMap_cons, hrest, lookup_cons_eq]
      by_cases hk : g = k
      · subst hk
        rw [lookup_eq_none_of_lt hx, if_pos rfl]
        cases hlive : r.isLive with
        | false => simp [hlive]
        | true => cases htext : r.text? <;> simp [hlive, htext]
      · have hr : r.isLive = false := hdead (k, r) List.mem_cons_self fun heq => hk heq.symm
        rw [if_neg hk]
        simp [hr]

/-- If references to one group only are live, only the text of that group is substituted. -/
theorem liveTexts_eq {c : Captures} {g : ℕ} (h : ∀ k, k ≠ g → c.isLive k = false) :
    c.liveTexts = (if c.isLive g then (c.text? g).map (g, ·) else none).toList := by
  refine filterMap_liveText c.ascending ?_
  rintro ⟨k, r⟩ hmem hne
  have hk := h k hne
  rwa [isLive, record_of_mem hmem] at hk

end Captures

namespace Text

/-- A text without marks has no placeholders to replace. -/
theorem replaceAll_placeholder_of_plain (g : ℕ) (replacement : String) {text : String}
    (h : ∀ c ∈ text.toList, ¬ IsMark c) :
    replaceAll (placeholder g) replacement text = text := by
  apply String.toList_inj.1
  have happend := replaceFrom_plain_append g replacement.toList h []
  rw [List.append_nil] at happend
  rw [toList_replaceAll_placeholder, happend]
  exact List.append_nil _

/-- Replacing the placeholders of one group in a placeholder. -/
theorem replaceAll_placeholder (g k : ℕ) (replacement : String) :
    replaceAll (placeholder g) replacement (placeholder k) =
      if k = g then replacement else placeholder k := by
  apply String.toList_inj.1
  have happend := replaceFrom_placeholder_append g k replacement.toList []
  rw [List.append_nil] at happend
  rw [toList_replaceAll_placeholder, happend, apply_ite String.toList]
  exact List.append_nil _

end Text

/-- Replacing the placeholders of one group in a text with more after it. -/
theorem Tokened.replaceFrom_append {groups : Set ℕ} {cs : List Char} (h : Tokened groups cs)
    (g : ℕ) (replacement ds : List Char) :
    Text.replaceFrom (placeholder g).toList replacement 0 (cs ++ ds) =
      Text.replaceFrom (placeholder g).toList replacement 0 cs ++
        Text.replaceFrom (placeholder g).toList replacement 0 ds := by
  induction h with
  | nil => rfl
  | @plain c cs hc _ ih =>
      have hsingle : ∀ d ∈ [c], ¬ IsMark d := by simpa using hc
      rw [← List.singleton_append, List.append_assoc, Text.replaceFrom_plain_append g _ hsingle,
        Text.replaceFrom_plain_append g _ hsingle, ih, List.append_assoc]
  | token _ _ ih =>
      rw [List.append_assoc, Text.replaceFrom_placeholder_append,
        Text.replaceFrom_placeholder_append, ih, List.append_assoc]

/-- **Replacing in a joined text** is replacing in its parts. -/
theorem Tokened.replaceAll_join {groups : Set ℕ} {texts : List String}
    (h : ∀ v ∈ texts, Tokened groups v.toList) (g : ℕ) (replacement : String) :
    Text.replaceAll (placeholder g) replacement (String.join texts) =
      String.join (texts.map (Text.replaceAll (placeholder g) replacement)) := by
  apply String.toList_inj.1
  rw [Text.toList_replaceAll_placeholder, String.toList_join, String.toList_join]
  induction texts with
  | nil => rfl
  | cons v texts ih =>
      have hrest := ih fun u hu => h u (List.mem_cons_of_mem v hu)
      rw [List.flatMap_cons, (h v List.mem_cons_self).replaceFrom_append, hrest, List.map_cons,
        List.flatMap_cons, Text.toList_replaceAll_placeholder]

/-- Joined texts without marks have no marks. -/
theorem not_isMark_join {texts : List String}
    (h : ∀ v ∈ texts, ∀ c ∈ v.toList, ¬ IsMark c) :
    ∀ c ∈ (String.join texts).toList, ¬ IsMark c := by
  rw [String.toList_join]
  intro c hc
  obtain ⟨v, hv, hmem⟩ := List.mem_flatMap.1 hc
  exact h v hv c hmem

/-- A text is a **fragment** for a group if it has no marks or is the placeholder of the group. -/
def Fragment (group : ℕ) (text : String) : Prop :=
  text = placeholder group ∨ ∀ c ∈ text.toList, ¬ IsMark c

namespace Fragment

variable {g : ℕ} {v : String}

/-- A fragment with the placeholder replaced. -/
def fill (group : ℕ) (replacement text : String) : String :=
  if text = placeholder group then replacement else text

/-- The placeholder is filled in. -/
@[simp] theorem fill_placeholder (g : ℕ) (replacement : String) :
    fill g replacement (placeholder g) = replacement :=
  if_pos rfl

/-- A text without marks is no placeholder. -/
theorem ne_placeholder (h : ∀ c ∈ v.toList, ¬ IsMark c) : v ≠ placeholder g := by
  rintro rfl
  refine h placeholderOpen ?_ (Or.inl rfl)
  rw [toList_placeholder]
  exact List.mem_cons_self

/-- A text without marks stays. -/
theorem fill_of_plain (replacement : String) (h : ∀ c ∈ v.toList, ¬ IsMark c) :
    fill g replacement v = v :=
  if_neg (ne_placeholder h)

/-- Fragments are tokened. -/
theorem tokened (h : Fragment g v) : Tokened {g} v.toList := by
  rcases h with rfl | h
  · exact Tokened.of_placeholder rfl
  · exact Tokened.of_plain h

/-- Replacing the placeholders of the group in a fragment fills it; those of other groups do not
stand in it. -/
theorem replaceAll (h : Fragment g v) (k : ℕ) (replacement : String) :
    Text.replaceAll (placeholder k) replacement v = if k = g then fill g replacement v else v := by
  rcases h with rfl | h
  · rw [Text.replaceAll_placeholder, fill_placeholder]
    by_cases hk : k = g
    · rw [if_pos hk, if_pos hk.symm]
    · rw [if_neg hk, if_neg fun heq => hk heq.symm]
  · rw [Text.replaceAll_placeholder_of_plain k replacement h, fill_of_plain replacement h]
    exact (ite_self v).symm

/-- A fragment filled with a text without marks has no marks. -/
theorem not_isMark_fill (h : Fragment g v) {replacement : String}
    (hreplacement : ∀ c ∈ replacement.toList, ¬ IsMark c) :
    ∀ c ∈ (fill g replacement v).toList, ¬ IsMark c := by
  rcases h with rfl | h
  · rwa [fill_placeholder]
  · rwa [fill_of_plain replacement h]

/-- Replacing in joined fragments. -/
theorem replaceAll_join {texts : List String} (h : ∀ v ∈ texts, Fragment g v) (k : ℕ)
    (replacement : String) :
    Text.replaceAll (placeholder k) replacement (String.join texts) =
      String.join (texts.map fun v => if k = g then fill g replacement v else v) := by
  rw [Tokened.replaceAll_join fun v hv => (h v hv).tokened]
  exact congrArg String.join (List.map_congr_left fun v hv => (h v hv).replaceAll k replacement)

/-- Deleting placeholders of any groups leaves a text without marks as it is. -/
theorem foldl_delete_of_plain {v : String} (h : ∀ c ∈ v.toList, ¬ IsMark c) (gs : List ℕ) :
    gs.foldl (fun value k => Text.replaceAll (placeholder k) "" value) v = v := by
  induction gs with
  | nil => rfl
  | cons k gs ih => rw [List.foldl_cons, Text.replaceAll_placeholder_of_plain k "" h, ih]

/-- Deleting the placeholders of several groups, the group among them, from joined fragments. -/
theorem foldl_delete_join {texts : List String} (h : ∀ v ∈ texts, Fragment g v) {gs : List ℕ}
    (hg : g ∈ gs) :
    gs.foldl (fun value k => Text.replaceAll (placeholder k) "" value) (String.join texts) =
      String.join (texts.map (fill g "")) := by
  have hplain : ∀ v ∈ texts.map (fill g ""), ∀ c ∈ v.toList, ¬ IsMark c := by
    intro v hv
    obtain ⟨u, hu, rfl⟩ := List.mem_map.1 hv
    exact (h u hu).not_isMark_fill (by simp)
  -- the first deletion that is about the group deletes all there is; those before it and after it
  -- change nothing
  induction gs with
  | nil => exact absurd hg List.not_mem_nil
  | cons k gs ih =>
      rw [List.foldl_cons, replaceAll_join h]
      by_cases hk : k = g
      · simp only [if_pos hk]
        exact foldl_delete_of_plain (not_isMark_join hplain) gs
      · simp only [if_neg hk, List.map_id']
        exact ih ((List.mem_cons.1 hg).resolve_left fun heq => hk heq.symm)

end Fragment

namespace Captures

/-- Deleting placeholders leaves a text without marks as it is. -/
theorem strip_of_plain (c : Captures) {value : String} (h : ∀ ch ∈ value.toList, ¬ IsMark ch) :
    c.strip value = value := by
  have hopen : placeholderOpen ∉ value.toList := fun hmem => h _ hmem (Or.inl rfl)
  rw [strip, if_neg (by simpa using hopen)]

/-- Deleting the placeholders of a known group from joined fragments. -/
theorem strip_join {c : Captures} {g : ℕ} (hg : g ∈ c.known) {texts : List String}
    (h : ∀ v ∈ texts, Fragment g v) :
    c.strip (String.join texts) = String.join (texts.map (Fragment.fill g "")) := by
  by_cases hplain : ∀ v ∈ texts, ∀ ch ∈ v.toList, ¬ IsMark ch
  · have hfill : texts.map (Fragment.fill g "") = texts :=
      (List.map_congr_left fun v hv => Fragment.fill_of_plain "" (hplain v hv)).trans
        (List.map_id texts)
    rw [hfill, strip_of_plain c (not_isMark_join hplain)]
  · have hopen : placeholderOpen ∈ (String.join texts).toList := by
      simp only [not_forall] at hplain
      obtain ⟨v, hv, ch, hch, hmark⟩ := hplain
      obtain rfl : v = placeholder g :=
        (h v hv).resolve_right fun hfree => hmark (hfree ch hch)
      rw [String.toList_join]
      refine List.mem_flatMap.2 ⟨_, hv, ?_⟩
      rw [toList_placeholder]
      exact List.mem_cons_self
    rw [strip, if_pos (List.contains_iff_mem.2 hopen)]
    exact Fragment.foldl_delete_join h hg

/-- **Finishing joined fragments.** If references to one group only can be live and that group has
captured a text, its placeholders give way to the text if it is live, and are deleted if it is
not. -/
theorem finish_join {c : Captures} {g : ℕ} {text : String} {texts : List String}
    (hdead : ∀ k, k ≠ g → c.isLive k = false) (htext : c.text? g = some text)
    (hplain : ∀ ch ∈ text.toList, ¬ IsMark ch) (h : ∀ v ∈ texts, Fragment g v) :
    c.finish (String.join texts) =
      String.join (texts.map (Fragment.fill g (if c.isLive g then text else ""))) := by
  have hknown : g ∈ c.known := mem_known_of_text? (by rw [htext]; rfl)
  rw [finish, substitute, liveTexts_eq hdead, htext]
  cases c.isLive g with
  | true =>
      have hreplace := Fragment.replaceAll_join h g text
      simp only [if_pos] at hreplace
      have hfilled : ∀ v ∈ texts.map (Fragment.fill g text), ∀ ch ∈ v.toList, ¬ IsMark ch := by
        intro v hv
        obtain ⟨u, hu, rfl⟩ := List.mem_map.1 hv
        exact (h u hu).not_isMark_fill hplain
      exact (congrArg c.strip hreplace).trans (strip_of_plain c (not_isMark_join hfilled))
  | false => exact strip_join hknown h

end Captures

end RegexWords
