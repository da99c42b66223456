import RegexWords.Captures
import Mathlib.Data.List.Basic
import Mathlib.Data.Set.Basic
import RegexWords.Proofs.Quoted

/-!
# Texts with Placeholders

A text is **tokened** over some groups if it is put together from characters that are no marks
and from whole placeholders of these groups. Replacing the placeholders of one group meets
exactly these and leaves all others whole, so what comes out is tokened again, over the other
groups and those of the replacement. Deleting the placeholders of all groups of a tokened text
leaves no marks.

## Main results

* `Tokened.replaceFrom`: replacing the placeholders of one group.
* `Captures.Tokened.perform`: recording tokened texts keeps the captures tokened.
* `Captures.Tokened.finish`: **no marks are left** in a finished text.
-/

namespace RegexWords

/-! ### Replacing -/

namespace Text

variable {needle replacement l cs : List Char}

/-- The rest of an occurrence is passed over. -/
theorem replaceFrom_length_append (l cs : List Char) :
    replaceFrom needle replacement l.length (l ++ cs) = replaceFrom needle replacement 0 cs := by
  induction l with
  | nil => rfl
  | cons c l ih => exact ih

/-- An occurrence gives way to the replacement. -/
theorem replaceFrom_needle_append (hne : needle ≠ []) (cs : List Char) :
    replaceFrom needle replacement 0 (needle ++ cs) =
      replacement ++ replaceFrom needle replacement 0 cs := by
  obtain ⟨c, rest, rfl⟩ := List.exists_cons_of_ne_nil hne
  have hstart : (c :: rest).isPrefixOf (c :: (rest ++ cs)) := by
    simp [List.isPrefixOf_iff_prefix]
  rw [List.cons_append, replaceFrom, if_pos hstart]
  exact congrArg (replacement ++ ·) (replaceFrom_length_append rest cs)

/-- A character at which no occurrence begins stays. -/
theorem replaceFrom_cons {c : Char} (h : ¬ needle.isPrefixOf (c :: cs)) :
    replaceFrom needle replacement 0 (c :: cs) = c :: replaceFrom needle replacement 0 cs := by
  rw [replaceFrom, if_neg h]

/-- Characters other than the first one of the occurrences stay. -/
theorem replaceFrom_append {a : Char} (h : a ∉ l) (hneedle : needle.head? = some a)
    (cs : List Char) :
    replaceFrom needle replacement 0 (l ++ cs) = l ++ replaceFrom needle replacement 0 cs := by
  obtain ⟨rest, rfl⟩ := List.head?_eq_some_iff.1 hneedle
  induction l with
  | nil => rfl
  | cons c l ih =>
      rw [List.mem_cons, not_or] at h
      have hstart : ¬ (a :: rest).isPrefixOf (c :: (l ++ cs)) := by
        simp [List.isPrefixOf_cons_cons, h.1]
      rw [List.cons_append, replaceFrom_cons hstart, ih h.2]
      rfl

end Text

/-! ### Marks -/

/-- A **mark** opens or closes a placeholder. -/
def IsMark (c : Char) : Prop :=
  c = placeholderOpen ∨ c = placeholderClose

instance : DecidablePred IsMark :=
  fun c => inferInstanceAs (Decidable (c = placeholderOpen ∨ c = placeholderClose))

/-- A group number is written without marks. -/
theorem not_isMark_of_mem_toString {g : ℕ} {c : Char} (h : c ∈ (toString g).toList) :
    ¬ IsMark c := by
  have hdigit : c.isDigit := by
    rw [Nat.toString_eq_repr, Nat.toList_repr] at h
    exact Nat.isDigit_of_mem_toDigits (by decide) (by decide) h
  rintro (rfl | rfl)
  · exact absurd hdigit (by decide)
  · exact absurd hdigit (by decide)

/-- Groups with the same written number are the same. -/
theorem toString_injective {g h : ℕ} (heq : (toString g).toList = (toString h).toList) :
    g = h := by
  rw [Nat.toString_eq_repr, Nat.toString_eq_repr, Nat.toList_repr, Nat.toList_repr] at heq
  calc g = Nat.ofDigitChars 10 (Nat.toDigits 10 g) 0 := Nat.ofDigitChars_ten_toDigits.symm
    _ = Nat.ofDigitChars 10 (Nat.toDigits 10 h) 0 := by rw [heq]
    _ = h := Nat.ofDigitChars_ten_toDigits

/-- The characters of a placeholder. -/
theorem toList_placeholder (g : ℕ) :
    (placeholder g).toList = placeholderOpen :: ((toString g).toList ++ [placeholderClose]) := by
  simp [placeholder]

/-- A placeholder stands at the beginning of a text that begins with a placeholder only if it is
the same one. -/
theorem eq_of_isPrefixOf_placeholder {g h : ℕ} {cs : List Char}
    (hstart : (placeholder g).toList.isPrefixOf ((placeholder h).toList ++ cs)) : g = h := by
  obtain ⟨rest, heq⟩ := List.isPrefixOf_iff_prefix.1 hstart
  rw [toList_placeholder, toList_placeholder] at heq
  simp only [List.cons_append, List.append_assoc, List.cons.injEq, true_and,
    List.nil_append] at heq
  -- Both numbers end at the first closing mark.
  have hclose : ∀ k : ℕ, placeholderClose ∉ (toString k).toList := fun k hmem =>
    not_isMark_of_mem_toString hmem (Or.inr rfl)
  exact toString_injective (Text.delimited_inj (hclose g) (hclose h) heq).1

/-- A placeholder begins with its opening mark. -/
theorem head?_placeholder (g : ℕ) : (placeholder g).toList.head? = some placeholderOpen := by
  rw [toList_placeholder]
  rfl

/-- A placeholder is not empty. -/
theorem placeholder_ne_nil (g : ℕ) : (placeholder g).toList ≠ [] := by
  rw [toList_placeholder]
  exact List.cons_ne_nil _ _

/-- Characters that are no marks stay when placeholders are replaced. -/
theorem Text.replaceFrom_plain_append (g : ℕ) (replacement : List Char) {l : List Char}
    (h : ∀ c ∈ l, ¬ IsMark c) (cs : List Char) :
    replaceFrom (placeholder g).toList replacement 0 (l ++ cs) =
      l ++ replaceFrom (placeholder g).toList replacement 0 cs :=
  replaceFrom_append (fun hmem => h _ hmem (Or.inl rfl)) (head?_placeholder g) cs

/-- When the placeholders of one group are replaced, such a placeholder gives way and that of
another group stays whole. -/
theorem Text.replaceFrom_placeholder_append (g k : ℕ) (replacement cs : List Char) :
    replaceFrom (placeholder g).toList replacement 0 ((placeholder k).toList ++ cs) =
      (if k = g then replacement else (placeholder k).toList) ++
        replaceFrom (placeholder g).toList replacement 0 cs := by
  split
  · next heq => rw [heq, replaceFrom_needle_append (placeholder_ne_nil g)]
  · next hne =>
    -- The placeholder of another group is no occurrence, and none begins inside of it.
    have hstart : ¬ (placeholder g).toList.isPrefixOf ((placeholder k).toList ++ cs) :=
      fun hp => hne (eq_of_isPrefixOf_placeholder hp).symm
    have hopen : placeholderOpen ∉ (toString k).toList ++ [placeholderClose] := by
      rw [List.mem_append, not_or]
      refine ⟨fun hc => not_isMark_of_mem_toString hc (Or.inl rfl), ?_⟩
      decide
    rw [toList_placeholder k, List.cons_append] at hstart ⊢
    rw [replaceFrom_cons hstart, replaceFrom_append hopen (head?_placeholder g),
      List.cons_append]

/-- Replacing placeholders in a string is replacing them among its characters. -/
theorem Text.toList_replaceAll_placeholder (g : ℕ) (replacement text : String) :
    (replaceAll (placeholder g) replacement text).toList =
      replaceFrom (placeholder g).toList replacement.toList 0 text.toList := by
  have hne : (placeholder g).toList.isEmpty = false := by
    rw [toList_placeholder]
    rfl
  rw [replaceAll, String.toList_ofList, replaceChars, hne]
  rfl

/-! ### Tokened texts -/

/-- A text is **tokened** over some groups if it consists of characters that are no marks and of
whole placeholders of these groups. -/
inductive Tokened (groups : Set ℕ) : List Char → Prop
  | nil : Tokened groups []
  | plain {c : Char} {cs : List Char} : ¬ IsMark c → Tokened groups cs → Tokened groups (c :: cs)
  | token {g : ℕ} {cs : List Char} : g ∈ groups → Tokened groups cs →
      Tokened groups ((placeholder g).toList ++ cs)

namespace Tokened

variable {groups groups' : Set ℕ} {cs ds : List Char}

/-- A text without marks. -/
theorem of_plain (h : ∀ c ∈ cs, ¬ IsMark c) : Tokened groups cs := by
  induction cs with
  | nil => exact nil
  | cons c cs ih =>
      exact plain (h c List.mem_cons_self) (ih fun d hd => h d (List.mem_cons_of_mem c hd))

/-- A placeholder alone. -/
theorem of_placeholder {g : ℕ} (hg : g ∈ groups) : Tokened groups (placeholder g).toList := by
  have htoken := token hg nil
  rwa [List.append_nil] at htoken

/-- One text after another. -/
theorem append (h : Tokened groups cs) (hd : Tokened groups ds) : Tokened groups (cs ++ ds) := by
  induction h with
  | nil => exact hd
  | plain hc _ ih => exact plain hc ih
  | token hg _ ih =>
      rw [List.append_assoc]
      exact token hg ih

/-- Texts joined together. -/
theorem join {texts : List String} (h : ∀ s ∈ texts, Tokened groups s.toList) :
    Tokened groups (String.join texts).toList := by
  rw [String.toList_join]
  induction texts with
  | nil => exact nil
  | cons s texts ih =>
      rw [List.flatMap_cons]
      exact (h s List.mem_cons_self).append (ih fun u hu => h u (List.mem_cons_of_mem s hu))

/-- More groups may have placeholders. -/
theorem mono (h : Tokened groups cs) (hsub : groups ⊆ groups') : Tokened groups' cs := by
  induction h with
  | nil => exact nil
  | plain hc _ ih => exact plain hc ih
  | token hg _ ih => exact token (hsub hg) ih

/-- A text that opens no placeholder has no marks. -/
theorem not_isMark (h : Tokened groups cs) (hopen : placeholderOpen ∉ cs) :
    ∀ c ∈ cs, ¬ IsMark c := by
  induction h with
  | nil => simp
  | plain hc _ ih =>
      rw [List.mem_cons, not_or] at hopen
      simpa using ⟨hc, ih hopen.2⟩
  | token _ _ _ =>
      rw [toList_placeholder] at hopen
      simp at hopen

/-- A text without groups opens no placeholder. -/
theorem open_notMem (h : Tokened ∅ cs) : placeholderOpen ∉ cs := by
  induction h with
  | nil => simp
  | plain hc _ ih =>
      rw [List.mem_cons, not_or]
      exact ⟨fun heq => hc (Or.inl heq.symm), ih⟩
  | token hg _ _ => exact absurd hg (Set.notMem_empty _)

/-- **Replacing placeholders.** If the placeholders of one group are replaced by a tokened text,
the text stays tokened, over the other groups and those of the replacement. -/
theorem replaceFrom {g : ℕ} {replacement : List Char} (h : Tokened groups cs)
    (hsub : ∀ k ∈ groups, k ≠ g → k ∈ groups') (hreplacement : Tokened groups' replacement) :
    Tokened groups' (Text.replaceFrom (placeholder g).toList replacement 0 cs) := by
  induction h with
  | nil => exact nil
  | @plain c cs hc _ ih =>
      rw [← List.singleton_append, Text.replaceFrom_plain_append g _ (by simpa using hc)]
      exact plain hc ih
  | @token k cs hk _ ih =>
      rw [Text.replaceFrom_placeholder_append]
      split
      · exact hreplacement.append ih
      · next hne => exact token (hsub k hk hne) ih

/-- Replacing the placeholders of one group in a string. -/
theorem replaceAll {g : ℕ} {value replacement : String} (h : Tokened groups value.toList)
    (hsub : ∀ k ∈ groups, k ≠ g → k ∈ groups') (hreplacement : Tokened groups' replacement.toList) :
    Tokened groups' (Text.replaceAll (placeholder g) replacement value).toList := by
  rw [Text.toList_replaceAll_placeholder]
  exact h.replaceFrom hsub hreplacement

/-- Deleting the placeholders of some groups. -/
theorem foldl_delete {value : String} (h : Tokened groups value.toList) (gs : List ℕ) :
    Tokened (groups \ {g | g ∈ gs})
      (gs.foldl (fun value g => Text.replaceAll (placeholder g) "" value) value).toList := by
  induction gs generalizing groups value with
  | nil => exact h.mono fun k hk => ⟨hk, List.not_mem_nil⟩
  | cons g gs ih =>
      have hstep : Tokened (groups \ {g}) (Text.replaceAll (placeholder g) "" value).toList :=
        h.replaceAll (fun k hk hne => ⟨hk, hne⟩) nil
      refine (ih hstep).mono ?_
      rintro k ⟨⟨hk, hne⟩, hnot⟩
      refine ⟨hk, fun hmem => ?_⟩
      rcases List.mem_cons.1 hmem with rfl | hmem
      · exact hne rfl
      · exact hnot hmem

/-- Replacing the placeholders of some groups by tokened texts. -/
theorem foldl_replace {value : String} (h : Tokened groups value.toList)
    {texts : List (ℕ × String)} (htexts : ∀ e ∈ texts, Tokened groups e.2.toList) :
    Tokened groups (texts.foldl (fun value e => Text.replaceAll (placeholder e.1) e.2 value)
      value).toList := by
  induction texts generalizing value with
  | nil => exact h
  | cons e texts ih =>
      have hstep := h.replaceAll (g := e.1) (fun k hk _ => hk) (htexts e List.mem_cons_self)
      exact ih hstep fun d hd => htexts d (List.mem_cons_of_mem e hd)

end Tokened

/-! ### Captures -/

namespace Captures

/-- The groups whose placeholders are deleted from a finished text. -/
def known (c : Captures) : Set ℕ :=
  {g | g ∈ c.strippable}

/-- Captures are **tokened** if every captured text is, over the known groups. -/
def Tokened (c : Captures) : Prop :=
  ∀ e ∈ c.entries, ∀ text ∈ e.2.text?, RegexWords.Tokened c.known text.toList

/-- A group is known if the pattern refers to it or it has captured something. -/
theorem mem_known {c : Captures} {g : ℕ} :
    g ∈ c.known ↔ ∃ r, (g, r) ∈ c.entries ∧ (r.isReferenced ∨ r.text?.isSome) := by
  simp only [known, Set.mem_ofPred_eq, strippable, List.mem_append, List.mem_map,
    List.mem_filter, Prod.exists]
  constructor
  · rintro (⟨g', r, ⟨hmem, hr⟩, rfl⟩ | ⟨g', r, ⟨hmem, hr⟩, rfl⟩)
    · exact ⟨r, hmem, Or.inl hr⟩
    · exact ⟨r, hmem, Or.inr hr⟩
  · rintro ⟨r, hmem, hr | hr⟩
    · exact Or.inl ⟨g, r, ⟨hmem, hr⟩, rfl⟩
    · exact Or.inr ⟨g, r, ⟨hmem, hr⟩, rfl⟩

/-- Every entry after an update was there before, or it is the new record of the group. -/
theorem mem_updateEntries {group : ℕ} {f : GroupRecord → GroupRecord}
    {entries : List (ℕ × GroupRecord)} {e : ℕ × GroupRecord}
    (h : e ∈ updateEntries group f entries) :
    e ∈ entries ∨ ∃ r, (r = {} ∨ (group, r) ∈ entries) ∧ e = (group, f r) := by
  induction entries with
  | nil => exact Or.inr ⟨{}, Or.inl rfl, List.mem_singleton.1 h⟩
  | cons x rest ih =>
      obtain ⟨g, r⟩ := x
      rw [updateEntries] at h
      split at h
      · rcases List.mem_cons.1 h with rfl | h
        · exact Or.inr ⟨{}, Or.inl rfl, rfl⟩
        · exact Or.inl h
      · split at h
        · next hg =>
          rcases List.mem_cons.1 h with rfl | h
          · exact Or.inr ⟨r, Or.inr (hg ▸ List.mem_cons_self), by rw [hg]⟩
          · exact Or.inl (List.mem_cons_of_mem _ h)
        · rcases List.mem_cons.1 h with rfl | h
          · exact Or.inl List.mem_cons_self
          · rcases ih h with h | ⟨r', hr', rfl⟩
            · exact Or.inl (List.mem_cons_of_mem _ h)
            · exact Or.inr ⟨r', hr'.imp_right (List.mem_cons_of_mem _), rfl⟩

/-- After an update there is the new record of the group, and every old entry is still there or
has become it. -/
theorem mem_updateEntries_of_mem (group : ℕ) (f : GroupRecord → GroupRecord)
    (entries : List (ℕ × GroupRecord)) :
    (∃ r, (group, f r) ∈ updateEntries group f entries) ∧
      ∀ e ∈ entries, e ∈ updateEntries group f entries ∨
        (e.1, f e.2) ∈ updateEntries group f entries := by
  induction entries with
  | nil => exact ⟨⟨{}, List.mem_cons_self⟩, by simp⟩
  | cons x rest ih =>
      obtain ⟨g, r⟩ := x
      obtain ⟨⟨r', hr'⟩, hold⟩ := ih
      rw [updateEntries]
      split
      · exact ⟨⟨{}, List.mem_cons_self⟩, fun e he => Or.inl (List.mem_cons_of_mem _ he)⟩
      · split
        · next hg =>
          refine ⟨⟨r, hg ▸ List.mem_cons_self⟩, fun e he => ?_⟩
          rcases List.mem_cons.1 he with rfl | he
          · exact Or.inr List.mem_cons_self
          · exact Or.inl (List.mem_cons_of_mem _ he)
        · refine ⟨⟨r', List.mem_cons_of_mem _ hr'⟩, fun e he => ?_⟩
          rcases List.mem_cons.1 he with rfl | he
          · exact Or.inl List.mem_cons_self
          · exact (hold e he).imp (List.mem_cons_of_mem _) (List.mem_cons_of_mem _)

/-- An update that forgets neither texts nor references keeps what is known. -/
theorem known_subset_update {c : Captures} (group : ℕ) {f : GroupRecord → GroupRecord}
    (hreferenced : ∀ r, r.isReferenced → (f r).isReferenced)
    (htext : ∀ r, r.text?.isSome → (f r).text?.isSome) :
    c.known ⊆ (c.update group f).known := by
  intro g hg
  obtain ⟨r, hmem, hr⟩ := mem_known.1 hg
  rw [mem_known]
  rcases (mem_updateEntries_of_mem group f c.entries).2 _ hmem with h | h
  · exact ⟨r, h, hr⟩
  · exact ⟨f r, h, hr.imp (hreferenced r) (htext r)⟩

/-- An update whose new text is tokened keeps the captures tokened. -/
theorem Tokened.update {c : Captures} (h : c.Tokened) (group : ℕ)
    {f : GroupRecord → GroupRecord} (hknown : c.known ⊆ (c.update group f).known)
    (htext : ∀ r, ∀ text ∈ (f r).text?,
      text ∈ r.text? ∨ RegexWords.Tokened c.known text.toList) :
    (c.update group f).Tokened := by
  intro e he text hmem
  rcases mem_updateEntries he with he | ⟨r, hr, rfl⟩
  · exact (h e he text hmem).mono hknown
  · rcases htext r text hmem with hold | hnew
    · rcases hr with rfl | hr
      · simp at hold
      · exact (h _ hr text hold).mono hknown
    · exact hnew.mono hknown

/-- Referring to a group keeps the captures tokened, and the group is known then. -/
theorem Tokened.refer {c : Captures} (h : c.Tokened) (g : ℕ) :
    (c.refer g).Tokened ∧ c.known ⊆ (c.refer g).known ∧ g ∈ (c.refer g).known := by
  have hknown : c.known ⊆ (c.refer g).known :=
    known_subset_update g (fun _ _ => rfl) fun _ hr => hr
  refine ⟨h.update g hknown fun r text hmem => Or.inl hmem, hknown, ?_⟩
  obtain ⟨r, hr⟩ := (mem_updateEntries_of_mem g
    (fun r => { r with isReferenced := true }) c.entries).1
  exact mem_known.2 ⟨_, hr, Or.inl rfl⟩

/-- Referring to several groups. -/
theorem Tokened.foldl_refer {c : Captures} (h : c.Tokened) (gs : List ℕ) :
    (gs.foldl Captures.refer c).Tokened ∧ c.known ⊆ (gs.foldl Captures.refer c).known ∧
      ∀ g ∈ gs, g ∈ (gs.foldl Captures.refer c).known := by
  induction gs generalizing c with
  | nil => exact ⟨h, subset_rfl, by simp⟩
  | cons g gs ih =>
      obtain ⟨hrefer, hsub, hg⟩ := h.refer g
      obtain ⟨hfold, hsub', hgs⟩ := ih hrefer
      refine ⟨hfold, hsub.trans hsub', fun k hk => ?_⟩
      rcases List.mem_cons.1 hk with rfl | hk
      · exact hsub' hg
      · exact hgs k hk

end Captures

/-- An effect is **tokened** if the text it records is. -/
def Effect.Tokened (groups : Set ℕ) : Effect → Prop
  | capture _ text => RegexWords.Tokened groups text.toList
  | resolve _ => True

/-- More groups may have placeholders. -/
theorem Effect.Tokened.mono {groups groups' : Set ℕ} {e : Effect} (h : e.Tokened groups)
    (hsub : groups ⊆ groups') : e.Tokened groups' := by
  cases e with
  | capture g text => exact RegexWords.Tokened.mono h hsub
  | resolve g => trivial

namespace Captures

/-- Recording a tokened effect. -/
theorem Tokened.performOne {c : Captures} (h : c.Tokened) {e : Effect}
    (he : e.Tokened c.known) :
    (c.performOne e).Tokened ∧ c.known ⊆ (c.performOne e).known := by
  cases e with
  | capture g text =>
      have hknown : c.known ⊆ (c.capture g text).known :=
        known_subset_update g (fun _ hr => hr) fun _ _ => rfl
      refine ⟨h.update g hknown fun r text' hmem => Or.inr ?_, hknown⟩
      obtain rfl := Option.some.inj hmem
      exact he
  | resolve g =>
      have hknown : c.known ⊆ (c.resolve g).known :=
        known_subset_update g (fun _ hr => hr) fun _ hr => hr
      exact ⟨h.update g hknown fun r text hmem => Or.inl hmem, hknown⟩

/-- **Recording.** Recording tokened effects keeps the captures tokened and what is known
known. -/
theorem Tokened.perform {c : Captures} (h : c.Tokened) {effects : List Effect}
    (heffects : ∀ e ∈ effects, e.Tokened c.known) :
    (c.perform effects).Tokened ∧ c.known ⊆ (c.perform effects).known := by
  induction effects generalizing c with
  | nil => exact ⟨h, subset_rfl⟩
  | cons e effects ih =>
      obtain ⟨hone, hsub⟩ := h.performOne (heffects e List.mem_cons_self)
      obtain ⟨hrest, hsub'⟩ := ih hone fun d hd =>
        (heffects d (List.mem_cons_of_mem e hd)).mono hsub
      exact ⟨hrest, hsub.trans hsub'⟩

/-- Replacing the placeholders of live groups keeps a text tokened. -/
theorem Tokened.substitute {c : Captures} (h : c.Tokened) {value : String}
    (hvalue : RegexWords.Tokened c.known value.toList) :
    RegexWords.Tokened c.known (c.substitute value).toList := by
  refine hvalue.foldl_replace fun e he => ?_
  obtain ⟨⟨g, r⟩, hmem, hr⟩ := List.mem_filterMap.1 he
  change (if r.isLive then r.text?.map (g, ·) else none) = some e at hr
  split at hr
  · obtain ⟨text, htext, rfl⟩ := Option.map_eq_some_iff.1 hr
    exact h (g, r) hmem text htext
  · simp at hr

/-- **Finishing.** A tokened text has no marks any more once it is finished. -/
theorem Tokened.finish {c : Captures} (h : c.Tokened) {value : String}
    (hvalue : RegexWords.Tokened c.known value.toList) :
    ∀ ch ∈ (c.finish value).toList, ¬ IsMark ch := by
  have hsubstitute := h.substitute hvalue
  rw [Captures.finish, strip]
  split
  · have hdelete := hsubstitute.foldl_delete c.strippable
    have hempty : c.known \ {g | g ∈ c.strippable} = ∅ :=
      Set.eq_empty_iff_forall_notMem.2 fun _ hg => hg.2 hg.1
    rw [hempty] at hdelete
    exact hdelete.not_isMark hdelete.open_notMem
  · next hopen =>
    refine hsubstitute.not_isMark fun hmem => hopen ?_
    rw [List.contains_iff_mem]
    exact hmem

end Captures

end RegexWords
