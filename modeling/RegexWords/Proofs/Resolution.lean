import RegexWords.Proofs.Record
import RegexWords.Session

/-!
# What the Two Passes Compute

Finishing a value replaces the placeholders of live groups one group after the other, in ascending
number, and then deletes all that are left. The value grows while this goes on, and a captured text
may bring in the placeholders of further groups, or of its own. What comes out is still a simple
recursion over the value: a character stays, and a placeholder gives way to the text of its group,
in which only the placeholders of higher groups are followed further. Higher groups become fewer
with every level, so the recursion ends however the captured texts refer to each other.

The value has to be read for that. Its symbols are characters and references, and replacing
placeholders in a tokened text is replacing references among its symbols; so no placeholder is split
or put together, and those of `1` and `12` are different symbols.

## Main definitions

* `symbols`: a text read as characters and references.
* `expand`: what a symbol comes to when some groups have texts, the lower groups first.
* `Captures.Resolution`: the rules of resolving, as equations.

## Main results

* `Tokened.flatMap_expand_foldl`: replacing group after group **comes to the recursion**.
* `Captures.resolution_resolved`: the recursion obeys the rules.
* `Captures.Tokened.toList_finish`: **a finished value is what the rules say**.
-/

namespace RegexWords

/-! ### Symbols -/

/-- A **symbol** of a text with placeholders. -/
inductive Symbol
  /-- A character that is no mark. -/
  | char (c : Char)
  /-- A reference to a group. -/
  | reference (group : ℕ)
deriving DecidableEq, Repr

/-- Reads the symbols of a text. Inside a placeholder, the number so far is known. -/
def readSymbols : Option ℕ → List Char → List Symbol
  | _, [] => []
  | none, c :: cs =>
    if c = placeholderOpen then readSymbols (some 0) cs else .char c :: readSymbols none cs
  | some n, c :: cs =>
    if c = placeholderClose then .reference n :: readSymbols none cs
    else readSymbols (some (10 * n + (c.toNat - '0'.toNat))) cs

/-- The **symbols** of a text. -/
def symbols (text : List Char) : List Symbol :=
  readSymbols none text

/-- No symbols are in an empty text. -/
@[simp] theorem symbols_nil : symbols [] = [] := rfl

/-- A character that is no mark is a symbol. -/
theorem symbols_cons {c : Char} (hc : ¬ IsMark c) (cs : List Char) :
    symbols (c :: cs) = .char c :: symbols cs :=
  if_neg fun heq => hc (Or.inl heq)

/-- The digits of a number are read up to the closing mark. -/
theorem readSymbols_digits {digits : List Char} (h : ∀ d ∈ digits, ¬ IsMark d) (n : ℕ)
    (cs : List Char) :
    readSymbols (some n) (digits ++ placeholderClose :: cs) =
      .reference (Nat.ofDigitChars 10 digits n) :: symbols cs := by
  induction digits generalizing n with
  | nil => exact if_pos rfl
  | cons d digits ih =>
      have hd : d ≠ placeholderClose := fun heq => h d List.mem_cons_self (Or.inr heq)
      rw [List.cons_append, readSymbols, if_neg hd]
      exact ih (fun e he => h e (List.mem_cons_of_mem d he)) _

/-- A placeholder is a symbol. -/
theorem symbols_placeholder_append (g : ℕ) (cs : List Char) :
    symbols ((placeholder g).toList ++ cs) = .reference g :: symbols cs := by
  have hvalue : Nat.ofDigitChars 10 (toString g).toList 0 = g := by
    rw [Nat.toString_eq_repr, Nat.toList_repr]
    exact Nat.ofDigitChars_ten_toDigits
  rw [toList_placeholder, List.cons_append, List.append_assoc, List.singleton_append, symbols,
    readSymbols, if_pos rfl, readSymbols_digits (fun d hd => not_isMark_of_mem_toString hd), hvalue]

/-- A placeholder is a single symbol. -/
theorem symbols_placeholder (g : ℕ) : symbols (placeholder g).toList = [.reference g] := by
  have h := symbols_placeholder_append g []
  rwa [List.append_nil] at h

namespace Tokened

variable {groups : Set ℕ} {cs : List Char}

/-- The symbols of a text with more after it. -/
theorem symbols_append (h : Tokened groups cs) (ds : List Char) :
    symbols (cs ++ ds) = symbols cs ++ symbols ds := by
  induction h with
  | nil => rfl
  | plain hc _ ih => rw [List.cons_append, symbols_cons hc, symbols_cons hc, ih, List.cons_append]
  | token _ _ ih =>
      rw [List.append_assoc, symbols_placeholder_append, symbols_placeholder_append, ih,
        List.cons_append]

/-- **Replacing placeholders is replacing references**: what the symbols come to is the same,
whatever that is. -/
theorem flatMap_symbols_replaceFrom (h : Tokened groups cs) (g : ℕ) {replacement : List Char}
    (hreplacement : Tokened groups replacement) (f : Symbol → List Char) :
    (symbols (Text.replaceFrom (placeholder g).toList replacement 0 cs)).flatMap f =
      (symbols cs).flatMap fun s =>
        if s = .reference g then (symbols replacement).flatMap f else f s := by
  induction h with
  | nil => rfl
  | @plain c cs hc _ ih =>
      have hsingle : ∀ d ∈ [c], ¬ IsMark d := by simpa using hc
      rw [← List.singleton_append, Text.replaceFrom_plain_append g _ hsingle,
        List.singleton_append, List.singleton_append, symbols_cons hc, symbols_cons hc,
        List.flatMap_cons, List.flatMap_cons, ih]
      rfl
  | @token k cs _ _ ih =>
      rw [Text.replaceFrom_placeholder_append, symbols_placeholder_append, List.flatMap_cons]
      by_cases hk : k = g
      · rw [if_pos hk, if_pos (congrArg _ hk), hreplacement.symbols_append, List.flatMap_append, ih]
      · have hne : Symbol.reference k ≠ .reference g := fun heq => hk (Symbol.reference.inj heq)
        rw [if_neg hk, if_neg hne, symbols_placeholder_append, List.flatMap_cons, ih]

end Tokened

/-! ### The recursion -/

/-- What a symbol **expands** to when certain groups have texts. In the text of a group only the
groups after it are looked up. -/
def expand : List (ℕ × String) → Symbol → List Char
  | _, .char c => [c]
  | [], .reference _ => []
  | (g, text) :: later, .reference k =>
    if k = g then (symbols text.toList).flatMap (expand later) else expand later (.reference k)

/-- A character stays. -/
@[simp] theorem expand_char (texts : List (ℕ × String)) (c : Char) :
    expand texts (.char c) = [c] := by
  cases texts <;> rfl

/-- A group with no text comes to nothing. -/
theorem expand_reference_of_notMem {texts : List (ℕ × String)} {g : ℕ}
    (h : ∀ e ∈ texts, e.1 ≠ g) : expand texts (.reference g) = [] := by
  induction texts with
  | nil => rfl
  | cons e texts ih =>
      obtain ⟨k, text⟩ := e
      rw [expand, if_neg fun heq => h _ List.mem_cons_self heq.symm]
      exact ih fun e he => h e (List.mem_cons_of_mem _ he)

/-- A group with a text comes to what the text does with the higher groups, if the groups
ascend. -/
theorem expand_reference_of_mem {texts : List (ℕ × String)} (hasc : texts.Pairwise (·.1 < ·.1))
    {g : ℕ} {text : String} (h : (g, text) ∈ texts) :
    expand texts (.reference g) =
      (symbols text.toList).flatMap (expand (texts.filter (g < ·.1))) := by
  induction hasc with
  | nil => exact absurd h List.not_mem_nil
  | @cons e later hlater _ ih =>
      obtain ⟨k, text'⟩ := e
      rcases List.mem_cons.1 h with heq | hmem
      · obtain ⟨rfl, rfl⟩ := Prod.mk.inj heq
        have hall : later.filter (g < ·.1) = later :=
          List.filter_eq_self.2 fun e he => decide_eq_true (hlater e he)
        rw [expand, if_pos rfl, List.filter_cons_of_neg (by simp), hall]
      · have hlt : k < g := hlater _ hmem
        rw [expand, if_neg hlt.ne', ih hmem, List.filter_cons_of_neg (by simpa using hlt.le)]

namespace Tokened

variable {groups : Set ℕ}

/-- A text without marks is what its symbols come to. -/
theorem flatMap_expand_of_plain {cs : List Char} (h : ∀ c ∈ cs, ¬ IsMark c)
    (texts : List (ℕ × String)) : (symbols cs).flatMap (expand texts) = cs := by
  induction cs with
  | nil => rfl
  | cons c cs ih =>
      rw [symbols_cons (h c List.mem_cons_self), List.flatMap_cons, expand_char,
        ih fun d hd => h d (List.mem_cons_of_mem c hd), List.singleton_append]

/-- **Replacing group after group comes to the recursion**, up to the placeholders that are left
then. -/
theorem flatMap_expand_foldl {texts : List (ℕ × String)}
    (htexts : ∀ e ∈ texts, Tokened groups e.2.toList) {value : String}
    (hvalue : Tokened groups value.toList) :
    (symbols (texts.foldl (fun value e => Text.replaceAll (placeholder e.1) e.2 value)
      value).toList).flatMap (expand []) = (symbols value.toList).flatMap (expand texts) := by
  induction texts generalizing value with
  | nil => rfl
  | cons e later ih =>
      obtain ⟨g, text⟩ := e
      have htext : Tokened groups text.toList := htexts (g, text) List.mem_cons_self
      have hstep : Tokened groups (Text.replaceAll (placeholder g) text value).toList :=
        hvalue.replaceAll (fun k hk _ => hk) htext
      rw [List.foldl_cons, ih (fun e he => htexts e (List.mem_cons_of_mem _ he)) hstep,
        Text.toList_replaceAll_placeholder, hvalue.flatMap_symbols_replaceFrom g htext]
      refine congrArg (fun f => (symbols value.toList).flatMap f) (funext fun s => ?_)
      cases s with
      | char c => simp
      | reference k =>
          by_cases hk : k = g
          · rw [expand, if_pos hk, if_pos (congrArg _ hk)]
          · rw [expand, if_neg hk, if_neg fun heq => hk (Symbol.reference.inj heq)]

/-- Deleting placeholders does not change what is left when all are deleted. -/
theorem flatMap_expand_delete (gs : List ℕ) {value : String}
    (hvalue : Tokened groups value.toList) :
    (symbols (gs.foldl (fun value g => Text.replaceAll (placeholder g) "" value)
      value).toList).flatMap (expand []) = (symbols value.toList).flatMap (expand []) := by
  induction gs generalizing value with
  | nil => rfl
  | cons g gs ih =>
      have hnil : Tokened groups "".toList := nil
      have hstep : Tokened groups (Text.replaceAll (placeholder g) "" value).toList :=
        hvalue.replaceAll (fun k hk _ => hk) hnil
      rw [List.foldl_cons, ih hstep, Text.toList_replaceAll_placeholder,
        hvalue.flatMap_symbols_replaceFrom g hnil]
      refine congrArg (fun f => (symbols value.toList).flatMap f) (funext fun s => ?_)
      split
      · next heq =>
        rw [heq]
        rfl
      · rfl

end Tokened

/-! ### Resolving -/

namespace Captures

variable {c : Captures}

/-- What a text **resolves** to if the placeholders of live groups from the number `least` on give
way to the captured texts. -/
def resolved (c : Captures) (least : ℕ) (text : List Char) : List Char :=
  (symbols text).flatMap (expand (c.liveTexts.filter (least ≤ ·.1)))

/-- The **rules of resolving** texts over the known groups. With every number `least` comes one way
to resolve them, which follows the placeholders of groups from that number on. -/
structure Resolution (c : Captures) (resolve : ℕ → List Char → List Char) : Prop where
  /-- A text is resolved part by part. -/
  append : ∀ least cs ds, RegexWords.Tokened c.known cs → RegexWords.Tokened c.known ds →
    resolve least (cs ++ ds) = resolve least cs ++ resolve least ds
  /-- A character that is no mark stays. -/
  plain : ∀ least ch, ¬ IsMark ch → resolve least [ch] = [ch]
  /-- The placeholder of a live group comes to what its text does with the higher groups. -/
  live : ∀ least g text, least ≤ g → c.isLive g → c.text? g = some text →
    resolve least (placeholder g).toList = resolve (g + 1) text.toList
  /-- Any other placeholder comes to nothing. -/
  dead : ∀ least g, g ∈ c.known → (least ≤ g → c.isLive g → c.text? g = none) →
    resolve least (placeholder g).toList = []

/-- The live texts are those of live groups. -/
theorem mem_liveTexts {g : ℕ} {text : String} :
    (g, text) ∈ c.liveTexts ↔ c.isLive g ∧ c.text? g = some text := by
  rw [liveTexts, List.mem_filterMap]
  constructor
  · rintro ⟨⟨k, r⟩, hmem, hr⟩
    change (if r.isLive then r.text?.map (k, ·) else none) = some (g, text) at hr
    split at hr
    · next hlive =>
      obtain ⟨text', htext, heq⟩ := Option.map_eq_some_iff.1 hr
      obtain ⟨rfl, rfl⟩ := Prod.mk.inj heq
      rw [isLive, text?, record_of_mem hmem]
      exact ⟨hlive, htext⟩
    · cases hr
  · rintro ⟨hlive, htext⟩
    refine ⟨(g, c.record g), mem_entries_of_text? (by rw [htext]; rfl), ?_⟩
    change (if (c.record g).isLive then (c.record g).text?.map (g, ·) else none) = some (g, text)
    have hlive' : (c.record g).isLive := hlive
    rw [if_pos hlive']
    exact Option.map_eq_some_iff.2 ⟨text, htext, rfl⟩

/-- The live texts ascend. -/
theorem pairwise_liveTexts (c : Captures) : c.liveTexts.Pairwise (·.1 < ·.1) := by
  refine c.ascending.filterMap _ ?_
  rintro ⟨g, r⟩ ⟨g', r'⟩ hlt e he e' he'
  change (if r.isLive then r.text?.map (g, ·) else none) = some e at he
  change (if r'.isLive then r'.text?.map (g', ·) else none) = some e' at he'
  split at he
  · split at he'
    · obtain ⟨text, -, rfl⟩ := Option.map_eq_some_iff.1 he
      obtain ⟨text', -, rfl⟩ := Option.map_eq_some_iff.1 he'
      exact hlt
    · cases he'
  · cases he

/-- The live texts from a group on, after a live one of them. -/
theorem filter_liveTexts {least g : ℕ} (h : least ≤ g) :
    (c.liveTexts.filter (least ≤ ·.1)).filter (g < ·.1) = c.liveTexts.filter (g + 1 ≤ ·.1) := by
  rw [List.filter_filter]
  refine List.filter_congr fun e _ => ?_
  rw [← Bool.decide_and]
  exact decide_eq_decide.2 ⟨fun he => he.1, fun he => ⟨he, by omega⟩⟩

/-- **The recursion obeys the rules.** -/
theorem resolution_resolved (c : Captures) : c.Resolution c.resolved where
  append least cs ds hcs hds := by
    rw [resolved, hcs.symbols_append, List.flatMap_append]
    rfl
  plain least ch hch := by
    rw [resolved, symbols_cons hch, List.flatMap_cons, expand_char]
    rfl
  live least g text hle hlive htext := by
    have hmem : (g, text) ∈ c.liveTexts.filter (least ≤ ·.1) :=
      List.mem_filter.2 ⟨mem_liveTexts.2 ⟨hlive, htext⟩, decide_eq_true hle⟩
    rw [resolved, symbols_placeholder, List.flatMap_singleton,
      expand_reference_of_mem ((pairwise_liveTexts c).filter _) hmem, filter_liveTexts hle]
    rfl
  dead least g _ hdead := by
    rw [resolved, symbols_placeholder, List.flatMap_singleton]
    refine expand_reference_of_notMem ?_
    rintro ⟨k, text⟩ hmem rfl
    obtain ⟨hmem, hle⟩ := List.mem_filter.1 hmem
    obtain ⟨hlive, htext⟩ := mem_liveTexts.1 hmem
    rw [hdead (of_decide_eq_true hle) hlive] at htext
    cases htext

/-- An empty text resolves to nothing. -/
theorem Resolution.nil {resolve : ℕ → List Char → List Char} (h : c.Resolution resolve)
    (least : ℕ) : resolve least [] = [] := by
  have happend := h.append least [] [] .nil .nil
  rw [List.append_nil] at happend
  exact List.self_eq_append_left.1 happend

/-- The text of a live group is over the known groups. -/
theorem Tokened.text (h : c.Tokened) {g : ℕ} {text : String} (htext : c.text? g = some text) :
    RegexWords.Tokened c.known text.toList :=
  h _ (mem_entries_of_text? (by rw [htext]; rfl)) text htext

/-- **The rules leave no choice.** The induction is on the live groups that are still followed. -/
theorem Resolution.eq_resolved (hc : c.Tokened) {resolve : ℕ → List Char → List Char}
    (h : c.Resolution resolve) (least : ℕ) {cs : List Char}
    (hcs : RegexWords.Tokened c.known cs) : resolve least cs = c.resolved least cs := by
  have hrules := c.resolution_resolved
  induction hn : (c.liveTexts.filter (least ≤ ·.1)).length using Nat.strong_induction_on
    generalizing least cs with
  | _ n ih =>
    subst hn
    induction hcs with
    | nil => rw [h.nil, hrules.nil]
    | @plain ch cs hch hcs ihcs =>
        have hsingle : RegexWords.Tokened c.known [ch] := .plain hch .nil
        rw [← List.singleton_append, h.append _ _ _ hsingle hcs, hrules.append _ _ _ hsingle hcs,
          h.plain _ _ hch, hrules.plain _ _ hch, ihcs]
    | @token g cs hg hcs ihcs =>
        have hsingle := RegexWords.Tokened.of_placeholder hg
        rw [h.append _ _ _ hsingle hcs, hrules.append _ _ _ hsingle hcs, ihcs]
        refine congrArg (· ++ _) ?_
        by_cases hlive : least ≤ g ∧ c.isLive g
        · cases htext : c.text? g with
          | none =>
              rw [h.dead _ _ hg fun _ _ => htext, hrules.dead _ _ hg fun _ _ => htext]
          | some text =>
              have hmem : (g, text) ∈ c.liveTexts.filter (least ≤ ·.1) :=
                List.mem_filter.2 ⟨mem_liveTexts.2 ⟨hlive.2, htext⟩, decide_eq_true hlive.1⟩
              have hfewer : (c.liveTexts.filter (g + 1 ≤ ·.1)).length <
                  (c.liveTexts.filter (least ≤ ·.1)).length := by
                rw [← filter_liveTexts hlive.1]
                exact List.length_filter_lt_length_iff_exists.2 ⟨_, hmem, by simp⟩
              rw [h.live _ _ _ hlive.1 hlive.2 htext, hrules.live _ _ _ hlive.1 hlive.2 htext]
              exact ih _ hfewer (g + 1) (hc.text htext) rfl
        · have hdead : least ≤ g → c.isLive g → c.text? g = none := fun hle hl =>
            absurd ⟨hle, hl⟩ hlive
          rw [h.dead _ _ hg hdead, hrules.dead _ _ hg hdead]

/-- Finishing a tokened value is resolving it. -/
theorem Tokened.toList_finish_eq_resolved (h : c.Tokened) {value : String}
    (hvalue : RegexWords.Tokened c.known value.toList) :
    (c.finish value).toList = c.resolved 0 value.toList := by
  have hplain := h.finish hvalue
  have hsubstitute := h.substitute hvalue
  have htexts : ∀ e ∈ c.liveTexts, RegexWords.Tokened c.known e.2.toList := fun e he =>
    h.text (mem_liveTexts.1 he).2
  have hstrip : (symbols (c.finish value).toList).flatMap (expand []) =
      (symbols (c.substitute value).toList).flatMap (expand []) := by
    rw [Captures.finish, strip]
    split
    · exact RegexWords.Tokened.flatMap_expand_delete _ hsubstitute
    · rfl
  have hall : c.liveTexts.filter (0 ≤ ·.1) = c.liveTexts :=
    List.filter_eq_self.2 fun e _ => decide_eq_true (Nat.zero_le e.1)
  calc (c.finish value).toList
      = (symbols (c.finish value).toList).flatMap (expand []) :=
        (RegexWords.Tokened.flatMap_expand_of_plain hplain []).symm
    _ = (symbols (c.substitute value).toList).flatMap (expand []) := hstrip
    _ = (symbols value.toList).flatMap (expand c.liveTexts) :=
        RegexWords.Tokened.flatMap_expand_foldl htexts hvalue
    _ = c.resolved 0 value.toList := by rw [resolved, hall]

/-- **A finished value is what the rules say.** If the captured texts are tokened over the known
groups, there is a way to resolve texts by the rules, and every such way resolves a tokened value to
what comes out of the two passes. Captured texts may refer to each other or to their own group. -/
theorem Tokened.toList_finish (h : c.Tokened) :
    (∃ resolve, c.Resolution resolve) ∧
      ∀ resolve, c.Resolution resolve → ∀ value : String,
        RegexWords.Tokened c.known value.toList →
          (c.finish value).toList = resolve 0 value.toList :=
  ⟨⟨_, c.resolution_resolved⟩, fun _ hresolve _ hvalue =>
    (h.toList_finish_eq_resolved hvalue).trans (hresolve.eq_resolved h 0 hvalue).symm⟩

/-- What a pattern with four references captured: the text of group `1` refers to itself and to
`12`, those of `2` and `12` refer to each other, and `3` has none. -/
def crossing : Captures :=
  (Enumeration.ofPattern ⟨some (.sequence ([1, 2, 3, 12].map .backreference)), 0⟩ {} :
    Enumeration String).captures.perform
    [.capture 1 (placeholder 1 ++ ("a" ++ placeholder 12)), .resolve 1,
      .capture 2 (placeholder 12 ++ (placeholder 1 ++ "b")), .resolve 2,
      .capture 12 (placeholder 2 ++ "c"), .resolve 12]

/-- A value with all four groups in it. -/
def crossingValue : String :=
  placeholder 2 ++ ("-" ++ (placeholder 3 ++ (placeholder 12 ++ placeholder 1)))

/-- The captured texts that refer to each other are tokened, and so is the value. -/
theorem tokened_crossing :
    crossing.Tokened ∧ RegexWords.Tokened crossing.known crossingValue.toList := by
  have hempty : Captures.Tokened {} := fun e he => absurd he List.not_mem_nil
  obtain ⟨hstart, -, hknown⟩ := hempty.foldl_refer [1, 2, 3, 12]
  have hone := RegexWords.Tokened.of_placeholder (hknown 1 (by decide))
  have htwo := RegexWords.Tokened.of_placeholder (hknown 2 (by decide))
  have hthree := RegexWords.Tokened.of_placeholder (hknown 3 (by decide))
  have htwelve := RegexWords.Tokened.of_placeholder (hknown 12 (by decide))
  obtain ⟨hcrossing, hsub⟩ : crossing.Tokened ∧ _ ⊆ crossing.known := by
    refine hstart.perform ?_
    simp only [List.forall_mem_cons, Effect.Tokened, String.toList_append, true_and]
    exact ⟨hone.append (.append (.plain (by decide) .nil) htwelve),
      htwelve.append (hone.append (.plain (by decide) .nil)),
      htwo.append (.plain (by decide) .nil), fun e he => absurd he List.not_mem_nil⟩
  refine ⟨hcrossing, RegexWords.Tokened.mono ?_ hsub⟩
  simp only [crossingValue, String.toList_append]
  exact htwo.append (.append (.plain (by decide) .nil) (hthree.append (htwelve.append hone)))

/-- Only references to higher groups are followed: to `12` from `1` and `2`, and none from `12`. -/
theorem toList_finish_crossing :
    crossing.Tokened ∧ (∃ resolve, crossing.Resolution resolve) ∧
      (crossing.finish crossingValue).toList = "cb-cac".toList := by
  obtain ⟨hcrossing, hvalue⟩ := tokened_crossing
  obtain ⟨hrules, hfinish⟩ := hcrossing.toList_finish
  refine ⟨hcrossing, hrules, ?_⟩
  rw [hfinish _ crossing.resolution_resolved _ hvalue]
  cbv

end Captures

end RegexWords
