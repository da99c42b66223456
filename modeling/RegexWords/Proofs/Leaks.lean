import RegexWords.Proofs.Agreement
import RegexWords.Proofs.Placeholders
import RegexWords.Proofs.Trail.Values

/-!
# Placeholders Never Leak

In a session several sources record captures into one place, and a captured text may bring in
placeholders that stem from another source. Still no placeholder survives in a value of a whole
pattern. The invariant is that everything around is tokened over the groups that are known at
that moment: what the captures hold, and every value and every event that any source has left.
A source only has placeholders of the groups its tree refers to, and these are known from the
moment the source is there; what is known stays known.

## Main results

* `Regex.tokened_trail`: what a tree produces is tokened over the groups it refers to.
* `Session.Tokened.next`: one pull keeps a session tokened.
* `Session.Reachable.tokened`: every session that can be come by is tokened.
* `Session.Reachable.marks_notMem`: **no mark is left** in any value of a whole pattern, whatever
  was built and pulled before.
-/

namespace RegexWords

/-! ### Trails -/

/-- A trail of strings is **tokened** if all its values and events are. -/
structure Trail.Tokened (groups : Set ℕ) (t : Trail Effect String) : Prop where
  values : ∀ v ∈ t.values, RegexWords.Tokened groups v.toList
  reports : ∀ e ∈ t.reports, e.Tokened groups

namespace Trail.Tokened

variable {groups groups' : Set ℕ} {t : Trail Effect String}

/-- More groups may have placeholders. -/
theorem mono (h : t.Tokened groups) (hsub : groups ⊆ groups') : t.Tokened groups' where
  values v hv := (h.values v hv).mono hsub
  reports e he := (h.reports e he).mono hsub

/-- The tail of a tokened trail. -/
theorem tail (h : t.Tokened groups) : t.tail.Tokened groups where
  values v := fun ⟨n, hn⟩ => h.values v ⟨n + 1, hn⟩
  reports e := fun ⟨n, hn⟩ => h.reports e ⟨n + 1, hn⟩

/-- A list of tokened texts. -/
theorem items {texts : List String} (h : ∀ v ∈ texts, RegexWords.Tokened groups v.toList) :
    (Trail.items texts).Tokened groups where
  values v hv := h v (mem_values_items.1 hv)
  reports e he := absurd he (notMem_reports_items texts e)

/-- Tokened trails one after the other. -/
theorem concat {ts : List (Trail Effect String)} (h : ∀ t ∈ ts, t.Tokened groups) :
    (Trail.concat ts).Tokened groups where
  values v hv := by
    obtain ⟨t, ht, hvalue⟩ := values_concat hv
    exact (h t ht).values v hvalue
  reports e he := by
    obtain ⟨t, ht, hreport⟩ := reports_concat he
    exact (h t ht).reports e hreport

/-- The joined tuples of tokened trails. -/
theorem product {ts : List (Trail Effect String)} (h : ∀ t ∈ ts, t.Tokened groups) :
    ((Trail.product ts).map String.join).Tokened groups where
  values v hv := by
    obtain ⟨texts, htexts, rfl⟩ := mem_values_map.1 hv
    refine RegexWords.Tokened.join fun s hs => ?_
    obtain ⟨t, ht, hvalue⟩ := values_product htexts s hs
    exact (h t ht).values s hvalue
  reports e he := by
    obtain ⟨t, ht, hreport⟩ := reports_product he
    exact (h t ht).reports e hreport

/-- The joined repetitions of a tokened trail. -/
theorem power (h : t.Tokened groups) (min : ℕ) (max : Option ℕ) :
    ((Trail.power min max t).map fun ds => String.join (ds.map Draw.value)).Tokened groups where
  values v hv := by
    obtain ⟨ds, hds, rfl⟩ := mem_values_map.1 hv
    refine RegexWords.Tokened.join fun s hs => ?_
    obtain ⟨d, hd, rfl⟩ := List.mem_map.1 hs
    exact h.values d.value ⟨d.slot, (values_power hds).2.2 d hd⟩
  reports e he := h.reports e (reports_power he)

/-- Capturing the values of a tokened trail. -/
theorem capture (h : t.Tokened groups) (g : ℕ) : (t.tap (Effect.capture g)).Tokened groups where
  values := h.values
  reports e he := by
    rcases reports_tap he with he | ⟨v, hv, rfl⟩
    · exact h.reports e he
    · exact h.values v hv

end Trail.Tokened

/-! ### Trees -/

namespace Regex

/-- A node is **plain** if the characters that it produces by itself are no marks. -/
def Plain (alphabet : CodeRange) : Regex → Prop
  | literal c => ¬ IsMark c
  | dot => ∀ c ∈ alphabet.chars, ¬ IsMark c
  | charClass members negated => ∀ m ∈ members, ∀ c ∈ m.chars alphabet negated, ¬ IsMark c
  | _ => True

/-- A node is **tame** for some groups if it is plain and refers to no other group. -/
structure Tame (alphabet : CodeRange) (groups : Set ℕ) (r : Regex) : Prop where
  plain : r.Plain alphabet
  mem_of_backreference : ∀ g, r = backreference g → g ∈ groups

variable {alphabet : CodeRange} {groups : Set ℕ}

/-- Single characters that are no marks. -/
theorem tokened_leaves {l : List Char} (origin : Origin) (h : ∀ c ∈ l, ¬ IsMark c) :
    (Trail.items (l.map fun c => Outcome.leaf origin c.toString)).Tokened groups := by
  refine Trail.Tokened.items fun v hv => ?_
  obtain ⟨c, hc, rfl⟩ := List.mem_map.1 hv
  refine RegexWords.Tokened.of_plain fun d hd => ?_
  have hmem : d ∈ [c] := by
    rw [← String.toList_singleton]
    exact hd
  obtain rfl := List.mem_singleton.1 hmem
  exact h d hc

/-- A body is tokened if the tree in it is. -/
theorem tokened_bodyTrail {body : Option Regex}
    (ih : ∀ r ∈ body, (∀ s ∈ r.preorder false, s.Tame alphabet groups) →
      (r.trail alphabet : Trail Effect String).Tokened groups)
    (h : ∀ s ∈ preorderBody false body, s.Tame alphabet groups) :
    (bodyTrail alphabet body : Trail Effect String).Tokened groups := by
  cases body with
  | none =>
      rw [bodyTrail_none]
      exact Trail.Tokened.items fun v hv => absurd hv List.not_mem_nil
  | some r => exact ih r rfl h

/-- **What a tree produces is tokened**, its values as well as its events, if all its nodes
outside lookarounds are tame. -/
theorem tokened_trail (r : Regex) (h : ∀ s ∈ r.preorder false, s.Tame alphabet groups) :
    (r.trail alphabet : Trail Effect String).Tokened groups := by
  induction r with
  | literal c =>
      have hself := h (literal c) List.mem_cons_self
      rw [trail_literal]
      refine tokened_leaves (l := [c]) _ fun d hd => ?_
      rw [List.mem_singleton.1 hd]
      exact hself.plain
  | dot =>
      have hself := h dot List.mem_cons_self
      rw [trail_dot]
      exact tokened_leaves _ hself.plain
  | sequence parts ih =>
      rw [preorder, preorderList_eq] at h
      rw [trail_sequence]
      refine Trail.Tokened.product fun t ht => ?_
      obtain ⟨r, hr, rfl⟩ := List.mem_map.1 ht
      exact ih r hr fun s hs => h s (List.mem_cons_of_mem _ (List.mem_flatMap.2 ⟨r, hr, hs⟩))
  | either left right ihleft ihright =>
      rw [preorder] at h
      rw [trail_either, Trail.map_wrap_string]
      refine Trail.Tokened.concat fun t ht => ?_
      obtain ⟨body, hbody, rfl⟩ := List.mem_map.1 ht
      rcases List.mem_cons.1 hbody with rfl | hbody
      · exact tokened_bodyTrail ihleft fun s hs =>
          h s (List.mem_cons_of_mem _ (List.mem_append_left _ hs))
      · obtain rfl := List.mem_singleton.1 hbody
        exact tokened_bodyTrail ihright fun s hs =>
          h s (List.mem_cons_of_mem _ (List.mem_append_right _ hs))
  | repeated part q greedy ih =>
      rw [preorder] at h
      rw [trail_repeated]
      exact (ih fun s hs => h s (List.mem_cons_of_mem _ hs)).power q.bounds.min q.bounds.max
  | charClass members negated =>
      have hself := h (charClass members negated) List.mem_cons_self
      rw [trail_charClass, Trail.map_wrap_string]
      refine Trail.Tokened.concat fun t ht => ?_
      obtain ⟨m, hm, rfl⟩ := List.mem_map.1 ht
      exact tokened_leaves _ (hself.plain m hm)
  | shorthand kind =>
      rw [trail_shorthand]
      exact Trail.Tokened.items fun v hv => absurd hv List.not_mem_nil
  | anchor kind =>
      rw [trail_anchor]
      refine Trail.Tokened.items fun v hv => ?_
      rw [List.mem_singleton.1 hv]
      exact RegexWords.Tokened.nil
  | capturing number body ih =>
      rw [preorder] at h
      rw [trail_capturing, Trail.map_wrap_string]
      have hbody := tokened_bodyTrail ih fun s hs => h s (List.mem_cons_of_mem _ hs)
      exact hbody.capture number
  | grouping body ih =>
      rw [preorder] at h
      rw [trail_grouping, Trail.map_wrap_string]
      exact tokened_bodyTrail ih fun s hs => h s (List.mem_cons_of_mem _ hs)
  | backreference number =>
      have hself := h (backreference number) List.mem_cons_self
      have htoken := RegexWords.Tokened.of_placeholder (hself.mem_of_backreference number rfl)
      rw [trail_backreference]
      constructor
      · intro v hv
        rw [Trail.values_tap, Trail.mem_values_items, List.mem_singleton] at hv
        rw [hv]
        exact htoken
      · intro e he
        rcases Trail.reports_tap he with he | ⟨v, -, rfl⟩
        · exact absurd he (Trail.notMem_reports_items _ e)
        · trivial
  | lookaround body direction positive ih =>
      rw [trail_lookaround]
      refine Trail.Tokened.items fun v hv => ?_
      rw [List.mem_singleton.1 hv]
      exact RegexWords.Tokened.nil

/-- What a body produces is tokened over the groups that it refers to, if its nodes outside
lookarounds are plain. -/
theorem tokened_bodyTrail_references {body : Option Regex}
    (h : ∀ s ∈ preorderBody false body, s.Plain alphabet) :
    (bodyTrail alphabet body : Trail Effect String).Tokened {g | g ∈ references body} := by
  refine tokened_bodyTrail (fun r _ => tokened_trail r) fun s hs => ⟨h s hs, ?_⟩
  rintro g rfl
  exact List.mem_filterMap.2 ⟨backreference g, hs, rfl⟩

end Regex

/-! ### Feeds and sessions -/

variable {ω : Type} [Outcome ω]

/-- A feed is **tokened** if the texts and the events that it has left are. -/
def Feed.Tokened (groups : Set ℕ) (feed : Feed ω) : Prop :=
  (feed.trail.map Outcome.value).Tokened groups

namespace Session

/-- A session is **tokened** if its captures are, and everything that its feeds have left is, over
the groups known to the captures. -/
structure Tokened (s : Session ω) : Prop where
  captures : s.captures.Tokened
  feeds : ∀ feed ∈ s.feeds, feed.Tokened s.captures.known

/-- The sessions that can be come by: patterns and trees by themselves are added, and values are
pulled, in any order. All nodes outside lookarounds are plain. -/
inductive Reachable (alphabet : CodeRange) : Session ω → Prop
  | fresh : Reachable alphabet {}
  | addPattern {s : Session ω} {p : Pattern} : Reachable alphabet s →
      (∀ r ∈ Regex.preorderBody false p.body, r.Plain alphabet) →
      Reachable alphabet (s.addPattern alphabet p)
  | addBody {s : Session ω} {body : Option Regex} : Reachable alphabet s →
      (∀ r ∈ Regex.preorderBody false body, r.Plain alphabet) →
      Reachable alphabet (s.addBody alphabet body)
  | next {s : Session ω} (position : ℕ) : Reachable alphabet s →
      Reachable alphabet (s.next position).2

/-- A feed that is added with its references leaves a session tokened. -/
theorem Tokened.add {s : Session ω} (h : s.Tokened) {body : Option Regex} {feed : Feed ω}
    (hfeed : feed.Tokened {g | g ∈ Regex.references body}) :
    Tokened { captures := s.captures.referAll body, feeds := s.feeds ++ [feed] } := by
  obtain ⟨hcaptures, hsub, hreferences⟩ := h.captures.foldl_refer (Regex.references body)
  refine ⟨hcaptures, fun feed' hmem => ?_⟩
  rcases List.mem_append.1 hmem with hmem | hmem
  · exact Trail.Tokened.mono (h.feeds feed' hmem) hsub
  · obtain rfl := List.mem_singleton.1 hmem
    exact Trail.Tokened.mono hfeed hreferences

end Session

/-! ### Pulls -/

variable [LawfulOutcome ω]

/-- The feed of a body, be it that of a whole pattern or not, is tokened over the groups that the
body refers to. -/
theorem Feed.tokened_of_plain {alphabet : CodeRange} {body : Option Regex}
    (pattern? : Option Pattern) (h : ∀ s ∈ Regex.preorderBody false body, s.Plain alphabet) :
    Feed.Tokened {g | g ∈ Regex.references body}
      { pattern?, source := (Regex.planBody alphabet body : Plan Effect ω).source } := by
  have hvalue : (Regex.bodyTrail alphabet body : Trail Effect ω).map Outcome.value =
      Regex.bodyTrail alphabet body :=
    Regex.map_value_bodyTrail fun r _ => Regex.map_value_trail r
  have htokened := Regex.tokened_bodyTrail_references h
  rw [← hvalue] at htokened
  exact htokened

/-- The text of a value of a whole pattern is the finished text. -/
theorem Feed.value_assemble_of_isSome {pattern? : Option Pattern} (hpattern : pattern?.isSome)
    (captures : Captures) (outcome : ω) :
    Outcome.value (assemble pattern? captures outcome) =
      captures.finish (Outcome.value outcome) := by
  obtain ⟨p, rfl⟩ := Option.isSome_iff_exists.1 hpattern
  exact value_assemble (some p) captures outcome

/-- **One pull.** A pull from a tokened feed keeps the captures and the feed tokened and what is
known known, and if it gives the value of a whole pattern, that has no marks. -/
theorem Feed.Tokened.next {feed : Feed ω} {captures : Captures}
    (h : feed.Tokened captures.known) (hcaptures : captures.Tokened) :
    (feed.next captures).2.1.Tokened ∧ captures.known ⊆ (feed.next captures).2.1.known ∧
      (feed.next captures).2.2.Tokened (feed.next captures).2.1.known ∧
      ∀ o, (feed.next captures).1 = some o → feed.pattern?.isSome →
        ∀ c ∈ (Outcome.value o).toList, ¬ IsMark c := by
  obtain ⟨hvalue, hnext, htail, -⟩ := feed.next_eq captures
  have hevents : ∀ e ∈ feed.trail.events 0, e.Tokened captures.known :=
    fun e he => h.reports e ⟨0, he⟩
  obtain ⟨hperform, hsub⟩ := hcaptures.perform hevents
  rw [← hnext] at hperform hsub
  refine ⟨hperform, hsub, ?_, ?_⟩
  · rw [Feed.Tokened, htail]
    exact (Trail.Tokened.tail h).mono hsub
  · intro o ho hpattern
    rw [hvalue] at ho
    obtain ⟨a, ha, rfl⟩ := Option.map_eq_some_iff.1 ho
    rw [value_assemble_of_isSome hpattern, ← hnext]
    refine hperform.finish (RegexWords.Tokened.mono ?_ hsub)
    exact h.values (Outcome.value a) ⟨0, by simp [ha]⟩

/-- One pull from one of several tokened feeds. -/
theorem Feed.tokened_nextAt {feeds : List (Feed ω)} {captures : Captures}
    (h : ∀ feed ∈ feeds, feed.Tokened captures.known) (hcaptures : captures.Tokened)
    (position : ℕ) :
    (nextAt captures feeds position).2.1.Tokened ∧
      captures.known ⊆ (nextAt captures feeds position).2.1.known ∧
      (∀ feed ∈ (nextAt captures feeds position).2.2,
        feed.Tokened (nextAt captures feeds position).2.1.known) ∧
      ∀ o feed, (nextAt captures feeds position).1 = some o → feeds[position]? = some feed →
        feed.pattern?.isSome → ∀ c ∈ (Outcome.value o).toList, ¬ IsMark c := by
  induction feeds generalizing position with
  | nil => exact ⟨hcaptures, subset_rfl, h, by simp⟩
  | cons feed feeds ih =>
      cases position with
      | zero =>
          obtain ⟨hnext, hsub, hfeed, hvalue⟩ := (h feed List.mem_cons_self).next hcaptures
          refine ⟨hnext, hsub, ?_, ?_⟩
          · intro feed' hmem
            rcases List.mem_cons.1 hmem with rfl | hmem
            · exact hfeed
            · exact Trail.Tokened.mono (h feed' (List.mem_cons_of_mem feed hmem)) hsub
          · intro o feed' ho hfeed' hpattern
            obtain rfl : feed = feed' := Option.some.inj hfeed'
            exact hvalue o ho hpattern
      | succ position =>
          obtain ⟨hnext, hsub, hfeeds, hvalue⟩ :=
            ih (fun feed' hmem => h feed' (List.mem_cons_of_mem feed hmem)) position
          refine ⟨hnext, hsub, ?_, hvalue⟩
          intro feed' hmem
          rcases List.mem_cons.1 hmem with rfl | hmem
          · exact Trail.Tokened.mono (h feed' List.mem_cons_self) hsub
          · exact hfeeds feed' hmem

namespace Session

/-- **One pull keeps a session tokened.** -/
theorem Tokened.next {s : Session ω} (h : s.Tokened) (position : ℕ) :
    (s.next position).2.Tokened := by
  obtain ⟨hcaptures, -, hfeeds, -⟩ := Feed.tokened_nextAt h.feeds h.captures position
  exact ⟨hcaptures, hfeeds⟩

/-- Every session that can be come by is tokened. -/
theorem Reachable.tokened {alphabet : CodeRange} {s : Session ω} (h : s.Reachable alphabet) :
    s.Tokened := by
  induction h with
  | fresh => exact ⟨fun e he => absurd he List.not_mem_nil, fun f hf => absurd hf List.not_mem_nil⟩
  | addPattern _ hplain ih => exact ih.add (Feed.tokened_of_plain _ hplain)
  | addBody _ hplain ih => exact ih.add (Feed.tokened_of_plain _ hplain)
  | next position _ ih => exact ih.next position

/-- **Placeholders never leak.** In every session that can be come by, a pull from the source of
a whole pattern gives no value with a mark in it. -/
theorem Reachable.marks_notMem {alphabet : CodeRange} {s : Session ω} (h : s.Reachable alphabet)
    {position : ℕ} {feed : Feed ω} {o : ω} (hfeed : s.feeds[position]? = some feed)
    (hpattern : feed.pattern?.isSome) (ho : (s.next position).1 = some o) :
    placeholderOpen ∉ (Outcome.value o).toList ∧
      placeholderClose ∉ (Outcome.value o).toList := by
  obtain ⟨-, -, -, hvalue⟩ := Feed.tokened_nextAt h.tokened.feeds h.tokened.captures position
  have hmarks := hvalue o feed ho hfeed hpattern
  exact ⟨fun hmem => hmarks _ hmem (Or.inl rfl), fun hmem => hmarks _ hmem (Or.inr rfl)⟩

/-- A tree by itself captures the placeholder of a group that never captures anything, and then a
pattern refers to the group that captured it. -/
theorem marks_notMem_crossed :
    ∃ s : Session String, s.Reachable .printable ∧ s.captures.text? 1 = some (placeholder 2) ∧
      ∃ text, (s.next 1).1 = some text ∧
        placeholderOpen ∉ text.toList ∧ placeholderClose ∉ text.toList := by
  let s : Session String := (((({} : Session String).addBody .printable
    (some (.capturing 1 (some (.backreference 2))))).next 0).2).addPattern .printable
      ⟨some (.backreference 1), 0⟩
  have hs : s.Reachable .printable := by
    refine Reachable.addPattern (Reachable.next 0 (Reachable.addBody Reachable.fresh ?_)) ?_
    · intro r hr
      simp only [Regex.preorderBody, Regex.preorder, List.mem_cons, List.not_mem_nil,
        or_false] at hr
      rcases hr with rfl | rfl <;> trivial
    · intro r hr
      simp only [Regex.preorderBody, Regex.preorder, List.mem_cons, List.not_mem_nil,
        or_false] at hr
      rcases hr with rfl
      trivial
  have hnext : (s.next 1).1 = some "" := by decide
  exact ⟨s, hs, by decide, "", hnext, hs.marks_notMem rfl rfl hnext⟩

end Session

end RegexWords
