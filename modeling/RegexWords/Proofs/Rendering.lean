import Mathlib.Data.Nat.Notation
import RegexWords.Pattern.Reader
import RegexWords.Proofs.Tree

/-!
# Canonical Texts

Every well formed pattern has a **canonical text**: characters that mean something are escaped,
everything else is written as it is, and there are no more parentheses than the tree has groups.
Well formed are the trees that a text can stand for. A tree binds more or less loosely, and what
stands directly below a node has to bind tightly enough to be told from what stands around it;
numbers and bounds have to be within their limits; and groups are numbered as their parentheses
open.

## Main definitions

* `Regex.render`, `Pattern.render`: the canonical text.
* `Regex.Proper`: what has to hold at every node.
* `Pattern.WellFormed`: the patterns that a text can stand for.
* `Fresh`: what may follow a part without being taken for its quantifier.
* `Closes`: what may follow an alternative without being taken for more of it.
-/

namespace RegexWords

/-! ### Texts -/

/-- The characters that mean something outside brackets. -/
def metacharacters : List Char :=
  ['(', ')', '[', ']', '{', '}', '*', '+', '?', '.', '^', '$', '|', '\\', '/']

/-- The characters that mean something in brackets. -/
def classMetacharacters : List Char :=
  [']', '\\', '^', '-']

/-- A character, with a backslash before it if it is one of `special`. -/
def escape (special : List Char) (c : Char) : List Char :=
  if c ∈ special then ['\\', c] else [c]

/-- Escaped or not, a character is written with a first character that needs no escaping. -/
theorem exists_escape_eq_cons {special avoided : List Char} (hslash : '\\' ∉ avoided)
    (h : avoided ⊆ special) (c : Char) :
    ∃ d text, escape special c = d :: text ∧ d ∉ avoided := by
  rw [escape]
  split
  · exact ⟨'\\', [c], rfl, hslash⟩
  · next hc => exact ⟨c, [], rfl, fun hmem => hc (h hmem)⟩

/-- The letter of a shorthand class. -/
def Shorthand.letter : Shorthand → Char
  | digit => 'd'
  | nonDigit => 'D'
  | word => 'w'
  | nonWord => 'W'
  | space => 's'
  | nonSpace => 'S'

/-- The text of an assertion about the position. -/
def Anchor.render : Anchor → List Char
  | start => ['^']
  | finish => ['$']
  | wordBoundary => ['\\', 'b']
  | nonWordBoundary => ['\\', 'B']

/-- The text of a class member. -/
def ClassMember.render : ClassMember → List Char
  | single c => escape classMetacharacters c
  | range first last => escape classMetacharacters first ++ '-' :: escape classMetacharacters last
  | shorthand kind => ['\\', kind.letter]

/-- The text of a class. -/
def renderClass (members : List ClassMember) (negated : Bool) : List Char :=
  '[' :: ((if negated then ['^'] else []) ++ (members.flatMap ClassMember.render ++ [']']))

/-- The text of a quantifier. -/
def Quantifier.render : Quantifier → List Char
  | star => ['*']
  | plus => ['+']
  | question => ['?']
  | exactly n => '{' :: ((toString n).toList ++ ['}'])
  | atLeast n => '{' :: ((toString n).toList ++ [',', '}'])
  | between n m => '{' :: ((toString n).toList ++ ',' :: ((toString m).toList ++ ['}']))

/-- The question mark of a lazy quantifier. -/
def renderGreed (greedy : Bool) : List Char :=
  if greedy then [] else ['?']

/-- The text that tells what a group does, after its parenthesis. -/
def Opening.render : Opening → List Char
  | capture _ => []
  | group => ['?', ':']
  | look .ahead true => ['?', '=']
  | look .ahead false => ['?', '!']
  | look .behind true => ['?', '<', '=']
  | look .behind false => ['?', '<', '!']

/-- A group around a text. -/
def Opening.enclose (opening : Opening) (text : List Char) : List Char :=
  '(' :: (opening.render ++ (text ++ [')']))

namespace Regex

mutual

/-- The **canonical text** of a tree. -/
def render : Regex → List Char
  | literal c => escape metacharacters c
  | dot => ['.']
  | sequence parts => renderList parts
  | either left right => renderBody left ++ '|' :: renderBody right
  | repeated part q greedy => render part ++ (q.render ++ renderGreed greedy)
  | charClass members negated => renderClass members negated
  | shorthand kind => ['\\', kind.letter]
  | anchor kind => kind.render
  | capturing number body => (Opening.capture number).enclose (renderBody body)
  | grouping body => Opening.group.enclose (renderBody body)
  | backreference number => '\\' :: (toString number).toList
  | lookaround body direction positive =>
    (Opening.look direction positive).enclose (renderBody body)

/-- The text of a tree that may be absent. -/
def renderBody : Option Regex → List Char
  | none => []
  | some r => render r

/-- The texts of several trees, one after the other. -/
def renderList : List Regex → List Char
  | [] => []
  | r :: rs => render r ++ renderList rs

end

theorem renderList_eq (rs : List Regex) : renderList rs = rs.flatMap render := by
  induction rs with
  | nil => rfl
  | cons r rs ih => rw [renderList, ih, List.flatMap_cons]

end Regex

/-- The **canonical text** of a pattern. -/
def Pattern.render (p : Pattern) : String :=
  String.ofList (Regex.renderBody p.body)

/-! ### Well formed patterns -/

/-- Bounds are **proper** if they are in order and not too large. -/
structure Bounds.Proper (b : Bounds) : Prop where
  min_le : b.min ≤ maxBound
  max_le : ∀ m ∈ b.max, m ≤ maxBound
  min_le_max : ∀ m ∈ b.max, b.min ≤ m

instance : DecidablePred Bounds.Proper := fun b =>
  decidable_of_iff (b.min ≤ maxBound ∧ (∀ m ∈ b.max, m ≤ maxBound) ∧ ∀ m ∈ b.max, b.min ≤ m)
    ⟨fun h => ⟨h.1, h.2.1, h.2.2⟩, fun h => ⟨h.min_le, h.max_le, h.min_le_max⟩⟩

/-- A class member is **proper** if it is no range that runs backwards. -/
def ClassMember.Proper : ClassMember → Prop
  | range first last => first ≤ last
  | _ => True

instance : DecidablePred ClassMember.Proper
  | .range first last => inferInstanceAs (Decidable (first ≤ last))
  | .single _ | .shorthand _ => inferInstanceAs (Decidable True)

namespace Regex

/-- How **loosely** a node binds: not at all, like a part with a quantifier, like a sequence, or
like alternatives. -/
def looseness : Regex → ℕ
  | repeated _ _ _ => 1
  | sequence _ => 2
  | either _ _ => 3
  | _ => 0

/-- A node is **proper** if a text can stand for it. A sequence has at least two parts, none of
them a sequence or alternatives. Alternatives lean to the left. What has a quantifier has no
other quantifier and is no sequence and no alternatives. -/
def Proper : Regex → Prop
  | sequence parts => 2 ≤ parts.length ∧ ∀ r ∈ parts, r.looseness ≤ 1
  | either _ right => ∀ r ∈ right, r.looseness ≤ 2
  | repeated part q _ => part.looseness = 0 ∧ q.bounds.Proper
  | charClass members _ => members ≠ [] ∧ ∀ m ∈ members, m.Proper
  | backreference number => 1 ≤ number ∧ number ≤ 9
  | _ => True

instance : DecidablePred Regex.Proper
  | sequence parts =>
    inferInstanceAs (Decidable (2 ≤ parts.length ∧ ∀ r ∈ parts, r.looseness ≤ 1))
  | either _ right => inferInstanceAs (Decidable (∀ r ∈ right, r.looseness ≤ 2))
  | repeated part q _ => inferInstanceAs (Decidable (part.looseness = 0 ∧ q.bounds.Proper))
  | charClass members _ => inferInstanceAs (Decidable (members ≠ [] ∧ ∀ m ∈ members, m.Proper))
  | backreference number => inferInstanceAs (Decidable (1 ≤ number ∧ number ≤ 9))
  | literal _ | dot | shorthand _ | anchor _ | capturing _ _ | grouping _ | lookaround _ _ _ =>
    inferInstanceAs (Decidable True)

/-- The number of a capturing group. -/
def groupNumber? : Regex → Option ℕ
  | capturing number _ => some number
  | _ => none

/-- The numbers of the capturing groups of a body, in the order of their opening parentheses. -/
def groupNumbers (body : Option Regex) : List ℕ :=
  (preorderBody true body).filterMap groupNumber?

end Regex

/-- A pattern is **well formed** if all its nodes are proper, the bodies of lookarounds included,
and its groups are numbered from `1` in the order of their opening parentheses. -/
structure Pattern.WellFormed (p : Pattern) : Prop where
  proper : ∀ r ∈ Regex.preorderBody true p.body, r.Proper
  groupNumbers_eq : Regex.groupNumbers p.body = List.range' 1 p.groupCount

instance : DecidablePred Pattern.WellFormed := fun p =>
  decidable_of_iff ((∀ r ∈ Regex.preorderBody true p.body, r.Proper) ∧
      Regex.groupNumbers p.body = List.range' 1 p.groupCount)
    ⟨fun h => ⟨h.1, h.2⟩, fun h => ⟨h.proper, h.groupNumbers_eq⟩⟩

/-! ### Numbers of the groups below a node -/

/-- The numbers that the opening of a group takes. -/
def Opening.numbers : Opening → List ℕ
  | capture number => [number]
  | _ => []

namespace Regex

/-- The numbers of the groups of several trees. -/
theorem filterMap_preorderList (rs : List Regex) :
    (preorderList true rs).filterMap groupNumber? =
      rs.flatMap fun r => groupNumbers (some r) := by
  rw [preorderList_eq, List.filterMap_flatMap]
  rfl

/-- The numbers of the groups of a sequence. -/
theorem groupNumbers_sequence (parts : List Regex) :
    groupNumbers (some (sequence parts)) = parts.flatMap fun r => groupNumbers (some r) :=
  filterMap_preorderList parts

/-- The numbers of the groups of alternatives. -/
theorem groupNumbers_either (left right : Option Regex) :
    groupNumbers (some (either left right)) = groupNumbers left ++ groupNumbers right :=
  List.filterMap_append

/-- The numbers of the groups of a group. -/
theorem groupNumbers_close (opening : Opening) (body : Option Regex) :
    groupNumbers (some (opening.close body)) = opening.numbers ++ groupNumbers body := by
  cases opening <;> rfl

end Regex

/-! ### What may follow a part -/

/-- A text is **fresh** if it begins with no quantifier and with no slash. -/
def Fresh (text : List Char) : Prop :=
  ∀ c ∈ text.head?, c ∉ ['*', '+', '?', '{', '/']

namespace Fresh

/-- A text is fresh if its first character is harmless. -/
theorem cons {c : Char} (h : c ∉ ['*', '+', '?', '{', '/']) (text : List Char) :
    Fresh (c :: text) := by
  intro d hd
  obtain rfl := Option.some.inj hd
  exact h

/-- A fresh text after a fresh text is a fresh text. -/
theorem append {text text' : List Char} (h : Fresh text) (h' : Fresh text') :
    Fresh (text ++ text') := by
  cases text with
  | nil => exact h'
  | cons c text => exact h

/-- Fresh texts one after the other are fresh. -/
theorem flatMap {β : Type} {text : β → List Char} {l : List β} (h : ∀ b ∈ l, Fresh (text b)) :
    Fresh (l.flatMap text) := by
  induction l with
  | nil => exact fun _ hc => absurd hc (by simp)
  | cons b l ih =>
      rw [List.flatMap_cons]
      exact (h b List.mem_cons_self).append (ih fun c hc => h c (List.mem_cons_of_mem b hc))

/-- A fresh text stays fresh if more is written after it, unless it is empty. -/
theorem append_of_ne_nil {text : List Char} (h : Fresh text) (hne : text ≠ [])
    (text' : List Char) : Fresh (text ++ text') := by
  cases text with
  | nil => exact absurd rfl hne
  | cons c text => exact h

/-- An escaped character is fresh. -/
theorem escape (c : Char) : Fresh (escape metacharacters c) := by
  obtain ⟨d, text, htext, hd⟩ : ∃ d text, RegexWords.escape metacharacters c = d :: text ∧
      d ∉ ['*', '+', '?', '{', '/'] := exists_escape_eq_cons (by decide) (by decide) c
  rw [htext]
  exact cons hd text

/-- A group is fresh. -/
theorem enclose (opening : Opening) (text : List Char) : Fresh (opening.enclose text) :=
  cons (by decide) _

end Fresh

/-- A text **closes** an alternative if it ends there or begins with a bar or a closing
parenthesis. -/
def Closes (text : List Char) : Prop :=
  ∀ c ∈ text.head?, c ∈ [')', '|']

/-- The texts that close. -/
theorem Closes.eq_or {text : List Char} (h : Closes text) :
    text = [] ∨ ∃ rest, text = ')' :: rest ∨ text = '|' :: rest := by
  cases text with
  | nil => exact Or.inl rfl
  | cons c rest =>
      have hc : c = ')' ∨ c = '|' := by simpa using h c rfl
      rcases hc with rfl | rfl
      · exact Or.inr ⟨rest, Or.inl rfl⟩
      · exact Or.inr ⟨rest, Or.inr rfl⟩

/-- What closes is fresh. -/
theorem Closes.fresh {text : List Char} (h : Closes text) : Fresh text := by
  obtain rfl | ⟨rest, rfl | rfl⟩ := h.eq_or
  · exact fun _ hc => absurd hc (Option.not_mem_none _)
  · exact Fresh.cons (by decide) rest
  · exact Fresh.cons (by decide) rest

namespace Regex

/-- A proper body has proper trees. -/
theorem proper_of_mem_body {body : Option Regex} (h : ∀ s ∈ preorderBody true body, s.Proper)
    {r : Regex} (hr : r ∈ body) : ∀ s ∈ r.preorder true, s.Proper := by
  obtain rfl := hr
  exact h

/-- A tree that does not bind loosely has a text. -/
theorem render_ne_nil {r : Regex} (h : r.looseness = 0) : r.render ≠ [] := by
  cases r with
  | literal c =>
      rw [render, escape]
      split <;> exact List.cons_ne_nil _ _
  | sequence parts => exact absurd h (Nat.succ_ne_zero _)
  | either left right => exact absurd h (Nat.succ_ne_zero _)
  | repeated part q greedy => exact absurd h (Nat.succ_ne_zero _)
  | anchor kind => cases kind <;> exact List.cons_ne_nil _ _
  | _ => exact List.cons_ne_nil _ _

/-- The text of a body is fresh if that of the tree in it is. -/
theorem fresh_renderBody {body : Option Regex} (h : ∀ r ∈ body, Fresh r.render) :
    Fresh (renderBody body) := by
  cases body with
  | none => exact fun _ hc => absurd hc (by simp [renderBody])
  | some r => exact h r rfl

/-- **The text of a proper tree is fresh**: it cannot be taken for the quantifier of what stands
before it. -/
theorem fresh_render (r : Regex) (h : ∀ s ∈ r.preorder true, s.Proper) : Fresh r.render := by
  induction r with
  | literal c => exact Fresh.escape c
  | sequence parts ih =>
      rw [preorder, preorderList_eq] at h
      rw [render, renderList_eq]
      exact Fresh.flatMap fun r hr => ih r hr fun s hs =>
        h s (List.mem_cons_of_mem _ (List.mem_flatMap.2 ⟨r, hr, hs⟩))
  | either left right ihleft ihright =>
      have hleft : ∀ s ∈ preorderBody true left, s.Proper := fun s hs =>
        h s (List.mem_cons_of_mem _ (List.mem_append_left _ hs))
      have hfresh : Fresh (renderBody left) :=
        fresh_renderBody fun r hr => ihleft r hr (proper_of_mem_body hleft hr)
      exact hfresh.append (Fresh.cons (by decide) _)
  | repeated part q greedy ih =>
      have hproper := h _ (mem_preorder_self true _)
      exact (ih fun s hs => h s (List.mem_cons_of_mem _ hs)).append_of_ne_nil
        (render_ne_nil hproper.1) _
  | anchor kind => cases kind <;> exact Fresh.cons (by decide) _
  | capturing number body ih => exact Fresh.enclose _ _
  | grouping body ih => exact Fresh.enclose _ _
  | lookaround body direction positive ih => exact Fresh.enclose _ _
  | _ => exact Fresh.cons (by decide) _

end Regex

end RegexWords
