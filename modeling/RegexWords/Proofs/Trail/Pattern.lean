import RegexWords.Enumeration
import RegexWords.Proofs.Trail.Plan
import RegexWords.Proofs.Tree

/-!
# The Trail of a Pattern

One equation for each kind of node says which trail it leaves, in terms of the trails of the
nodes below it. They hold for strings and for provenance alike.

## Main results

* `Plan.trail_leaves`: the outcomes of the characters of a range, ascending.
* `Regex.trail_sequence`, `Regex.trail_either`, `Regex.trail_repeated`, `Regex.trail_charClass`,
  `Regex.trail_capturing`, …: **the trail of a tree**, node by node.
-/

namespace RegexWords

variable {ω : Type} [Outcome ω]

/-- The outcomes of a range are those of its characters outside the excluded ranges. -/
@[simp] theorem Plan.trail_leaves (origin : Origin) (range : CodeRange)
    (excluded : List CodeRange) :
    (Plan.leaves origin range excluded : Plan Effect ω).trail =
      Trail.items ((range.charsOutside excluded).map fun c =>
        Outcome.leaf origin c.toString) := by
  rw [Plan.leaves, Plan.trail_range, CodeRange.charsOutside, CodeRange.chars]
  congr 1
  induction List.range' range.first range.count with
  | nil => rfl
  | cons n ns ih =>
      rw [List.filterMap_cons, List.filterMap_cons, ih]
      cases charOfCode? n with
      | none => rfl
      | some c =>
          simp only [Option.bind_eq_bind, Option.bind_some, List.filter_cons]
          cases excluded.any (·.contains c) <;> rfl

@[simp] theorem Plan.trail_wrap (origin : Origin) (p : Plan Effect ω) :
    (p.wrap origin).trail = p.trail.map (Outcome.wrap origin) :=
  Plan.trail_map _ p

/-- For strings a wrap changes nothing. -/
theorem Trail.map_wrap_string (origin : Origin) (t : Trail Effect String) :
    t.map (Outcome.wrap origin) = t := by
  ext1
  · funext n
    exact Option.map_id_apply
  · rfl

/-! ### Classes -/

namespace ClassMember

/-- The characters of a class member: those of its range or, in a negated class, those of the
alphabet outside of it. A shorthand has none. -/
def chars (alphabet : CodeRange) (negated : Bool) (m : ClassMember) : List Char :=
  match m.codes? with
  | none => []
  | some codes => if negated then alphabet.charsOutside [codes] else codes.chars

/-- A class member has the outcomes of its characters. -/
theorem trail_plan (alphabet : CodeRange) (negated : Bool) (m : ClassMember) :
    (m.plan alphabet negated : Plan Effect ω).trail =
      Trail.items ((m.chars alphabet negated).map fun c =>
        Outcome.leaf (.member m) c.toString) := by
  rw [plan, chars]
  cases m.codes? with
  | none => exact Plan.trail_empty
  | some codes =>
      cases negated with
      | true => exact Plan.trail_leaves _ alphabet [codes]
      | false =>
          have hchars : codes.charsOutside [] = codes.chars :=
            List.filter_eq_self.2 fun _ _ => rfl
          simp [hchars]

end ClassMember

/-! ### Nodes -/

namespace Regex

variable (alphabet : CodeRange)

/-- The **trail** of a tree is that of its plan. -/
def trail (r : Regex) : Trail Effect ω :=
  (r.plan alphabet).trail

/-- The trail of a tree that may be absent. -/
def bodyTrail (body : Option Regex) : Trail Effect ω :=
  (planBody alphabet body).trail

/-- The trail of a tree is fused. -/
theorem fused_trail (r : Regex) : (r.trail alphabet : Trail Effect ω).Fused :=
  (r.plan alphabet).fused_trail

/-- The trails of several trees are fused. -/
theorem fused_trails (rs : List Regex) :
    ∀ t ∈ rs.map (trail alphabet : Regex → Trail Effect ω), t.Fused := by
  intro t ht
  obtain ⟨r, -, rfl⟩ := List.mem_map.1 ht
  exact fused_trail alphabet r

/-- The plans of several trees, one by one. -/
theorem planList_eq (rs : List Regex) :
    (planList alphabet rs : List (Plan Effect ω)) = rs.map (plan alphabet) := by
  induction rs with
  | nil => rfl
  | cons r rs ih => rw [planList, ih, List.map_cons]

@[simp] theorem bodyTrail_none : (bodyTrail alphabet none : Trail Effect ω) = Trail.items [] :=
  Plan.trail_empty

theorem bodyTrail_some (r : Regex) :
    (bodyTrail alphabet (some r) : Trail Effect ω) = r.trail alphabet := rfl

theorem trail_literal (c : Char) :
    ((literal c).trail alphabet : Trail Effect ω) =
      Trail.items [Outcome.leaf (.regex (literal c)) c.toString] :=
  Plan.trail_once _

theorem trail_dot :
    (dot.trail alphabet : Trail Effect ω) =
      Trail.items (alphabet.chars.map fun c => Outcome.leaf (.regex dot) c.toString) := by
  have hchars : alphabet.charsOutside [] = alphabet.chars :=
    List.filter_eq_self.2 fun _ _ => rfl
  rw [← hchars]
  exact Plan.trail_leaves (.regex dot) alphabet []

theorem trail_sequence (parts : List Regex) :
    ((sequence parts).trail alphabet : Trail Effect ω) =
      (Trail.product (parts.map (trail alphabet))).map
        (Outcome.joined (.regex (sequence parts))) := by
  have hparts : (planList alphabet parts : List (Plan Effect ω)).map Plan.trail =
      parts.map (trail alphabet) := by
    rw [planList_eq, List.map_map]
    rfl
  rw [← hparts]
  exact Plan.trail_product _ _

/-- The strings of a sequence: joined tuples of strings of its parts. -/
theorem trail_sequence_string (parts : List Regex) :
    ((sequence parts).trail alphabet : Trail Effect String) =
      (Trail.product (parts.map (trail alphabet))).map String.join :=
  trail_sequence alphabet parts

theorem trail_either (left right : Option Regex) :
    ((either left right).trail alphabet : Trail Effect ω) =
      (Trail.concat ([left, right].map (bodyTrail alphabet))).map
        (Outcome.wrap (.regex (either left right))) := by
  have hparts : (Plan.concat ([left, right].map (planBody alphabet)) : Plan Effect ω).trail =
      Trail.concat ([left, right].map (bodyTrail alphabet)) :=
    Plan.trail_concat _
  rw [← hparts]
  exact Plan.trail_wrap _ _

theorem trail_repeated (part : Regex) (q : Quantifier) (greedy : Bool) :
    ((repeated part q greedy).trail alphabet : Trail Effect ω) =
      (Trail.power q.bounds.min q.bounds.max (part.trail alphabet)).map
        (Outcome.repeated (.regex (repeated part q greedy))) :=
  Plan.trail_power _ q.bounds.min q.bounds.max (part.plan alphabet)

theorem trail_charClass (members : List ClassMember) (negated : Bool) :
    ((charClass members negated).trail alphabet : Trail Effect ω) =
      (Trail.concat (members.map fun m =>
          Trail.items ((m.chars alphabet negated).map fun c =>
            Outcome.leaf (.member m) c.toString))).map
        (Outcome.wrap (.regex (charClass members negated))) := by
  have hmembers :
      (Plan.concat (members.map (ClassMember.plan alphabet negated)) : Plan Effect ω).trail =
        Trail.concat (members.map fun m =>
          Trail.items ((m.chars alphabet negated).map fun c =>
            Outcome.leaf (.member m) c.toString)) := by
    rw [Plan.trail_concat, List.map_map]
    simp only [Function.comp_def, ClassMember.trail_plan]
  rw [← hmembers]
  exact Plan.trail_wrap _ _

theorem trail_shorthand (kind : Shorthand) :
    ((shorthand kind).trail alphabet : Trail Effect ω) = Trail.items [] :=
  Plan.trail_empty

theorem trail_anchor (kind : Anchor) :
    ((anchor kind).trail alphabet : Trail Effect ω) =
      Trail.items [Outcome.leaf (.regex (anchor kind)) ""] :=
  Plan.trail_once _

theorem trail_capturing (number : ℕ) (body : Option Regex) :
    ((capturing number body).trail alphabet : Trail Effect ω) =
      ((bodyTrail alphabet body).tap fun o => .capture number (Outcome.value o)).map
        (Outcome.wrap (.regex (capturing number body))) := by
  have hbody :
      ((planBody alphabet body : Plan Effect ω).tap fun o =>
          .capture number (Outcome.value o)).trail =
        (bodyTrail alphabet body).tap fun o => .capture number (Outcome.value o) :=
    Plan.trail_tap _ _
  rw [← hbody]
  exact Plan.trail_wrap _ _

theorem trail_grouping (body : Option Regex) :
    ((grouping body).trail alphabet : Trail Effect ω) =
      (bodyTrail alphabet body).map (Outcome.wrap (.regex (grouping body))) :=
  Plan.trail_wrap _ (planBody alphabet body)

theorem trail_backreference (number : ℕ) :
    ((backreference number).trail alphabet : Trail Effect ω) =
      (Trail.items [Outcome.leaf (.regex (backreference number)) (placeholder number)]).tap
        fun _ => .resolve number := by
  rw [← Plan.trail_once]
  exact Plan.trail_tap _ _

theorem trail_lookaround (body : Option Regex) (direction : Direction) (positive : Bool) :
    ((lookaround body direction positive).trail alphabet : Trail Effect ω) =
      Trail.items [Outcome.leaf (.regex (lookaround body direction positive)) ""] :=
  Plan.trail_once _

end Regex

end RegexWords
