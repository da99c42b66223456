import RegexWords.Captures
import RegexWords.Options
import RegexWords.Plan
import RegexWords.Provenance

/-!
# The plan of a pattern

How the values of a regular expression are enumerated, node by node. A sequence is a product, a
repetition a power, alternatives and classes are one plan after the other. A capturing group
records every text its body produces; a backreference produces its placeholder and records
that it was evaluated. Assertions produce the empty text once. Shorthand classes, absent
alternatives and empty group bodies produce nothing.

## Main definitions

* `Regex.plan`: the plan of a tree.
* `Regex.references`: the groups that the plan of a tree refers to.
* `Pattern.plan`: the plan of a pattern's body.
-/

namespace RegexWords

variable {ω : Type} [Outcome ω]

/-- One outcome for each character of a range that lies in none of `excluded`, ascending. -/
def Plan.leaves (origin : Origin) (range : CodeRange) (excluded : List CodeRange) :
    Plan Effect ω :=
  .range (fun n => do
      let c ← charOfCode? n
      if excluded.any (·.contains c) then none
      else some (Outcome.leaf origin c.toString))
    range.first range.count

/-- Every outcome of a plan as what the only part of `origin` produced. -/
def Plan.wrap (origin : Origin) (plan : Plan Effect ω) : Plan Effect ω :=
  plan.map (Outcome.wrap origin)

/-- The plan of a class member: its characters. In a negated class these are the characters of
the alphabet that lie outside the member, whatever the other members are. -/
def ClassMember.plan (alphabet : CodeRange) (negated : Bool) (m : ClassMember) : Plan Effect ω :=
  match m.codes? with
  | none => .empty
  | some codes =>
    if negated then .leaves (.member m) alphabet [codes] else .leaves (.member m) codes []

namespace Regex

mutual

/-- The plan of a regular expression whose `.` and negated classes draw from `alphabet`. -/
def plan (alphabet : CodeRange) : Regex → Plan Effect ω
  | literal c => .once (Outcome.leaf (.regex (literal c)) c.toString)
  | dot => .leaves (.regex dot) alphabet []
  | sequence parts =>
    .product (Outcome.joined (.regex (sequence parts))) (planList alphabet parts)
  | either left right =>
    .wrap (.regex (either left right))
      (.concat [planBody alphabet left, planBody alphabet right])
  | repeated part q greedy =>
    .power (Outcome.repeated (.regex (repeated part q greedy))) q.bounds.min q.bounds.max
      (part.plan alphabet)
  | charClass members negated =>
    .wrap (.regex (charClass members negated))
      (.concat (members.map (ClassMember.plan alphabet negated)))
  | shorthand _ => .empty
  | anchor kind => .once (Outcome.leaf (.regex (anchor kind)) "")
  | capturing number body =>
    .wrap (.regex (capturing number body))
      (.tap (fun o => .capture number (Outcome.value o)) (planBody alphabet body))
  | grouping body => .wrap (.regex (grouping body)) (planBody alphabet body)
  | backreference number =>
    .tap (fun _ => .resolve number)
      (.once (Outcome.leaf (.regex (backreference number)) (placeholder number)))
  | lookaround body direction positive =>
    .once (Outcome.leaf (.regex (lookaround body direction positive)) "")

/-- The plan of a tree that may be absent; an absent tree produces nothing. -/
def planBody (alphabet : CodeRange) : Option Regex → Plan Effect ω
  | none => .empty
  | some r => r.plan alphabet

/-- The plans of several trees. -/
def planList (alphabet : CodeRange) : List Regex → List (Plan Effect ω)
  | [] => []
  | r :: rs => r.plan alphabet :: planList alphabet rs

end

/-- The groups that a tree refers to outside lookarounds, in order. -/
def references (body : Option Regex) : List Nat :=
  (preorderBody false body).filterMap fun
    | backreference number => some number
    | _ => none

end Regex

/-- The plan of a pattern's body. -/
def Pattern.plan (alphabet : CodeRange) (p : Pattern) : Plan Effect ω :=
  Regex.planBody alphabet p.body

/-- The captures once every reference of a body is known. -/
def Captures.referAll (c : Captures) (body : Option Regex) : Captures :=
  (Regex.references body).foldl refer c

/-- The outcome of a whole pattern: placeholders have given way to what the captures say. -/
def Outcome.ofPattern (p : Pattern) (captures : Captures) (body : ω) : ω :=
  wrap (.pattern p) (withValue body (captures.finish (value body)))

end RegexWords
