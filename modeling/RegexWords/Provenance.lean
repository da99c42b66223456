import RegexWords.Pattern
import RegexWords.Source.Repetition

/-!
# Where a value comes from

Every value of an enumeration comes from some element of the pattern's tree. `Provenance`
keeps that as a tree beside the value; an enumeration can produce such trees, or only the
strings. What it needs of either is gathered in the class `Outcome`, so that one enumeration
serves both.

## Main definitions

* `Origin`: an element of a pattern, with the label under which it is shown.
* `Provenance`: a value with its origin and the provenance of what it was made from.
* `Outcome`: what an enumeration produces, with instances for `String` and `Provenance`.
-/

namespace RegexWords

/-! ### Elements -/

/-- An **element** of a pattern from which a value can come. -/
inductive Origin
  | pattern (pattern : Pattern)
  | regex (regex : Regex)
  | member (member : ClassMember)

/-- The kind of a node, as it is shown. -/
def Regex.kind : Regex → String
  | literal _ => "Literal"
  | dot => "Dot"
  | sequence _ => "Concat"
  | either _ _ => "Disjunction"
  | repeated _ _ _ => "Repetition"
  | charClass _ _ => "CharClass"
  | shorthand _ => "ShorthandClass"
  | anchor _ => "Anchor"
  | capturing _ _ => "Group"
  | grouping _ => "NonCapturingGroup"
  | backreference _ => "Backreference"
  | lookaround _ _ _ => "Lookaround"

/-- The kind of a class member, as it is shown. -/
def ClassMember.kind : ClassMember → String
  | single _ => "ClassLiteral"
  | range _ _ => "ClassRange"
  | shorthand _ => "ClassShorthand"

/-- Bounds as they are written in braces. -/
def Bounds.label (b : Bounds) : String :=
  "\x7b" ++ toString b.min ++ "," ++ (b.max.map toString).getD "" ++ "\x7d"

namespace Origin

/-- The kind of an element. -/
def kind : Origin → String
  | pattern _ => "Pattern"
  | regex r => r.kind
  | member m => m.kind

/-- What tells an element from others of its kind, where something short does. -/
def detail? : Origin → Option String
  | regex (.capturing number _) => some ("#" ++ toString number)
  | regex (.backreference number) => some ("\\" ++ toString number)
  | regex (.repeated _ q _) => some q.bounds.label
  | regex (.charClass _ true) => some "^"
  | member (.range first last) => some (first.toString ++ "-" ++ last.toString)
  | _ => none

/-- The kind of an element with its detail. -/
def label (o : Origin) : String :=
  match o.detail? with
  | some detail => o.kind ++ " " ++ detail
  | none => o.kind

end Origin

/-- The elements of a node: the node itself and, for a class, its members. -/
def Regex.origins : Regex → List Origin
  | charClass members negated => .regex (charClass members negated) :: members.map .member
  | r => [.regex r]

/-- The elements of a pattern, the pattern itself first and every node before what stands below
it. -/
def Pattern.origins (p : Pattern) : List Origin :=
  .pattern p :: (Regex.preorderBody true p.body).flatMap Regex.origins

/-! ### Provenance trees -/

/-- A value with its **origin** and the provenance of what it was made from. -/
inductive Provenance
  | of (origin : Origin) (value : String) (children : List Provenance)

namespace Provenance

/-- The element that produced the value. -/
def origin : Provenance → Origin
  | of origin _ _ => origin

/-- The value. -/
def value : Provenance → String
  | of _ value _ => value

/-- The provenance of what the value was made from, in order. -/
def children : Provenance → List Provenance
  | of _ _ children => children

end Provenance

/-! ### Outcomes -/

/-- What an enumeration produces for each value: something that has a text and can be put
together along the tree of the pattern. -/
class Outcome (ω : Type) where
  /-- The text of an outcome. -/
  value : ω → String
  /-- A text that `origin` produces by itself. -/
  leaf (origin : Origin) (value : String) : ω
  /-- `origin` passing on what its only part produced. -/
  wrap (origin : Origin) (child : ω) : ω
  /-- What the parts of `origin` produced, one after the other. -/
  joined (origin : Origin) (parts : List ω) : ω
  /-- What was drawn again and again from the part of `origin`, one after the other. -/
  repeated (origin : Origin) (draws : List (Draw ω)) : ω
  /-- The outcome with another text. -/
  withValue (outcome : ω) (value : String) : ω

/-- Only the text is kept. -/
instance : Outcome String where
  value text := text
  leaf _ text := text
  wrap _ text := text
  joined _ texts := String.join texts
  repeated _ draws := String.join (draws.map (·.value))
  withValue _ text := text

/-- Everything is kept; what was drawn more than once is kept once. -/
instance : Outcome Provenance where
  value := Provenance.value
  leaf origin text := .of origin text []
  wrap origin child := .of origin child.value [child]
  joined origin parts := .of origin (String.join (parts.map Provenance.value)) parts
  repeated origin draws :=
    .of origin (String.join (draws.map (·.value.value))) ((Draw.distinct draws).map (·.value))
  withValue tree text := .of tree.origin text tree.children

end RegexWords
