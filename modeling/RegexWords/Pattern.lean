import RegexWords.CodeRange

/-!
# Pattern trees

The tree of a regular expression, as it is read from text or built by hand. A tree is plain
data: an absent alternative or an empty group body is `none`, and nothing stops a tree built by
hand from holding an empty sequence, a reversed range or bounds out of order.

## Main definitions

* `Regex`: one node with everything below it.
* `Pattern`: an optional body with the number of its capturing groups.
* `Quantifier.bounds`: how often a quantifier repeats.
* `Regex.isUnbounded`: whether some repetition in the tree has no upper bound.
* `Regex.preorder`: the nodes of a tree, each before what stands below it.
-/

namespace RegexWords

/-- The classes with a letter of their own: `\d`, `\w`, `\s` and their complements. -/
inductive Shorthand
  | digit
  | nonDigit
  | word
  | nonWord
  | space
  | nonSpace
deriving DecidableEq, Repr

/-- The assertions about a position: `^`, `$`, `\b` and `\B`. -/
inductive Anchor
  | start
  | finish
  | wordBoundary
  | nonWordBoundary
deriving DecidableEq, Repr

/-- The side on which a lookaround looks. -/
inductive Direction
  | ahead
  | behind
deriving DecidableEq, Repr

/-- How often something is repeated: at least `min` times and, if there is a `max`, at most
`max` times. -/
structure Bounds where
  min : Nat
  max : Option Nat
deriving DecidableEq, Repr

/-- A **quantifier** as it is written. -/
inductive Quantifier
  /-- `*` -/
  | star
  /-- `+` -/
  | plus
  /-- `?` -/
  | question
  /-- The braces with one number. -/
  | exactly (n : Nat)
  /-- The braces with a number and a comma. -/
  | atLeast (n : Nat)
  /-- The braces with two numbers. -/
  | between (n m : Nat)
deriving DecidableEq, Repr

/-- The bounds a quantifier stands for. -/
def Quantifier.bounds : Quantifier → Bounds
  | star => ⟨0, none⟩
  | plus => ⟨1, none⟩
  | question => ⟨0, some 1⟩
  | exactly n => ⟨n, some n⟩
  | atLeast n => ⟨n, none⟩
  | between n m => ⟨n, some m⟩

/-- A **member** of a bracketed class. -/
inductive ClassMember
  | single (c : Char)
  | range (first last : Char)
  | shorthand (kind : Shorthand)
deriving DecidableEq, Repr

/-- The code points a class member stands for; a shorthand has no range. -/
def ClassMember.codes? : ClassMember → Option CodeRange
  | single c => some (.single c)
  | range first last => some ⟨first.toNat, last.toNat⟩
  | shorthand _ => none

/-- A **regular expression**: one node and everything below it. -/
inductive Regex
  /-- One character. -/
  | literal (c : Char)
  /-- `.`, any character of the alphabet. -/
  | dot
  /-- Parts one after the other. -/
  | sequence (parts : List Regex)
  /-- `left|right`; an empty side is absent. -/
  | either (left right : Option Regex)
  /-- A part with a quantifier; `greedy` is false for the lazy form. -/
  | repeated (part : Regex) (quantifier : Quantifier) (greedy : Bool)
  /-- A bracketed class. -/
  | charClass (members : List ClassMember) (negated : Bool)
  /-- A shorthand class outside brackets. -/
  | shorthand (kind : Shorthand)
  /-- An assertion about the position. -/
  | anchor (kind : Anchor)
  /-- A group that captures under a number. -/
  | capturing (number : Nat) (body : Option Regex)
  /-- A group that only groups. -/
  | grouping (body : Option Regex)
  /-- The text captured by a group. -/
  | backreference (number : Nat)
  /-- An assertion about what stands before or after. -/
  | lookaround (body : Option Regex) (direction : Direction) (positive : Bool)

/-- A whole **pattern**: its body, absent if the pattern is empty, and the number of its
capturing groups. -/
structure Pattern where
  body : Option Regex
  groupCount : Nat

namespace Regex

mutual

/-- Whether some repetition in the tree, the bodies of lookarounds included, has no upper
bound. -/
def isUnbounded : Regex → Bool
  | sequence parts => anyUnbounded parts
  | either left right => bodyUnbounded left || bodyUnbounded right
  | repeated part q _ => q.bounds.max.isNone || part.isUnbounded
  | capturing _ body => bodyUnbounded body
  | grouping body => bodyUnbounded body
  | lookaround body _ _ => bodyUnbounded body
  | literal _ | dot | charClass _ _ | shorthand _ | anchor _ | backreference _ => false

/-- Whether a tree that may be absent is unbounded. -/
def bodyUnbounded : Option Regex → Bool
  | none => false
  | some r => r.isUnbounded

/-- Whether one of several trees is unbounded. -/
def anyUnbounded : List Regex → Bool
  | [] => false
  | r :: rs => r.isUnbounded || anyUnbounded rs

end

mutual

/-- The nodes of a tree, each before what stands below it and siblings in order. With
`lookarounds` false the bodies of lookarounds are passed over. -/
def preorder (lookarounds : Bool) : Regex → List Regex
  | sequence parts => sequence parts :: preorderList lookarounds parts
  | either left right =>
    either left right :: (preorderBody lookarounds left ++ preorderBody lookarounds right)
  | repeated part q greedy => repeated part q greedy :: part.preorder lookarounds
  | capturing number body => capturing number body :: preorderBody lookarounds body
  | grouping body => grouping body :: preorderBody lookarounds body
  | lookaround body direction positive =>
    lookaround body direction positive ::
      if lookarounds then preorderBody lookarounds body else []
  | literal c => [literal c]
  | dot => [dot]
  | charClass members negated => [charClass members negated]
  | shorthand kind => [shorthand kind]
  | anchor kind => [anchor kind]
  | backreference number => [backreference number]

/-- The nodes of a tree that may be absent. -/
def preorderBody (lookarounds : Bool) : Option Regex → List Regex
  | none => []
  | some r => r.preorder lookarounds

/-- The nodes of several trees, one tree after the other. -/
def preorderList (lookarounds : Bool) : List Regex → List Regex
  | [] => []
  | r :: rs => r.preorder lookarounds ++ preorderList lookarounds rs

end

end Regex

/-- Whether some repetition in the pattern has no upper bound. -/
def Pattern.isUnbounded (p : Pattern) : Bool :=
  Regex.bodyUnbounded p.body

end RegexWords
