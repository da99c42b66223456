import RegexWords.Options
import RegexWords.Pattern
import RegexWords.Text.Quoted

/-!
# Notices

What an enumeration reports while it is set up and while it runs.

## Main definitions

* `Regex.notices`: what is reported for the parts of a tree when its plan is made.
* `Pattern.setupNotices`: what is reported for a whole pattern before its first value.
* `Notice.found`: what is reported for a value.
-/

namespace RegexWords

/-- How much a notice matters. -/
inductive Severity
  | warn
  | debug
  | trace
deriving DecidableEq, Repr

/-- One report. -/
structure Notice where
  severity : Severity
  message : String
deriving DecidableEq, Repr

/-- The name of a shorthand class. -/
def Shorthand.name : Shorthand → String
  | digit => "Digit"
  | nonDigit => "NonDigit"
  | word => "Word"
  | nonWord => "NonWord"
  | space => "Space"
  | nonSpace => "NonSpace"

/-- The name of an anchor in a report; both kinds of word boundary share one. -/
def Anchor.description : Anchor → String
  | start => "start anchor"
  | finish => "end anchor"
  | wordBoundary => "word boundary"
  | nonWordBoundary => "word boundary"

namespace Notice

/-- An assertion was passed over. -/
def passedOver (description : String) : Notice :=
  ⟨.debug, "treating " ++ description ++ " as a no-op"⟩

/-- A value passed a place that is watched. -/
def passed (label value : String) : Notice :=
  ⟨.trace, label ++ ": " ++ Text.quoted value⟩

/-- A value of a pattern was found. -/
def found (value : String) : Notice :=
  passed "match" value

/-- An enumeration begins. -/
def enumerating (limit : Option Nat) : Notice :=
  let limit := match limit with
    | none => "None"
    | some n => "Some(" ++ toString n ++ ")"
  ⟨.debug, "enumerating pattern, limit " ++ limit⟩

/-- The plan of a pattern is made. -/
def building (groupCount : Nat) : Notice :=
  ⟨.debug, "building sources for pattern with " ++ toString groupCount ++ " groups"⟩

end Notice

/-- What is reported for a class member. -/
def ClassMember.notice? : ClassMember → Option Notice
  | shorthand kind =>
    some ⟨.warn, "no generator for Shorthand(" ++ kind.name ++ ") in character class"⟩
  | _ => none

/-- What is reported for a node itself. -/
def Regex.ownNotices : Regex → List Notice
  | anchor kind => [.passedOver kind.description]
  | lookaround _ _ _ => [.passedOver "lookaround"]
  | shorthand kind => [⟨.warn, "no generator for shorthand class " ++ kind.name⟩]
  | charClass members _ => members.filterMap ClassMember.notice?
  | _ => []

/-- What is reported for a tree that may be absent, in the order of its nodes. The bodies of
lookarounds are never looked at. -/
def Regex.notices (body : Option Regex) : List Notice :=
  (preorderBody false body).flatMap ownNotices

/-- What is reported when the plan of a pattern is made. -/
def Pattern.buildNotices (p : Pattern) : List Notice :=
  .building p.groupCount :: Regex.notices p.body

/-- What is reported before the first value of an enumeration. -/
def Pattern.setupNotices (p : Pattern) (options : Options) : List Notice :=
  .enumerating options.limit :: p.buildNotices

end RegexWords
