import RegexWords.CodeRange
import RegexWords.Notice
import RegexWords.Plan
import RegexWords.Text.Replace

/-!
# Plans of texts

Plans whose values are tuples of texts. A single text is the tuple that holds just it, so the
same plans serve for texts and for tuples of them.

## Main definitions

* `Texts`: a tuple of texts.
* `Signal`: what such plans report.
* `Stage`: a change made to a text.
* `Plan.tuples`, `Plan.pairUp`, `Plan.repeatUp`, `Plan.joinUp`: plans of tuples.
-/

namespace RegexWords

/-- A tuple of texts. -/
abbrev Texts := List String

/-- What a plan of texts reports: a value that passed a tap, or a notice. -/
inductive Signal
  | tapped (label value : String)
  | noticed (notice : Notice)
deriving DecidableEq, Repr

/-- A **stage** that every text passes. -/
inductive Stage
  | append (text : String)
  | prepend (text : String)
  | replace (needle replacement : String)
deriving DecidableEq, Repr

/-- The text after a stage. -/
def Stage.apply : Stage → String → String
  | append text, s => s ++ text
  | prepend text, s => text ++ s
  | replace needle replacement, s => Text.replaceAll needle replacement s

namespace Plan

/-- The given tuples, in order. -/
def tuples (values : List Texts) : Plan Signal Texts :=
  items values

/-- The given texts, in order. -/
def texts (values : List String) : Plan Signal Texts :=
  items (values.map ([·]))

/-- The decimal numbers from `first` on. -/
def decimals (first : Nat) : Plan Signal Texts :=
  numbers (fun n => [toString n]) first

/-- The characters of a range. -/
def characters (range : CodeRange) : Plan Signal Texts :=
  .range (fun n => (charOfCode? n).map fun c => [c.toString]) range.first range.count

/-- Every text after all stages, in order. -/
def staged (stages : List Stage) (plan : Plan Signal Texts) : Plan Signal Texts :=
  plan.map (List.map fun text => stages.foldl (fun text stage => stage.apply text) text)

/-- Every text as it is, reported under a label. -/
def tapped (label : String) (plan : Plan Signal Texts) : Plan Signal Texts :=
  plan.tap fun t => .tapped label (String.join t)

/-- Every text as it is, with a notice. -/
def noticed (label : String) (plan : Plan Signal Texts) : Plan Signal Texts :=
  plan.tap fun t => .noticed (.passed label (String.join t))

/-- Every tuple as one text. -/
def joinUp (plan : Plan Signal Texts) : Plan Signal Texts :=
  plan.map fun t => [String.join t]

/-- The tuples of one tuple of each plan, one after the other. -/
def pairUp (plans : List (Plan Signal Texts)) : Plan Signal Texts :=
  product List.flatten plans

/-- The tuples of repeated draws from a plan, one after the other. -/
def repeatUp (min : Nat) (max : Option Nat) (plan : Plan Signal Texts) : Plan Signal Texts :=
  power (fun draws => draws.flatMap (·.value)) min max plan

end Plan

end RegexWords
