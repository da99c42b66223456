import RegexWords.Pattern.Reader
import RegexWords.Provenance.Encoding
import RegexWords.Provenance.Outline
import RegexWords.Session
import RegexWords.Text.Digits

/-!
# The command line

A command line names one pattern, a limit and a format, and its run prints the values of the
pattern. Arguments are taken from left to right; the first that is wrong, or that asks for the
version, decides.

## Main definitions

* `Invocation.ofArguments`: what the arguments ask for.
* `Request.report?`: what the run of a request prints, with a given printer of JSON values.
-/

namespace RegexWords

/-- The **formats** in which values are printed. -/
inductive Format
  /-- Every value on a line. -/
  | lines
  /-- An array of the values. -/
  | json
  /-- The outline of every value's provenance. -/
  | tree
  /-- An array of the values' provenance trees. -/
  | treeJson
deriving DecidableEq, Repr

/-- The format with the given name. -/
def Format.ofName? (name : String) : Option Format :=
  match name with
  | "lines" => some .lines
  | "json" => some .json
  | "tree" => some .tree
  | "tree-json" => some .treeJson
  | _ => none

/-- A request to print the values of a pattern. -/
structure Request where
  pattern : String
  limit : Option Nat := none
  format : Format := .lines
deriving DecidableEq, Repr

/-- What the arguments of a command line ask for. -/
inductive Invocation
  | request (request : Request)
  | version
  | help
  /-- The arguments do not fit together. -/
  | misuse
deriving DecidableEq, Repr

/-! ### Arguments -/

/-- The options that take a value. -/
inductive Setting
  | limit
  | format
deriving DecidableEq, Repr

/-- One argument by itself: a plain value, an option with the value attached to it if there is
one, or a request for information. -/
inductive Argument
  | plain
  | setting (setting : Setting) (attached : Option String)
  | version
  | help
  | unknown
deriving DecidableEq, Repr

/-- The argument that a long option stands for: a name, and after an equals sign a value. -/
def Argument.ofLong (text : List Char) : Argument :=
  let name := String.ofList (text.takeWhile (· ≠ '='))
  let attached := match text.dropWhile (· ≠ '=') with
    | [] => none
    | _ :: value => some (String.ofList value)
  match name, attached with
  | "limit", _ => .setting .limit attached
  | "format", _ => .setting .format attached
  | "version", none => .version
  | "help", none => .help
  | _, _ => .unknown

/-- The value attached to a short option; an equals sign may stand before it. -/
def attachedToShort? : List Char → Option String
  | [] => none
  | '=' :: value => some (String.ofList value)
  | value => some (String.ofList value)

/-- What one argument is. A lone dash is a plain value. -/
def Argument.ofText (text : String) : Argument :=
  match text.toList with
  | '-' :: '-' :: name => ofLong name
  | '-' :: 'l' :: rest => .setting .limit (attachedToShort? rest)
  | '-' :: 'f' :: rest => .setting .format (attachedToShort? rest)
  | '-' :: 'V' :: _ => .version
  | '-' :: 'h' :: _ => .help
  | '-' :: _ :: _ => .unknown
  | _ => .plain

/-- A limit as it is written: decimal digits, with a plus sign before them or not, that fit 64
bits. -/
def limitOfText? (text : String) : Option Nat :=
  let digits := match text.toList with
    | '+' :: rest => rest
    | all => all
  if digits.isEmpty || !digits.all Char.isDigit then none
  else
    let n := Text.decimalValue digits
    if n < UInt64.size then some n else none

/-- What the arguments so far have set. -/
structure Draft where
  pattern? : Option String := none
  limit? : Option Nat := none
  format? : Option Format := none
deriving DecidableEq, Repr

namespace Draft

/-- The draft with its pattern; there is only one. -/
def setPattern? (d : Draft) (text : String) : Option Draft :=
  match d.pattern? with
  | none => some { d with pattern? := some text }
  | some _ => none

/-- The draft with one more setting; each is made only once. -/
def set? (d : Draft) (setting : Setting) (text : String) : Option Draft :=
  match setting with
  | .limit =>
    if d.limit?.isSome then none
    else (limitOfText? text).map fun n => { d with limit? := some n }
  | .format =>
    if d.format?.isSome then none
    else (Format.ofName? text).map fun f => { d with format? := some f }

/-- What a finished draft asks for; without a pattern it asks for nothing. -/
def finish (d : Draft) : Invocation :=
  match d.pattern? with
  | none => .misuse
  | some pattern => .request ⟨pattern, d.limit?, d.format?.getD .lines⟩

/-- The invocation of a draft once plain values are added to it. -/
def addValues (d : Draft) : List String → Invocation
  | [] => d.finish
  | text :: rest =>
    match d.setPattern? text with
    | none => .misuse
    | some d => d.addValues rest

/-- The invocation of a draft once arguments are added to it. Two dashes alone end the
options. An option without attached value takes the next argument, which must not look like an
option. -/
def addArguments (d : Draft) (arguments : List String) : Invocation :=
  match arguments with
  | [] => d.finish
  | "--" :: rest => d.addValues rest
  | text :: rest =>
    match Argument.ofText text with
    | .plain =>
      match d.setPattern? text with
      | none => .misuse
      | some d => d.addArguments rest
    | .setting setting (some value) =>
      match d.set? setting value with
      | none => .misuse
      | some d => d.addArguments rest
    | .setting setting none =>
      match rest with
      | [] => .misuse
      | value :: rest =>
        match Argument.ofText value with
        | .plain =>
          match d.set? setting value with
          | none => .misuse
          | some d => d.addArguments rest
        | _ => .misuse
    | .version => .version
    | .help => .help
    | .unknown => .misuse

end Draft

/-- What the arguments of a command line ask for. -/
def Invocation.ofArguments (arguments : List String) : Invocation :=
  Draft.addArguments {} arguments

/-! ### Runs -/

/-- What a run leaves behind: its exit status, what it printed, and what it reported as
wrong. -/
structure Report where
  status : Nat
  output : String := ""
  errors : String := ""
deriving DecidableEq, Repr

/-- The number of values that are printed of a pattern that may go on without end, unless a
limit is given. -/
def defaultLimit : Nat := 100

namespace Request

/-- The limit under which the values of a pattern are printed; 0 asks for all of them. -/
def effectiveLimit (r : Request) (p : Pattern) : Option Nat :=
  match r.limit with
  | some 0 => none
  | some n => some n
  | none => if p.isUnbounded then some defaultLimit else none

/-- The values of a pattern as they are printed; `none` if there is no end to them. JSON values are
written by `pretty`. -/
def print? (r : Request) (pretty : Json → String) (p : Pattern) : Option String :=
  let options : Options := { limit := r.effectiveLimit p }
  match r.format with
  | .lines => (p.matches? options).map fun values => String.join (values.map (· ++ "\n"))
  | .json =>
    (p.matches? options).map fun values => pretty (.array (values.map .string)) ++ "\n"
  | .tree =>
    (p.provenances? options).map fun trees => String.join (trees.map (·.snapshot.outline))
  | .treeJson =>
    (p.provenances? options).map fun trees =>
      pretty (.array (trees.map (·.snapshot.toJson))) ++ "\n"

/-- The report of a run: the values, or what is wrong with the pattern. There is none if the
values have no end. -/
def report? (r : Request) (pretty : Json → String) : Option Report :=
  match Pattern.ofText r.pattern with
  | .error fault => some { status := 1, errors := "error: " ++ fault.message ++ "\n" }
  | .ok p => (r.print? pretty p).map fun output => { status := 0, output }

end Request

/-- The version line. -/
def versionLine : String :=
  "regex-enumerate 0.1.0\n"

/-- The lines that explain the arguments. -/
def usage : String :=
  "Usage: regex-enumerate [OPTIONS] <PATTERN>\n\n" ++
  "  -l, --limit <LIMIT>    Maximum number of matches; 0 means no limit\n" ++
  "  -f, --format <FORMAT>  lines, json, tree or tree-json\n" ++
  "  -V, --version          Print the version\n" ++
  "  -h, --help             Print this help\n"

/-- The report of an invocation; `none` if its values have no end. -/
def Invocation.report? : Invocation → Option Report
  | request r => r.report? Json.pretty
  | version => some { status := 0, output := versionLine }
  | help => some { status := 0, output := usage }
  | misuse => some { status := 2, errors := usage }

end RegexWords
