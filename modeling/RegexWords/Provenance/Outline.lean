import RegexWords.Provenance.Snapshot
import RegexWords.Text.Quoted

/-!
# Outlines

A provenance tree as text, one line a node and children below their parent:

    Pattern "ac"
    └─ Concat "ac"
      ├─ Group #1 "a"
      │ └─ Literal "a"
      └─ Literal "c"

## Main definitions

* `Snapshot.line`: the line of one node.
* `Snapshot.outline`: the text of a tree.
-/

namespace RegexWords

namespace Snapshot

/-- The line of a node: its label, and its value in quotes. -/
def line (label value : String) : String :=
  label ++ " " ++ Text.quoted value ++ "\n"

mutual

/-- The lines of a node and of everything below it, as the last or not the last of its siblings.
Every line begins with `indent`. -/
def branch (indent : String) (isLast : Bool) : Snapshot → String
  | node _ label value children =>
    indent ++ (if isLast then "└─ " else "├─ ") ++ line label value ++
      branches (indent ++ if isLast then "  " else "│ ") children

/-- The lines of several siblings. -/
def branches (indent : String) : List Snapshot → String
  | [] => ""
  | s :: rest => s.branch indent rest.isEmpty ++ branches indent rest

end

/-- The whole tree as text. -/
def outline : Snapshot → String
  | node _ label value children => line label value ++ branches "" children

end Snapshot

end RegexWords
