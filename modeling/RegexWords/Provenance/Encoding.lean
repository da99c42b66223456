import RegexWords.Json
import RegexWords.Provenance.Snapshot

/-!
# Snapshots as JSON

A snapshot is an object with the fields `node_type`, `label`, `value` and `children`, in this
order.

## Main definitions

* `Snapshot.toJson`: the writing.
-/

namespace RegexWords

mutual

/-- A provenance tree as JSON. -/
def Snapshot.toJson : Snapshot → Json
  | node kind label value children =>
    .object
      [("node_type", .string kind), ("label", .string label), ("value", .string value),
       ("children", .array (listToJson children))]

/-- Several provenance trees as JSON. -/
def Snapshot.listToJson : List Snapshot → List Json
  | [] => []
  | s :: rest => s.toJson :: listToJson rest

end

end RegexWords
