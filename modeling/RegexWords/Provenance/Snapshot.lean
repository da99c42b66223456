import RegexWords.Provenance

/-!
# Snapshots

A provenance tree holds the elements of the pattern themselves. A snapshot of it holds only how
they are shown, so it can be written down and compared.

## Main definitions

* `Snapshot`: the tree of labels and values.
* `Provenance.snapshot`: the snapshot of a provenance tree.
-/

namespace RegexWords

/-- A provenance tree in which every element is given by its **kind** and its **label**. -/
inductive Snapshot
  | node (kind label value : String) (children : List Snapshot)

mutual

/-- The snapshot of a provenance tree. -/
def Provenance.snapshot : Provenance → Snapshot
  | of origin value children => .node origin.kind origin.label value (snapshots children)

/-- The snapshots of several provenance trees. -/
def Provenance.snapshots : List Provenance → List Snapshot
  | [] => []
  | p :: ps => p.snapshot :: snapshots ps

end

end RegexWords
