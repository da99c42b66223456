import RegexWords.Proofs.Derivation
import RegexWords.Proofs.Quoted
import RegexWords.Proofs.Rendering.RoundTrip
import RegexWords.Provenance.Outline

/-!
# The Lines of an Outline

An outline has the lines of its nodes in preorder, each behind the rails that lead to it. A value
is quoted, so nothing in it breaks a line. A label is not: it consists of words, except that a range
of a class is shown by its two ends, whatever characters these are, and an end that is a line break
makes two lines of one. So there is one line for each node exactly if no range that has produced
a value has a line break for an end.

## Main definitions

* `Origin.ends`: the ends of a range.
* `Provenance.Lines`: a text has one line for each of several nodes.

## Main results

* `Origin.exists_range_or_isWord`: what is told of an element is a word, unless it is a range.
* `Provenance.lines_outline`: **the lines of an outline**, and how many line breaks it has.
* `Provenance.exists_outline_newline`: an outline with more lines than nodes.
-/

namespace RegexWords

/-! ### Labels -/

/-- A **word** has nothing in it that would end it: no blank, no line break and no quote. -/
structure IsWord (text : String) : Prop where
  blank_notMem : ' ' ∉ text.toList
  newline_notMem : '\n' ∉ text.toList
  quote_notMem : '"' ∉ text.toList

instance : DecidablePred IsWord := fun text =>
  decidable_of_iff (' ' ∉ text.toList ∧ '\n' ∉ text.toList ∧ '"' ∉ text.toList)
    ⟨fun h => ⟨h.1, h.2.1, h.2.2⟩,
      fun h => ⟨h.blank_notMem, h.newline_notMem, h.quote_notMem⟩⟩

/-- Words put together are one word. -/
theorem IsWord.append {text text' : String} (h : IsWord text) (h' : IsWord text') :
    IsWord (text ++ text') := by
  constructor
  · rw [String.toList_append, List.mem_append]
    exact not_or.2 ⟨h.blank_notMem, h'.blank_notMem⟩
  · rw [String.toList_append, List.mem_append]
    exact not_or.2 ⟨h.newline_notMem, h'.newline_notMem⟩
  · rw [String.toList_append, List.mem_append]
    exact not_or.2 ⟨h.quote_notMem, h'.quote_notMem⟩

/-- A number is written as a word. -/
theorem isWord_toString (n : ℕ) : IsWord (toString n) := by
  have hdigit : ∀ c ∈ (toString n).toList, c.isDigit := (isNumeral_toString n).2
  constructor
  · exact fun h => absurd (hdigit _ h) (by decide)
  · exact fun h => absurd (hdigit _ h) (by decide)
  · exact fun h => absurd (hdigit _ h) (by decide)

/-- Bounds are shown as a word. -/
theorem Bounds.isWord_label (b : Bounds) : IsWord b.label := by
  have hmax : IsWord ((b.max.map toString).getD "") := by
    cases b.max with
    | none => decide
    | some m => exact isWord_toString m
  have hopen : IsWord "\x7b" := by decide
  have hcomma : IsWord "," := by decide
  have hclose : IsWord "\x7d" := by decide
  exact (((hopen.append (isWord_toString b.min)).append hcomma).append hmax).append hclose

namespace Origin

/-- The **ends** of a range; other elements have none. -/
def ends : Origin → List Char
  | member (.range first last) => [first, last]
  | _ => []

/-- The kind of an element is shown as a word. -/
theorem isWord_kind (o : Origin) : IsWord o.kind := by
  cases o with
  | pattern p =>
      rw [kind]
      decide
  | regex r =>
      rw [kind]
      cases r <;> (rw [Regex.kind]; decide)
  | member m =>
      rw [kind]
      cases m <;> (rw [ClassMember.kind]; decide)

/-- What is told of an element beside its kind is **a word, unless it is a range**. -/
theorem exists_range_or_isWord (o : Origin) :
    (∃ first last, o = member (.range first last)) ∨
      (o.ends = [] ∧ ∀ detail ∈ o.detail?, IsWord detail) := by
  have hnone : ∀ detail ∈ (none : Option String), IsWord detail := fun _ h =>
    absurd h (Option.not_mem_none _)
  have hsome : ∀ {text : String}, IsWord text → ∀ detail ∈ some text, IsWord detail := by
    rintro text h detail ⟨⟩
    exact h
  cases o with
  | pattern p => exact Or.inr ⟨rfl, hnone⟩
  | regex r =>
      refine Or.inr ⟨rfl, ?_⟩
      cases r with
      | capturing number body =>
          have hmark : IsWord "#" := by decide
          exact hsome (hmark.append (isWord_toString number))
      | backreference number =>
          have hmark : IsWord "\\" := by decide
          exact hsome (hmark.append (isWord_toString number))
      | repeated part q greedy => exact hsome q.bounds.isWord_label
      | charClass members negated =>
          cases negated with
          | false => exact hnone
          | true => exact hsome (by decide)
      | _ => exact hnone
  | member m =>
      cases m with
      | range first last => exact Or.inl ⟨first, last, rfl⟩
      | _ => exact Or.inr ⟨rfl, hnone⟩

/-- The characters of a label: those of the kind, and those of the detail after a blank. -/
theorem toList_label (o : Origin) :
    o.label.toList = o.kind.toList ++ (o.detail?.elim [] fun detail => ' ' :: detail.toList) := by
  rw [label]
  cases o.detail? with
  | none => simp
  | some detail => simp

/-- The line breaks in a label are those among the ends of a range. -/
theorem count_newline_label (o : Origin) : o.label.toList.count '\n' = o.ends.count '\n' := by
  rw [toList_label, List.count_append, List.count_eq_zero_of_not_mem (isWord_kind o).newline_notMem,
    Nat.zero_add]
  obtain ⟨first, last, rfl⟩ | ⟨hends, hdetail⟩ := o.exists_range_or_isWord
  · simp [detail?, ends, List.count_cons]
  · rw [hends]
    cases hd : o.detail? with
    | none => rfl
    | some detail =>
        have hword := (hdetail detail hd).newline_notMem
        simp [List.count_eq_zero_of_not_mem hword]

end Origin

/-! ### Lines -/

/-- The line breaks in the line of a node: one at its end, and those in its label. -/
theorem Snapshot.count_newline_line (label value : String) :
    (line label value).toList.count '\n' = label.toList.count '\n' + 1 := by
  have hvalue := List.count_eq_zero_of_not_mem (Text.newline_notMem_quoted value)
  simp [line, List.count_append, hvalue]

/-- The **rails**: what leads from the margin to a label. -/
def rails : List Char :=
  [' ', '│', '├', '└', '─']

namespace Provenance

/-- **Induction over provenance trees.** What holds of a tree whenever it holds of its children
holds of every tree. -/
@[elab_as_elim, induction_eliminator]
theorem induction {motive : Provenance → Prop}
    (of : ∀ origin value children, (∀ child ∈ children, motive child) →
      motive (of origin value children)) (tree : Provenance) : motive tree := by
  refine @Provenance.rec motive (fun trees => ∀ tree ∈ trees, motive tree) of ?_ ?_ tree
  · simp
  · intro tree trees htree htrees
    simpa using ⟨htree, htrees⟩

/-- A text has **one line for each node**: rails, the label and the value. -/
inductive Lines : List Provenance → String → Prop
  | nil : Lines [] ""
  | cons {lead : String} {node : Provenance} {nodes : List Provenance} {text : String} :
      lead.toList ⊆ rails → Lines nodes text →
      Lines (node :: nodes) (lead ++ Snapshot.line node.origin.label node.value ++ text)

/-- Lines of some nodes and lines of others. -/
theorem Lines.append {nodes nodes' : List Provenance} {text text' : String} (h : Lines nodes text)
    (h' : Lines nodes' text') : Lines (nodes ++ nodes') (text ++ text') := by
  induction h with
  | nil =>
      rw [String.empty_append]
      exact h'
  | cons hlead _ ih =>
      rw [String.append_assoc]
      exact .cons hlead ih

/-- There is **one line break for each node**, and one more for each that is an end of a range. -/
theorem Lines.count_newline {nodes : List Provenance} {text : String} (h : Lines nodes text) :
    text.toList.count '\n' =
      nodes.length + (nodes.flatMap (·.origin.ends)).count '\n' := by
  induction h with
  | nil => rfl
  | @cons lead node nodes text hlead _ ih =>
      have hzero : lead.toList.count '\n' = 0 :=
        List.count_eq_zero_of_not_mem fun h => absurd (hlead h) (by decide)
      rw [String.toList_append, String.toList_append, List.count_append, List.count_append, hzero,
        Snapshot.count_newline_line, Origin.count_newline_label, ih, List.flatMap_cons,
        List.count_append, List.length_cons]
      omega

/-- The line of a node, and below it the lines of its children. -/
theorem branch_snapshot (indent : String) (isLast : Bool) (origin : Origin) (value : String)
    (children : List Provenance) :
    (of origin value children).snapshot.branch indent isLast =
      indent ++ (if isLast then "└─ " else "├─ ") ++ Snapshot.line origin.label value ++
        Snapshot.branches (indent ++ if isLast then "  " else "│ ") (snapshots children) :=
  rfl

/-- The lines of several siblings, if there are lines of each. -/
theorem lines_branches {trees : List Provenance} {indent : String}
    (h : ∀ tree ∈ trees, ∀ isLast, Lines tree.nodes (tree.snapshot.branch indent isLast)) :
    Lines (nodesList trees) (Snapshot.branches indent (snapshots trees)) := by
  induction trees with
  | nil => exact .nil
  | cons tree trees ih =>
      exact (h tree List.mem_cons_self _).append
        (ih fun tree htree => h tree (List.mem_cons_of_mem _ htree))

/-- The lines of a tree among its siblings. -/
theorem lines_branch (tree : Provenance) {indent : String} (hindent : indent.toList ⊆ rails)
    (isLast : Bool) : Lines tree.nodes (tree.snapshot.branch indent isLast) := by
  induction tree generalizing indent isLast with
  | of origin value children ih =>
      have hlead : (indent ++ if isLast then "└─ " else "├─ ").toList ⊆ rails := by
        rw [String.toList_append]
        exact List.append_subset.2 ⟨hindent, by cases isLast <;> decide⟩
      have hbelow : (indent ++ if isLast then "  " else "│ ").toList ⊆ rails := by
        rw [String.toList_append]
        exact List.append_subset.2 ⟨hindent, by cases isLast <;> decide⟩
      rw [branch_snapshot]
      exact .cons hlead (lines_branches fun child hchild => ih child hchild hbelow)

/-- **The lines of an outline.** It has the lines of the nodes of the tree in preorder. Of the line
breaks in it there is one for each node and one for each that is an end of a range. So there are as
many lines as nodes exactly if no range that has produced a value has a line break for an end. -/
theorem lines_outline (tree : Provenance) :
    Lines tree.nodes tree.snapshot.outline ∧
      tree.snapshot.outline.toList.count '\n' =
        tree.nodes.length + (tree.nodes.flatMap (·.origin.ends)).count '\n' ∧
      (tree.snapshot.outline.toList.count '\n' = tree.nodes.length ↔
        ∀ node ∈ tree.nodes, '\n' ∉ node.origin.ends) := by
  have hlines : Lines tree.nodes tree.snapshot.outline := by
    cases tree with
    | of origin value children =>
        have hbelow : Lines (nodesList children) (Snapshot.branches "" (snapshots children)) :=
          lines_branches fun child _ => child.lines_branch (List.nil_subset _)
        have hlead : "".toList ⊆ rails := List.nil_subset _
        exact .cons hlead hbelow
  refine ⟨hlines, hlines.count_newline, ?_⟩
  rw [hlines.count_newline, Nat.add_eq_left, List.count_eq_zero, List.mem_flatMap, not_exists]
  exact forall_congr' fun node => not_and

/-- A range from a line break on is shown on two lines, so the first tree of a class with this range
has three nodes and an outline of four lines. -/
theorem exists_outline_newline :
    ∃ (p : Pattern) (tree : Provenance), Pattern.ofText "[\n-a]" = .ok p ∧
      (Enumeration.ofPattern p {} : Enumeration Provenance).next.1 = some tree ∧
      tree.snapshot.outline =
        "Pattern \"\\n\"\n└─ CharClass \"\\n\"\n  └─ ClassRange \n-a \"\\n\"\n" ∧
      tree.nodes.length = 3 ∧ tree.snapshot.outline.toList.count '\n' = 4 := by
  let p : Pattern := ⟨some (.charClass [.range '\n' 'a'] false), 0⟩
  have hp : p.WellFormed := by decide
  have hrender : p.render = "[\n-a]" := by decide
  refine ⟨p, _, hrender ▸ hp.ofText_bare, rfl, ?_, ?_, ?_⟩
  · decide
  · decide
  · decide

end Provenance

end RegexWords
