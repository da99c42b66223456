import RegexWords.Proofs.Outline

/-!
# Outlines Are Unambiguous

A line says which element it is for: its kind ends at the first blank, a range is told by three
characters whatever they are, and where anything else is told of an element it is a word, so the
quote after it cannot be mistaken. The value is quoted. How far a line is indented says below which
of the nodes before it its node stands, and its rail says whether a sibling follows. As a line
break in a label stands where three characters are expected in any case, nothing has to be assumed
of the labels.

Parts of an outline are compared in front of a rest that stands less deep, so that it cannot begin
with a line of the part.

## Main definitions

* `Outline.depth`: how far a text is indented.
* `Provenance.Determined`: a tree and its end can be told from its lines.

## Main results

* `Origin.line_append_inj`: a line determines what is shown of the element, and the value.
* `Provenance.determined`: the lines of a tree determine what is shown of it.
* `Provenance.outline_eq_iff`: **outlines are the same only for trees that are shown alike**.
-/

namespace RegexWords

/-! ### Labels -/

/-- A word before a blank does not begin with a quote. -/
theorem IsWord.append_ne_quote {text : String} (h : IsWord text) (rest rest' : List Char) :
    text.toList ++ ' ' :: rest ≠ '"' :: rest' := by
  intro heq
  cases hchars : text.toList with
  | nil =>
      rw [hchars] at heq
      exact absurd (List.cons.inj heq).1 (by decide)
  | cons c cs =>
      rw [hchars] at heq
      have hc : c = '"' := (List.cons.inj heq).1
      exact h.quote_notMem (by rw [hchars, hc]; exact List.mem_cons_self)

/-- A word with a blank after it, which may be missing, is determined if a quote follows, and so is
what follows the quote. -/
theorem optional_word_append_inj {word word' : Option String} {tail tail' : List Char}
    (hword : ∀ text ∈ word, IsWord text) (hword' : ∀ text ∈ word', IsWord text)
    (h : (word.elim [] fun text => text.toList ++ [' ']) ++ '"' :: tail =
      (word'.elim [] fun text => text.toList ++ [' ']) ++ '"' :: tail') :
    word = word' ∧ tail = tail' := by
  cases word with
  | none =>
      cases word' with
      | none => exact ⟨rfl, (List.cons.inj h).2⟩
      | some text' =>
          rw [Option.elim_some, List.append_assoc] at h
          exact absurd h.symm ((hword' text' rfl).append_ne_quote _ _)
  | some text =>
      cases word' with
      | none =>
          rw [Option.elim_some, List.append_assoc] at h
          exact absurd h ((hword text rfl).append_ne_quote _ _)
      | some text' =>
          rw [Option.elim_some, Option.elim_some, List.append_assoc, List.append_assoc] at h
          obtain ⟨htext, h⟩ := Text.delimited_inj (hword text rfl).blank_notMem
            (hword' text' rfl).blank_notMem h
          exact ⟨congrArg some (String.toList_inj.1 htext), (List.cons.inj h).2⟩

namespace Origin

/-- Only ranges are shown as ranges. -/
theorem exists_range_of_kind {o : Origin} (h : o.kind = "ClassRange") :
    ∃ first last, o = member (.range first last) := by
  cases o with
  | pattern p => exact absurd h (by rw [kind]; decide)
  | regex r =>
      rw [kind] at h
      cases r <;> exact absurd h (by rw [Regex.kind]; decide)
  | member m =>
      rw [kind] at h
      cases m with
      | range first last => exact ⟨first, last, rfl⟩
      | _ => exact absurd h (by rw [ClassMember.kind]; decide)

/-- What is told of an element that is no range is a word. -/
theorem isWord_of_kind_ne {o : Origin} (h : o.kind ≠ "ClassRange") :
    ∀ detail ∈ o.detail?, IsWord detail := by
  rcases o.exists_range_or_isWord with ⟨first, last, rfl⟩ | ⟨-, hword⟩
  · exact absurd rfl h
  · exact hword

/-- What is told of an element beside its kind, with the blank after it. -/
def detailText (o : Origin) : List Char :=
  o.detail?.elim [] fun detail => detail.toList ++ [' ']

/-- The line of an element: its kind up to the first blank, its detail and the quoted value. -/
theorem toList_line (o : Origin) (value : String) :
    (Snapshot.line o.label value).toList =
      o.kind.toList ++ ' ' :: (o.detailText ++ ((Text.quoted value).toList ++ ['\n'])) := by
  rw [Snapshot.line, String.toList_append, String.toList_append, String.toList_append,
    toList_label, detailText]
  cases o.detail? with
  | none => simp
  | some detail => simp

/-- Of two elements of one kind, what is told before a quote determines the detail. -/
theorem detailText_append_inj {o o' : Origin} (hkind : o.kind = o'.kind) {rest rest' : List Char}
    (hquote : rest.head? = some '"') (hquote' : rest'.head? = some '"')
    (h : o.detailText ++ rest = o'.detailText ++ rest') :
    o.detail? = o'.detail? ∧ rest = rest' := by
  obtain ⟨tail, rfl⟩ := List.head?_eq_some_iff.1 hquote
  obtain ⟨tail', rfl⟩ := List.head?_eq_some_iff.1 hquote'
  by_cases hrange : o.kind = "ClassRange"
  · obtain ⟨first, last, rfl⟩ := exists_range_of_kind hrange
    obtain ⟨first', last', rfl⟩ := exists_range_of_kind (hkind.symm.trans hrange)
    obtain ⟨hfirst, hlast, htail⟩ : first = first' ∧ last = last' ∧ tail = tail' := by
      simpa [detailText, detail?] using h
    exact ⟨by rw [hfirst, hlast], by rw [htail]⟩
  · obtain ⟨hdetail, htail⟩ := optional_word_append_inj (isWord_of_kind_ne hrange)
      (isWord_of_kind_ne (hkind ▸ hrange)) h
    exact ⟨hdetail, by rw [htail]⟩

/-- **A line determines** what is shown of its element, the value and where it ends. -/
theorem line_append_inj {o o' : Origin} {value value' : String} {rest rest' : List Char}
    (h : (Snapshot.line o.label value).toList ++ rest =
      (Snapshot.line o'.label value').toList ++ rest') :
    o.kind = o'.kind ∧ o.label = o'.label ∧ value = value' ∧ rest = rest' := by
  rw [toList_line, toList_line, List.append_assoc, List.append_assoc, List.cons_append,
    List.cons_append] at h
  obtain ⟨hkind, h⟩ := Text.delimited_inj (isWord_kind o).blank_notMem
    (isWord_kind o').blank_notMem h
  have hkind : o.kind = o'.kind := String.toList_inj.1 hkind
  have hquote : ∀ (text : String) (rest : List Char),
      ((Text.quoted text).toList ++ rest).head? = some '"' := by
    intro text rest
    rw [Text.toList_quoted]
    rfl
  simp only [List.append_assoc] at h
  obtain ⟨hdetail, h⟩ := detailText_append_inj hkind (hquote value _) (hquote value' _) h
  obtain ⟨hvalue, h⟩ := Text.quoted_append_inj h
  have hlabel : o.label = o'.label := by rw [label, label, hkind, hdetail]
  exact ⟨hkind, hlabel, hvalue, (List.cons.inj h).2⟩

end Origin

/-! ### Depth -/

/-- How far a text is **indented**: by the blanks and bars that it begins with. -/
def depth (text : List Char) : ℕ :=
  (text.takeWhile fun c => c = ' ' ∨ c = '│').length

/-- An **indent** consists of blanks and bars. -/
def IsIndent (indent : String) : Prop :=
  ∀ c ∈ indent.toList, c = ' ' ∨ c = '│'

/-- A text behind an indent is indented that far, if it does not begin with a blank or a bar. -/
theorem IsIndent.depth_append {indent : String} (h : IsIndent indent) {c : Char}
    (hc : ¬ (c = ' ' ∨ c = '│')) (text : List Char) :
    depth (indent.toList ++ c :: text) = indent.toList.length := by
  have hindent : ∀ d ∈ indent.toList, decide (d = ' ' ∨ d = '│') = true := fun d hd =>
    decide_eq_true (h d hd)
  rw [depth, List.takeWhile_append_of_pos hindent, List.takeWhile_cons_of_neg (by simpa using hc),
    List.append_nil]

/-- The indent below a node. -/
theorem IsIndent.below {indent : String} (h : IsIndent indent) (isLast : Bool) :
    IsIndent (indent ++ if isLast then "  " else "│ ") := by
  intro c hc
  rw [String.toList_append, List.mem_append] at hc
  rcases hc with hc | hc
  · exact h c hc
  · cases isLast with
    | true => exact Or.inl (by simpa using hc)
    | false => simpa [or_comm] using hc

/-- What stands below a node is indented two further. -/
theorem length_below (indent : String) (isLast : Bool) :
    (indent ++ if isLast then "  " else "│ ").toList.length = indent.toList.length + 2 := by
  cases isLast <;> simp

/-! ### Trees -/

namespace Provenance

/-- The rail before the label of a node: the last of its siblings ends it. -/
def corner (isLast : Bool) : Char :=
  if isLast then '└' else '├'

/-- The lines of a tree, behind the indent. -/
theorem toList_branch (indent : String) (isLast : Bool) (origin : Origin) (value : String)
    (children : List Provenance) :
    ((of origin value children).snapshot.branch indent isLast).toList =
      indent.toList ++ corner isLast :: '─' :: ' ' :: ((Snapshot.line origin.label value).toList ++
        (Snapshot.branches (indent ++ if isLast then "  " else "│ ")
          (snapshots children)).toList) := by
  rw [branch_snapshot]
  cases isLast <;> simp [corner]

/-- The lines of several trees. -/
theorem toList_branches (indent : String) (tree : Provenance) (trees : List Provenance) :
    (Snapshot.branches indent (snapshots (tree :: trees))).toList =
      (tree.snapshot.branch indent (snapshots trees).isEmpty).toList ++
        (Snapshot.branches indent (snapshots trees)).toList :=
  String.toList_append

/-- The lines of a tree begin with the indent, and no further. -/
theorem depth_branch {indent : String} (hindent : IsIndent indent) (isLast : Bool)
    (tree : Provenance) (rest : List Char) :
    depth ((tree.snapshot.branch indent isLast).toList ++ rest) = indent.toList.length := by
  cases tree with
  | of origin value children =>
      rw [toList_branch, List.append_assoc]
      exact hindent.depth_append (by cases isLast <;> decide) _

/-- A rest stands **less deep** than an indent. -/
def Outdented (indent : String) (rest : List Char) : Prop :=
  rest = [] ∨ depth rest < indent.toList.length

/-- A rest that stands less deep than an indent does not begin with a tree behind that indent. -/
theorem Outdented.ne_branch {indent : String} (hindent : IsIndent indent) {rest : List Char}
    (h : Outdented indent rest) (isLast : Bool) (tree : Provenance) (rest' : List Char) :
    rest ≠ (tree.snapshot.branch indent isLast).toList ++ rest' := by
  rintro rfl
  rcases h with h | h
  · cases tree with
    | of origin value children =>
        rw [toList_branch] at h
        simp at h
  · rw [depth_branch hindent] at h
    exact lt_irrefl _ h

/-- A tree is **determined** by its lines, in front of a rest that stands no deeper than the tree:
no other tree is shown in this way, and the rest is what follows. -/
def Determined (tree : Provenance) : Prop :=
  ∀ {indent : String} {isLast isLast' : Bool} {tree' : Provenance} {rest rest' : List Char},
    IsIndent indent → depth rest ≤ indent.toList.length → depth rest' ≤ indent.toList.length →
    (tree.snapshot.branch indent isLast).toList ++ rest =
      (tree'.snapshot.branch indent isLast').toList ++ rest' →
    tree.snapshot = tree'.snapshot ∧ rest = rest'

/-- What follows the first of several trees stands no deeper than that tree. -/
theorem depth_branches_le {indent : String} (hindent : IsIndent indent) {rest : List Char}
    (hrest : Outdented indent rest) (trees : List Provenance) :
    depth ((Snapshot.branches indent (snapshots trees)).toList ++ rest) ≤
      indent.toList.length := by
  cases trees with
  | nil =>
      rcases hrest with rfl | hrest
      · exact Nat.zero_le _
      · exact hrest.le
  | cons tree trees =>
      rw [toList_branches, List.append_assoc, depth_branch hindent]

/-- Several trees are determined by their lines, in front of a rest that stands less deep, if each
of them is. -/
theorem branches_append_inj {trees : List Provenance} (h : ∀ tree ∈ trees, Determined tree)
    {trees' : List Provenance} {indent : String} {rest rest' : List Char}
    (hindent : IsIndent indent) (hrest : Outdented indent rest) (hrest' : Outdented indent rest')
    (heq : (Snapshot.branches indent (snapshots trees)).toList ++ rest =
      (Snapshot.branches indent (snapshots trees')).toList ++ rest') :
    snapshots trees = snapshots trees' ∧ rest = rest' := by
  induction trees generalizing trees' with
  | nil =>
      cases trees' with
      | nil => exact ⟨rfl, heq⟩
      | cons tree' trees' =>
          rw [toList_branches, List.append_assoc] at heq
          exact absurd heq (hrest.ne_branch hindent _ tree' _)
  | cons tree trees ih =>
      cases trees' with
      | nil =>
          rw [toList_branches, List.append_assoc] at heq
          exact absurd heq.symm (hrest'.ne_branch hindent _ tree _)
      | cons tree' trees' =>
          rw [toList_branches, toList_branches, List.append_assoc, List.append_assoc] at heq
          obtain ⟨htree, heq⟩ := h tree List.mem_cons_self hindent
            (depth_branches_le hindent hrest trees) (depth_branches_le hindent hrest' trees') heq
          obtain ⟨htrees, heq⟩ := ih (fun tree htree => h tree (List.mem_cons_of_mem _ htree)) heq
          exact ⟨congrArg₂ List.cons htree htrees, heq⟩

/-- **Every tree is determined** by its lines. -/
theorem determined (tree : Provenance) : Determined tree := by
  induction tree with
  | of origin value children ih =>
      intro indent isLast isLast' tree' rest rest' hindent hrest hrest' heq
      obtain ⟨origin', value', children'⟩ := tree'
      rw [toList_branch, toList_branch] at heq
      simp only [List.append_assoc, List.cons_append, List.append_cancel_left_eq, List.cons.injEq,
        true_and] at heq
      obtain ⟨hcorner, heq⟩ := heq
      have hlast : isLast = isLast' := by
        revert hcorner
        cases isLast <;> cases isLast' <;> decide
      obtain ⟨hkind, hlabel, hvalue, heq⟩ := Origin.line_append_inj heq
      rw [← hlast] at heq
      -- what follows the tree stands less deep than its children
      have houtdented : ∀ {text : List Char}, depth text ≤ indent.toList.length →
          Outdented (indent ++ if isLast then "  " else "│ ") text := by
        intro text htext
        right
        rw [length_below]
        omega
      obtain ⟨hchildren, heq⟩ := branches_append_inj ih (hindent.below isLast) (houtdented hrest)
        (houtdented hrest') heq
      exact ⟨by rw [snapshot, snapshot, hkind, hlabel, hvalue, hchildren], heq⟩

/-- **Outlines are unambiguous.** Two trees have the same outline exactly if they are shown alike:
the same kinds, labels and values, in trees of the same shape. -/
theorem outline_eq_iff (tree tree' : Provenance) :
    tree.snapshot.outline = tree'.snapshot.outline ↔ tree.snapshot = tree'.snapshot := by
  refine ⟨fun h => ?_, fun h => by rw [h]⟩
  obtain ⟨origin, value, children⟩ := tree
  obtain ⟨origin', value', children'⟩ := tree'
  have hline : (Snapshot.line origin.label value).toList ++
        (Snapshot.branches "" (snapshots children)).toList =
      (Snapshot.line origin'.label value').toList ++
        (Snapshot.branches "" (snapshots children')).toList := by
    rw [← String.toList_append, ← String.toList_append]
    exact congrArg String.toList h
  obtain ⟨hkind, hlabel, hvalue, hbelow⟩ := Origin.line_append_inj hline
  have hindent : IsIndent "" := fun c hc => absurd hc List.not_mem_nil
  have hchildren := branches_append_inj (fun child _ => child.determined) hindent
    (Or.inl rfl) (Or.inl rfl) (congrArg (· ++ []) hbelow)
  rw [snapshot, snapshot, hkind, hlabel, hvalue, hchildren.1]

end Provenance

end RegexWords
