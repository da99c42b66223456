import RegexWords.Proofs.Language
import RegexWords.Proofs.Run

/-!
# Provenance Trees Are Derivations

A provenance tree says how a value was put together. `Regex.Derives` says which trees are right
for a node of a pattern, whatever the machines are that build them: a leaf for a node that produces
a text by itself, one child for a node that passes something on, the parts of a sequence in order.
A repetition keeps what it has drawn once, at the first use, while its text has every draw.

Backreferences show their placeholder. Only the root and the node under it have the text in which
the placeholders have given way, so the node under the root is a derivation once it is given back
the text it had before.

## Main definitions

* `Draw.FirstUses`: every slot once, in the order of first use.
* `Regex.Derives`: a tree is **a derivation of a node**.
* `Pattern.DerivesAt`: a tree is a derivation of a value of a pattern.

## Main results

* `Regex.derives_of_mem_values`: what a node gives are derivations of it.
* `Regex.Derives.stems`: so is everything below.
* `Enumeration.derivesAt_of_next`: **the trees of an enumeration are derivations**.
-/

namespace RegexWords

/-! ### First uses -/

namespace Draw

variable {α : Type}

/-- The draws `firsts` are the **first uses** of the slots in `draws`. -/
structure FirstUses (draws firsts : List (Draw α)) : Prop where
  /-- No slot comes up twice. -/
  nodup : (firsts.map slot).Nodup
  /-- First uses are uses. -/
  subset : firsts ⊆ draws
  /-- Every slot that is used has its first use. -/
  complete : ∀ d ∈ draws, ∃ e ∈ firsts, e.slot = d.slot
  /-- They stand in the order in which the slots come up. -/
  ordered : firsts.Pairwise fun d e =>
    (draws.map slot).idxOf d.slot < (draws.map slot).idxOf e.slot

/-- The slots that are kept are those not seen before. -/
theorem mem_slots_distinctFrom {seen : List ℕ} {ds : List (Draw α)} {i : ℕ} :
    i ∈ (distinctFrom seen ds).map slot ↔ i ∈ ds.map slot ∧ i ∉ seen := by
  induction ds generalizing seen with
  | nil => simp [distinctFrom]
  | cons d ds ih =>
      by_cases hd : d.slot ∈ seen
      · rw [distinctFrom, if_pos (List.contains_iff_mem.2 hd), ih, List.map_cons, List.mem_cons]
        refine ⟨fun h => ⟨Or.inr h.1, h.2⟩, fun h => ⟨h.1.resolve_left ?_, h.2⟩⟩
        rintro rfl
        exact h.2 hd
      · rw [distinctFrom, if_neg (mt List.contains_iff_mem.1 hd), List.map_cons, List.mem_cons, ih,
          List.map_cons, List.mem_cons, List.mem_cons]
        constructor
        · rintro (rfl | ⟨hi, hne⟩)
          · exact ⟨Or.inl rfl, hd⟩
          · exact ⟨Or.inr hi, fun hseen => hne (Or.inr hseen)⟩
        · rintro ⟨rfl | hi, hseen⟩
          · exact Or.inl rfl
          · by_cases heq : i = d.slot
            · exact Or.inl heq
            · exact Or.inr ⟨hi, not_or.2 ⟨heq, hseen⟩⟩

/-- What is kept are some of the draws, in order. -/
theorem distinctFrom_sublist (seen : List ℕ) (ds : List (Draw α)) :
    (distinctFrom seen ds).Sublist ds := by
  induction ds generalizing seen with
  | nil => exact List.Sublist.slnil
  | cons d ds ih =>
      rw [distinctFrom]
      split
      · exact (ih seen).cons d
      · exact (ih (d.slot :: seen)).cons_cons d

/-- What is kept stands in the order in which the slots come up, so no slot is kept twice. -/
theorem pairwise_distinctFrom (seen : List ℕ) (ds : List (Draw α)) :
    (distinctFrom seen ds).Pairwise fun d e =>
      (ds.map slot).idxOf d.slot < (ds.map slot).idxOf e.slot := by
  induction ds generalizing seen with
  | nil => exact List.Pairwise.nil
  | cons d ds ih =>
      -- a slot other than that of `d` comes up one later than in the rest
      have hlater : ∀ seen' : List ℕ, d.slot ∈ seen' → ∀ e ∈ distinctFrom seen' ds,
          ((d :: ds).map slot).idxOf e.slot = (ds.map slot).idxOf e.slot + 1 := by
        intro seen' hd e he
        have hnew := (mem_slots_distinctFrom.1 (List.mem_map_of_mem he)).2
        have hne : d.slot ≠ e.slot := fun heq => hnew (heq ▸ hd)
        rw [List.map_cons, List.idxOf_cons_ne _ hne]
      have hshift : ∀ seen' : List ℕ, d.slot ∈ seen' →
          (distinctFrom seen' ds).Pairwise fun e f =>
            ((d :: ds).map slot).idxOf e.slot < ((d :: ds).map slot).idxOf f.slot := by
        intro seen' hd
        refine (ih seen').imp_of_mem fun he hf hlt => ?_
        rw [hlater seen' hd _ he, hlater seen' hd _ hf]
        exact Nat.succ_lt_succ hlt
      rw [distinctFrom]
      split
      · next hd => exact hshift seen (List.contains_iff_mem.1 hd)
      · refine List.pairwise_cons.2 ⟨fun e he => ?_, hshift _ List.mem_cons_self⟩
        rw [hlater _ List.mem_cons_self e he, List.map_cons, List.idxOf_cons_self]
        exact Nat.succ_pos _

/-- **Every draw once**, in the order of first use. -/
theorem firstUses_distinct (ds : List (Draw α)) : FirstUses ds (distinct ds) where
  nodup := List.pairwise_map.2 <| (pairwise_distinctFrom [] ds).imp fun hlt heq => by
    rw [heq] at hlt
    exact Nat.lt_irrefl _ hlt
  subset := (distinctFrom_sublist [] ds).subset
  complete d hd := by
    have hslot := mem_slots_distinctFrom.2 ⟨List.mem_map_of_mem hd, List.not_mem_nil⟩
    exact List.mem_map.1 hslot
  ordered := pairwise_distinctFrom [] ds

end Draw

/-! ### The nodes of a tree -/

mutual

/-- The **nodes** of a provenance tree, each before what stands below it. -/
def Provenance.nodes : Provenance → List Provenance
  | .of origin value children => .of origin value children :: nodesList children

/-- The nodes of several provenance trees. -/
def Provenance.nodesList : List Provenance → List Provenance
  | [] => []
  | tree :: trees => tree.nodes ++ nodesList trees

end

/-- The nodes of several trees are those of each. -/
theorem Provenance.mem_nodesList {trees : List Provenance} {node : Provenance} :
    node ∈ nodesList trees ↔ ∃ tree ∈ trees, node ∈ tree.nodes := by
  induction trees with
  | nil => simp [nodesList]
  | cons tree trees ih => simp [nodesList, ih]

/-- The nodes of a tree are the tree and the nodes of its children. -/
theorem Provenance.mem_nodes {origin : Origin} {value : String} {children : List Provenance}
    {node : Provenance} :
    node ∈ (of origin value children).nodes ↔
      node = of origin value children ∨ ∃ child ∈ children, node ∈ child.nodes := by
  rw [nodes, List.mem_cons, mem_nodesList]

/-- A tree is the first of its nodes. -/
theorem Provenance.mem_nodes_self (tree : Provenance) : tree ∈ tree.nodes := by
  cases tree
  exact List.mem_cons_self

/-- The nodes of a child are nodes of the tree. -/
theorem Provenance.mem_nodes_of_mem_children {tree child node : Provenance}
    (hchild : child ∈ tree.children) (hnode : node ∈ child.nodes) : node ∈ tree.nodes := by
  cases tree
  exact mem_nodes.2 (Or.inr ⟨child, hchild, hnode⟩)

/-! ### Derivations -/

namespace Regex

/-- A provenance tree is **a derivation of a node** of a pattern. Shorthand classes have none. -/
inductive Derives (alphabet : CodeRange) : Regex → Provenance → Prop
  | literal (c : Char) : Derives alphabet (literal c) (.of (.regex (literal c)) c.toString [])
  | dot {c : Char} : alphabet.contains c →
      Derives alphabet dot (.of (.regex dot) c.toString [])
  /-- A sequence has one child for each part, in order. -/
  | sequence {parts : List Regex} {trees : List Provenance} : parts ≠ [] →
      List.Forall₂ (Derives alphabet) parts trees →
      Derives alphabet (sequence parts)
        (.of (.regex (sequence parts)) (String.join (trees.map Provenance.value)) trees)
  /-- An alternative has one child, from one of its sides. -/
  | either {left right : Option Regex} {side : Regex} {tree : Provenance} :
      side ∈ left ∨ side ∈ right → Derives alphabet side tree →
      Derives alphabet (either left right) (.of (.regex (either left right)) tree.value [tree])
  /-- A repetition has everything that was drawn from its part as a child, at its first use. -/
  | repeated {part : Regex} {q : Quantifier} {greedy : Bool} {draws firsts : List (Draw Provenance)}
      (min_le : q.bounds.min ≤ draws.length) (le_max : ∀ max ∈ q.bounds.max, draws.length ≤ max)
      (drawn : ∀ d ∈ draws, (part.trail alphabet).value? d.slot = some d.value)
      (derives : ∀ d ∈ draws, Derives alphabet part d.value)
      (firstUses : Draw.FirstUses draws firsts) :
      Derives alphabet (repeated part q greedy)
        (.of (.regex (repeated part q greedy)) (String.join (draws.map (·.value.value)))
          (firsts.map Draw.value))
  /-- A class has one child, a character of one of its members. -/
  | charClass {members : List ClassMember} {negated : Bool} {m : ClassMember} {c : Char} :
      m ∈ members → m.Admits alphabet negated c →
      Derives alphabet (charClass members negated)
        (.of (.regex (charClass members negated)) c.toString [.of (.member m) c.toString []])
  | anchor (kind : Anchor) : Derives alphabet (anchor kind) (.of (.regex (anchor kind)) "" [])
  /-- A group has one child, from its body. -/
  | capturing {number : ℕ} {body : Regex} {tree : Provenance} : Derives alphabet body tree →
      Derives alphabet (capturing number (some body))
        (.of (.regex (capturing number (some body))) tree.value [tree])
  | grouping {body : Regex} {tree : Provenance} : Derives alphabet body tree →
      Derives alphabet (grouping (some body))
        (.of (.regex (grouping (some body))) tree.value [tree])
  | backreference (number : ℕ) :
      Derives alphabet (backreference number)
        (.of (.regex (backreference number)) (placeholder number) [])
  | lookaround (body : Option Regex) (direction : Direction) (positive : Bool) :
      Derives alphabet (lookaround body direction positive)
        (.of (.regex (lookaround body direction positive)) "" [])

variable {alphabet : CodeRange}

/-- A derivation of a node originates from it. -/
theorem Derives.origin_eq {r : Regex} {tree : Provenance} (h : r.Derives alphabet tree) :
    tree.origin = .regex r := by
  cases h <;> rfl

/-- **What a node gives are derivations of it.** -/
theorem derives_of_mem_values (r : Regex) :
    ∀ tree ∈ (r.trail alphabet : Trail Effect Provenance).values, r.Derives alphabet tree := by
  induction r with
  | literal c =>
      intro tree h
      rw [trail_literal, Trail.mem_values_items, List.mem_singleton] at h
      exact h ▸ Derives.literal c
  | dot =>
      intro tree h
      rw [trail_dot, Trail.mem_values_items] at h
      obtain ⟨c, hc, rfl⟩ := List.mem_map.1 h
      exact Derives.dot (CodeRange.mem_chars.1 hc)
  | sequence parts ih =>
      intro tree h
      obtain ⟨trees, hne, htrees, rfl⟩ := exists_of_mem_values_sequence h
      have hderives : List.Forall₂ (fun tree r => Derives alphabet r tree) trees parts :=
        forall₂_imp_of_mem (fun r hr tree htree => ih r hr tree htree) htrees
      exact Derives.sequence hne hderives.flip
  | either left right ihleft ihright =>
      intro tree h
      obtain ⟨side, hside, child, hchild, rfl⟩ := exists_of_mem_values_either h
      have hderives : side.Derives alphabet child :=
        hside.elim (ihleft side · child hchild) (ihright side · child hchild)
      exact Derives.either hside hderives
  | repeated part q greedy ih =>
      intro tree h
      obtain ⟨ds, hmin, hmax, hvalues, rfl⟩ := exists_of_mem_values_repeated h
      exact Derives.repeated hmin hmax hvalues (fun d hd => ih d.value ⟨d.slot, hvalues d hd⟩)
        (Draw.firstUses_distinct ds)
  | charClass members negated =>
      intro tree h
      obtain ⟨m, hm, c, hc, rfl⟩ := exists_of_mem_values_charClass h
      exact Derives.charClass hm hc
  | shorthand kind =>
      intro tree h
      rw [trail_shorthand] at h
      exact absurd (Trail.mem_values_items.1 h) List.not_mem_nil
  | anchor kind =>
      intro tree h
      rw [trail_anchor, Trail.mem_values_items, List.mem_singleton] at h
      exact h ▸ Derives.anchor kind
  | capturing number body ih =>
      intro tree h
      rw [trail_capturing, Trail.mem_values_map] at h
      obtain ⟨child, hchild, rfl⟩ := h
      obtain ⟨r, rfl, hvalue⟩ := exists_of_mem_values_bodyTrail hchild
      exact Derives.capturing (ih r rfl child hvalue)
  | grouping body ih =>
      intro tree h
      rw [trail_grouping, Trail.mem_values_map] at h
      obtain ⟨child, hchild, rfl⟩ := h
      obtain ⟨r, rfl, hvalue⟩ := exists_of_mem_values_bodyTrail hchild
      exact Derives.grouping (ih r rfl child hvalue)
  | backreference number =>
      intro tree h
      rw [trail_backreference, Trail.values_tap, Trail.mem_values_items, List.mem_singleton] at h
      exact h ▸ Derives.backreference number
  | lookaround body direction positive ih =>
      intro tree h
      rw [trail_lookaround, Trail.mem_values_items, List.mem_singleton] at h
      exact h ▸ Derives.lookaround body direction positive

/-! ### Everything below -/

/-- A node of a provenance tree **stems** from some nodes of a pattern: it is a derivation of one
of them, or a character of a member of a class among them. -/
inductive Stems (alphabet : CodeRange) (rs : List Regex) : Provenance → Prop
  | node {r : Regex} {tree : Provenance} : r ∈ rs → r.Derives alphabet tree →
      Stems alphabet rs tree
  | member {members : List ClassMember} {negated : Bool} {m : ClassMember} {c : Char} :
      charClass members negated ∈ rs → m ∈ members → m.Admits alphabet negated c →
      Stems alphabet rs (.of (.member m) c.toString [])

/-- What stems from some nodes stems from more. -/
theorem Stems.mono {rs rs' : List Regex} (hsub : rs ⊆ rs') {node : Provenance}
    (h : Stems alphabet rs node) : Stems alphabet rs' node := by
  cases h with
  | node hr hderives => exact Stems.node (hsub hr) hderives
  | member hclass hm hc => exact Stems.member (hsub hclass) hm hc

/-- Nothing stems from a shorthand class, in brackets or outside. -/
theorem Stems.origin_ne_shorthand {rs : List Regex} {node : Provenance}
    (h : Stems alphabet rs node) (kind : Shorthand) :
    node.origin ≠ .regex (.shorthand kind) ∧ node.origin ≠ .member (.shorthand kind) := by
  cases h with
  | node hr hderives =>
      rw [hderives.origin_eq]
      refine ⟨fun heq => ?_, nofun⟩
      obtain rfl := Origin.regex.inj heq
      cases hderives
  | @member _ _ m _ _ _ hc =>
      refine ⟨nofun, fun heq => ?_⟩
      obtain rfl : m = .shorthand kind := Origin.member.inj heq
      obtain ⟨codes, hcodes, -⟩ := hc
      exact absurd hcodes.symm (Option.some_ne_none codes)

/-- The nodes of a derivation stem from some nodes if those below its children do. -/
theorem Derives.stems_of_children {r : Regex} {rs : List Regex} {tree : Provenance}
    (h : r.Derives alphabet tree) (hr : r ∈ rs)
    (hchildren : ∀ child ∈ tree.children, ∀ node ∈ child.nodes, Stems alphabet rs node) :
    ∀ node ∈ tree.nodes, Stems alphabet rs node := by
  intro node hnode
  obtain ⟨origin, value, children⟩ := tree
  rcases Provenance.mem_nodes.1 hnode with rfl | ⟨child, hchild, hnode⟩
  · exact Stems.node hr h
  · exact hchildren child hchild node hnode

/-- **The nodes of a derivation** stem from the node it derives and those below that, bodies of
lookarounds apart. -/
theorem Derives.stems (r : Regex) : ∀ tree, r.Derives alphabet tree → ∀ node ∈ tree.nodes,
    Stems alphabet (r.preorder false) node := by
  induction r with
  | sequence parts ih =>
      intro tree h
      refine h.stems_of_children (mem_preorder_self _ _) ?_
      cases h with
      | sequence hne htrees =>
          intro child hchild node hnode
          obtain ⟨part, hpart, hderives⟩ :=
            Trail.exists_mem_of_forall₂ htrees.flip child hchild
          refine (ih part hpart child hderives node hnode).mono fun s hs => ?_
          rw [preorder, preorderList_eq]
          exact List.mem_cons_of_mem _ (List.mem_flatMap_of_mem hpart hs)
  | either left right ihleft ihright =>
      intro tree h
      refine h.stems_of_children (mem_preorder_self _ _) ?_
      cases h with
      | either hside hderives =>
          intro child hchild node hnode
          obtain rfl := List.mem_singleton.1 hchild
          rcases hside with rfl | rfl
          · refine (ihleft _ rfl _ hderives node hnode).mono fun s hs => ?_
            exact List.mem_cons_of_mem _ (List.mem_append_left _ hs)
          · refine (ihright _ rfl _ hderives node hnode).mono fun s hs => ?_
            exact List.mem_cons_of_mem _ (List.mem_append_right _ hs)
  | repeated part q greedy ih =>
      intro tree h
      refine h.stems_of_children (mem_preorder_self _ _) ?_
      cases h with
      | repeated _ _ _ hderives hfirst =>
          intro child hchild node hnode
          obtain ⟨d, hd, rfl⟩ := List.mem_map.1 hchild
          exact (ih d.value (hderives d (hfirst.subset hd)) node hnode).mono
            (List.subset_cons_self _ _)
  | charClass members negated =>
      intro tree h
      refine h.stems_of_children (mem_preorder_self _ _) ?_
      cases h with
      | charClass hm hc =>
          intro child hchild node hnode
          obtain rfl := List.mem_singleton.1 hchild
          rcases Provenance.mem_nodes.1 hnode with rfl | ⟨child, hchild, -⟩
          · exact Stems.member (mem_preorder_self _ _) hm hc
          · exact absurd hchild List.not_mem_nil
  | capturing number body ih =>
      intro tree h
      refine h.stems_of_children (mem_preorder_self _ _) ?_
      cases h with
      | capturing hderives =>
          intro child hchild node hnode
          obtain rfl := List.mem_singleton.1 hchild
          exact (ih _ rfl _ hderives node hnode).mono (List.subset_cons_self _ _)
  | grouping body ih =>
      intro tree h
      refine h.stems_of_children (mem_preorder_self _ _) ?_
      cases h with
      | grouping hderives =>
          intro child hchild node hnode
          obtain rfl := List.mem_singleton.1 hchild
          exact (ih _ rfl _ hderives node hnode).mono (List.subset_cons_self _ _)
  | shorthand kind =>
      intro tree h
      cases h
  | _ =>
      -- the other nodes are leaves
      intro tree h
      refine h.stems_of_children (mem_preorder_self _ _) ?_
      cases h
      exact fun _ hchild => absurd hchild List.not_mem_nil

end Regex

/-! ### Trees of an enumeration -/

/-- A provenance tree is **a derivation of value number `k`** of a pattern. The tree `raw` is that
of the body before placeholders give way. -/
structure Pattern.DerivesAt (alphabet : CodeRange) (p : Pattern) (k : ℕ)
    (tree raw : Provenance) : Prop where
  /-- The root stems from the pattern, its only child from the body, and both have the text of the
  value. -/
  root : tree = .of (.pattern p) tree.value [.of raw.origin tree.value raw.children]
  /-- The text is the string that the pattern gives at that pull. -/
  text : ((Enumeration.ofPattern p { alphabet } : Enumeration String).after k).next.1 =
    some tree.value
  /-- It is the text of the body in which placeholders have given way to captures. -/
  resolved : tree.value = ((Enumeration.ofPattern p { alphabet } :
    Enumeration Provenance).after k).next.2.captures.finish raw.value
  /-- With its own text, the tree of the body is a derivation of the body. -/
  body : ∃ r ∈ p.body, raw.origin = .regex r ∧ (r.trail alphabet).value? k = some raw ∧
    r.Derives alphabet raw
  /-- Every node below is a derivation of a node of the pattern. -/
  stems : ∀ node ∈ raw.nodes, Regex.Stems alphabet (Regex.preorderBody false p.body) node
  /-- No node stems from a shorthand class. -/
  no_shorthand : ∀ node ∈ tree.nodes, ∀ kind,
    node.origin ≠ .regex (.shorthand kind) ∧ node.origin ≠ .member (.shorthand kind)

namespace Enumeration

/-- **The trees of an enumeration are derivations** of its strings. -/
theorem derivesAt_of_next {p : Pattern} {alphabet : CodeRange} {k : ℕ} {tree : Provenance}
    (h : ((ofPattern p { alphabet } : Enumeration Provenance).after k).next.1 = some tree) :
    ∃ raw, p.DerivesAt alphabet k tree raw := by
  have hstrings := ((agrees_ofPattern p { alphabet } : (ofPattern p { alphabet } :
    Enumeration Provenance).Agrees _).after k).next.1
  rw [h] at hstrings
  rw [next_after_eq_assemble rfl] at h
  obtain ⟨raw, hraw, rfl⟩ := Option.map_eq_some_iff.1 h
  obtain ⟨r, hr, hvalue⟩ : ∃ r ∈ p.body, (r.trail alphabet).value? k = some raw :=
    Regex.exists_value?_of_bodyTrail hraw
  have hderives := r.derives_of_mem_values raw ⟨k, hvalue⟩
  have hstems : ∀ node ∈ raw.nodes,
      Regex.Stems alphabet (Regex.preorderBody false p.body) node := by
    rw [Option.mem_def.1 hr]
    exact Regex.Derives.stems r raw hderives
  refine ⟨raw, rfl, hstrings.symm, rfl, ⟨r, hr, hderives.origin_eq, hvalue, hderives⟩, hstems,
    fun node hnode kind => ?_⟩
  rcases Provenance.mem_nodes.1 hnode with rfl | ⟨child, hchild, hnode⟩
  · exact ⟨nofun, nofun⟩
  · -- below the root stand the nodes of the raw tree, one of them with another text
    obtain rfl := List.mem_singleton.1 hchild
    rcases Provenance.mem_nodes.1 hnode with rfl | ⟨child, hchild, hnode⟩
    · exact (hstems raw raw.mem_nodes_self).origin_ne_shorthand kind
    · exact (hstems node (Provenance.mem_nodes_of_mem_children hchild hnode)).origin_ne_shorthand
        kind

/-- The second value of a class and two references to it. -/
theorem derivesAt_of_next_reference :
    let p : Pattern :=
      ⟨some (.sequence [.capturing 1 (some (.charClass [.range 'a' 'b'] false)),
        .repeated (.backreference 1) (.exactly 2) true]), 1⟩
    ∃ tree raw, ((ofPattern p {} : Enumeration Provenance).after 1).next.1 = some tree ∧
      tree.value = "bbb" ∧ p.DerivesAt .printable 1 tree raw := by
  intro p
  have hvalue : ((ofPattern p {} : Enumeration Provenance).after 1).next.1.map Provenance.value =
      some "bbb" := by
    decide
  obtain ⟨tree, htree, hvalue⟩ := Option.map_eq_some_iff.1 hvalue
  obtain ⟨raw, hderives⟩ := derivesAt_of_next htree
  exact ⟨tree, raw, htree, hvalue, hderives⟩

end Enumeration

end RegexWords
