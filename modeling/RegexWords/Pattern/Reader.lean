import RegexWords.Pattern.Lexeme

/-!
# Reading patterns

A pattern's text is read from left to right in one pass. What has been read so far is a stack:
the groups that are still open, each with the alternatives and the parts that were read before
it. Every step puts one part, one bar or one parenthesis on this stack and consumes at least
one character.

## Main definitions

* `Reading.step`: one step.
* `Reader.next`: reads from where the last reading stopped. A reader may be used again, also
  after a fault.
* `Pattern.ofText`: reads a whole text, bare or between slashes.

## Main results

* `Reading.length_rest_lt_of_step`: every step consumes something.
-/

namespace RegexWords

/-! ### The stack -/

/-- What has been read inside one pair of parentheses: the alternatives before the last bar,
if there was a bar, and the parts since then, the newest first. -/
structure Level where
  earlier : Option (Option Regex) := none
  parts : List Regex := []

namespace Level

/-- The parts since the last bar as one tree: no part is nothing, one part is itself. -/
def alternative (l : Level) : Option Regex :=
  match l.parts with
  | [] => none
  | [part] => some part
  | parts => some (.sequence parts.reverse)

/-- Everything on the level as one tree. Alternatives lean to the left. -/
def body (l : Level) : Option Regex :=
  match l.earlier with
  | none => l.alternative
  | some left => some (.either left l.alternative)

/-- The level after one more part. -/
def push (l : Level) (part : Regex) : Level :=
  { l with parts := part :: l.parts }

/-- The level after a bar. -/
def bar (l : Level) : Level :=
  { earlier := some l.body }

end Level

/-- A **partly read pattern**: the groups that are open, the innermost first, each with the
level around it; the level inside the innermost one; the number of capturing groups so far;
and the text that is not yet read. -/
structure Reading where
  outer : List (Opening × Level) := []
  level : Level := {}
  groups : Nat
  rest : List Char

namespace Reading

/-- A fault, with the number of capturing groups and the text that is left when it shows. -/
structure Failure where
  fault : Fault
  groups : Nat
  rest : List Char

/-- Continues a reading with a piece that was read, or fails as the piece did. -/
def absorb {α : Type} (groups : Nat) (piece : Lexed α)
    (next : α → List Char → Reading) : Except Failure Reading :=
  match piece with
  | .error (fault, rest) => .error ⟨fault, groups, rest⟩
  | .ok (a, rest) => .ok (next a rest)

/-- The reading after the next part, bar or parenthesis of a text of `size` characters. -/
def step (size : Nat) (r : Reading) : Except Failure Reading :=
  match r.rest with
  | ')' :: rest =>
    match r.outer with
    | [] => .error ⟨.unexpectedChar ')' (size - r.rest.length), r.groups, r.rest⟩
    | (opening, around) :: outer =>
      absorb r.groups (readSuffix size (opening.close r.level.body) rest) fun part rest =>
        { outer, level := around.push part, groups := r.groups, rest }
  | '|' :: rest => .ok { r with level := r.level.bar, rest }
  | '(' :: rest =>
    absorb r.groups (readOpening size (r.groups + 1) rest) fun opening rest =>
      { outer := (opening, r.level) :: r.outer
        groups := match opening with
          | .capture number => number
          | _ => r.groups
        rest }
  | _ =>
    match readAtom size r.rest with
    | .error (fault, rest) => .error ⟨fault, r.groups, rest⟩
    | .ok (atom, rest) =>
      absorb r.groups (readSuffix size atom rest) fun part rest =>
        { r with level := r.level.push part, rest }

/-- **Progress.** Every step consumes at least one character. -/
theorem length_rest_lt_of_step {size : Nat} {r s : Reading} (h : r.step size = .ok s) :
    s.rest.length < r.rest.length := by
  have key : ∀ {α : Type} {piece : Lexed α} {next : α → List Char → Reading} {n : Nat},
      (∀ a t, (next a t).rest = t) → (∀ a t, piece = .ok (a, t) → t.length ≤ n) →
      absorb r.groups piece next = .ok s → s.rest.length ≤ n := by
    intro α piece next n hnext hpiece hs
    unfold Reading.absorb at hs
    split at hs
    · cases hs
    · next a t =>
      cases hs
      rw [hnext]
      exact hpiece a t rfl
  unfold step at h
  split at h
  · next rest hr =>
    rw [hr, List.length_cons]
    split at h
    · cases h
    · exact Nat.lt_succ_of_le
        (key (fun _ _ => rfl) (fun _ _ e => length_le_of_readSuffix e) h)
  · next rest hr =>
    cases h
    simp [hr]
  · next rest hr =>
    rw [hr, List.length_cons]
    exact Nat.lt_succ_of_le
      (key (fun _ _ => rfl) (fun _ _ e => length_le_of_readOpening e) h)
  · split at h
    · cases h
    · next atom rest ha =>
      exact Nat.lt_of_le_of_lt
        (key (fun _ _ => rfl) (fun _ _ e => length_le_of_readSuffix e) h)
        (length_lt_of_readAtom ha)

/-- Reads to the end of a text of `size` characters. The pattern is complete if no group is
open there. The fault or the pattern comes with the number of capturing groups and the text
that is left. -/
def run (size : Nat) (r : Reading) : Except Fault Pattern × Nat × List Char :=
  if r.rest = [] then
    match r.outer with
    | [] => (.ok ⟨r.level.body, r.groups⟩, r.groups, [])
    | _ :: _ => (.error (.unexpectedEnd ')' size), r.groups, [])
  else
    match h : r.step size with
    | .error failure => (.error failure.fault, failure.groups, failure.rest)
    | .ok next =>
      have : next.rest.length < r.rest.length := length_rest_lt_of_step h
      run size next
termination_by r.rest.length

end Reading

/-! ### Readers -/

/-- The body of a pattern written between slashes, `/body/flags` with flags of ASCII letters;
any other text is a body as it stands. The slash that closes the body is the last one. -/
def stripSlashes (text : List Char) : List Char :=
  match text with
  | '/' :: inner =>
    let flags := inner.reverse.takeWhile (· ≠ '/')
    match inner.reverse.dropWhile (· ≠ '/') with
    | [] => text
    | _ :: body => if flags.all Char.isAlpha then body.reverse else text
  | _ => text

/-- A **reader** of one text: how long the text is, what is left of it and how many capturing
groups were met. -/
structure Reader where
  size : Nat
  rest : List Char
  groups : Nat

namespace Reader

/-- A reader at the start of a body. -/
def ofBody (body : List Char) : Reader :=
  ⟨body.length, body, 0⟩

/-- A reader at the start of a text that may stand between slashes. -/
def ofText (text : String) : Reader :=
  ofBody (stripSlashes text.toList)

/-- Reads one pattern from what is left of the text. The reader afterwards stands where the
reading stopped, and has counted its groups. -/
def next (r : Reader) : Except Fault Pattern × Reader :=
  let (answer, groups, rest) := Reading.run r.size { groups := r.groups, rest := r.rest }
  (answer, { r with rest, groups })

/-- The answers of `n` readings, one after the other. -/
def nexts (r : Reader) : Nat → List (Except Fault Pattern)
  | 0 => []
  | n + 1 => r.next.1 :: r.next.2.nexts n

end Reader

/-- The pattern that a text stands for. -/
def Pattern.ofText (text : String) : Except Fault Pattern :=
  (Reader.ofText text).next.1

end RegexWords
