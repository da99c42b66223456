import RegexWords.Proofs.Feed
import RegexWords.Proofs.Trail.Pattern

/-!
# Sources Side by Side

The feeds of a session share their captures. A feed of a tree by itself writes into them like any
other, but what it gives is not assembled, so it shows nothing of what stands there. Its answers
are the values of its trail, one after the other, however its pulls are mixed with those of other
feeds and whatever these have recorded: the same answers as if it were alone.

## Main definitions

* `Session.ofBodies`: feeds of several trees on captures that may hold something already.
* `Session.answersAt`: the answers of one feed among those to a schedule of pulls.

## Main results

* `Feed.nextAt_eq`: one pull from one of several feeds leaves the others as they are.
* `Session.answersAt_eq`: **the answers of one feed** are the values of its trail.
* `Session.answersAt_ofBodies`: **sources do not disturb each other**.
-/

namespace RegexWords

variable {ω : Type} [Outcome ω]

/-- **One pull from one of several feeds.** The answer is that of the feed, and only this feed
changes. -/
theorem Feed.nextAt_eq (captures : Captures) (feeds : List (Feed ω)) (position : ℕ) :
    (nextAt captures feeds position).1 =
        feeds[position]?.bind (fun feed => (feed.next captures).1) ∧
      ∀ i, (nextAt captures feeds position).2.2[i]? =
        if i = position then feeds[i]?.map fun feed => (feed.next captures).2.2
        else feeds[i]? := by
  induction feeds generalizing position with
  | nil => exact ⟨rfl, fun i => (ite_self none).symm⟩
  | cons feed feeds ih =>
      cases position with
      | zero =>
          refine ⟨rfl, fun i => ?_⟩
          cases i <;> rfl
      | succ position =>
          obtain ⟨hanswer, hfeeds⟩ := ih position
          refine ⟨hanswer, fun i => ?_⟩
          cases i with
          | zero => rfl
          | succ i =>
              simp only [Nat.succ_inj]
              exact hfeeds i

namespace Session

/-- The session with feeds for several trees by themselves, on captures that may hold something
already. -/
def ofBodies (alphabet : CodeRange) (captures : Captures) (bodies : List (Option Regex)) :
    Session ω :=
  bodies.foldl (addBody alphabet) { captures }

/-- The answers of the feed at a position, among those to a schedule of pulls. -/
def answersAt (s : Session ω) (schedule : List ℕ) (position : ℕ) : List (Option ω) :=
  ((schedule.zip (s.run schedule)).filter fun answer => answer.1 = position).map
    fun answer => answer.2.1

/-- The feeds of trees by themselves stand in the order of the trees. -/
theorem feeds_foldl_addBody (alphabet : CodeRange) (s : Session ω)
    (bodies : List (Option Regex)) :
    (bodies.foldl (addBody alphabet) s).feeds = s.feeds ++ bodies.map (.ofBody alphabet) := by
  induction bodies generalizing s with
  | nil => exact (List.append_nil _).symm
  | cons body bodies ih =>
      rw [List.foldl_cons, ih, addBody, List.map_cons, List.append_assoc, List.singleton_append]

/-- A schedule gets as many answers as it has pulls. -/
theorem length_run (s : Session ω) (schedule : List ℕ) :
    (s.run schedule).length = schedule.length := by
  induction schedule generalizing s with
  | nil => rfl
  | cons position schedule ih => exact congrArg (· + 1) (ih _)

/-- A pull adds its answer to those of its feed and none to those of the others. -/
theorem answersAt_cons (s : Session ω) (first : ℕ) (schedule : List ℕ) (position : ℕ) :
    s.answersAt (first :: schedule) position =
      if first = position then (s.next first).1 :: (s.next first).2.answersAt schedule position
      else (s.next first).2.answersAt schedule position := by
  rw [answersAt, run, List.zip_cons_cons, List.filter_cons]
  simp only [decide_eq_true_eq]
  split <;> rfl

/-- A schedule that asks one feed only gets the answers of that feed. -/
theorem answersAt_replicate (s : Session ω) (n position : ℕ) :
    s.answersAt (List.replicate n position) position =
      (s.run (List.replicate n position)).map Prod.fst := by
  have hall : ∀ answer ∈ (List.replicate n position).zip (s.run (List.replicate n position)),
      decide (answer.1 = position) := by
    intro answer hanswer
    exact decide_eq_true (List.eq_of_mem_replicate (List.of_mem_zip hanswer).1)
  have hsnd : ((List.replicate n position).zip (s.run (List.replicate n position))).map Prod.snd =
      s.run (List.replicate n position) :=
    List.map_snd_zip (length_run s _).le
  rw [answersAt, List.filter_eq_self.2 hall, ← hsnd, List.map_map, hsnd]
  rfl

/-- **The answers of one feed.** Of a tree by itself a schedule gets the values of the trail one
after the other, whatever stands in the captures and whatever else is pulled. -/
theorem answersAt_eq {s : Session ω} {position : ℕ} {feed : Feed ω}
    (hfeed : s.feeds[position]? = some feed) (hpattern : feed.pattern? = none)
    (schedule : List ℕ) :
    s.answersAt schedule position =
      (List.range (schedule.count position)).map feed.trail.value? := by
  induction schedule generalizing s feed with
  | nil => rfl
  | cons first schedule ih =>
      obtain ⟨hanswer, hfeeds⟩ := Feed.nextAt_eq s.captures s.feeds first
      rw [answersAt_cons]
      by_cases hfirst : first = position
      · -- the feed itself is pulled: it gives the head of its trail and keeps the tail
        subst hfirst
        obtain ⟨hvalue, -, htail, hsame⟩ := feed.next_eq s.captures
        have hnext : (s.next first).2.feeds[first]? = some (feed.next s.captures).2.2 := by
          rw [next, hfeeds, if_pos rfl, hfeed, Option.map_some]
        have hhead : (s.next first).1 = feed.trail.value? 0 := by
          rw [next, hanswer, hfeed, Option.bind_some, hvalue, hpattern]
          exact Option.map_id_apply
        rw [if_pos rfl, ih hnext (hsame.trans hpattern), hhead, htail, List.count_cons_self,
          List.range_succ_eq_map, List.map_cons, List.map_map]
        rfl
      · have hnext : (s.next first).2.feeds[position]? = some feed := by
          rw [next, hfeeds, if_neg fun heq => hfirst heq.symm, hfeed]
        rw [if_neg hfirst, ih hnext hpattern, List.count_cons_of_ne hfirst]

/-- **Sources do not disturb each other.** Feeds of trees by themselves share their captures, which
may hold anything at the beginning. Of each feed every schedule of pulls gets the answers that as
many pulls get from the same tree alone, on captures of its own that hold nothing at the
beginning: the same values, and the end at the same pull. -/
theorem answersAt_ofBodies (alphabet : CodeRange) (captures : Captures)
    {bodies : List (Option Regex)} {position : ℕ} {body : Option Regex}
    (h : bodies[position]? = some body) (schedule : List ℕ) :
    (ofBodies alphabet captures bodies : Session ω).answersAt schedule position =
      ((ofBodies alphabet {} [body] : Session ω).run
        (List.replicate (schedule.count position) 0)).map Prod.fst := by
  have hfeed : (ofBodies alphabet captures bodies : Session ω).feeds[position]? =
      some (.ofBody alphabet body) := by
    rw [ofBodies, feeds_foldl_addBody, List.nil_append, List.getElem?_map, h, Option.map_some]
  have halone : (ofBodies alphabet {} [body] : Session ω).feeds[0]? =
      some (.ofBody alphabet body) := rfl
  rw [← answersAt_replicate, answersAt_eq hfeed rfl, answersAt_eq halone rfl,
    List.count_replicate_self]

/-- Two trees that capture under the same number, one without end and one that refers to what both
capture, pulled in turn on captures in which the group is live. -/
theorem answersAt_ofBodies_shared :
    ∃ (captures : Captures) (bodies : List (Option Regex)) (body : Option Regex),
      captures.isLive 1 ∧ bodies[1]? = some body ∧
        (ofBodies .printable captures bodies : Session String).answersAt [1, 0, 1, 0, 1] 1 =
          ((ofBodies .printable {} [body] : Session String).run
            (List.replicate ([1, 0, 1, 0, 1].count 1) 0)).map Prod.fst := by
  let body : Option Regex := some (.sequence
    [.capturing 1 (some (.either (some (.literal 'a')) (some (.literal 'b')))), .backreference 1])
  let bodies : List (Option Regex) :=
    [some (.capturing 1 (some (.repeated (.literal 'x') .plus true))), body]
  refine ⟨(Captures.capture {} 1 "y").resolve 1, bodies, body, by decide, rfl, ?_⟩
  exact answersAt_ofBodies .printable _ rfl [1, 0, 1, 0, 1]

end Session

end RegexWords
