import CivilTime.Proofs.Rule.Candidates
import CivilTime.Rule.State
import Mathlib.Algebra.GroupWithZero.Nat

/-! A stream of changes is finite and comes in order.
Every change uses up a supported year of its recurrence, so the bound on a visit is out of reach
and a visit is a fold over the items of the stream. A state of the clock is read off the changes up
to an instant.
-/

namespace CivilTime.Stream

-----------------------------------------------------------------------------------------
-- One step
-----------------------------------------------------------------------------------------

/-- A step that makes a change takes the next change of the rules in front of the end. -/
theorem next?_ok {s rest : Stream} {t : Transition} (step : s.next? = (some (.ok t), rest))
    : s.finished = false
      ∧ s.rules.nextAfterYears s.cursor s.stdOffset s.savings s.used = .ok (some t)
      ∧ t.instant < s.stop
      ∧ rest = s.advance t := by
  cases finished : s.finished with
  | true => simp [next?, finished] at step
  | false =>
      cases outcome : s.rules.nextAfterYears s.cursor s.stdOffset s.savings s.used with
      | error fault => simp [next?, finished, outcome] at step
      | ok found =>
          cases found with
          | none => simp [next?, finished, outcome] at step
          | some change =>
              by_cases inside : change.instant < s.stop
              · simp only [next?, finished, outcome, inside, Bool.false_eq_true, if_false, if_true,
                  Prod.mk.injEq, Option.some.injEq, Except.ok.injEq] at step
                obtain ⟨rfl, rfl⟩ := step
                exact ⟨rfl, rfl, inside, rfl⟩
              · simp [next?, finished, outcome, inside] at step

/-- A step that fails ends the stream with the failure of the rules. -/
theorem next?_error {s rest : Stream} {fault : Fault}
    (step : s.next? = (some (.error fault), rest))
    : s.finished = false
      ∧ s.rules.nextAfterYears s.cursor s.stdOffset s.savings s.used = .error fault
      ∧ rest = s.finish := by
  cases finished : s.finished with
  | true => simp [next?, finished] at step
  | false =>
      cases outcome : s.rules.nextAfterYears s.cursor s.stdOffset s.savings s.used with
      | error other =>
          simp only [next?, finished, outcome, Bool.false_eq_true, if_false, Prod.mk.injEq,
            Option.some.injEq, Except.error.injEq] at step
          obtain ⟨rfl, rfl⟩ := step
          exact ⟨rfl, rfl, rfl⟩
      | ok found =>
          cases found with
          | none => simp [next?, finished, outcome] at step
          | some change =>
              by_cases inside : change.instant < s.stop <;>
                simp [next?, finished, outcome, inside] at step

/-- A step that makes no change has nothing left in front of the end. -/
theorem next?_none {s rest : Stream} (step : s.next? = (none, rest))
    : s.finished = true
      ∨ s.rules.nextAfterYears s.cursor s.stdOffset s.savings s.used = .ok none
      ∨ ∃ t,
          s.rules.nextAfterYears s.cursor s.stdOffset s.savings s.used = .ok (some t)
          ∧ s.stop ≤ t.instant := by
  cases finished : s.finished with
  | true => exact .inl rfl
  | false =>
      cases outcome : s.rules.nextAfterYears s.cursor s.stdOffset s.savings s.used with
      | error fault => simp [next?, finished, outcome] at step
      | ok found =>
          cases found with
          | none => exact .inr (.inl rfl)
          | some change =>
              by_cases inside : change.instant < s.stop
              · simp [next?, finished, outcome, inside] at step
              · exact .inr (.inr ⟨change, rfl, by omega⟩)

/-- A change of a stream is the change of a recurrence in a fresh year, behind the cursor. -/
structure Makes (s : Stream) (r : Recurrence) (t : Transition) : Prop where
  at_index : s.rules.recurrences[t.index]? = some r
  applies : r.AppliesTo t.year
  fresh : RuleSet.Fresh (RuleSet.usedIn s.used t.index) t.year
  instant_eq : t.instant = r.instantIn t.year s.stdOffset s.savings
  savings_eq : t.savings = r.savings
  letter_eq : t.letter = r.letter
  behind : s.cursor < t.instant

/-- Every change of a stream is made by one of its recurrences. -/
theorem makes_of_nextAfterYears {s : Stream} {t : Transition}
    (found : s.rules.nextAfterYears s.cursor s.stdOffset s.savings s.used = .ok (some t))
    : ∃ r, s.Makes r t := by
  obtain ⟨c, ⟨r, at_index, offered⟩, rfl, _⟩ := RuleSet.nextAfterYears_some found
  obtain ⟨applies, fresh, instant_eq, behind⟩ := RuleSet.candidate?_some offered
  have same : c.recurrence = r := (RuleSet.nextFromYear_of_candidate? offered).2.2
  exact ⟨r, {
    at_index
    applies
    fresh
    instant_eq
    savings_eq := by simp [RuleSet.Candidate.transition, same]
    letter_eq := by simp [RuleSet.Candidate.transition, same]
    behind
  }⟩

-----------------------------------------------------------------------------------------
-- The years that are left
-----------------------------------------------------------------------------------------

/-- A stream holds one entry for every recurrence, and has used none before the years that a search
reaches. -/
structure Sized (s : Stream) : Prop where
  length_eq : s.used.length = s.rules.recurrences.length
  years : ∀ year, some year ∈ s.used → Calendar.minYear - 1 ≤ year

/-- The years that are left to a recurrence that was last used in the given year. -/
def yearsLeft (used : Option Int) : Nat :=
  (Calendar.maxYear - used.getD (Calendar.minYear - 2)).toNat

/-- The steps that a stream can still make, the last of which may fail. -/
def stepsLeft (s : Stream) : Nat :=
  if s.finished then 0 else (s.used.map yearsLeft).sum + 1

/-- Lowering one entry of a list lowers its sum, by induction on the list. -/
theorem sum_set_lt {xs : List Nat} {index value old : Nat} (at_index : xs[index]? = some old)
    (lt : value < old)
    : (xs.set index value).sum < xs.sum := by
  induction xs generalizing index with
  | nil => simp at at_index
  | cons x rest ih =>
      cases index with
      | zero =>
          simp only [List.getElem?_cons_zero, Option.some.injEq] at at_index
          simp only [List.set_cons_zero, List.sum_cons]
          omega
      | succ index =>
          have := ih (by simpa using at_index)
          simp only [List.set_cons_succ, List.sum_cons]
          omega

/-- A new stream holds one unused entry for every recurrence. -/
theorem sized_between (rules : RuleSet) (start stop stdOffset savings : Int)
    : (between rules start stop stdOffset savings).Sized where
  length_eq := by simp [between]
  years := by simp [between]

/-- A change keeps one entry for every recurrence and uses up a year. -/
theorem Sized.advance {s : Stream} (sized : s.Sized) {r : Recurrence} {t : Transition}
    (makes : s.Makes r t) (finished : s.finished = false)
    : (s.advance t).Sized ∧ (s.advance t).stepsLeft < s.stepsLeft := by
  have bound : t.index < s.used.length := by
    rw [sized.length_eq]
    exact (List.getElem?_eq_some_iff.mp makes.at_index).1
  have at_index : s.used[t.index]? = some s.used[t.index] := List.getElem?_eq_getElem bound
  refine ⟨⟨by simp [Stream.advance, sized.length_eq], fun year member => ?_⟩, ?_⟩
  · rcases List.mem_or_eq_of_mem_set member with old | new
    · exact sized.years year old
    · have := makes.applies.2.1
      simp only [Option.some.injEq] at new
      omega
  · have fewer : yearsLeft (some t.year) < yearsLeft s.used[t.index] := by
      have fresh := makes.fresh
      have low := makes.applies.2.1
      have high := makes.applies.2.2.2
      simp only [RuleSet.usedIn, at_index, Option.join_some] at fresh
      cases entry : s.used[t.index] with
      | none => simp only [yearsLeft, Option.getD_some, Option.getD_none]; omega
      | some last =>
          have := fresh last entry
          simp only [yearsLeft, Option.getD_some]
          omega
    have at_mapped : (s.used.map yearsLeft)[t.index]? = some (yearsLeft s.used[t.index]) := by
      rw [List.getElem?_map, at_index]
      rfl
    have less := sum_set_lt at_mapped fewer
    simp only [stepsLeft, Stream.advance, finished, Bool.false_eq_true, if_false, List.map_set]
    omega

/-- Every step leaves fewer steps. -/
theorem Sized.next {s rest : Stream} (sized : s.Sized) {item : Except Fault Transition}
    (step : s.next? = (some item, rest))
    : rest.Sized ∧ rest.rules = s.rules ∧ rest.stepsLeft < s.stepsLeft := by
  cases item with
  | ok t =>
      obtain ⟨finished, found, _, rfl⟩ := next?_ok step
      obtain ⟨r, makes⟩ := makes_of_nextAfterYears found
      obtain ⟨again, less⟩ := sized.advance makes finished
      exact ⟨again, rfl, less⟩
  | error fault =>
      obtain ⟨finished, _, rfl⟩ := next?_error step
      refine ⟨⟨sized.length_eq, sized.years⟩, rfl, ?_⟩
      simp [stepsLeft, finish, finished]

/-- The years left in a list are at most the supported ones for each entry, by induction on the
list. -/
theorem sum_yearsLeft_le {used : List (Option Int)}
    (years : ∀ year, some year ∈ used → Calendar.minYear - 1 ≤ year)
    : (used.map yearsLeft).sum ≤ used.length * 547583 := by
  induction used with
  | nil => simp
  | cons entry rest ih =>
      have others := ih fun year member => years year (List.mem_cons_of_mem _ member)
      have here : yearsLeft entry ≤ 547583 := by
        cases entry with
        | none => decide
        | some year =>
            have := years year (by simp)
            simp only [yearsLeft, Option.getD_some, Calendar.maxYear, Calendar.minYear] at *
            omega
      simp only [List.map_cons, List.sum_cons, List.length_cons]
      omega

/-- The bound on the length of a stream is out of reach. -/
theorem Sized.stepsLeft_le {s : Stream} (sized : s.Sized) : s.stepsLeft ≤ s.lengthBound := by
  have years := sum_yearsLeft_le sized.years
  rw [sized.length_eq] at years
  simp only [stepsLeft, lengthBound, yearsPerRecurrence]
  split <;> omega

-----------------------------------------------------------------------------------------
-- The items of a stream
-----------------------------------------------------------------------------------------

/-- A limit that the steps of a stream do not reach has no effect on its items, by induction on
the limit. -/
theorem itemsUpTo_stable {s : Stream} (sized : s.Sized) {n m : Nat} (enough : s.stepsLeft ≤ n)
    (enough' : s.stepsLeft ≤ m)
    : itemsUpTo n s = itemsUpTo m s := by
  induction n generalizing s m with
  | zero =>
      have finished : s.finished = true := by
        cases finished : s.finished with
        | true => rfl
        | false => simp [stepsLeft, finished] at enough
      cases m <;> simp [itemsUpTo, next?, finished]
  | succ n ih =>
      match step : s.next?, m with
      | (none, _), 0 => simp [itemsUpTo, step]
      | (none, _), m + 1 => simp [itemsUpTo, step]
      | (some item, rest), 0 =>
          have := (sized.next step).2.2
          omega
      | (some item, rest), m + 1 =>
          obtain ⟨again, _, less⟩ := sized.next step
          simp only [itemsUpTo, step]
          rw [ih (m := m) again (by omega) (by omega)]

/-- A step that makes an item puts it in front of the items behind it. -/
theorem itemsUpTo_of_some {s rest : Stream} {item : Except Fault Transition}
    (step : s.next? = (some item, rest)) (limit : Nat)
    : itemsUpTo (limit + 1) s = item :: itemsUpTo limit rest := by
  simp only [itemsUpTo, step]

/-- A step that makes nothing leaves no items. -/
theorem itemsUpTo_of_none {s rest : Stream} (step : s.next? = (none, rest)) (limit : Nat)
    : itemsUpTo (limit + 1) s = [] := by
  simp only [itemsUpTo, step]

/-- A stream whose step makes an item goes on with the items of the stream behind it. -/
theorem Sized.items_cons {s rest : Stream} (sized : s.Sized) {item : Except Fault Transition}
    (step : s.next? = (some item, rest))
    : s.items = item :: rest.items := by
  obtain ⟨again, same, less⟩ := sized.next step
  have bound := again.stepsLeft_le
  have bound' := sized.stepsLeft_le
  have stable := itemsUpTo_stable again (n := s.lengthBound) (m := rest.lengthBound + 1)
    (by omega) (by omega)
  rw [items, items, itemsUpTo_of_some step, stable]

/-- A stream whose step makes nothing has no items. -/
theorem items_nil {s rest : Stream} (step : s.next? = (none, rest)) : s.items = [] := by
  rw [items, itemsUpTo_of_none step]

/-- A stream without items makes nothing in its step. -/
theorem Sized.of_items_nil {s : Stream} (sized : s.Sized) (items_eq : s.items = [])
    : ∃ rest, s.next? = (none, rest) := by
  match step : s.next? with
  | (none, rest) => exact ⟨rest, rfl⟩
  | (some item, rest) =>
      rw [sized.items_cons step] at items_eq
      simp at items_eq

/-- The items of a stream come from its step and from the stream behind it. -/
theorem Sized.of_items_cons {s : Stream} (sized : s.Sized) {item : Except Fault Transition}
    {others : List (Except Fault Transition)} (items_eq : s.items = item :: others)
    : ∃ rest,
        s.next? = (some item, rest)
        ∧ rest.items = others
        ∧ rest.Sized
        ∧ rest.stepsLeft < s.stepsLeft := by
  match step : s.next? with
  | (none, rest) => simp [items_nil step] at items_eq
  | (some first, rest) =>
      rw [sized.items_cons step, List.cons.injEq] at items_eq
      obtain ⟨rfl, same⟩ := items_eq
      obtain ⟨again, _, less⟩ := sized.next step
      exact ⟨rest, rfl, same, again, less⟩

/-- The items up to a limit are the first items, by induction on the limit. -/
theorem Sized.items_prefix {s : Stream} (sized : s.Sized) (limit : Nat)
    : ∃ rest, s.items = itemsUpTo limit s ++ rest := by
  induction limit generalizing s with
  | zero => exact ⟨s.items, (List.nil_append _).symm⟩
  | succ limit ih =>
      match step : s.next? with
      | (none, _) => exact ⟨[], by rw [items_nil step, itemsUpTo_of_none step, List.append_nil]⟩
      | (some item, next) =>
          obtain ⟨rest, items_eq⟩ := ih (sized.next step).1
          refine ⟨rest, ?_⟩
          rw [sized.items_cons step, itemsUpTo_of_some step, items_eq, List.cons_append]

/-- Visits the items of a list in order, until one of them yields a result or is an error. -/
def visitItems (visit : σ → Transition → Except Fault (Visit σ ρ))
    : List (Except Fault Transition) → σ → Except Fault (Visit σ ρ)
  | [], state => .ok (.running state)
  | .error fault :: _, _ => .error fault
  | .ok t :: rest, state =>
    match visit state t with
    | .error fault => .error fault
    | .ok (.done result) => .ok (.done result)
    | .ok (.running state) => visitItems visit rest state

/-- A visit with a limit visits as many items, by induction on the limit. -/
theorem visitUpTo_eq (f : σ → Transition → Except Fault (Visit σ ρ)) (limit : Nat) (s : Stream)
    (state : σ)
    : visitUpTo f limit s state = visitItems f (itemsUpTo limit s) state := by
  induction limit generalizing s state with
  | zero => rfl
  | succ limit ih =>
      match step : s.next? with
      | (none, _) => simp only [visitUpTo, itemsUpTo, step, visitItems]
      | (some (.error fault), _) => simp only [visitUpTo, itemsUpTo, step, visitItems]
      | (some (.ok t), rest) =>
          simp only [visitUpTo, itemsUpTo, step, visitItems]
          cases f state t with
          | error fault => rfl
          | ok visited =>
              cases visited with
              | done result => rfl
              | running state => exact ih rest state

/-- A visit of a stream visits all of its items. -/
theorem Sized.visit_eq {s : Stream} (sized : s.Sized)
    (f : σ → Transition → Except Fault (Visit σ ρ)) (state : σ)
    : s.visit f state = visitItems f s.items state := by
  have bound := sized.stepsLeft_le
  rw [visit, visitUpTo_eq, items]
  rw [itemsUpTo_stable sized bound (show s.stepsLeft ≤ s.lengthBound + 1 by omega)]

-----------------------------------------------------------------------------------------
-- The changes of a stream
-----------------------------------------------------------------------------------------

/-- The changes of a stream in order. -/
def transitions (s : Stream) : List Transition := s.items.filterMap Except.toOption

/-- A stream whose step makes nothing has no changes. -/
theorem transitions_nil {s rest : Stream} (step : s.next? = (none, rest)) : s.transitions = [] := by
  rw [transitions, items_nil step]
  rfl

/-- A stream whose step makes a change goes on with the changes of the stream behind it. -/
theorem Sized.transitions_cons {s rest : Stream} (sized : s.Sized) {t : Transition}
    (step : s.next? = (some (.ok t), rest))
    : s.transitions = t :: rest.transitions := by
  rw [transitions, transitions, sized.items_cons step]
  exact List.filterMap_cons_some rfl

/-- A stream whose step fails has no changes. -/
theorem Sized.transitions_error {s rest : Stream} (sized : s.Sized) {fault : Fault}
    (step : s.next? = (some (.error fault), rest))
    : s.items = [.error fault] ∧ s.transitions = [] := by
  obtain ⟨_, _, rfl⟩ := next?_error step
  have finished : s.finish.next? = (none, s.finish) := by simp [next?, finish]
  have items_eq := sized.items_cons step
  rw [items_nil finished] at items_eq
  refine ⟨items_eq, ?_⟩
  rw [transitions, items_eq]
  rfl

/-- The changes come behind the cursor, in front of the end and in order, by induction on the
items. -/
theorem Sized.transitions_ordered {s : Stream} (sized : s.Sized)
    : (∀ t ∈ s.transitions, s.cursor < t.instant ∧ t.instant < s.stop)
      ∧ s.transitions.Pairwise fun t u => t.instant < u.instant := by
  generalize items_eq : s.items = items
  induction items generalizing s with
  | nil => simp [transitions, items_eq]
  | cons item others ih =>
      obtain ⟨rest, step, same, again, _⟩ := sized.of_items_cons items_eq
      cases item with
      | error fault => simp [(sized.transitions_error step).2]
      | ok t =>
          obtain ⟨inside, ordered⟩ := ih again same
          rw [sized.transitions_cons step]
          obtain ⟨_, found, lt, rfl⟩ := next?_ok step
          obtain ⟨r, makes⟩ := makes_of_nextAfterYears found
          have behind := makes.behind
          refine ⟨fun u member => ?_, List.pairwise_cons.mpr ⟨fun u member => ?_, ordered⟩⟩
          · rcases List.mem_cons.mp member with here | later
            · rw [here]
              exact ⟨behind, lt⟩
            · obtain ⟨after, before⟩ := inside u later
              exact ⟨Int.lt_trans behind after, before⟩
          · exact (inside u member).1

/-- Every change of a stream brings what one of its recurrences says, by induction on the items. -/
theorem Sized.mem_transitions {s : Stream} (sized : s.Sized) {t : Transition}
    (member : t ∈ s.transitions)
    : ∃ r,
        s.rules.recurrences[t.index]? = some r
        ∧ t.savings = r.savings
        ∧ t.letter = r.letter := by
  generalize items_eq : s.items = items
  induction items generalizing s with
  | nil => simp [transitions, items_eq] at member
  | cons item others ih =>
      obtain ⟨rest, step, same, again, _⟩ := sized.of_items_cons items_eq
      cases item with
      | error fault => simp [(sized.transitions_error step).2] at member
      | ok u =>
          rw [sized.transitions_cons step] at member
          obtain ⟨_, found, _, rfl⟩ := next?_ok step
          rcases List.mem_cons.mp member with rfl | later
          · obtain ⟨r, makes⟩ := makes_of_nextAfterYears found
            exact ⟨r, makes.at_index, makes.savings_eq, makes.letter_eq⟩
          · obtain ⟨r, at_index, brought⟩ := ih again later same
            exact ⟨r, at_index, brought⟩

-----------------------------------------------------------------------------------------
-- Several steps
-----------------------------------------------------------------------------------------

/-- Steps that make the given changes lead from one stream to another. -/
inductive Reaches : Stream → List Transition → Stream → Prop where
  | stay (s : Stream) : Reaches s [] s
  | step {s next last : Stream} {t : Transition} {rest : List Transition}
      (makes : s.next? = (some (.ok t), next)) (later : Reaches next rest last)
      : Reaches s (t :: rest) last

/-- A stream keeps its rules, its standard offset and its end. -/
theorem Reaches.fixed {s last : Stream} {changes : List Transition}
    (reaches : Reaches s changes last)
    : last.rules = s.rules ∧ last.stdOffset = s.stdOffset ∧ last.stop = s.stop := by
  induction reaches with
  | stay => exact ⟨rfl, rfl, rfl⟩
  | step makes _ ih =>
      obtain ⟨_, _, _, rfl⟩ := next?_ok makes
      exact ih

/-- Items that begin with changes are made by steps, by induction on the changes. -/
theorem Sized.reaches_of_items {s : Stream} (sized : s.Sized) {changes : List Transition}
    {rest : List (Except Fault Transition)} (items_eq : s.items = changes.map .ok ++ rest)
    : ∃ last, Reaches s changes last ∧ last.Sized ∧ last.items = rest := by
  induction changes generalizing s with
  | nil => exact ⟨s, .stay s, sized, items_eq⟩
  | cons t later ih =>
      obtain ⟨next, step, same, again, _⟩ := sized.of_items_cons items_eq
      obtain ⟨last, reaches, last_sized, last_items⟩ := ih again same
      exact ⟨last, .step step reaches, last_sized, last_items⟩

/-- The changes that steps make are the first changes of the stream. -/
theorem Reaches.transitions_eq {s last : Stream} {changes : List Transition}
    (reaches : Reaches s changes last) (sized : s.Sized)
    : s.transitions = changes ++ last.transitions := by
  induction reaches with
  | stay => exact (List.nil_append _).symm
  | step makes _ ih =>
      rw [sized.transitions_cons makes, ih (sized.next makes).1, List.cons_append]

-----------------------------------------------------------------------------------------
-- The state at an instant
-----------------------------------------------------------------------------------------

/-- The state that the last change at or before an instant leads to. -/
def stateAfter (initial : RuleState) (instant : Int) (changes : List Transition) : RuleState :=
  changes.foldl (fun state t => if t.instant ≤ instant then t.state else state) initial

/-- The first change takes the place of the state in front of it, unless it comes later. -/
theorem stateAfter_cons (initial : RuleState) (instant : Int) (t : Transition)
    (changes : List Transition)
    : stateAfter initial instant (t :: changes)
      = stateAfter (if t.instant ≤ instant then t.state else initial) instant changes := by
  rw [stateAfter, stateAfter, List.foldl_cons]

/-- The state at an instant is the initial one or the one that a change leads to. The induction is
on the changes. -/
theorem stateAfter_eq_or (initial : RuleState) (instant : Int) (changes : List Transition)
    : stateAfter initial instant changes = initial
      ∨ ∃ t ∈ changes, stateAfter initial instant changes = t.state := by
  induction changes generalizing initial with
  | nil => exact .inl rfl
  | cons t rest ih =>
      rw [stateAfter_cons]
      rcases ih (if t.instant ≤ instant then t.state else initial) with same | ⟨u, member, same⟩
      · rw [same]
        split
        · exact .inr ⟨t, by simp, rfl⟩
        · exact .inl rfl
      · exact .inr ⟨u, List.mem_cons_of_mem _ member, same⟩

/-- Changes behind an instant have no effect on the state at it, by induction on the changes. -/
theorem stateAfter_of_behind {initial : RuleState} {instant : Int} {changes : List Transition}
    (behind : ∀ t ∈ changes, instant < t.instant)
    : stateAfter initial instant changes = initial := by
  induction changes with
  | nil => rfl
  | cons t rest ih =>
      have later := behind t (by simp)
      rw [stateAfter_cons, if_neg (by omega)]
      exact ih fun u member => behind u (List.mem_cons_of_mem _ member)

/-- Changes behind an instant have no effect on the state at it, whatever comes in front of
them. -/
theorem stateAfter_append_of_behind {initial : RuleState} {instant : Int}
    {changes others : List Transition} (behind : ∀ t ∈ others, instant < t.instant)
    : stateAfter initial instant (changes ++ others) = stateAfter initial instant changes := by
  rw [stateAfter, List.foldl_append]
  exact stateAfter_of_behind behind

/-- From a change on, what comes in front of it has no effect on the state. -/
theorem stateAfter_append_cons {initial : RuleState} {instant : Int} {t : Transition}
    {changes others : List Transition} (le : t.instant ≤ instant)
    : stateAfter initial instant (changes ++ t :: others) = stateAfter t.state instant others := by
  simp only [stateAfter, List.foldl_append, List.foldl_cons, le, if_true]

/-- Where the changes come in order, the state at one of them is the one that it leads to. -/
theorem stateAfter_of_mem {initial : RuleState} {changes : List Transition} {t : Transition}
    (ordered : changes.Pairwise fun u v => u.instant < v.instant) (member : t ∈ changes)
    : stateAfter initial t.instant changes = t.state := by
  obtain ⟨front, others, rfl⟩ := List.append_of_mem member
  rw [stateAfter_append_cons (Int.le_refl _), stateAfter_of_behind]
  exact (List.pairwise_cons.mp (List.pairwise_append.mp ordered).2.1).1

/-- The state at a change that is reached within a limit is the one that it leads to. -/
theorem Sized.stateAfter_of_itemsUpTo {s : Stream} (sized : s.Sized) (initial : RuleState)
    {limit : Nat} {changes : List Transition} {t : Transition}
    (reached : itemsUpTo limit s = (changes ++ [t]).map .ok)
    : stateAfter initial t.instant s.transitions = t.state := by
  obtain ⟨rest, items_eq⟩ := sized.items_prefix limit
  rw [reached] at items_eq
  obtain ⟨last, reaches, _⟩ := sized.reaches_of_items items_eq
  refine stateAfter_of_mem sized.transitions_ordered.2 ?_
  rw [reaches.transitions_eq sized]
  simp

/-- In front of a change that is reached within a limit, only the changes in front of it have an
effect. -/
theorem Sized.stateAfter_of_lt {s : Stream} (sized : s.Sized) (initial : RuleState)
    {limit : Nat} {changes : List Transition} {u : Transition} {instant : Int}
    (reached : itemsUpTo limit s = (changes ++ [u]).map .ok) (before : instant < u.instant)
    : stateAfter initial instant s.transitions = stateAfter initial instant changes := by
  obtain ⟨rest, items_eq⟩ := sized.items_prefix limit
  rw [reached] at items_eq
  obtain ⟨last, reaches, _⟩ := sized.reaches_of_items items_eq
  have ordered := sized.transitions_ordered.2
  have transitions_eq : s.transitions = changes ++ u :: last.transitions := by
    rw [reaches.transitions_eq sized, List.append_assoc, List.singleton_append]
  rw [transitions_eq] at ordered ⊢
  have later := (List.pairwise_cons.mp (List.pairwise_append.mp ordered).2.1).1
  exact stateAfter_append_of_behind
    (List.forall_mem_cons.mpr ⟨before, fun v member => Int.lt_trans before (later v member)⟩)

end CivilTime.Stream
