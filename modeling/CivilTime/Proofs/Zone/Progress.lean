import CivilTime.Proofs.Zone.Boundaries
import Mathlib.Logic.Relation

/-! A range query in a tail is a sequence of lookups, each at the end of what the last one found.
Whatever the tail is, what a lookup finds contains its instant, so every turn moves the cursor on.
The query comes to an end even without a guard against intervals that stand still, and it has
found an interval for every instant that it has passed.
-/

namespace CivilTime

namespace CompiledZone

open Relation

/-- A range query in a tail: where it looks next, and what it has found. -/
structure TailQuery where
  cursor : Int
  found : List Interval

/-- A turn of a range query looks up the cursor in front of the end of the range and moves on to the
end of what it finds, wherever that lies. -/
inductive Turn (tail : Tail) (stop : Int) : TailQuery → TailQuery → Prop where
  | look {cursor : Int} {found : List Interval} {i : Interval}
    (inside : cursor < stop) (shown : tail.intervalAt cursor = .ok i)
    : Turn tail stop ⟨cursor, found⟩ ⟨i.stop, found ++ [i]⟩

/-- The query that a range of a zone begins with, behind the explicit intervals. -/
def firstQuery (zone : CompiledZone) (tail : Tail) (start stop : Int) : TailQuery :=
  { cursor := max start tail.start, found := zone.explicitIn start stop }

/-- Turns lead the query for a range of a zone to a query. -/
def LeadsTo (zone : CompiledZone) (tail : Tail) (start stop : Int) (query : TailQuery) : Prop :=
  ReflTransGen (Turn tail stop) (zone.firstQuery tail start stop) query

/-- Every turn of the query for a range moves the cursor on, the turns come to an end, and the range
holds what they have found: an interval around every instant of the range that the tail covers. -/
structure Advances (zone : CompiledZone) (tail : Tail) (start stop : Int) : Prop where
  /-- A turn never leaves the cursor where it is. -/
  forward
    : ∀ query next,
        zone.LeadsTo tail start stop query
        → Turn tail stop query next
        → query.cursor < next.cursor
  /-- No sequence of turns goes on forever. -/
  ends : Acc (fun next query => Turn tail stop query next) (zone.firstQuery tail start stop)
  returns
    : ∀ is,
        zone.intervalsIn start stop = .ok is
        ↔ ∃ query,
            zone.LeadsTo tail start stop query
            ∧ stop ≤ query.cursor
            ∧ query.found = is
  fails
    : ∀ fault,
        zone.intervalsIn start stop = .error fault
        ↔ ∃ query,
            zone.LeadsTo tail start stop query
            ∧ query.cursor < stop
            ∧ tail.intervalAt query.cursor = .error fault
  covers
    : ∀ is,
        zone.intervalsIn start stop = .ok is
        → ∃ shown,
            is = zone.explicitIn start stop ++ shown
            ∧ ∀ t,
                start ≤ t
                → tail.start ≤ t
                → t < stop
                → ∃ i ∈ shown, i.start ≤ t ∧ t < i.stop

variable {zone : CompiledZone} {tail : Tail} {start stop : Int} {first query next : TailQuery}

-----------------------------------------------------------------------------------------
-- One turn
-----------------------------------------------------------------------------------------

/-- A turn in a tail finds an interval around the cursor and moves the cursor to its end. -/
theorem Turn.finds (turn : Turn tail stop query next) (after : tail.start ≤ query.cursor)
    (in_time : stop ≤ endOfTime)
    : ∃ i,
        tail.intervalAt query.cursor = .ok i
        ∧ query.cursor < stop
        ∧ i.start ≤ query.cursor
        ∧ query.cursor < i.stop
        ∧ next = ⟨i.stop, query.found ++ [i]⟩ := by
  cases turn with
  | look inside shown =>
      have contains := Tail.contains_of_intervalAt shown after (by dsimp only at *; omega)
      exact ⟨_, shown, inside, contains.1, contains.2, rfl⟩

/-- What a query returns once its turns are done. -/
def TailQuery.outcome (tail : Tail) (stop : Int) (query : TailQuery)
    : Except Fault (List Interval) :=
  (tailIn tail query.cursor stop).map (query.found ++ ·)

/-- A turn does not matter to what a query returns. -/
theorem Turn.outcome_eq (turn : Turn tail stop query next) (after : tail.start ≤ query.cursor)
    (in_time : stop ≤ endOfTime)
    : query.outcome tail stop = next.outcome tail stop := by
  obtain ⟨i, shown, inside, _, forward, rfl⟩ := turn.finds after in_time
  rw [TailQuery.outcome, tailIn, if_pos inside, shown]
  simp only [if_pos forward, TailQuery.outcome]
  cases tailIn tail i.stop stop <;> simp [Except.map]

/-- A query at the end of its range returns what it has found. -/
theorem TailQuery.outcome_done (done : stop ≤ query.cursor)
    : query.outcome tail stop = .ok query.found := by
  rw [outcome, tailIn, if_neg (Int.not_lt.mpr done)]
  simp [Except.map]

/-- A query whose lookup fails returns the failure. -/
theorem TailQuery.outcome_failed {fault : Fault} (inside : query.cursor < stop)
    (failed : tail.intervalAt query.cursor = .error fault)
    : query.outcome tail stop = .error fault := by
  rw [outcome, tailIn, if_pos inside, failed]
  rfl

-----------------------------------------------------------------------------------------
-- All turns
-----------------------------------------------------------------------------------------

/-- A query has gone through turns: it is not in front of the tail, returns the same as before them,
and has found an interval around every instant that it has passed. -/
structure TailQuery.Reached (tail : Tail) (stop : Int) (first query : TailQuery) : Prop where
  after : tail.start ≤ query.cursor
  same : first.outcome tail stop = query.outcome tail stop
  passed
    : ∃ shown,
        query.found = first.found ++ shown
        ∧ ∀ t,
            first.cursor ≤ t
            → t < query.cursor
            → ∃ i ∈ shown, i.start ≤ t ∧ t < i.stop

/-- A turn adds the interval around the cursor, so what is passed stays covered. -/
theorem TailQuery.Reached.turn (reached : TailQuery.Reached tail stop first query)
    (turn : Turn tail stop query next) (in_time : stop ≤ endOfTime)
    : TailQuery.Reached tail stop first next := by
  have same := reached.same.trans (turn.outcome_eq reached.after in_time)
  obtain ⟨i, _, _, begins, forward, rfl⟩ := turn.finds reached.after in_time
  obtain ⟨shown, found_eq, covered⟩ := reached.passed
  refine ⟨Int.le_trans reached.after (Int.le_of_lt forward), same, shown ++ [i], ?_, ?_⟩
  · rw [found_eq, List.append_assoc]
  · intro t after before
    rcases Int.lt_or_le t query.cursor with behind | ahead
    · obtain ⟨j, member, contains⟩ := covered t after behind
      exact ⟨j, List.mem_append_left [i] member, contains⟩
    · exact ⟨i, by simp, Int.le_trans begins ahead, before⟩

/-- Turns keep what a query has reached, by induction on them. -/
theorem reached_of_turns (turns : ReflTransGen (Turn tail stop) first query)
    (after : tail.start ≤ first.cursor) (in_time : stop ≤ endOfTime)
    : TailQuery.Reached tail stop first query := by
  induction turns with
  | refl => exact ⟨after, rfl, [], by simp, fun t after before => by omega⟩
  | tail _ turn ih => exact ih.turn turn in_time

/-- The turns of a query come to an end, by induction on the distance to the end of the range. -/
theorem turns_end (in_time : stop ≤ endOfTime) (query : TailQuery)
    (after : tail.start ≤ query.cursor)
    : Acc (fun next query => Turn tail stop query next) query := by
  induction distance_eq : (stop - query.cursor).toNat using Nat.strong_induction_on
    generalizing query with
  | h distance ih =>
      refine .intro query fun next turn => ?_
      obtain ⟨i, _, inside, _, forward, rfl⟩ := turn.finds after in_time
      exact ih _ (by dsimp only; omega) _ (Int.le_trans after (Int.le_of_lt forward)) rfl

/-- A query whose turns end comes to the end of its range or to a lookup that fails. The induction
is on the turns that are left. -/
theorem exists_last_turn (ends : Acc (fun next query => Turn tail stop query next) query)
    : ∃ last,
        ReflTransGen (Turn tail stop) query last
        ∧ (stop ≤ last.cursor
          ∨ (last.cursor < stop ∧ ∃ fault, tail.intervalAt last.cursor = .error fault)) := by
  induction ends with
  | intro query _ ih =>
      rcases Int.lt_or_le query.cursor stop with inside | done
      · cases shown : tail.intervalAt query.cursor with
        | error fault => exact ⟨query, .refl, .inr ⟨inside, fault, shown⟩⟩
        | ok i =>
            have turn : Turn tail stop query ⟨i.stop, query.found ++ [i]⟩ := .look inside shown
            obtain ⟨last, turns, finished⟩ := ih _ turn
            exact ⟨last, .head turn turns, finished⟩
      · exact ⟨query, .refl, .inl done⟩

-----------------------------------------------------------------------------------------
-- Range queries
-----------------------------------------------------------------------------------------

/-- The query for a range begins where the tail has started. -/
theorem start_le_firstQuery (zone : CompiledZone)
    : tail.start ≤ (zone.firstQuery tail start stop).cursor :=
  Int.le_max_right ..

/-- The query for a range comes to the end of the range or to a lookup that fails. -/
theorem exists_last_firstQuery (zone : CompiledZone) (in_time : stop ≤ endOfTime)
    : ∃ last,
        zone.LeadsTo tail start stop last
        ∧ (stop ≤ last.cursor
          ∨ (last.cursor < stop ∧ ∃ fault, tail.intervalAt last.cursor = .error fault)) :=
  exists_last_turn (turns_end in_time _ (start_le_firstQuery zone))

section Ranges

variable (tail_eq : zone.tail = some tail) (in_time : stop ≤ endOfTime)

include tail_eq

/-- A range holds what its first query returns. -/
theorem intervalsIn_eq_outcome
    : zone.intervalsIn start stop = (zone.firstQuery tail start stop).outcome tail stop := by
  rw [intervalsIn, tail_eq]
  rfl

include in_time

/-- A range holds what any query that is reached in it returns. -/
theorem intervalsIn_eq_of_turns (turns : zone.LeadsTo tail start stop query)
    : zone.intervalsIn start stop = query.outcome tail stop := by
  have reached := reached_of_turns turns (start_le_firstQuery zone) in_time
  rw [intervalsIn_eq_outcome tail_eq, reached.same]

/-- At the end of a range, the range holds what has been found. -/
theorem intervalsIn_of_done (turns : zone.LeadsTo tail start stop query)
    (done : stop ≤ query.cursor)
    : zone.intervalsIn start stop = .ok query.found := by
  rw [intervalsIn_eq_of_turns tail_eq in_time turns, TailQuery.outcome_done done]

/-- A lookup that fails in a range makes the query fail. -/
theorem intervalsIn_of_failed {fault : Fault}
    (turns : zone.LeadsTo tail start stop query)
    (inside : query.cursor < stop) (failed : tail.intervalAt query.cursor = .error fault)
    : zone.intervalsIn start stop = .error fault := by
  rw [intervalsIn_eq_of_turns tail_eq in_time turns, TailQuery.outcome_failed inside failed]

/-- A range query succeeds with what its turns have found at the end of the range. -/
theorem intervalsIn_eq_ok {is : List Interval}
    : zone.intervalsIn start stop = .ok is
      ↔ ∃ query,
          zone.LeadsTo tail start stop query
          ∧ stop ≤ query.cursor
          ∧ query.found = is := by
  constructor
  · intro listed
    obtain ⟨last, turns, done | ⟨inside, fault, failed⟩⟩ := exists_last_firstQuery zone in_time
    · rw [intervalsIn_of_done tail_eq in_time turns done] at listed
      exact ⟨last, turns, done, Except.ok.inj listed⟩
    · rw [intervalsIn_of_failed tail_eq in_time turns inside failed] at listed
      cases listed
  · rintro ⟨query, turns, done, rfl⟩
    exact intervalsIn_of_done tail_eq in_time turns done

/-- A range query fails with the lookup that its turns come to in the range. -/
theorem intervalsIn_eq_error {fault : Fault}
    : zone.intervalsIn start stop = .error fault
      ↔ ∃ query,
          zone.LeadsTo tail start stop query
          ∧ query.cursor < stop
          ∧ tail.intervalAt query.cursor = .error fault := by
  constructor
  · intro refused
    obtain ⟨last, turns, done | ⟨inside, other, failed⟩⟩ := exists_last_firstQuery zone in_time
    · rw [intervalsIn_of_done tail_eq in_time turns done] at refused
      cases refused
    · rw [intervalsIn_of_failed tail_eq in_time turns inside failed] at refused
      obtain rfl := Except.error.inj refused
      exact ⟨last, turns, inside, failed⟩
  · rintro ⟨query, turns, inside, failed⟩
    exact intervalsIn_of_failed tail_eq in_time turns inside failed

/-- A range that is returned holds an interval around every instant that the tail covers. -/
theorem covered_of_intervalsIn {is : List Interval}
    (listed : zone.intervalsIn start stop = .ok is)
    : ∃ shown,
        is = zone.explicitIn start stop ++ shown
        ∧ ∀ t,
            start ≤ t
            → tail.start ≤ t
            → t < stop
            → ∃ i ∈ shown, i.start ≤ t ∧ t < i.stop := by
  obtain ⟨query, turns, done, rfl⟩ := (intervalsIn_eq_ok tail_eq in_time).mp listed
  obtain ⟨shown, found_eq, passed⟩ :=
    (reached_of_turns turns (start_le_firstQuery zone) in_time).passed
  refine ⟨shown, found_eq, fun t after from_start before => ?_⟩
  exact passed t (Int.max_le.mpr ⟨after, from_start⟩) (Int.lt_of_lt_of_le before done)

/-- Range queries in a zone with a tail advance. -/
theorem advances : zone.Advances tail start stop where
  forward query next turns turn := by
    have reached := reached_of_turns turns (start_le_firstQuery zone) in_time
    obtain ⟨i, _, _, _, forward, rfl⟩ := turn.finds reached.after in_time
    exact forward
  ends := turns_end in_time _ (start_le_firstQuery zone)
  returns _ := intervalsIn_eq_ok tail_eq in_time
  fails _ := intervalsIn_eq_error tail_eq in_time
  covers _ := covered_of_intervalsIn tail_eq in_time

end Ranges

/-- A lookup in any tail finds an interval of the tail that contains the instant. So every range
query in a zone advances, comes to an end and covers what the tail covers of the range. Sums of
offsets are taken in unbounded numbers, so this speaks of the lookups in which none overflows. -/
theorem tailLookups_advance (zone : CompiledZone) (start stop : Int) (in_time : stop ≤ endOfTime)
    : (∀ (tail : Tail) (t : Int) (i : Interval),
        tail.start ≤ t
        → t < endOfTime
        → tail.intervalAt t = .ok i
        → tail.start ≤ i.start ∧ i.start ≤ t ∧ t < i.stop)
      ∧ ∀ tail ∈ zone.tail, zone.Advances tail start stop := by
  refine ⟨fun tail t i after before found => ?_, fun tail tail_eq => advances tail_eq in_time⟩
  exact ⟨(Tail.bounds_of_intervalAt found).1, Tail.contains_of_intervalAt found after before⟩

end CompiledZone

/-- A tail that starts in winter, with a saved time and a letter that none of its rules knows. -/
def strayTail : Tail :=
  { summerTail with start := 1200000000, initialSavings := 7200, initialLetter := none }

/-- A zone that leaves a gap in front of that tail. -/
def strayZone : CompiledZone :=
  { intervals :=
      [ { start := beginningOfTime
          stop := 0
          stdOffset := -18000
          savings := 0
          name := "LMT" } ]
    tail := some strayTail }

/-- Witness: lookups in the stray tail find intervals around their instants, and a range query
advances in it. -/
theorem strayZone_lookups_advance
    : 1250000000 ≤ endOfTime
      ∧ (∃ i,
          strayTail.intervalAt 1203000000 = .ok i
          ∧ 1200000000 ≤ i.start
          ∧ i.start ≤ 1203000000
          ∧ 1203000000 < i.stop)
      ∧ strayZone.Advances strayTail (-1) 1250000000
      ∧ (strayZone.intervalsIn (-1) 1250000000).toOption.map List.length = some 5 := by
  have in_time : 1250000000 ≤ endOfTime := by decide
  obtain ⟨contains, advances⟩ := strayZone.tailLookups_advance (-1) 1250000000 in_time
  have found
      : strayTail.intervalAt 1203000000
        = .ok
            { start := 1200000000
              stop := 1205038800
              stdOffset := -18000
              savings := 7200
              name := "ET" } := by
    decide +kernel
  refine ⟨in_time, ⟨_, found, ?_⟩, advances strayTail rfl, by decide +kernel⟩
  exact contains strayTail _ _ (by decide) (by decide) found

end CivilTime
