import CivilTime.Proofs.Zone.Consistency
import Mathlib.Order.Bounds.Basic

/-! The transitions around an instant are the neighbouring boundaries of the zone.
No boundary lies inside an interval, and an interval starts and ends at boundaries or where time
does. The end of a zone with a single interval is not found from behind it.
-/

namespace CivilTime

namespace Tail

variable {tail : Tail} {t : Int} {i : Interval}

-----------------------------------------------------------------------------------------
-- The bounds of what a tail shows
-----------------------------------------------------------------------------------------

theorem filterMap_toOption_cons (u : Transition) (items : List (Except Fault Transition))
    : (Except.ok u :: items).filterMap Except.toOption = u :: items.filterMap Except.toOption :=
  rfl

/-- A visit keeps the start that it began with or moves it to a change up to the instant, and it
ends at a change behind the instant or with time. The induction is on the items. -/
theorem edges_of_visitItems {items : List (Except Fault Transition)} {run : Run}
    {outcome : Stream.Visit Run (Run × Int)}
    (visited : Stream.visitItems (tail.followChange t) items run = .ok outcome)
    : ((spanOf outcome).1.start = run.start
        ∨ ∃ u ∈ items.filterMap Except.toOption,
            u.instant ≤ t ∧ (spanOf outcome).1.start = some u.instant)
      ∧ ((spanOf outcome).2 = endOfTime
        ∨ ∃ u ∈ items.filterMap Except.toOption,
            t < u.instant ∧ (spanOf outcome).2 = u.instant) := by
  induction items generalizing run with
  | nil =>
      obtain rfl := Except.ok.inj visited
      exact ⟨.inl rfl, .inl rfl⟩
  | cons item rest ih =>
      cases item with
      | error fault => simp [Stream.visitItems] at visited
      | ok u =>
          rw [filterMap_toOption_cons]
          cases followed : tail.followChange t run u with
          | error fault => simp [Stream.visitItems, followed] at visited
          | ok step =>
              rcases followChange_ok followed with ⟨behind, _, rfl⟩ | ⟨next, rfl, _, origin⟩
              · simp only [Stream.visitItems, followed, Except.ok.injEq] at visited
                subst visited
                exact ⟨.inl rfl, .inr ⟨u, List.mem_cons_self, behind, rfl⟩⟩
              · simp only [Stream.visitItems, followed] at visited
                obtain ⟨start_edge, stop_edge⟩ := ih visited
                constructor
                · rcases start_edge with kept | ⟨v, member, reached, moved⟩
                  · rcases origin with ⟨_, same⟩ | ⟨reached, _, moved⟩
                    · exact .inl (kept.trans same)
                    · exact .inr ⟨u, List.mem_cons_self, reached, kept.trans moved⟩
                  · exact .inr ⟨v, List.mem_cons_of_mem u member, reached, moved⟩
                · rcases stop_edge with ended | ⟨v, member, behind, stopped⟩
                  · exact .inl ended
                  · exact .inr ⟨v, List.mem_cons_of_mem u member, behind, stopped⟩

/-- An interval of a tail starts with the tail or at a change up to the instant, and it ends at a
change behind the instant or with time. -/
theorem edges_of_intervalAt (found : tail.intervalAt t = .ok i)
    : (i.start = tail.start ∨ (tail.start < i.start ∧ i.start ≤ t))
      ∧ (i.stop = endOfTime ∨ (t < i.stop ∧ i.stop < endOfTime)) := by
  obtain ⟨year, anchor, _, anchored, walked⟩ := search_ok found
  obtain ⟨outcome, visited, found⟩ := visited_of_walk walked
  obtain ⟨start, start_eq, rfl⟩ := Option.map_eq_some_iff.mp found.symm
  have sized : (tail.changesBehind anchor).Sized := Stream.sized_between ..
  have inside
      : ∀ u ∈ (tail.changesBehind anchor).transitions,
          anchor.cursor < u.instant ∧ u.instant < endOfTime :=
    sized.transitions_ordered.1
  obtain ⟨start_edge, stop_edge⟩ := edges_of_visitItems visited
  have from_anchor := anchorAt_ok anchored
  constructor
  · rcases start_edge with kept | ⟨u, member, reached, moved⟩
    · rcases from_anchor with ⟨cursor_eq, boundary, _⟩ | ⟨_, _, _, _, _, _, boundary, _⟩
      · simp only [Anchor.origin, boundary, if_true] at kept
        obtain rfl := Option.some.inj (start_eq.symm.trans kept)
        exact .inl cursor_eq
      · simp [Anchor.origin, boundary, start_eq] at kept
    · obtain rfl := Option.some.inj (start_eq.symm.trans moved)
      have behind := (inside u member).1
      have from_start : tail.start < u.instant := by
        rcases from_anchor with ⟨cursor_eq, _⟩ | ⟨_, _, _, later, _, cursor_eq, _⟩ <;> omega
      exact .inr ⟨from_start, reached⟩
  · rcases stop_edge with ended | ⟨u, member, behind, stopped⟩
    · exact .inl ended
    · exact .inr ⟨stopped ▸ behind, stopped ▸ (inside u member).2⟩

/-- What a lookup in a tail finds lies between the start of the tail and the end of time. -/
theorem bounds_of_intervalAt (found : tail.intervalAt t = .ok i)
    : tail.start ≤ i.start ∧ i.stop ≤ endOfTime := by
  have edges := edges_of_intervalAt found
  omega

/-- A lookup at an instant of a tail finds an interval that contains the instant, whatever the tail
is. -/
theorem contains_of_intervalAt (found : tail.intervalAt t = .ok i) (after : tail.start ≤ t)
    (in_time : t < endOfTime)
    : i.start ≤ t ∧ t < i.stop := by
  have edges := edges_of_intervalAt found
  omega

-----------------------------------------------------------------------------------------
-- The end of time
-----------------------------------------------------------------------------------------

/-- Instants behind the same changes are visited alike, by induction on the items. -/
theorem visitItems_congr {items : List (Except Fault Transition)} {run : Run} {u : Int}
    (alike : ∀ v ∈ items.filterMap Except.toOption, t < v.instant ↔ u < v.instant)
    : Stream.visitItems (tail.followChange t) items run
      = Stream.visitItems (tail.followChange u) items run := by
  induction items generalizing run with
  | nil => rfl
  | cons item rest ih =>
      cases item with
      | error fault => rfl
      | ok v =>
          rw [filterMap_toOption_cons] at alike
          obtain ⟨here, rest_alike⟩ := List.forall_mem_cons.mp alike
          have same : tail.followChange t run v = tail.followChange u run v := by
            simp only [followChange, here]
          simp only [Stream.visitItems, same, ih rest_alike]

/-- No change comes at the last instant, so a walk to the end of time is one to the instant in front
of it. -/
theorem walk_endOfTime (anchor : Anchor)
    : tail.walk anchor endOfTime = tail.walk anchor (endOfTime - 1) := by
  have sized : (tail.changesBehind anchor).Sized := Stream.sized_between ..
  have in_time := sized.transitions_ordered.1
  unfold walk
  simp only [show Stream.after tail.rules anchor.cursor tail.stdOffset anchor.savings
    = tail.changesBehind anchor from rfl, sized.visit_eq]
  rw [visitItems_congr (t := endOfTime) (u := endOfTime - 1) fun v member => by
    have : v.instant < endOfTime := (in_time v member).2
    omega]

/-- A search at the end of time is one at the instant in front of it, by induction on its limit. -/
theorem search_endOfTime (limit : Nat) (year : Int)
    : tail.search endOfTime limit year = tail.search (endOfTime - 1) limit year := by
  induction limit generalizing year with
  | zero => rfl
  | succ limit ih => simp only [search, walk_endOfTime, ih]

/-- A lookup at the end of time finds what the one at the instant in front of it does. -/
theorem intervalAt_endOfTime : tail.intervalAt endOfTime = tail.intervalAt (endOfTime - 1) := by
  have same : Calendar.yearOf endOfTime = Calendar.yearOf (endOfTime - 1) := by decide +kernel
  rw [intervalAt, intervalAt, same, search_endOfTime]

end Tail

namespace CompiledZone

-----------------------------------------------------------------------------------------
-- The boundaries of a zone
-----------------------------------------------------------------------------------------

/-- The starts of intervals, explicit ones and ones that lookups find, with the exception of the
beginning of time, and the end of a zone that ends. -/
inductive Boundary (zone : CompiledZone) : Int → Prop where
  | explicit {i : Interval} (member : i ∈ zone.intervals) (later : i.start ≠ beginningOfTime)
    : Boundary zone i.start
  | found {t : Int} {i : Interval} (finds : zone.Finds t i) (later : i.start ≠ beginningOfTime)
    : Boundary zone i.start
  | ending (bounded : zone.coverageEnd ≠ endOfTime)
    : Boundary zone zone.coverageEnd

/-- The intervals begin at the beginning of time and leave no gaps up to the tail, which may be all
that there is. They do not reach beyond the end of time, the tail begins in front of it, and the
lookups agree with each other. -/
structure Gapless (zone : CompiledZone) : Prop where
  joined
    : zone.LaidOut
      ∨ zone.intervals = [] ∧ ∃ tail, zone.tail = some tail ∧ tail.start = beginningOfTime
  inTime : ∀ i ∈ zone.intervals, i.stop ≤ endOfTime
  tailInTime : ∀ tail ∈ zone.tail, tail.start < endOfTime
  consistent : zone.Consistent

variable {zone : CompiledZone} {i : Interval} {t b last : Int}

/-- Without a tail there are explicit intervals. -/
theorem Gapless.laidOut (gapless : zone.Gapless) (tail_eq : zone.tail = none) : zone.LaidOut := by
  rcases gapless.joined with laidOut | ⟨_, tail, tail_eq', _⟩
  · exact laidOut
  · simp [tail_eq] at tail_eq'

/-- No explicit interval ends behind the end of the last one, nor does the last one end behind the
end of time. -/
theorem Gapless.last_le (gapless : zone.Gapless)
    (last_eq : zone.intervals.getLast?.map (·.stop) = some last)
    : last ≤ endOfTime := by
  obtain ⟨i, i_eq, rfl⟩ := Option.map_eq_some_iff.mp last_eq
  exact gapless.inTime i (List.mem_of_getLast? i_eq)

/-- A zone covers some time, and none behind the end of time. -/
theorem Gapless.coverageEnd_bounds (gapless : zone.Gapless)
    : beginningOfTime < zone.coverageEnd ∧ zone.coverageEnd ≤ endOfTime := by
  cases tail_eq : zone.tail with
  | some tail =>
      rw [coverageEnd_of_tail tail_eq]
      decide
  | none =>
      have laidOut := gapless.laidOut tail_eq
      obtain ⟨last, last_eq⟩ := laidOut.exists_last
      rw [coverageEnd_of_none tail_eq last_eq]
      refine ⟨?_, gapless.last_le last_eq⟩
      obtain ⟨i, i_eq, rfl⟩ := Option.map_eq_some_iff.mp last_eq
      have member := List.mem_of_getLast? i_eq
      exact Int.lt_of_le_of_lt (laidOut.contiguous.start_ge member)
        (laidOut.contiguous.forward i member)

/-- Every explicit interval is found at its start. -/
theorem Gapless.finds_of_mem (gapless : zone.Gapless) (member : i ∈ zone.intervals)
    : zone.Finds i.start i := by
  rcases gapless.joined with laidOut | ⟨no_intervals, _⟩
  · obtain ⟨last, last_eq⟩ := laidOut.exists_last
    have forward := laidOut.contiguous.forward i member
    have le_last := laidOut.contiguous.stop_le last_eq member
    have in_time := gapless.inTime i member
    exact {
      after := laidOut.contiguous.start_ge member
      covered := lt_coverageEnd last_eq (by omega) (by omega)
      found := laidOut.intervalAt_of_mem member (Int.le_refl _) forward
    }
  · simp [no_intervals] at member

/-- What a lookup finds lies between the beginning of time and the end of the zone. -/
theorem Gapless.bounds_of_finds (gapless : zone.Gapless) (finds : zone.Finds t i)
    : beginningOfTime ≤ i.start ∧ i.stop ≤ zone.coverageEnd := by
  have in_tail {tail : Tail} (tail_eq : zone.tail = some tail)
      (first : beginningOfTime ≤ tail.start) (after : tail.start ≤ t)
      : beginningOfTime ≤ i.start ∧ i.stop ≤ zone.coverageEnd := by
    have found := finds.found
    rw [intervalAt_of_tail tail_eq after] at found
    obtain ⟨j, shown, same⟩ := map_eq_ok.mp found
    obtain rfl := Option.some.inj same
    have bounds := Tail.bounds_of_intervalAt shown
    rw [coverageEnd_of_tail tail_eq]
    exact ⟨Int.le_trans first bounds.1, bounds.2⟩
  rcases gapless.joined with laidOut | ⟨_, tail, tail_eq, start_eq⟩
  · obtain ⟨last, last_eq⟩ := laidOut.exists_last
    rcases Int.lt_or_le t last with before | behind
    · obtain ⟨member, _, _⟩ := laidOut.mem_of_finds last_eq finds before
      refine ⟨laidOut.contiguous.start_ge member, ?_⟩
      cases tail_eq : zone.tail with
      | some tail =>
          rw [coverageEnd_of_tail tail_eq]
          exact gapless.inTime i member
      | none =>
          rw [coverageEnd_of_none tail_eq last_eq]
          exact laidOut.contiguous.stop_le last_eq member
    · cases tail_eq : zone.tail with
      | some tail =>
          have adjoining := laidOut.adjoining tail tail_eq
          obtain rfl := Option.some.inj (last_eq.symm.trans adjoining)
          obtain ⟨last, last_eq, last_stop⟩ := Option.map_eq_some_iff.mp adjoining
          have member := List.mem_of_getLast? last_eq
          have first := laidOut.contiguous.start_ge member
          have forward := laidOut.contiguous.forward last member
          exact in_tail tail_eq (by omega) behind
      | none =>
          have covered := finds.covered
          rw [coverageEnd_of_none tail_eq last_eq] at covered
          omega
  · exact in_tail tail_eq (by omega) (start_eq ▸ finds.after)

/-- A boundary is the start of an interval that is found, or the end of the zone. -/
theorem Gapless.boundary_cases (gapless : zone.Gapless) (boundary : zone.Boundary b)
    : (∃ t i, zone.Finds t i ∧ i.start = b ∧ b ≠ beginningOfTime)
      ∨ (zone.coverageEnd = b ∧ b ≠ endOfTime) := by
  cases boundary with
  | explicit member later => exact .inl ⟨_, _, gapless.finds_of_mem member, rfl, later⟩
  | found finds later => exact .inl ⟨_, _, finds, rfl, later⟩
  | ending bounded => exact .inr ⟨rfl, bounded⟩

/-- A boundary lies behind the beginning of time, in front of the end of time and not behind the end
of the zone. -/
theorem Gapless.boundary_bounds (gapless : zone.Gapless) (boundary : zone.Boundary b)
    : beginningOfTime < b ∧ b < endOfTime ∧ b ≤ zone.coverageEnd := by
  have covers := gapless.coverageEnd_bounds
  rcases gapless.boundary_cases boundary with ⟨t, i, finds, rfl, later⟩ | ⟨rfl, bounded⟩
  · have first := (gapless.bounds_of_finds finds).1
    have contains := finds.contains gapless.consistent
    have covered := finds.covered
    omega
  · omega

/-- No boundary lies inside an interval that is found. -/
theorem Gapless.boundary_outside (gapless : zone.Gapless) (finds : zone.Finds t i)
    (boundary : zone.Boundary b)
    : b ≤ i.start ∨ i.stop ≤ b := by
  have contains := finds.contains gapless.consistent
  rcases gapless.boundary_cases boundary with ⟨u, j, also, rfl, later⟩ | ⟨rfl, _⟩
  · by_cases same : i = j
    · exact .inl (Int.le_of_eq (same ▸ rfl))
    have contains' := also.contains gapless.consistent
    rcases Int.lt_trichotomy t u with before | rfl | behind
    · exact .inr (finds.stop_le also gapless.consistent before same)
    · exact absurd (finds.unique also) same
    · have := also.stop_le finds gapless.consistent behind (Ne.symm same)
      omega
  · exact .inr (gapless.bounds_of_finds finds).2

/-- An interval that is found ends at a boundary, or where time does. -/
theorem Gapless.boundary_stop (gapless : zone.Gapless) (finds : zone.Finds t i)
    (ends : i.stop ≠ endOfTime)
    : zone.Boundary i.stop := by
  have contains := finds.contains gapless.consistent
  have bounds := gapless.bounds_of_finds finds
  rcases Int.lt_or_le i.stop zone.coverageEnd with covered | behind
  · obtain ⟨j, also, contains'⟩ := gapless.consistent.finds (t := i.stop) (by omega) covered
    have different : i ≠ j := by
      rintro rfl
      omega
    have apart := finds.stop_le also gapless.consistent (by omega) different
    obtain same : j.start = i.stop := by omega
    rw [← same]
    exact .found also (by omega)
  · have same : zone.coverageEnd = i.stop := Int.le_antisymm behind bounds.2
    rw [← same] at ends ⊢
    exact .ending ends

-----------------------------------------------------------------------------------------
-- The neighbouring boundaries
-----------------------------------------------------------------------------------------

/-- An answer is the first one of some instants, and is absent if there are none. -/
inductive First (instants : Set Int) : Option Int → Prop where
  | found {b : Int} (least : IsLeast instants b) : First instants (some b)
  | absent (none_left : ∀ b, b ∉ instants) : First instants none

/-- An answer is the last one of some instants, and is absent if there are none. -/
inductive Last (instants : Set Int) : Option Int → Prop where
  | found {b : Int} (greatest : IsGreatest instants b) : Last instants (some b)
  | absent (none_left : ∀ b, b ∉ instants) : Last instants none

/-- Behind the end of a zone with a single interval and no tail, the end is not found. -/
structure MissesEnd (zone : CompiledZone) (t : Int) : Prop where
  tail_eq : zone.tail = none
  single : zone.intervals.length = 1
  behind : zone.coverageEnd < t

/-- The first boundary behind an instant is the end of the interval that it finds. -/
theorem Gapless.first_behind (gapless : zone.Gapless) (finds : zone.Finds t i)
    : First { b | zone.Boundary b ∧ t < b } (if i.stop = endOfTime then none else some i.stop) := by
  have contains := finds.contains gapless.consistent
  have beyond (b : Int) (boundary : zone.Boundary b) (after : t < b) : i.stop ≤ b := by
    have := gapless.boundary_outside finds boundary
    omega
  split
  · rename_i is_open
    refine .absent fun b ⟨boundary, after⟩ => ?_
    have := beyond b boundary after
    have := gapless.boundary_bounds boundary
    omega
  · rename_i ends
    exact .found
      ⟨⟨gapless.boundary_stop finds ends, contains.2⟩,
        fun b ⟨boundary, after⟩ => beyond b boundary after⟩

/-- The last boundary in front of an instant is the start of the interval that the instant before it
finds. -/
theorem Gapless.last_before (gapless : zone.Gapless)
    (finds : zone.Finds (Instant.saturate (t - 1)) i) (first : beginningOfTime ≤ t)
    (in_time : t ≤ endOfTime)
    : Last { b | zone.Boundary b ∧ b < t }
        (if i.start = beginningOfTime then none else some i.start) := by
  have contains := finds.contains gapless.consistent
  have bounds := gapless.bounds_of_finds finds
  have probe_eq : Instant.saturate (t - 1) = max beginningOfTime (t - 1) := by
    unfold Instant.saturate
    split <;> omega
  have within (b : Int) (boundary : zone.Boundary b) (before : b < t) : b ≤ i.start := by
    have := gapless.boundary_outside finds boundary
    have := gapless.boundary_bounds boundary
    omega
  split
  · rename_i start_eq
    refine .absent fun b ⟨boundary, before⟩ => ?_
    have := within b boundary before
    have := gapless.boundary_bounds boundary
    omega
  · rename_i later
    refine .found ⟨⟨.found finds later, by omega⟩, ?_⟩
    exact fun b ⟨boundary, before⟩ => within b boundary before

/-- From its end on a zone without a tail finds nothing. -/
theorem Gapless.intervalAt_behind (gapless : zone.Gapless) (tail_eq : zone.tail = none)
    (behind : zone.coverageEnd ≤ t)
    : zone.intervalAt t = .ok none := by
  have no_tail : zone.tailAt t = none := by simp [tailAt, tail_eq]
  have laidOut := gapless.laidOut tail_eq
  obtain ⟨last, last_eq⟩ := laidOut.exists_last
  rw [coverageEnd_of_none tail_eq last_eq] at behind
  rw [intervalAt, no_tail]
  refine congrArg Except.ok ?_
  unfold explicitAt
  split
  · rfl
  · refine Option.filter_eq_none_iff.mpr fun i at_position contains => ?_
    have := laidOut.contiguous.stop_le last_eq (List.mem_of_getElem? at_position)
    simp only [Interval.contains, Bool.and_eq_true, decide_eq_true_eq] at contains
    omega

/-- The last instant of a zone with a tail is in an interval that never ends, the one that the
instant in front of it finds. -/
theorem Gapless.intervalAt_endOfTime (gapless : zone.Gapless) {tail : Tail}
    (tail_eq : zone.tail = some tail)
    : ∃ i, zone.intervalAt endOfTime = .ok (some i) ∧ i.stop = endOfTime := by
  have starts := gapless.tailInTime tail tail_eq
  have covered : endOfTime - 1 < zone.coverageEnd := by
    rw [coverageEnd_of_tail tail_eq]
    decide
  obtain ⟨i, finds, contains⟩ := gapless.consistent.finds (by decide) covered
  have bounds := gapless.bounds_of_finds finds
  rw [coverageEnd_of_tail tail_eq] at bounds
  refine ⟨i, ?_, by omega⟩
  rw [intervalAt_of_tail tail_eq (by omega), Tail.intervalAt_endOfTime,
    ← intervalAt_of_tail tail_eq (by omega)]
  exact finds.found

/-- The next transition is the end of the interval that is found, unless it never ends. -/
theorem nextTransition_of_intervalAt {found : Option Interval}
    (found_eq : zone.intervalAt t = .ok found)
    : zone.nextTransition t
      = .ok (found.bind fun i => if i.stop = endOfTime then none else some i.stop) := by
  unfold nextTransition
  rw [found_eq]
  cases found with
  | none => rfl
  | some i => simp [bind, Except.bind, pure, Except.pure, Interval.isOpen]

/-- The next transition is the first boundary behind an instant. -/
theorem Gapless.nextTransition_first (gapless : zone.Gapless) (first : beginningOfTime ≤ t)
    (in_time : t ≤ endOfTime)
    : ∃ next,
        zone.nextTransition t = .ok next ∧ First { b | zone.Boundary b ∧ t < b } next := by
  rcases Int.lt_or_le t zone.coverageEnd with covered | behind
  · obtain ⟨i, finds, _⟩ := gapless.consistent.finds first covered
    exact ⟨_, nextTransition_of_intervalAt finds.found, gapless.first_behind finds⟩
  · have none_left : First { b | zone.Boundary b ∧ t < b } none := by
      refine .absent fun b ⟨boundary, after⟩ => ?_
      have := gapless.boundary_bounds boundary
      omega
    refine ⟨none, ?_, none_left⟩
    cases tail_eq : zone.tail with
    | none => exact nextTransition_of_intervalAt (gapless.intervalAt_behind tail_eq behind)
    | some tail =>
        -- Only the last instant is not covered, and it shows what the one in front of it does.
        rw [coverageEnd_of_tail tail_eq] at behind
        obtain rfl : t = endOfTime := Int.le_antisymm in_time behind
        obtain ⟨i, found, is_open⟩ := gapless.intervalAt_endOfTime tail_eq
        rw [nextTransition_of_intervalAt found, Option.bind_some, if_pos is_open]

/-- The last one of contiguous intervals begins where they begin if it is the only one. -/
theorem start_eq_iff_single {intervals : List Interval} (contiguous : Contiguous intervals)
    (last_eq : intervals.getLast?.map (·.stop) = some last) (member : i ∈ intervals)
    (stop_eq : i.stop = last)
    : i.start = beginningOfTime ↔ intervals.length = 1 := by
  obtain ⟨first, first_eq, start_eq⟩ := Option.map_eq_some_iff.mp contiguous.start_eq
  obtain ⟨rest, rfl⟩ := List.head?_eq_some_iff.mp first_eq
  have behind := (List.pairwise_cons.mp contiguous.ordered).1
  have forward := contiguous.forward first (by simp)
  constructor
  · intro starts
    obtain rfl : i = first := by
      rcases List.mem_cons.mp member with same | inside
      · exact same
      · have := behind i inside
        omega
    cases rest with
    | nil => rfl
    | cons next others =>
        rw [List.getLast?_cons_cons] at last_eq
        obtain ⟨final, final_eq, rfl⟩ := Option.map_eq_some_iff.mp last_eq
        have inside := List.mem_of_getLast? final_eq
        have := behind final inside
        have := contiguous.forward final (List.mem_cons_of_mem _ inside)
        omega
  · intro single
    obtain rfl := List.length_eq_zero_iff.mp (Nat.succ.inj single)
    rw [List.mem_singleton.mp member]
    exact start_eq

/-- The previous transition is the start of the interval that is found, or its end where the instant
lies behind the end of the zone. Nothing comes in front of an interval from the beginning of time.
-/
theorem previousTransition_of_intervalAt {probe : Int}
    (probe_eq : probe = if zone.coverageEnd < t then zone.coverageEnd else t)
    (found_eq : zone.intervalAt (Instant.saturate (probe - 1)) = .ok (some i))
    : zone.previousTransition t
      = .ok
          (if i.start = beginningOfTime then none
          else some (if zone.coverageEnd < t then i.stop else i.start)) := by
  subst probe_eq
  simp only [previousTransition, found_eq, bind, Except.bind, pure, Except.pure]
  split <;> rfl

/-- No representable instant lies behind a zone with a tail. -/
theorem tail_eq_none_of_behind (behind : zone.coverageEnd < t) (in_time : t ≤ endOfTime)
    : zone.tail = none := by
  cases tail_eq : zone.tail with
  | none => rfl
  | some tail =>
      rw [coverageEnd_of_tail tail_eq] at behind
      omega

/-- Behind the end of a zone the previous transition is the end, unless the zone has a single
interval. -/
theorem Gapless.previousTransition_behind (gapless : zone.Gapless)
    (behind : zone.coverageEnd < t) (in_time : t ≤ endOfTime)
    : IsGreatest { b | zone.Boundary b ∧ b < t } zone.coverageEnd
      ∧ zone.previousTransition t
        = .ok (if zone.intervals.length = 1 then none else some zone.coverageEnd) := by
  have covers := gapless.coverageEnd_bounds
  have tail_eq := tail_eq_none_of_behind behind in_time
  refine ⟨⟨⟨.ending (by omega), behind⟩, fun b ⟨boundary, _⟩ =>
    (gapless.boundary_bounds boundary).2.2⟩, ?_⟩
  have probe_eq : Instant.saturate (zone.coverageEnd - 1) = zone.coverageEnd - 1 := by
    unfold Instant.saturate
    split <;> omega
  obtain ⟨i, finds, contains⟩ := gapless.consistent.finds (t := zone.coverageEnd - 1) (by omega)
    (by omega)
  have bounds := gapless.bounds_of_finds finds
  have stop_eq : i.stop = zone.coverageEnd := by omega
  have found := finds.found
  rw [← probe_eq] at found
  rw [previousTransition_of_intervalAt (if_pos behind).symm found, if_pos behind, stop_eq]
  have laidOut := gapless.laidOut tail_eq
  obtain ⟨last, last_eq⟩ := laidOut.exists_last
  rw [coverageEnd_of_none tail_eq last_eq] at finds stop_eq
  obtain ⟨member, _⟩ := laidOut.mem_of_finds last_eq finds (by omega)
  simp only [start_eq_iff_single laidOut.contiguous last_eq member stop_eq]

/-- The previous transition is the last boundary in front of an instant, unless it is the end of a
zone that is missed. -/
theorem Gapless.previousTransition_last (gapless : zone.Gapless) (first : beginningOfTime ≤ t)
    (in_time : t ≤ endOfTime)
    : ∃ previous,
        zone.previousTransition t = .ok previous
        ∧ (Last { b | zone.Boundary b ∧ b < t } previous ↔ ¬ zone.MissesEnd t)
        ∧ (zone.MissesEnd t
          → previous = none ∧ IsGreatest { b | zone.Boundary b ∧ b < t } zone.coverageEnd) := by
  rcases Int.lt_or_le zone.coverageEnd t with behind | covered
  · obtain ⟨greatest, previous_eq⟩ := gapless.previousTransition_behind behind in_time
    have tail_eq := tail_eq_none_of_behind behind in_time
    refine ⟨_, previous_eq, ?_⟩
    by_cases single : zone.intervals.length = 1
    · rw [if_pos single]
      refine ⟨iff_of_false (fun last => ?_) fun found => found ⟨tail_eq, single, behind⟩,
        fun _ => ⟨rfl, greatest⟩⟩
      cases last with
      | absent none_left => exact none_left _ greatest.1
    · have not_missed : ¬ zone.MissesEnd t := fun missed => single missed.single
      rw [if_neg single]
      exact ⟨iff_of_true (.found greatest) not_missed, fun missed => absurd missed not_missed⟩
  · have covers := gapless.coverageEnd_bounds
    have probe_bounds
        : beginningOfTime ≤ Instant.saturate (t - 1)
          ∧ Instant.saturate (t - 1) < zone.coverageEnd := by
      unfold Instant.saturate
      split <;> omega
    obtain ⟨i, finds, _⟩ := gapless.consistent.finds probe_bounds.1 probe_bounds.2
    have not_behind : ¬ zone.coverageEnd < t := Int.not_lt.mpr covered
    have not_missed : ¬ zone.MissesEnd t := fun missed => not_behind missed.behind
    refine ⟨_, previousTransition_of_intervalAt (if_neg not_behind).symm finds.found, ?_, ?_⟩
    · rw [if_neg not_behind]
      exact iff_of_true (gapless.last_before finds first in_time) not_missed
    · exact fun missed => absurd missed not_missed

/-- The transitions around an instant are the neighbouring boundaries. The one exception is the end
of a zone with a single interval, which is the last boundary in front of every instant behind it
without being the previous transition. -/
theorem Gapless.transitions_neighbouring (gapless : zone.Gapless) (first : beginningOfTime ≤ t)
    (in_time : t ≤ endOfTime)
    : (∃ next,
        zone.nextTransition t = .ok next ∧ First { b | zone.Boundary b ∧ t < b } next)
      ∧ ∃ previous,
          zone.previousTransition t = .ok previous
          ∧ (Last { b | zone.Boundary b ∧ b < t } previous ↔ ¬ zone.MissesEnd t)
          ∧ (zone.MissesEnd t
            → previous = none ∧ IsGreatest { b | zone.Boundary b ∧ b < t } zone.coverageEnd) :=
  ⟨gapless.nextTransition_first first in_time, gapless.previousTransition_last first in_time⟩

end CompiledZone

theorem summerTailZone_gapless : summerTailZone.Gapless where
  joined := .inl summerTailZone_laidOut
  inTime := by decide +kernel
  tailInTime := by decide +kernel
  consistent := summerTailZone_laidOut.consistent summerTailZone_findsRuns

/-- Witness: the transitions around the start of the tail of a zone with summer time. -/
theorem summerTailZone_transitions
    : summerTailZone.Gapless
      ∧ beginningOfTime ≤ 1173596400
      ∧ 1173596400 ≤ endOfTime
      ∧ (∃ next,
          summerTailZone.nextTransition 1173596400 = .ok next
          ∧ CompiledZone.First { b | summerTailZone.Boundary b ∧ 1173596400 < b } next)
      ∧ ∃ previous,
          summerTailZone.previousTransition 1173596400 = .ok previous
          ∧ (CompiledZone.Last { b | summerTailZone.Boundary b ∧ b < 1173596400 } previous
            ↔ ¬ summerTailZone.MissesEnd 1173596400)
          ∧ (summerTailZone.MissesEnd 1173596400
            → previous = none
              ∧ IsGreatest { b | summerTailZone.Boundary b ∧ b < 1173596400 }
                  summerTailZone.coverageEnd) :=
  ⟨summerTailZone_gapless, by decide, by decide,
    summerTailZone_gapless.transitions_neighbouring (by decide) (by decide)⟩

/-- A zone with a single interval, which ends with the year 1999. -/
def endingZone : CompiledZone :=
  { intervals :=
      [ { start := beginningOfTime
          stop := 946681200
          stdOffset := 3600
          savings := 0
          name := "A" } ]
    tail := none }

/-- The end of the zone is the last boundary in front of 2001, but no transition is found there. -/
theorem endingZone_end_missed
    : endingZone.Gapless
      ∧ endingZone.nextTransition 0 = .ok (some 946681200)
      ∧ IsGreatest { b | endingZone.Boundary b ∧ b < 1000000000 } 946681200
      ∧ endingZone.previousTransition 1000000000 = .ok none := by
  have laidOut : endingZone.LaidOut := by decide +kernel
  have gapless : endingZone.Gapless := {
    joined := .inl laidOut
    inTime := by decide +kernel
    tailInTime := by decide +kernel
    consistent := laidOut.consistent (by simp [CompiledZone.FindsRuns, endingZone])
  }
  refine ⟨gapless, by decide +kernel, ?_, by decide +kernel⟩
  exact (gapless.previousTransition_behind (by decide +kernel) (by decide)).1

end CivilTime
