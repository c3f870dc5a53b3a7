import CivilTime.Proofs.Outcome
import CivilTime.Proofs.Zone.Lookup
import CivilTime.Proofs.Zone.TailLookup

/-! Zones whose lookups agree with each other.
An interval that is found at one instant is found from everywhere inside it, so the intervals of
such a zone come one behind the other. Explicit intervals without gaps are found so, and the tail
behind them is, where its lookups find the runs of the clock.
-/

namespace CivilTime

namespace CompiledZone

/-- The lookup of every covered instant finds an interval around it, which is found from everywhere
inside it. -/
def Consistent (zone : CompiledZone) : Prop :=
  ∀ instant,
    beginningOfTime ≤ instant
    → instant < zone.coverageEnd
    → ∃ i,
        zone.intervalAt instant = .ok (some i)
        ∧ i.contains instant = true
        ∧ ∀ other, i.contains other = true → zone.intervalAt other = .ok (some i)

/-- The lookup of a covered instant finds the interval. -/
structure Finds (zone : CompiledZone) (instant : Int) (i : Interval) : Prop where
  after : beginningOfTime ≤ instant
  covered : instant < zone.coverageEnd
  found : zone.intervalAt instant = .ok (some i)

variable {zone : CompiledZone} {i j : Interval} {t u : Int}

theorem Finds.unique (finds : zone.Finds t i) (also : zone.Finds t j) : i = j :=
  Option.some.inj (Except.ok.inj (finds.found.symm.trans also.found))

theorem Consistent.finds (consistent : zone.Consistent) (after : beginningOfTime ≤ t)
    (covered : t < zone.coverageEnd)
    : ∃ i, zone.Finds t i ∧ i.start ≤ t ∧ t < i.stop := by
  obtain ⟨i, found, contains, _⟩ := consistent t after covered
  simp only [Interval.contains, Bool.and_eq_true, decide_eq_true_eq] at contains
  exact ⟨i, ⟨after, covered, found⟩, contains⟩

theorem Finds.contains (finds : zone.Finds t i) (consistent : zone.Consistent)
    : i.start ≤ t ∧ t < i.stop := by
  obtain ⟨j, also, contains⟩ := consistent.finds finds.after finds.covered
  rw [finds.unique also]
  exact contains

/-- An interval that is found is found from everywhere inside it. -/
theorem Finds.inside (finds : zone.Finds t i) (consistent : zone.Consistent) (after : i.start ≤ u)
    (before : u < i.stop)
    : zone.intervalAt u = .ok (some i) := by
  obtain ⟨j, found, _, everywhere⟩ := consistent t finds.after finds.covered
  obtain rfl := finds.unique ⟨finds.after, finds.covered, found⟩
  exact everywhere u (by simp [Interval.contains, after, before])

/-- Two intervals that are found are the same or come one behind the other, in the order of the
instants that find them. -/
theorem Finds.stop_le (finds : zone.Finds t i) (later : zone.Finds u j)
    (consistent : zone.Consistent) (lt : t < u) (different : i ≠ j)
    : i.stop ≤ j.start := by
  have first := finds.contains consistent
  have second := later.contains consistent
  rcases Int.lt_or_le j.start i.stop with overlap | apart
  · -- The later one of the two starts lies in both intervals.
    have in_first := finds.inside consistent (u := max i.start j.start) (by omega) (by omega)
    have in_second := later.inside consistent (u := max i.start j.start) (by omega) (by omega)
    exact absurd (Option.some.inj (Except.ok.inj (in_first.symm.trans in_second))) different
  · exact apart

-----------------------------------------------------------------------------------------
-- Explicit intervals and the tail
-----------------------------------------------------------------------------------------

theorem coverageEnd_of_tail {tail : Tail} (tail_eq : zone.tail = some tail)
    : zone.coverageEnd = endOfTime := by
  simp [coverageEnd, tail_eq]

theorem coverageEnd_of_none {last : Int} (tail_eq : zone.tail = none)
    (last_eq : zone.intervals.getLast?.map (·.stop) = some last)
    : zone.coverageEnd = last := by
  obtain ⟨i, i_eq, rfl⟩ := Option.map_eq_some_iff.mp last_eq
  simp [coverageEnd, tail_eq, i_eq]

/-- In front of the end of the last interval and of the end of time, every instant is covered. -/
theorem lt_coverageEnd {last : Int} (last_eq : zone.intervals.getLast?.map (·.stop) = some last)
    (before : t < last) (in_time : t < endOfTime)
    : t < zone.coverageEnd := by
  cases tail_eq : zone.tail with
  | some tail => rwa [coverageEnd_of_tail tail_eq]
  | none => rwa [coverageEnd_of_none tail_eq last_eq]

/-- What is found in front of the end of the last explicit interval is explicit. -/
theorem LaidOut.mem_of_finds (laidOut : zone.LaidOut) {last : Int}
    (last_eq : zone.intervals.getLast?.map (·.stop) = some last) (finds : zone.Finds t i)
    (before : t < last)
    : i ∈ zone.intervals ∧ i.start ≤ t ∧ t < i.stop := by
  obtain ⟨j, member, after, before⟩ := exists_interval_of_chain laidOut.contiguous.touching
    laidOut.contiguous.start_eq last_eq finds.after before
  have found := laidOut.intervalAt_of_mem member after before
  obtain rfl := Option.some.inj (Except.ok.inj (finds.found.symm.trans found))
  exact ⟨member, after, before⟩

/-- From its start on, a tail is looked up. -/
theorem intervalAt_of_tail {tail : Tail} (tail_eq : zone.tail = some tail) (after : tail.start ≤ t)
    : zone.intervalAt t = (tail.intervalAt t).map some := by
  have behind : zone.tailAt t = some tail := by simp [tailAt, tail_eq, after]
  rw [intervalAt, behind]

end CompiledZone

namespace Tail

variable {tail : Tail} {i j : Interval} {t u : Int}

/-- The run around an instant is the run around every instant inside it. -/
theorem RunAround.moved (run : tail.RunAround t i) (after : i.start ≤ u) (before : u < i.stop)
    : tail.RunAround u i where
  stdOffset_eq := run.stdOffset_eq
  from_start := run.from_start
  stretch := { run.stretch with start_le := after, lt_stop := before }
  begins := run.begins

/-- Two runs around an instant show the same clock. -/
theorem RunAround.clock_eq (run : tail.RunAround t i) (also : tail.RunAround t j)
    : i.clock = j.clock := by
  rw [← run.stretch.constant t run.stretch.start_le run.stretch.lt_stop,
    ← also.stretch.constant t also.stretch.start_le also.stretch.lt_stop]

/-- Of two runs around an instant neither starts behind the other, or ends in front of it. -/
theorem RunAround.bounds_le (run : tail.RunAround t i) (also : tail.RunAround t j)
    : j.start ≤ i.start ∧ i.stop ≤ j.stop := by
  have clock_eq := run.clock_eq also
  have start_le := run.stretch.start_le
  have lt_stop := run.stretch.lt_stop
  constructor
  · rcases Int.lt_or_le i.start j.start with before | le
    · have later := also.stretch.start_le
      rcases also.begins with start_eq | differs
      · have := run.from_start
        omega
      · have := run.stretch.constant (j.start - 1) (by omega) (by omega)
        exact absurd (this.trans clock_eq) differs
    · exact le
  · rcases Int.lt_or_le j.stop i.stop with before | le
    · have sooner := also.stretch.lt_stop
      rcases also.stretch.ends with stop_eq | differs
      · have := run.stretch.stop_le
        omega
      · have := run.stretch.constant j.stop (by omega) (by omega)
        exact absurd (this.trans clock_eq) differs
    · exact le

/-- The state at an instant saves the time of the start or of a recurrence. -/
theorem savings_stateAt (tail : Tail) (t : Int)
    : (tail.stateAt t).savings = tail.initialSavings
      ∨ ∃ r ∈ tail.rules.recurrences, (tail.stateAt t).savings = r.savings := by
  have sized := Stream.sized_between tail.rules tail.start endOfTime tail.stdOffset
    tail.initialSavings
  rcases Stream.stateAfter_eq_or tail.initialState t tail.changes with same | ⟨u, member, same⟩
  · exact .inl (congrArg RuleState.savings same)
  · obtain ⟨r, at_index, savings_eq, _⟩ := sized.mem_transitions member
    exact .inr
      ⟨r, List.mem_of_getElem? at_index, (congrArg RuleState.savings same).trans savings_eq⟩

/-- The wall clock of a run saves the time of the start or of a recurrence. -/
theorem RunAround.wallOffset_eq (run : tail.RunAround t i)
    : i.wallOffset = tail.stdOffset + (tail.stateAt t).savings := by
  have shown := run.stretch.constant t run.stretch.start_le run.stretch.lt_stop
  exact (congrArg Prod.fst shown).symm

/-- There is one run around an instant. -/
theorem RunAround.unique (run : tail.RunAround t i) (also : tail.RunAround t j) : i = j := by
  have bounds := run.bounds_le also
  have bounds' := also.bounds_le run
  obtain ⟨offset_eq, name_eq⟩ := Prod.mk.inj (run.clock_eq also)
  have stdOffset_eq := run.stdOffset_eq.trans also.stdOffset_eq.symm
  simp only [Interval.wallOffset] at offset_eq
  have start_eq : i.start = j.start := Int.le_antisymm bounds'.1 bounds.1
  have stop_eq : i.stop = j.stop := Int.le_antisymm bounds.2 bounds'.2
  have savings_eq : i.savings = j.savings := by omega
  cases i
  cases j
  rw [Interval.mk.injEq]
  exact ⟨start_eq, stop_eq, stdOffset_eq, savings_eq, name_eq⟩

end Tail

namespace CompiledZone

variable {zone : CompiledZone}

/-- The lookups of the tail, should the zone have one, find the runs of its clock. -/
def FindsRuns (zone : CompiledZone) : Prop :=
  ∀ tail ∈ zone.tail, ∀ instant,
    tail.start ≤ instant
    → instant < endOfTime
    → ∃ i, tail.intervalAt instant = .ok i ∧ tail.RunAround instant i

/-- The lookups find runs in a tail that is regular and alternates. -/
theorem findsRuns_of_regular (regular : ∀ tail ∈ zone.tail, tail.Regular ∧ tail.Alternates)
    : zone.FindsRuns := by
  intro tail tail_eq instant after before
  obtain ⟨regular, alternates⟩ := regular tail tail_eq
  exact regular.intervalAt_runAround alternates after before

/-- A zone without gaps whose tail finds runs is consistent. -/
theorem LaidOut.consistent (laidOut : zone.LaidOut) (runs : zone.FindsRuns)
    : zone.Consistent := by
  intro t first covered
  obtain ⟨last, last_eq⟩ := laidOut.exists_last
  rcases Int.lt_or_le t last with before | behind
  · obtain ⟨i, member, contains⟩ := exists_interval_of_chain laidOut.contiguous.touching
      laidOut.contiguous.start_eq last_eq first before
    refine ⟨i, laidOut.intervalAt_of_mem member contains.1 contains.2, ?_, fun u inside => ?_⟩
    · simp [Interval.contains, contains]
    · simp only [Interval.contains, Bool.and_eq_true, decide_eq_true_eq] at inside
      exact laidOut.intervalAt_of_mem member inside.1 inside.2
  · cases tail_eq : zone.tail with
    | none =>
        rw [coverageEnd_of_none tail_eq last_eq] at covered
        omega
    | some tail =>
        have start_eq := laidOut.adjoining tail tail_eq
        obtain rfl : last = tail.start := Option.some.inj (last_eq.symm.trans start_eq)
        rw [coverageEnd_of_tail tail_eq] at covered
        obtain ⟨i, found, run⟩ := runs tail tail_eq t behind covered
        refine ⟨i, by rw [intervalAt_of_tail tail_eq behind, found]; rfl, ?_, fun u inside => ?_⟩
        · simp [Interval.contains, run.stretch.start_le, run.stretch.lt_stop]
        · simp only [Interval.contains, Bool.and_eq_true, decide_eq_true_eq] at inside
          have from_start := run.from_start
          have stop_le := run.stretch.stop_le
          obtain ⟨j, also_found, also_run⟩ := runs tail tail_eq u (by omega) (by omega)
          rw [intervalAt_of_tail tail_eq (by omega), also_found,
            also_run.unique (run.moved inside.1 inside.2)]
          rfl

end CompiledZone

-----------------------------------------------------------------------------------------
-- A zone with summer time
-----------------------------------------------------------------------------------------

/-- A zone five hours behind universal time with summer time since 2007. -/
def summerTailZone : CompiledZone :=
  { intervals :=
      [ { start := beginningOfTime
          stop := 1173596400
          stdOffset := -18000
          savings := 0
          name := "EST" } ]
    tail := some summerTail }

theorem summerTailZone_laidOut : summerTailZone.LaidOut := by decide +kernel

/-- The tail with summer time is regular. -/
theorem summerTail_regular : summerTail.Regular :=
  .of_seasonal (by decide +kernel) (by decide +kernel)
    ⟨_, .head _, 2007, 0, by decide +kernel, .inl rfl, by decide +kernel, rfl⟩
    summerRules_seasonal summerRules_withinYear rfl

/-- The tail with summer time alternates between two clocks. -/
theorem summerTail_alternates : summerTail.Alternates :=
  ⟨_, .head _, _, .tail _ (.head _), by decide +kernel, by decide +kernel, by decide +kernel⟩

theorem summerTailZone_findsRuns : summerTailZone.FindsRuns := by
  refine CompiledZone.findsRuns_of_regular fun tail tail_eq => ?_
  obtain rfl := Option.some.inj tail_eq
  exact ⟨summerTail_regular, summerTail_alternates⟩

end CivilTime
