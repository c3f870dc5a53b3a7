import CivilTime.Proofs.Rule.Enumeration
import Mathlib.Order.Bounds.Basic

/-! The searches of a recurrence are exact.
Near midnight, the search forward from an instant answers with the first change behind it and the
search backward with the last change in front of it, and neither is given up. Days past the end of
their months come too late for the search forward.
-/

namespace CivilTime

/-- A supported day lies in front of the year behind its own. -/
theorem Calendar.lt_yearStartSeconds_succ_of_day {t : Int} (low : -maxDay ≤ t / secondsPerDay)
    (high : t / secondsPerDay ≤ maxDay)
    : t < yearStartSeconds (yearOf t + 1) := by
  have inside := (yearOfDay_bounds (t / secondsPerDay)).2
  have same : clampDay (t / secondsPerDay) = t / secondsPerDay := by
    rw [clampDay, if_neg (by omega), if_neg (by omega)]
  rw [same] at inside
  simp only [yearOf, yearStartSeconds, secondsOfDay, secondsPerDay] at inside ⊢
  omega

/-- A supported day lies behind the start of the supported years. -/
theorem Calendar.yearStartSeconds_minYear_le {t : Int} (low : -maxDay ≤ t / secondsPerDay)
    : yearStartSeconds minYear ≤ t := by
  have first := yearStart_limits.1
  simp only [yearStartSeconds, secondsOfDay, secondsPerDay, maxDay] at low ⊢
  omega

namespace Recurrence

/-- An answer is the first of some instants. There is none only where there are no instants. -/
def IsFirst (instants : Set Int) : Option Int → Prop
  | some t => IsLeast instants t
  | none => instants = ∅

/-- An answer is the last of some instants. There is none only where there are no instants. -/
def IsLast (instants : Set Int) : Option Int → Prop
  | some t => IsGreatest instants t
  | none => instants = ∅

/-- The changes behind an instant in the supported years that a recurrence runs in. -/
def changesBehind (r : Recurrence) (stdOffset savings after : Int) : Set Int :=
  { t | after < t ∧ ∃ year, r.RunsIn year ∧ r.instantIn year stdOffset savings = t }

/-- The changes in front of an instant in the years from the first of a recurrence to its last. -/
def changesInFront (r : Recurrence) (stdOffset savings before : Int) : Set Int :=
  { t |
    t < before
    ∧ ∃ year,
        r.firstYear ≤ year
        ∧ r.endsBefore year = false
        ∧ r.instantIn year stdOffset savings = t }

variable {r : Recurrence} {stdOffset savings : Int}

/-- The search forward answers with the first change behind an instant. The years that it leaves out
lie in front of the instant, and the first hit is the least since later years have later changes. -/
theorem next_isFirst (supported : Calendar.minYear ≤ r.firstYear) (day : r.DayInMonth)
    (near : r.NearMidnight stdOffset savings) (after : Int)
    : ∃ found,
        r.next after stdOffset savings = .ok found
        ∧ IsFirst (r.changesBehind stdOffset savings after) found := by
  have reach : -707824665 ≤ r.time.universalSeconds stdOffset savings :=
    Int.le_trans (by decide) near.1
  obtain ⟨found, searched⟩ := nextFromYear_ok day reach after r.firstYear
  refine ⟨found.map Prod.snd, by rw [next, searched]; rfl, ?_⟩
  cases found with
  | none =>
      refine Set.eq_empty_of_forall_notMem ?_
      rintro _ ⟨behind, year, runs, rfl⟩
      have applies := (appliesTo_iff_runsIn supported year).mpr runs
      have le := nextFromYear_none day near.2 searched applies runs.1
      omega
  | some change =>
      obtain ⟨year, instant⟩ := change
      have spec := searchForward_some searched
      have first : r.firstYear ≤ year := by
        have := spec.from_start
        omega
      refine ⟨⟨spec.behind, year, ⟨first, spec.runs, spec.supported⟩, spec.instant_eq.symm⟩, ?_⟩
      rintro _ ⟨behind, other, runs, rfl⟩
      have applies := (appliesTo_iff_runsIn supported other).mpr runs
      have le := nextFromYear_first day near.2 searched applies runs.1 behind
      have instant_eq := spec.instant_eq
      rcases Int.lt_or_eq_of_le le with lt | same
      · have := r.instantIn_lt stdOffset savings lt
        omega
      · rw [instant_eq, same]

/-- The search backward answers with the last change in front of an instant of a supported day. The
years that it leaves out lie behind the instant. -/
theorem previous_isLast (day : r.DayInMonth) (near : r.NearMidnight stdOffset savings)
    {before : Int} (low : -Calendar.maxDay ≤ before / Calendar.secondsPerDay)
    (high : before / Calendar.secondsPerDay ≤ Calendar.maxDay)
    : ∃ found,
        r.previous before stdOffset savings = .ok found
        ∧ IsLast (r.changesInFront stdOffset savings before) found := by
  have reach : r.time.universalSeconds stdOffset savings ≤ 707824665 :=
    Int.le_trans near.2 (by decide)
  obtain ⟨found, searched⟩ := previous_ok day reach (Calendar.yearStartSeconds_minYear_le low)
  refine ⟨found, searched, ?_⟩
  obtain ⟨start, reached, same⟩ := previous_eq r stdOffset savings before
  rw [same] at searched
  -- a change in front of the instant belongs to a year that the search does not leave out
  have in_search {year : Int} (runs : r.endsBefore year = false)
      (lt : r.instantIn year stdOffset savings < before)
      : year ≤ start := by
    refine (reached year).mpr ⟨?_, runs⟩
    have front := yearStart_lt_instantIn day near year
    have inside := Calendar.lt_yearStartSeconds_succ_of_day low high
    have := Calendar.lt_of_yearStartSeconds_lt (Int.lt_trans front (Int.lt_trans lt inside))
    omega
  cases found with
  | none =>
      refine Set.eq_empty_of_forall_notMem ?_
      rintro _ ⟨lt, year, first, runs, rfl⟩
      have le := searchBackward_none searched (in_search runs lt) first
      omega
  | some instant =>
      obtain ⟨year, le, first, rfl, lt, last⟩ := searchBackward_some searched
      have runs := ((reached year).mp le).2
      refine ⟨⟨lt, year, first, runs, rfl⟩, ?_⟩
      rintro _ ⟨other_lt, other, _, other_runs, rfl⟩
      rcases Int.lt_trichotomy other year with earlier | rfl | later
      · exact Int.le_of_lt (r.instantIn_lt stdOffset savings earlier)
      · exact Int.le_refl _
      · have := last other later (in_search other_runs other_lt)
        omega

/-- Near midnight, both searches of a recurrence are exact wherever they start. The offsets are any
numbers here. That their sums fit in sixty-four bits is shown of those that times of the clock last,
where compilation is computed in such numbers. -/
theorem searches_exact (supported : Calendar.minYear ≤ r.firstYear) (day : r.DayInMonth)
    (near : r.NearMidnight stdOffset savings)
    : (∀ after, ∃ found,
        r.next after stdOffset savings = .ok found
        ∧ IsFirst (r.changesBehind stdOffset savings after) found)
      ∧ ∀ before,
          -Calendar.maxDay ≤ before / Calendar.secondsPerDay
          → before / Calendar.secondsPerDay ≤ Calendar.maxDay
          → ∃ found,
              r.previous before stdOffset savings = .ok found
              ∧ IsLast (r.changesInFront stdOffset savings before) found :=
  ⟨next_isFirst supported day near, fun _ low high => previous_isLast day near low high⟩

end Recurrence

/-- The change to summer time of 2001 is the first one behind that of 2000, which is the last one in
front of it. -/
theorem summerRules_searches_exact
    : ∃ r ∈ summerRules.recurrences,
        Calendar.minYear ≤ r.firstYear
        ∧ r.DayInMonth
        ∧ r.NearMidnight (-18000) 0
        ∧ IsLeast (r.changesBehind (-18000) 0 952844400) 984294000
        ∧ IsGreatest (r.changesInFront (-18000) 0 984294000) 952844400 := by
  have supported : Calendar.minYear ≤ summerRules.recurrences[0].firstYear := by decide
  have day : summerRules.recurrences[0].DayInMonth := summerRules_seasonal.day _ (by decide)
  have near : summerRules.recurrences[0].NearMidnight (-18000) 0 := by
    unfold Recurrence.NearMidnight Recurrence.Prompt
    decide
  obtain ⟨forward, backward⟩ := Recurrence.searches_exact supported day near
  refine ⟨_, List.getElem_mem (by decide), supported, day, near, ?_, ?_⟩
  · obtain ⟨found, next, first⟩ := forward 952844400
    have next_eq : summerRules.recurrences[0].next 952844400 (-18000) 0 = .ok (some 984294000) := by
      decide +kernel
    obtain rfl := Except.ok.inj (next.symm.trans next_eq)
    exact first
  · obtain ⟨found, previous, last⟩ := backward 984294000 (by decide) (by decide)
    have previous_eq
        : summerRules.recurrences[0].previous 984294000 (-18000) 0 = .ok (some 952844400) := by
      decide +kernel
    obtain rfl := Except.ok.inj (previous.symm.trans previous_eq)
    exact last

/-- A change of every year from 2000 on, on day 255 of December and two hundred and fifty days
behind midnight. That of 2000 comes in April 2002. -/
def lateYearly : Recurrence := { lateRecurrence with last := .latest }

/-- A day past the end of its month may bring a change two calendar years later, which the search
from the second of them on leaves out in favour of the next one. -/
theorem lateYearly_missed
    : Calendar.minYear ≤ lateYearly.firstYear
      ∧ lateYearly.NearMidnight 0 0
      ∧ lateYearly.next 1012521600 0 0 = .ok (some 1050710400)
      ∧ ¬ Recurrence.IsFirst (lateYearly.changesBehind 0 0 1012521600) (some 1050710400) := by
  refine ⟨by decide, ⟨by decide, by unfold Recurrence.Prompt; decide⟩, by decide +kernel,
    fun first => ?_⟩
  have earlier : 1019174400 ∈ lateYearly.changesBehind 0 0 1012521600 :=
    ⟨by decide, 2000, ⟨by decide, by decide, by decide⟩, by decide +kernel⟩
  exact absurd (first.2 earlier) (by decide)

end CivilTime
