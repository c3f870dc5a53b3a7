import CivilTime.Instant
import CivilTime.Proofs.Calendar.RuleDay
import CivilTime.Rule.Recurrence

/-! The searches of a recurrence find the nearest year whose instant lies on the asked side.
What a search returns is stated without the walk through the years, and the limit on its steps is
out of reach as long as the time of day stays near the day that the rule picks.
-/

namespace CivilTime.Recurrence

variable (r : Recurrence) (stdOffset savings : Int)

-----------------------------------------------------------------------------------------
-- The years of a recurrence and their instants
-----------------------------------------------------------------------------------------

/-- The years in which a recurrence is enumerated. A search starts a year early, so it reaches one
year in front of the supported ones. -/
def AppliesTo (year : Int) : Prop :=
  r.firstYear ≤ year
  ∧ Calendar.minYear - 1 ≤ year
  ∧ r.endsBefore year = false
  ∧ year ≤ Calendar.maxYear

/-- The day of a recurrence is a day of its month, as every source column is checked to be. -/
def DayInMonth : Prop := r.day.dayPast? r.month = none

/-- The time of day in universal time lies at most 300 days behind midnight. -/
def Prompt : Prop := r.time.universalSeconds stdOffset savings ≤ 25920000

/-- The time of day in universal time lies within 300 days of midnight. -/
def NearMidnight : Prop :=
  -25920000 ≤ r.time.universalSeconds stdOffset savings ∧ r.Prompt stdOffset savings

/-- A recurrence that has ended stays ended. -/
theorem endsBefore_mono {a b : Int} (le : a ≤ b) (ended : r.endsBefore a = true)
    : r.endsBefore b = true := by
  simp only [endsBefore] at *
  cases bound : r.lastYear? with
  | none => simp [bound] at ended
  | some last =>
      simp only [bound, decide_eq_true_eq] at ended ⊢
      omega

/-- An unbounded recurrence never ends. -/
theorem endsBefore_of_isUnbounded {r : Recurrence} (unbounded : r.isUnbounded = true)
    (year : Int)
    : r.endsBefore year = false := by
  have latest : r.last = .latest := by simpa [isUnbounded] using unbounded
  simp [endsBefore, lastYear?, latest]

/-- An unbounded recurrence that has begun by an instant of the supported years is enumerated in
every supported year from a year on that starts behind the instant. -/
theorem appliesTo_of_begun {r : Recurrence} (unbounded : r.isUnbounded = true) {start : Int}
    (supported : Calendar.yearStartSeconds Calendar.minYear ≤ start)
    (begun : Calendar.yearStartSeconds r.firstYear ≤ start) {front year : Int}
    (behind : start < Calendar.yearStartSeconds front) (le : front ≤ year)
    (last : year ≤ Calendar.maxYear)
    : r.AppliesTo year := by
  have first := Calendar.lt_of_yearStartSeconds_lt (Int.lt_of_le_of_lt begun behind)
  have second := Calendar.lt_of_yearStartSeconds_lt (Int.lt_of_le_of_lt supported behind)
  exact ⟨by omega, by omega, endsBefore_of_isUnbounded unbounded year, last⟩

/-- A later year has a later instant under the same offsets. -/
theorem instantIn_lt {a b : Int} (lt : a < b)
    : r.instantIn a stdOffset savings < r.instantIn b stdOffset savings := by
  have := r.day.dayIn_lt r.month lt
  simp only [instantIn, Calendar.secondsOfDay, Calendar.secondsPerDay]
  omega

variable {r stdOffset savings}

/-- An instant lies at most a week in front of its time of day on the first day of its year. -/
theorem instantIn_ge (stdOffset savings : Int) (day : r.DayInMonth) (year : Int)
    : Calendar.yearStartSeconds year + r.time.universalSeconds stdOffset savings - 604800
      ≤ r.instantIn year stdOffset savings := by
  have place := r.day.dayIn_bounds year r.month
  have edge := DayRule.earliestPlace_bounds day
  simp only [instantIn, Calendar.yearStartSeconds, Calendar.secondsOfDay, Calendar.secondsPerDay]
  omega

/-- An instant lies less than 372 days behind its time of day on the first day of its year. -/
theorem instantIn_le (stdOffset savings : Int) (day : r.DayInMonth) (year : Int)
    : r.instantIn year stdOffset savings
      ≤ Calendar.yearStartSeconds year + r.time.universalSeconds stdOffset savings + 32054400 := by
  have place := r.day.dayIn_bounds year r.month
  have edge := DayRule.earliestPlace_bounds day
  simp only [instantIn, Calendar.yearStartSeconds, Calendar.secondsOfDay, Calendar.secondsPerDay]
  omega

/-- An instant that is not too late lies in front of the second year behind its own. -/
theorem instantIn_lt_yearStart (day : r.DayInMonth) (prompt : r.Prompt stdOffset savings)
    (year : Int)
    : r.instantIn year stdOffset savings < Calendar.yearStartSeconds (year + 2) := by
  have late := instantIn_le stdOffset savings day year
  have behind := Calendar.yearStartSeconds_gap (show year ≤ year + 2 by omega)
  simp only [Prompt] at prompt
  omega

/-- An instant near midnight lies behind the start of the year in front of its own. -/
theorem yearStart_lt_instantIn (day : r.DayInMonth) (near : r.NearMidnight stdOffset savings)
    (year : Int)
    : Calendar.yearStartSeconds (year - 1) < r.instantIn year stdOffset savings := by
  have early := instantIn_ge stdOffset savings day year
  have before := Calendar.yearStartSeconds_gap (show year - 1 ≤ year by omega)
  have := near.1
  omega

/-- The years of a recurrence are supported, so its changes come in front of the end of time. -/
theorem instantIn_lt_endOfTime (day : r.DayInMonth) (prompt : r.Prompt stdOffset savings)
    {year : Int} (applies : r.AppliesTo year)
    : r.instantIn year stdOffset savings < endOfTime := by
  have front := instantIn_lt_yearStart day prompt year
  have bound := Calendar.yearStartSeconds_gap
    (show year + 2 ≤ Calendar.maxYear + 2 by have := applies.2.2.2; omega)
  have last : Calendar.yearStartSeconds (Calendar.maxYear + 2) < endOfTime := by decide
  have := applies.2.2.2
  omega

/-- The years of a recurrence are supported, so its changes come behind the beginning of time. -/
theorem beginningOfTime_lt_instantIn (day : r.DayInMonth)
    (near : r.NearMidnight stdOffset savings) {year : Int} (applies : r.AppliesTo year)
    : beginningOfTime < r.instantIn year stdOffset savings := by
  have behind := yearStart_lt_instantIn day near year
  have bound := Calendar.yearStartSeconds_gap
    (show Calendar.minYear - 2 ≤ year - 1 by have := applies.2.1; omega)
  have first : beginningOfTime < Calendar.yearStartSeconds (Calendar.minYear - 2) := by decide
  have := applies.2.1
  omega

/-- The years that a search forward leaves out lie at or in front of the instant it starts from. -/
theorem instantIn_le_of_lt_yearOf (day : r.DayInMonth) (prompt : r.Prompt stdOffset savings)
    {year after : Int} (supported : Calendar.minYear - 1 ≤ year)
    (lt : year < Calendar.yearOf after - 1)
    : r.instantIn year stdOffset savings ≤ after := by
  have front := instantIn_lt_yearStart day prompt year
  have span := Calendar.yearStartSeconds_gap (show year + 2 ≤ Calendar.yearOf after by omega)
  have start := (Calendar.le_yearOf_iff (t := after) (show Calendar.minYear < _ by omega)
    (Calendar.yearOf_range after).2).mp (Int.le_refl _)
  omega

-----------------------------------------------------------------------------------------
-- The search forward
-----------------------------------------------------------------------------------------

/-- What a search forward from a year has found: the first year with an instant behind `after`. -/
structure FirstBehind (r : Recurrence) (after stdOffset savings start year instant : Int)
    : Prop where
  from_start : start ≤ year
  runs : r.endsBefore year = false
  supported : year ≤ Calendar.maxYear
  instant_eq : instant = r.instantIn year stdOffset savings
  behind : after < instant
  first
    : ∀ earlier, start ≤ earlier → earlier < year → r.instantIn earlier stdOffset savings ≤ after

/-- A successful search forward finds the first year behind `after`, by induction on its limit. -/
theorem searchForward_some {after : Int} {limit : Nat} {start year instant : Int}
    (found : r.searchForward after stdOffset savings limit start = .ok (some (year, instant)))
    : r.FirstBehind after stdOffset savings start year instant := by
  induction limit generalizing start with
  | zero => simp [searchForward] at found
  | succ limit ih =>
      simp only [searchForward] at found
      split at found
      · simp at found
      · rename_i running
        simp only [Bool.or_eq_true, decide_eq_true_eq, not_or, Bool.not_eq_true] at running
        split at found
        · rename_i lt
          simp only [Except.ok.injEq, Option.some.injEq, Prod.mk.injEq] at found
          obtain ⟨rfl, rfl⟩ := found
          exact {
            from_start := Int.le_refl _
            runs := running.1
            supported := by omega
            instant_eq := rfl
            behind := lt
            first := fun earlier low high => by omega
          }
        · rename_i le
          have later := ih found
          exact {
            later with
            from_start := by have := later.from_start; omega
            first := by
              intro earlier low high
              by_cases same : earlier = start
              · subst same
                omega
              · exact later.first earlier (by omega) high
          }

/-- A search forward that comes to an end without a result has passed every year that is left, by
induction on its limit. -/
theorem searchForward_none {after : Int} {limit : Nat} {start : Int}
    (found : r.searchForward after stdOffset savings limit start = .ok none) {year : Int}
    (le : start ≤ year) (runs : r.endsBefore year = false)
    (supported : year ≤ Calendar.maxYear)
    : r.instantIn year stdOffset savings ≤ after := by
  induction limit generalizing start with
  | zero => simp [searchForward] at found
  | succ limit ih =>
      simp only [searchForward] at found
      split at found
      · rename_i ended
        simp only [Bool.or_eq_true, decide_eq_true_eq] at ended
        rcases ended with ended | beyond
        · have := r.endsBefore_mono le ended
          simp [runs] at this
        · omega
      · split at found
        · simp at found
        · rename_i le'
          by_cases same : year = start
          · subst same
            omega
          · exact ih found (by omega)

/-- A search forward fails only at its limit, with all of its years at or in front of `after`, by
induction on the limit. -/
theorem searchForward_error {after : Int} {limit : Nat} {start : Int} {fault : Fault}
    (failed : r.searchForward after stdOffset savings limit start = .error fault)
    : fault = .searchExhausted r.name (start + limit)
      ∧ ∀ n : Nat,
          n < limit
          → start + n ≤ Calendar.maxYear
            ∧ r.instantIn (start + n) stdOffset savings ≤ after := by
  induction limit generalizing start with
  | zero =>
      simp only [searchForward, Except.error.injEq] at failed
      exact ⟨by simp [← failed], fun n lt => absurd lt (Nat.not_lt_zero n)⟩
  | succ limit ih =>
      simp only [searchForward] at failed
      split at failed
      · simp at failed
      · rename_i running
        simp only [Bool.or_eq_true, decide_eq_true_eq, not_or] at running
        split at failed
        · simp at failed
        · rename_i le
          obtain ⟨same, passed⟩ := ih failed
          refine ⟨?_, ?_⟩
          · rw [same]
            congr 1
            omega
          · intro n lt
            cases n with
            | zero => exact ⟨by simpa using running.2, by simpa using le⟩
            | succ n =>
                have := passed n (by omega)
                have next : start + (n + 1 : Nat) = start + 1 + n := by omega
                rw [next]
                exact this

/-- What a search forward from an instant has found is the first change behind the instant in the
years that are asked for. -/
theorem nextFromYear_first (day : r.DayInMonth) (prompt : r.Prompt stdOffset savings)
    {after minYear year instant : Int}
    (found : r.nextFromYear after stdOffset savings minYear = .ok (some (year, instant)))
    {other : Int} (applies : r.AppliesTo other) (asked : minYear ≤ other)
    (behind : after < r.instantIn other stdOffset savings)
    : year ≤ other := by
  have spec := searchForward_some found
  rcases Int.lt_or_le other year with lt | le
  · rcases Int.lt_or_le other (Calendar.yearOf after - 1) with skipped | searched
    · have := instantIn_le_of_lt_yearOf day prompt applies.2.1 skipped
      omega
    · have := spec.first other (by have := applies.1; omega) lt
      omega
  · exact le

/-- A search forward from an instant that finds nothing leaves no change behind the instant in the
years that are asked for. -/
theorem nextFromYear_none (day : r.DayInMonth) (prompt : r.Prompt stdOffset savings)
    {after minYear : Int} (found : r.nextFromYear after stdOffset savings minYear = .ok none)
    {other : Int} (applies : r.AppliesTo other) (asked : minYear ≤ other)
    : r.instantIn other stdOffset savings ≤ after := by
  rcases Int.lt_or_le other (Calendar.yearOf after - 1) with skipped | searched
  · exact instantIn_le_of_lt_yearOf day prompt applies.2.1 skipped
  · exact searchForward_none found (by have := applies.1; omega) applies.2.2.1 applies.2.2.2

/-- The limit of a search forward is out of reach while the time of day is at most twenty-two years
in front of midnight, since the search starts a year early. -/
theorem nextFromYear_ok (day : r.DayInMonth)
    (reach : -707824665 ≤ r.time.universalSeconds stdOffset savings) (after minYear : Int)
    : ∃ found, r.nextFromYear after stdOffset savings minYear = .ok found := by
  cases outcome : r.nextFromYear after stdOffset savings minYear with
  | ok found => exact ⟨found, rfl⟩
  | error fault =>
      obtain ⟨_, passed⟩ := searchForward_error outcome
      obtain ⟨supported, le⟩ := passed 499 (by decide)
      generalize start_eq : max (max (Calendar.yearOf after - 1) r.firstYear) minYear = start
        at supported le
      have early := instantIn_ge stdOffset savings day
        (start + (499 : Nat))
      have next := Calendar.lt_yearStartSeconds_succ (t := after) (by omega)
      have gap := Calendar.yearStartSeconds_gap
        (show Calendar.yearOf after + 1 ≤ start + (499 : Nat) by omega)
      omega

-----------------------------------------------------------------------------------------
-- The search backward
-----------------------------------------------------------------------------------------

/-- A successful search backward finds the last year in front of `before`, by induction on its
limit. -/
theorem searchBackward_some {before : Int} {limit : Nat} {start instant : Int}
    (found : r.searchBackward before stdOffset savings limit start = .ok (some instant))
    : ∃ year,
        year ≤ start
        ∧ r.firstYear ≤ year
        ∧ instant = r.instantIn year stdOffset savings
        ∧ instant < before
        ∧ ∀ later, year < later → later ≤ start → before ≤ r.instantIn later stdOffset savings := by
  induction limit generalizing start with
  | zero => simp [searchBackward] at found
  | succ limit ih =>
      simp only [searchBackward] at found
      split at found
      · simp at found
      · rename_i first
        split at found
        · rename_i lt
          simp only [Except.ok.injEq, Option.some.injEq] at found
          exact ⟨start, Int.le_refl _, by omega, found.symm, by omega, fun later gt le => by omega⟩
        · rename_i le
          obtain ⟨year, below, from_first, same, lt, last⟩ := ih found
          refine ⟨year, by omega, from_first, same, lt, ?_⟩
          intro later gt bound
          by_cases equal : later = start
          · subst equal
            omega
          · exact last later gt (by omega)

/-- A search backward that comes to an end without a result has passed every year that is left, by
induction on its limit. -/
theorem searchBackward_none {before : Int} {limit : Nat} {start : Int}
    (found : r.searchBackward before stdOffset savings limit start = .ok none) {year : Int}
    (le : year ≤ start) (first : r.firstYear ≤ year)
    : before ≤ r.instantIn year stdOffset savings := by
  induction limit generalizing start with
  | zero => simp [searchBackward] at found
  | succ limit ih =>
      simp only [searchBackward] at found
      split at found
      · omega
      · split at found
        · simp at found
        · by_cases same : year = start
          · subst same
            omega
          · exact ih found (by omega)

/-- A search backward fails only at its limit, with all of its years at or behind `before`, by
induction on the limit. -/
theorem searchBackward_error {before : Int} {limit : Nat} {start : Int} {fault : Fault}
    (failed : r.searchBackward before stdOffset savings limit start = .error fault)
    : fault = .searchExhausted r.name (start - limit)
      ∧ ∀ n : Nat, n < limit → before ≤ r.instantIn (start - n) stdOffset savings := by
  induction limit generalizing start with
  | zero =>
      simp only [searchBackward, Except.error.injEq] at failed
      exact ⟨by simp [← failed], fun n lt => absurd lt (Nat.not_lt_zero n)⟩
  | succ limit ih =>
      simp only [searchBackward] at failed
      split at failed
      · simp at failed
      · split at failed
        · simp at failed
        · rename_i le
          obtain ⟨same, passed⟩ := ih failed
          refine ⟨?_, ?_⟩
          · rw [same]
            congr 1
            omega
          · intro n lt
            cases n with
            | zero => simpa using le
            | succ n =>
                have := passed n (by omega)
                have next : start - (n + 1 : Nat) = start - 1 - n := by omega
                rw [next]
                exact this

/-- The year from which a search backward starts: the last one up to the year behind that of the
instant in which the recurrence has not ended. -/
theorem previous_eq (r : Recurrence) (stdOffset savings before : Int)
    : ∃ start,
        (∀ year,
          year ≤ start ↔ year ≤ Calendar.yearOf before + 1 ∧ r.endsBefore year = false)
        ∧ r.previous before stdOffset savings
          = r.searchBackward before stdOffset savings searchLimit start := by
  cases bound : r.lastYear? with
  | none =>
      refine ⟨Calendar.yearOf before + 1, fun year => ?_, ?_⟩
      · simp only [endsBefore, bound, and_true]
      · simp only [previous, bound]
  | some last =>
      refine ⟨min (Calendar.yearOf before + 1) last, fun year => ?_, ?_⟩
      · simp only [endsBefore, bound, decide_eq_false_iff_not]
        omega
      · simp only [previous, bound]

/-- The limit of a search backward from a supported instant is out of reach while the time of day
is at most twenty-two years behind midnight, since the search starts a year late. -/
theorem previous_ok (day : r.DayInMonth)
    (reach : r.time.universalSeconds stdOffset savings ≤ 707824665) {before : Int}
    (supported : Calendar.yearStartSeconds Calendar.minYear ≤ before)
    : ∃ found, r.previous before stdOffset savings = .ok found := by
  obtain ⟨start, searched, same⟩ := previous_eq r stdOffset savings before
  have bound := ((searched start).mp (Int.le_refl _)).1
  rw [same]
  cases outcome : r.searchBackward before stdOffset savings searchLimit start with
  | ok found => exact ⟨found, rfl⟩
  | error fault =>
      have passed := (searchBackward_error outcome).2 499 (by decide)
      have late := instantIn_le stdOffset savings day
        (start - (499 : Nat))
      have start_le := Calendar.yearStartSeconds_yearOf_le supported
      have gap := Calendar.yearStartSeconds_gap
        (show start - (499 : Nat) ≤ Calendar.yearOf before by omega)
      omega

end CivilTime.Recurrence
