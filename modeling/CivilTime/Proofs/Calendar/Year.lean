import CivilTime.Calendar.Day

/-! The year of a day number is the calendar year that contains the day.
Years are counted from March first, where a day is a century, a year of it and a rest, and the
calendar year then follows from the position in the March year.
-/

namespace CivilTime.Calendar

-----------------------------------------------------------------------------------------
-- Years that start in March
-----------------------------------------------------------------------------------------

/-- The days from 1 March of year zero to 1 March of year `y`. -/
def marchStart (y : Int) : Int := 365 * y + y / 4 - y / 100 + y / 400

/-- A March year starts where its century and the earlier years of the century end. -/
theorem marchStart_century (c d : Int) (nonneg : 0 ≤ d) (small : d ≤ 99)
    : marchStart (100 * c + d) = 36524 * c + c / 4 + 365 * d + d / 4 := by
  simp only [marchStart]
  omega

/-- Moving a March year by whole cycles moves its start by the days of the cycles. -/
theorem marchStart_sub_cycles (y : Int) (cycles : Nat)
    : marchStart (y - 400 * cycles) = marchStart y - 146097 * cycles := by
  simp only [marchStart]
  omega

/-- A March year has 365 days, and one more when it ends in the February of a leap year. -/
theorem marchStart_succ (y : Int)
    : marchStart (y + 1) = marchStart y + 365 + (if isLeapYear (y + 1) then 1 else 0) := by
  simp only [marchStart, isLeapYear]
  by_cases h4 : (y + 1) % 4 = 0 <;> by_cases h100 : (y + 1) % 100 = 0 <;>
    by_cases h400 : (y + 1) % 400 = 0 <;> simp [h4, h100, h400] <;> omega

/-- A calendar year starts 306 days into the March year before it. -/
theorem yearStart_eq (year : Int)
    : yearStart year = marchStart (year - 1) + 306 - epochOffset := by
  have quarters : 1461 * (year - 1) / 4 = 365 * (year - 1) + (year - 1) / 4 := by omega
  have cycles : (year - 1) / 100 / 4 = (year - 1) / 400 := by omega
  simp only [yearStart, dayNumber, marchStart, Nat.reduceLeDiff, if_true, quarters, cycles]
  omega

/-- A calendar year has 365 days, and one more when it is a leap year. -/
theorem yearStart_succ (year : Int)
    : yearStart (year + 1) = yearStart year + 365 + (if isLeapYear year then 1 else 0) := by
  have step := marchStart_succ (year - 1)
  simp only [Int.sub_add_cancel] at step
  simp only [yearStart_eq, Int.add_sub_cancel, step]
  omega

/-- Years are at least 365 days apart, by induction on their distance. -/
theorem yearStart_add_le (year : Int) (n : Nat)
    : yearStart year + 365 * n ≤ yearStart (year + n) := by
  induction n with
  | zero => simp
  | succ n ih =>
      have step := yearStart_succ (year + n)
      have next : year + (n + 1 : Nat) = year + n + 1 := by omega
      rw [next, step]
      split <;> omega

/-- Later years start later, by at least 365 days for each year. -/
theorem yearStart_gap {a b : Int} (le : a ≤ b) : yearStart a + 365 * (b - a) ≤ yearStart b := by
  have step := yearStart_add_le a (b - a).toNat
  have same : a + (b - a).toNat = b := by omega
  rw [same] at step
  omega

-----------------------------------------------------------------------------------------
-- The position of a day in its century and year
-----------------------------------------------------------------------------------------

/-- Setting both low bits moves the quarter days to the last quarter of their day. -/
theorem quarterOfCentury_eq (r : Nat)
    : quarterOfCentury r = quarterDays r % daysPerCycle / 4 * 4 + 3 := by
  have low : ∀ y < 4, y ||| 3 = 3 := by decide
  have split : ∀ x : Nat, x ||| 3 = x / 4 * 4 + 3 := by
    intro x
    have high := Nat.or_div_two_pow (a := x) (b := 3) (n := 2)
    have rest := Nat.or_mod_two_pow (a := x) (b := 3) (n := 2)
    have := low (x % 4) (by omega)
    simp at *
    omega
  exact split _

/-- The multiplication and the shift divide by the quarter days of a year. -/
theorem yearOfCentury_eq (r : Nat) : yearOfCentury r = quarterOfCentury r / 1461 := by
  have small : quarterOfCentury r < 146100 := by
    rw [quarterOfCentury_eq]
    simp only [daysPerCycle]
    omega
  simp only [yearOfCentury, Nat.shiftRight_eq_div_pow]
  omega

/-- A century has a hundred years. -/
theorem yearOfCentury_le (r : Nat) : yearOfCentury r ≤ 99 := by
  have quarter := quarterOfCentury_eq r
  have lt : quarterDays r % daysPerCycle < 146097 := Nat.mod_lt _ (by decide)
  rw [yearOfCentury_eq]
  omega

/-- The last century of a cycle is one day longer than the others. -/
theorem dayOfCentury_le {c m r : Nat} (total : 146097 * c + m = 4 * r + 3) (lt : m < 146097)
    (short : c % 4 ≠ 3)
    : m / 4 ≤ 36523 := by
  have low : (c + m) % 4 = 3 := by omega
  have ne : m ≠ 146096 := by omega
  omega

/-- A day is the sum of the days of the earlier centuries and its position in its own. -/
theorem day_eq_century (r : Nat)
    : (r : Int) = 36524 * century r + century r / 4 + (quarterDays r % daysPerCycle / 4 : Nat) := by
  simp only [century, quarterDays, daysPerCycle]
  omega

/-- The March year of a day, counted from the leading cycles. -/
def marchYear (r : Nat) : Int := 100 * century r + yearOfCentury r

/-- A day is the start of its March year and its position in it. -/
theorem day_eq_marchStart (r : Nat) : (r : Int) = marchStart (marchYear r) + dayOfYear r := by
  have day := day_eq_century r
  have bound := yearOfCentury_le r
  have quarter := quarterOfCentury_eq r
  have year := yearOfCentury_eq r
  rw [marchYear, marchStart_century _ _ (by omega) (by omega)]
  simp only [dayOfYear]
  generalize yearOfCentury r = d at *
  generalize quarterOfCentury r = q at *
  omega

/-- A day lies in front of the March year that follows its own. The last year of a century is
taken apart, since it may lack the leap day. -/
theorem day_lt_marchStart_succ (r : Nat) : (r : Int) < marchStart (marchYear r + 1) := by
  have bound := yearOfCentury_le r
  have year := yearOfCentury_eq r
  have quarter := quarterOfCentury_eq r
  have day := day_eq_century r
  by_cases last : yearOfCentury r = 99
  · have lt : quarterDays r % daysPerCycle < 146097 := Nat.mod_lt _ (by decide)
    have total : 146097 * century r + quarterDays r % daysPerCycle = 4 * r + 3 :=
      Nat.div_add_mod (quarterDays r) daysPerCycle
    have short := dayOfCentury_le total lt
    have next : marchYear r + 1 = 100 * (century r + 1 : Int) + 0 := by
      simp only [marchYear, last]
      omega
    rw [next, marchStart_century _ _ (by omega) (by omega)]
    clear quarter year total
    generalize quarterDays r % daysPerCycle = m at *
    by_cases leap : century r % 4 = 3
    · omega
    · have := short leap
      omega
  · have next : marchYear r + 1 = 100 * (century r : Int) + (yearOfCentury r + 1 : Int) := by
      simp only [marchYear]
      omega
    rw [next, marchStart_century _ _ (by omega) (by omega)]
    omega

-----------------------------------------------------------------------------------------
-- The calendar year of a day and of an instant
-----------------------------------------------------------------------------------------

/-- A day counted from the leading cycles lies in the calendar year computed for it. -/
theorem year_of_cycleDay (r : Nat) {year : Int}
    (same
      : year
        = (100 * century r + yearOfCentury r + carry r : Nat) - (400 * leadingCycles : Nat))
    : yearStart year ≤ r - epochOffset - daysPerCycle * leadingCycles
      ∧ r - epochOffset - daysPerCycle * leadingCycles < yearStart (year + 1) := by
  have day := day_eq_marchStart r
  have lt := day_lt_marchStart_succ r
  have before := marchStart_succ (marchYear r - 1)
  have after := marchStart_succ (marchYear r)
  have shift (k : Int) := marchStart_sub_cycles k leadingCycles
  have origin : year = marchYear r + carry r - 400 * leadingCycles := by
    simp only [same, marchYear]
    omega
  rw [yearStart_eq, yearStart_eq]
  simp only [Int.sub_add_cancel, Int.add_sub_cancel] at *
  by_cases early : isEarly r = true
  · have late : 306 ≤ dayOfYear r := by simpa [isEarly] using early
    have here : year - 1 = marchYear r - 400 * leadingCycles := by
      simp only [origin, carry, early, if_true]
      omega
    have there : year = marchYear r + 1 - 400 * leadingCycles := by omega
    rw [here, there, shift, shift]
    simp only [daysPerCycle, leadingCycles] at *
    split at after <;> omega
  · have short : dayOfYear r < 306 := by simpa [isEarly] using early
    have here : year - 1 = marchYear r - 1 - 400 * leadingCycles := by
      simp only [origin, carry, early]
      simp
      omega
    have there : year = marchYear r - 400 * leadingCycles := by omega
    rw [here, there, shift, shift]
    simp only [daysPerCycle, leadingCycles] at *
    split at before <;> omega

/-- A clamped day lies in the supported range. -/
theorem clampDay_bounds (day : Int) : -maxDay ≤ clampDay day ∧ clampDay day ≤ maxDay := by
  unfold clampDay maxDay
  split
  · omega
  · split <;> omega

/-- A supported day is counted from the start of the leading cycles. -/
theorem cycleDay_eq (day : Int)
    : (cycleDay day : Int) - epochOffset - daysPerCycle * leadingCycles = clampDay day := by
  have range := clampDay_bounds day
  simp only [cycleDay, maxDay, epochOffset, daysPerCycle, leadingCycles] at *
  omega

/-- The year of a day contains the day, once it is moved into the supported range. -/
theorem yearOfDay_bounds (day : Int)
    : yearStart (yearOfDay day) ≤ clampDay day ∧ clampDay day < yearStart (yearOfDay day + 1) := by
  have inside := year_of_cycleDay (cycleDay day) rfl
  rw [cycleDay_eq] at inside
  exact inside

/-- The supported range begins in the first supported year and ends in the last one. -/
theorem yearStart_limits
    : yearStart minYear = -100000109
      ∧ yearStart (minYear + 1) = -99999744
      ∧ yearStart maxYear = 99999744
      ∧ yearStart (maxYear + 1) = 100000110 := by
  decide

/-- The years of days are supported years. -/
theorem yearOfDay_range (day : Int) : minYear ≤ yearOfDay day ∧ yearOfDay day ≤ maxYear := by
  obtain ⟨start, stop⟩ := yearOfDay_bounds day
  obtain ⟨low, high⟩ := clampDay_bounds day
  obtain ⟨first, _, _, last⟩ := yearStart_limits
  simp only [maxDay] at low high
  constructor
  · rcases Int.lt_or_le (yearOfDay day) minYear with lt | le
    · have := yearStart_gap (show yearOfDay day + 1 ≤ minYear by omega)
      omega
    · exact le
  · rcases Int.lt_or_le maxYear (yearOfDay day) with lt | le
    · have := yearStart_gap (show maxYear + 1 ≤ yearOfDay day by omega)
      omega
    · exact le

/-- The day lies in a year or behind it exactly when its year does, except at the edges of the
supported range, where years stand for everything beyond them. -/
theorem le_yearOfDay_iff {year day : Int} (first : minYear < year) (last : year ≤ maxYear)
    : year ≤ yearOfDay day ↔ yearStart year ≤ day := by
  obtain ⟨start, stop⟩ := yearOfDay_bounds day
  obtain ⟨_, second, final, _⟩ := yearStart_limits
  have early := yearStart_gap (show minYear + 1 ≤ year by omega)
  have late := yearStart_gap last
  have clamped : clampDay day < yearStart year ↔ day < yearStart year := by
    unfold clampDay maxDay
    split
    · omega
    · split <;> omega
  constructor
  · intro le
    have := yearStart_gap le
    omega
  · intro le
    rcases Int.lt_or_le (yearOfDay day) year with lt | le
    · have := yearStart_gap (show yearOfDay day + 1 ≤ year by omega)
      omega
    · exact le

/-- The years of instants are supported years. -/
theorem yearOf_range (t : Int) : minYear ≤ yearOf t ∧ yearOf t ≤ maxYear :=
  yearOfDay_range _

/-- An instant lies in a year or behind it exactly when its year does, except at the edges of the
supported range. -/
theorem le_yearOf_iff {year t : Int} (first : minYear < year) (last : year ≤ maxYear)
    : year ≤ yearOf t ↔ yearStartSeconds year ≤ t := by
  rw [yearOf, le_yearOfDay_iff first last]
  simp only [yearStartSeconds, secondsOfDay, secondsPerDay]
  omega

/-- Instants from the start of the supported years on lie behind the start of their year. -/
theorem yearStartSeconds_yearOf_le {t : Int} (le : yearStartSeconds minYear ≤ t)
    : yearStartSeconds (yearOf t) ≤ t := by
  obtain ⟨low, high⟩ := yearOf_range t
  rcases Int.lt_or_le minYear (yearOf t) with lt | edge
  · exact (le_yearOf_iff lt high).mp (Int.le_refl _)
  · have same : yearOf t = minYear := by omega
    rw [same]
    exact le

/-- Instants in front of the last supported year lie in front of the year after their own. -/
theorem lt_yearStartSeconds_succ {t : Int} (lt : yearOf t < maxYear)
    : t < yearStartSeconds (yearOf t + 1) := by
  obtain ⟨low, _⟩ := yearOf_range t
  have behind := le_yearOf_iff (t := t) (show minYear < yearOf t + 1 by omega) (by omega)
  rcases Int.lt_or_le t (yearStartSeconds (yearOf t + 1)) with lt | le
  · exact lt
  · have := behind.mpr le
    omega

/-- Later years start later, by at least 365 days for each year. -/
theorem yearStartSeconds_gap {a b : Int} (le : a ≤ b)
    : yearStartSeconds a + 31536000 * (b - a) ≤ yearStartSeconds b := by
  have := yearStart_gap le
  simp only [yearStartSeconds, secondsOfDay, secondsPerDay]
  omega

/-- A year that starts earlier is an earlier year. -/
theorem lt_of_yearStartSeconds_lt {a b : Int} (lt : yearStartSeconds a < yearStartSeconds b)
    : a < b := by
  rcases Int.lt_or_le a b with earlier | le
  · exact earlier
  · have := yearStartSeconds_gap le
    omega

end CivilTime.Calendar
