import CivilTime.Calendar.DayRule
import CivilTime.Proofs.Calendar.Year

/-! The days that a rule picks in different years lie at nearly the same place of their years.
A week day and a leap day move the picked day by at most seven days, so it comes later in a later
year, and it leaves its year by a few days at most.
-/

namespace CivilTime

-----------------------------------------------------------------------------------------
-- Days of a month and the nearest week days
-----------------------------------------------------------------------------------------

/-- Week days have positions from zero to six, by cases on the week day. -/
theorem WeekDay.number_lt (weekDay : WeekDay) : weekDay.number < 7 := by cases weekDay <;> decide

/-- The nearest later week day is less than a week away. -/
theorem WeekDay.onOrAfter_bounds (weekDay : WeekDay) (day : Int)
    : day ≤ weekDay.onOrAfter day ∧ weekDay.onOrAfter day ≤ day + 6 := by
  simp only [WeekDay.onOrAfter]
  omega

/-- The nearest earlier week day is less than a week away. -/
theorem WeekDay.onOrBefore_bounds (weekDay : WeekDay) (day : Int)
    : day - 6 ≤ weekDay.onOrBefore day ∧ weekDay.onOrBefore day ≤ day := by
  simp only [WeekDay.onOrBefore]
  omega

/-- The days in front of a month in a common year. -/
def Month.daysBeforeCommon (month : Month) : Int := Calendar.daysBeforeMonth month.number false

/-- The days up to the end of a month in a common year. -/
def Month.daysThroughCommon (month : Month) : Int :=
  Calendar.daysBeforeMonth (month.number + 1) false

/-- A leap year puts at most one more day in front of a month, by cases on the month. -/
theorem Month.daysBefore_bounds (month : Month) (year : Int)
    : month.daysBeforeCommon ≤ month.daysBefore year
      ∧ month.daysBefore year ≤ month.daysBeforeCommon + 1 := by
  simp only [daysBefore, daysBeforeCommon]
  cases month <;> cases Calendar.isLeapYear year <;> decide

/-- A leap year adds at most one day up to the end of a month, by cases on the month. -/
theorem Month.daysThrough_bounds (month : Month) (year : Int)
    : month.daysThroughCommon ≤ month.daysThrough year
      ∧ month.daysThrough year ≤ month.daysThroughCommon + 1 := by
  simp only [daysThrough, daysThroughCommon]
  cases month <;> cases Calendar.isLeapYear year <;> decide

/-- A common year holds all of its months. -/
theorem Month.common_bounds (month : Month)
    : 0 ≤ month.daysBeforeCommon
      ∧ month.daysBeforeCommon + month.maxLength ≤ 365
      ∧ 31 ≤ month.daysThroughCommon
      ∧ month.daysThroughCommon ≤ 365 := by
  cases month <;> decide

-----------------------------------------------------------------------------------------
-- The place of a picked day in its year
-----------------------------------------------------------------------------------------

namespace DayRule

/-- The earliest place in a year that a rule can pick, counted in days from the start. -/
def earliestPlace (rule : DayRule) (month : Month) : Int :=
  match rule with
  | last _ => month.daysThroughCommon - 7
  | onOrAfter _ day => month.daysBeforeCommon + day - 1
  | onOrBefore _ day => month.daysBeforeCommon + day - 7
  | fixed day => month.daysBeforeCommon + day - 1

/-- A picked day lies at most seven days behind the earliest place of its rule, six for the week
day and one for the leap day. -/
theorem dayIn_bounds (rule : DayRule) (year : Int) (month : Month)
    : Calendar.yearStart year + rule.earliestPlace month ≤ rule.dayIn year month
      ∧ rule.dayIn year month ≤ Calendar.yearStart year + rule.earliestPlace month + 7 := by
  have before := month.daysBefore_bounds year
  have through := month.daysThrough_bounds year
  cases rule with
  | last weekDay =>
      have near := weekDay.onOrBefore_bounds
        (Calendar.yearStart year + month.daysThrough year - 1)
      simp only [dayIn, earliestPlace]
      omega
  | onOrAfter weekDay day =>
      have near := weekDay.onOrAfter_bounds
        (Calendar.yearStart year + month.daysBefore year + (day - 1))
      simp only [dayIn, earliestPlace]
      omega
  | onOrBefore weekDay day =>
      have near := weekDay.onOrBefore_bounds
        (Calendar.yearStart year + month.daysBefore year + (day - 1))
      simp only [dayIn, earliestPlace]
      omega
  | fixed day =>
      simp only [dayIn, earliestPlace]
      omega

/-- A rule that names no day past the end of its month picks days of its year or of the week on
either side of it. -/
theorem earliestPlace_bounds {rule : DayRule} {month : Month} (valid : rule.dayPast? month = none)
    : -7 ≤ rule.earliestPlace month ∧ rule.earliestPlace month ≤ 364 := by
  have common := month.common_bounds
  cases rule <;>
    simp [dayPast?, namedDay?, Option.filter] at valid <;>
    simp only [earliestPlace] <;> omega

/-- A rule picks a later day in a later year. -/
theorem dayIn_lt (rule : DayRule) {a b : Int} (month : Month) (lt : a < b)
    : rule.dayIn a month < rule.dayIn b month := by
  have first := rule.dayIn_bounds a month
  have second := rule.dayIn_bounds b month
  have gap := Calendar.yearStart_gap (Int.le_of_lt lt)
  omega

end DayRule

end CivilTime
