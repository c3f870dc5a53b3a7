import CivilTime.Calendar.Month
import CivilTime.Calendar.WeekDay

/-! Rules that pick one day of a month in every year.
A rule by week day may leave its month, since the seven days from a late day of the month reach
into the next one.
-/

namespace CivilTime

inductive DayRule where
  /-- The last day of the month that falls on the week day. -/
  | last (weekDay : WeekDay)
  /-- The first such week day not before the day. -/
  | onOrAfter (weekDay : WeekDay) (day : Nat)
  /-- The last such week day not after the day. -/
  | onOrBefore (weekDay : WeekDay) (day : Nat)
  /-- The day itself. -/
  | fixed (day : Nat)
  deriving DecidableEq, Repr, Inhabited

namespace DayRule

/-- The day of the month that a rule names, if it names one. -/
def namedDay? : DayRule → Option Nat
  | last _ => none
  | onOrAfter _ day | onOrBefore _ day | fixed day => some day

/-- The first named day past the end of a month, if the rule names one. -/
def dayPast? (rule : DayRule) (month : Month) : Option Nat :=
  rule.namedDay?.filter fun day => month.maxLength < day

/-- The day number that the rule picks. -/
def dayIn (rule : DayRule) (year : Int) (month : Month) : Int :=
  let newYear := Calendar.yearStart year
  let firstDay := newYear + month.daysBefore year
  match rule with
  | last weekDay => weekDay.onOrBefore (newYear + month.daysThrough year - 1)
  | onOrAfter weekDay day => weekDay.onOrAfter (firstDay + (day - 1))
  | onOrBefore weekDay day => weekDay.onOrBefore (firstDay + (day - 1))
  | fixed day => firstDay + (day - 1)

end DayRule

end CivilTime
