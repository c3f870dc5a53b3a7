import CivilTime.Proofs.Artifact.Varint
import CivilTime.Proofs.Calendar.RuleDay
import CivilTime.Proofs.Rule.Reach

/-! Dates and instants in arithmetic of signed 64 bit numbers.
Each sum, difference and product is absent where it overflows. Amounts of offset and saved time are
kept below 2^28 and instants below 2^56, far from the two ends of time. For dates in years of
thirty-two bits and times of the clock nothing is ever absent.
-/

namespace CivilTime

/-- An instant less than 2^56 seconds away from 1970, and so far from both ends of time. -/
def Instant.Clear (t : Int) : Prop := -72057594037927936 < t ∧ t < 72057594037927936

instance (t : Int) : Decidable (Instant.Clear t) := inferInstanceAs (Decidable (_ ∧ _))

/-- An amount of offset or saved time of less than 2^28 seconds. -/
def ClockTime.Small (amount : Int) : Prop := -268435456 < amount ∧ amount < 268435456

instance (amount : Int) : Decidable (ClockTime.Small amount) := inferInstanceAs (Decidable (_ ∧ _))

/-- An amount of seconds that some time of the clock lasts. -/
def ClockTime.Lasts (amount : Int) : Prop := ∃ t : ClockTime, t.seconds = amount

/-- Standard time saves an amount that a time of the clock lasts. -/
theorem ClockTime.lasts_zero : Lasts 0 := ⟨.zero, rfl⟩

/-- The amounts that times of the clock last are small. -/
theorem ClockTime.Lasts.small {amount : Int} (lasts : Lasts amount) : Small amount := by
  obtain ⟨t, rfl⟩ := lasts
  have := t.seconds_bounds
  unfold Small
  omega

/-- The years of thirty-two bits begin on days that are far from the ends of time. -/
theorem Calendar.yearStart_bounds {year : Int} (low : -2147483648 ≤ year) (high : year ≤ 2147483647)
    : -785000000000 ≤ yearStart year ∧ yearStart year ≤ 785000000000 := by
  have first : -785000000000 ≤ yearStart (-2147483648) := by decide
  have last : yearStart 2147483647 ≤ 785000000000 := by decide
  have := yearStart_gap low
  have := yearStart_gap high
  omega

namespace Machine

-----------------------------------------------------------------------------------------
-- Numbers
-----------------------------------------------------------------------------------------

/-- A number of sixty-four bits. -/
def word (n : Int) : Option Int := if Instant.Representable n then some n else none

/-- The sum of two numbers. -/
def add (a b : Int) : Option Int := word (a + b)

/-- The difference of two numbers. -/
def sub (a b : Int) : Option Int := word (a - b)

/-- The product of two numbers. -/
def mul (a b : Int) : Option Int := word (a * b)

/-- A small amount of offset or saved time. -/
def amount (n : Int) : Option Int := if ClockTime.Small n then some n else none

/-- An instant far from the ends of time. -/
def instant (n : Int) : Option Int := if Instant.Clear n then some n else none

/-- A number between the two ends is one of sixty-four bits. -/
theorem word_eq {n : Int} (low : -9223372036854775808 ≤ n) (high : n ≤ 9223372036854775807)
    : word n = some n :=
  if_pos ⟨low, high⟩

-----------------------------------------------------------------------------------------
-- Dates
-----------------------------------------------------------------------------------------

/-- The years of the cycles that are put in front of a date. -/
def leadingYears : Option Int := mul 400 5368710

/-- The days from the start of the leading cycles to 1 January 1970. -/
def leadingDays : Option Int := do add (← mul 5368710 146097) 719468

/-- A year that starts in March, counted from the start of the leading cycles. -/
def marchYear (year early : Int) : Option Int := do sub (← add year (← leadingYears)) early

/-- The days in front of a year that starts in March. -/
def daysToYear (marchYear : Int) : Option Int := do
  let century := marchYear.tdiv 100
  add (← sub ((← mul 1461 marchYear).tdiv 4) century) (century.tdiv 4)

/-- The days of a year that starts in March in front of a month. -/
def daysToMonth (marchMonth : Int) : Option Int := do
  let scaled ← sub (← mul 979 marchMonth) 2919
  some (scaled.tdiv 32)

/-- The day number of a date. Cycles of four hundred years are put in front of the date to keep the
year positive, and taken off the sum of the days. -/
def dayNumber (year : Int) (month day : Nat) : Option Int := do
  let shift ← leadingDays
  let early : Int := if month ≤ 2 then 1 else 0
  let yearDays ← daysToYear (← marchYear year early)
  let monthDays ← daysToMonth (← add month (← mul 12 early))
  sub (← add (← add yearDays monthDays) (← sub day 1)) shift

theorem leadingYears_eq : leadingYears = some 2147484000 := by decide

theorem leadingDays_eq : leadingDays = some 784353144338 := by decide

/-- A year of thirty-two bits lies behind the start of the leading cycles. -/
theorem marchYear_eq {year early : Int} (low : -2147483648 ≤ year) (high : year ≤ 2147483647)
    (early_low : 0 ≤ early) (early_high : early ≤ 1)
    : marchYear year early = some (year + 2147484000 - early) := by
  simp (disch := omega) only [marchYear, leadingYears_eq, add, sub, word_eq, Option.bind_eq_bind,
    Option.bind_some]

/-- Without negative numbers, quotients do not depend on the rounding. -/
theorem daysToYear_eq {marchYear : Int} (low : 0 ≤ marchYear) (high : marchYear ≤ 4294967647)
    : daysToYear marchYear
      = some (1461 * marchYear / 4 - marchYear / 100 + marchYear / 100 / 4) := by
  have century : marchYear.tdiv 100 = marchYear / 100 := Int.tdiv_eq_ediv_of_nonneg low
  have quarter : (1461 * marchYear).tdiv 4 = 1461 * marchYear / 4 :=
    Int.tdiv_eq_ediv_of_nonneg (by omega)
  have centuries : (marchYear / 100).tdiv 4 = marchYear / 100 / 4 :=
    Int.tdiv_eq_ediv_of_nonneg (by omega)
  simp (disch := omega) only [daysToYear, add, sub, mul, word_eq, Option.bind_eq_bind,
    Option.bind_some, century, quarter, centuries]

/-- The months of a year that starts in March are counted from three on. -/
theorem daysToMonth_eq {marchMonth : Int} (low : 3 ≤ marchMonth) (high : marchMonth ≤ 300)
    : daysToMonth marchMonth = some ((979 * marchMonth - 2919) / 32) := by
  have months : (979 * marchMonth - 2919).tdiv 32 = (979 * marchMonth - 2919) / 32 :=
    Int.tdiv_eq_ediv_of_nonneg (by omega)
  simp (disch := omega) only [daysToMonth, sub, mul, word_eq, Option.bind_eq_bind,
    Option.bind_some, months]

/-- The day number of a date in a year of thirty-two bits is the one of the calendar. -/
theorem dayNumber_eq {year : Int} {month day : Nat} (low : -2147483648 ≤ year)
    (high : year ≤ 2147483647) (month_le : month ≤ 255) (day_le : day ≤ 255)
    : dayNumber year month day = some (Calendar.dayNumber year month day) := by
  unfold dayNumber Calendar.dayNumber
  generalize early_eq : (if month ≤ 2 then 1 else 0 : Int) = early
  have early_range : 0 ≤ early ∧ early ≤ 1 ∧ 3 ≤ month + 12 * early := by
    split at early_eq <;> omega
  simp (disch := omega) only [leadingDays_eq, marchYear_eq low high, daysToYear_eq, daysToMonth_eq,
    add, sub, mul, word_eq, Option.bind_eq_bind, Option.bind_some, Option.some.injEq,
    Calendar.epochOffset]
  generalize march_eq : year - early = march
  have shifted_eq : year + 2147484000 - early = march + 2147484000 := by omega
  have century_eq : (march + 2147484000) / 100 = march / 100 + 21474840 := by omega
  have quarter_eq : 1461 * (march + 2147484000) / 4 = 1461 * march / 4 + 784368531000 := by omega
  rw [shifted_eq, century_eq, quarter_eq]
  omega

/-- Moves a place of a month day by day until the week day is met. Places are counted from the first
day of the month on. -/
def seek (weekDay : WeekDay) (firstDay step : Int) : Nat → Int → Option Int
  | 0, _ => none
  | limit + 1, place => do
    let shifted ← add (← add firstDay place) 4
    if shifted % 7 = weekDay.number then some place
    else seek weekDay firstDay step limit (← add place step)

/-- The steps of one day that lead from a day to a week day. -/
def stepsTo (weekDay : WeekDay) (step day : Int) : Int :=
  step * (weekDay.number - Calendar.weekDayIndex day) % 7

/-- Moving in either direction meets the week day behind the steps that lead to it. The induction is
on the limit of the steps. -/
theorem seek_eq {weekDay : WeekDay} {firstDay step : Int} (direction : step = 1 ∨ step = -1)
    (first : -1000000000000 ≤ firstDay ∧ firstDay ≤ 1000000000000) (limit : Nat) {place : Int}
    (near : limit - 1000 ≤ place ∧ place ≤ 1000 - limit)
    (enough : stepsTo weekDay step (firstDay + place) < limit)
    : seek weekDay firstDay step limit place
      = some (place + step * stepsTo weekDay step (firstDay + place)) := by
  have number_lt := weekDay.number_lt
  induction limit generalizing place with
  | zero => rcases direction with rfl | rfl <;> unfold stepsTo at enough <;> omega
  | succ limit ih =>
      simp (disch := omega) only [seek, add, word_eq, Option.bind_eq_bind, Option.bind_some]
      unfold stepsTo Calendar.weekDayIndex at enough ⊢
      by_cases met : (firstDay + place + 4) % 7 = weekDay.number
      · rw [if_pos met]
        rcases direction with rfl | rfl <;> simp only [Option.some.injEq] <;> omega
      · rw [if_neg met, ih (by omega) (by
          unfold stepsTo Calendar.weekDayIndex
          rcases direction with rfl | rfl <;> omega)]
        unfold stepsTo Calendar.weekDayIndex
        rcases direction with rfl | rfl <;> simp only [Option.some.injEq] <;> omega

/-- Six steps lead to every week day. -/
theorem stepsTo_lt (weekDay : WeekDay) (step day : Int) : stepsTo weekDay step day < 7 := by
  unfold stepsTo
  omega

/-- The day number of the first day of a year. -/
def yearStart (year : Int) : Option Int := dayNumber year 1 1

/-- The first day of a year of thirty-two bits is the one of the calendar. -/
theorem yearStart_eq {year : Int} (low : -2147483648 ≤ year) (high : year ≤ 2147483647)
    : yearStart year = some (Calendar.yearStart year) :=
  dayNumber_eq low high (by decide) (by decide)

/-- The place in its month that a rule picks, sought from the first day of the month on. -/
def placeIn (rule : DayRule) (year : Int) (month : Month) (firstDay : Int) : Option Int :=
  match rule with
  | .last weekDay => do
    let lastPlace ← sub (month.daysThrough year - 1) (month.daysBefore year)
    seek weekDay firstDay (-1) 7 lastPlace
  | .onOrAfter weekDay day => do
    let place ← sub day 1
    seek weekDay firstDay 1 7 place
  | .onOrBefore weekDay day => do
    let place ← sub day 1
    seek weekDay firstDay (-1) 7 place
  | .fixed day => sub day 1

/-- The day number that a rule picks. -/
def dayIn (rule : DayRule) (year : Int) (month : Month) : Option Int := do
  let firstDay ← add (← yearStart year) (month.daysBefore year)
  let place ← placeIn rule year month firstDay
  add firstDay place

/-- The place that a rule picks is the one of the calendar, by cases on the rule. -/
theorem placeIn_eq {rule : DayRule} {year : Int} {month : Month} (low : -2147483648 ≤ year)
    (high : year ≤ 2147483647) (valid : rule.dayPast? month = none)
    : placeIn rule year month (Calendar.yearStart year + month.daysBefore year)
      = some (rule.dayIn year month - (Calendar.yearStart year + month.daysBefore year)) := by
  have start := Calendar.yearStart_bounds low high
  have before := month.daysBefore_bounds year
  have through := month.daysThrough_bounds year
  have common := month.common_bounds
  cases rule with
  | last weekDay =>
      simp (disch := omega) only [placeIn, sub, word_eq, Option.bind_eq_bind, Option.bind_some]
      rw [seek_eq (.inr rfl) (by omega) 7 (by omega) (stepsTo_lt ..), Option.some.injEq]
      unfold stepsTo DayRule.dayIn WeekDay.onOrBefore Calendar.weekDayIndex
      simp only
      omega
  | onOrAfter weekDay day =>
      simp [DayRule.dayPast?, DayRule.namedDay?, Option.filter] at valid
      simp (disch := omega) only [placeIn, sub, word_eq, Option.bind_eq_bind, Option.bind_some]
      rw [seek_eq (.inl rfl) (by omega) 7 (by omega) (stepsTo_lt ..), Option.some.injEq]
      unfold stepsTo DayRule.dayIn WeekDay.onOrAfter Calendar.weekDayIndex
      simp only
      omega
  | onOrBefore weekDay day =>
      simp [DayRule.dayPast?, DayRule.namedDay?, Option.filter] at valid
      simp (disch := omega) only [placeIn, sub, word_eq, Option.bind_eq_bind, Option.bind_some]
      rw [seek_eq (.inr rfl) (by omega) 7 (by omega) (stepsTo_lt ..), Option.some.injEq]
      unfold stepsTo DayRule.dayIn WeekDay.onOrBefore Calendar.weekDayIndex
      simp only
      omega
  | fixed day =>
      simp [DayRule.dayPast?, DayRule.namedDay?, Option.filter] at valid
      rw [placeIn, sub, word_eq (by omega) (by omega), Option.some.injEq, DayRule.dayIn]
      omega

/-- The day that a rule picks in a year of thirty-two bits is the one of the calendar. -/
theorem dayIn_eq {rule : DayRule} {year : Int} {month : Month} (low : -2147483648 ≤ year)
    (high : year ≤ 2147483647) (valid : rule.dayPast? month = none)
    : dayIn rule year month = some (rule.dayIn year month) := by
  have start := Calendar.yearStart_bounds low high
  have before := month.daysBefore_bounds year
  have common := month.common_bounds
  have place := rule.dayIn_bounds year month
  have earliest := DayRule.earliestPlace_bounds valid
  simp (disch := omega) only [dayIn, yearStart_eq low high, placeIn_eq low high valid, add, word_eq,
    Option.bind_eq_bind, Option.bind_some, Option.some.injEq]
  omega

-----------------------------------------------------------------------------------------
-- Times of the clock and instants
-----------------------------------------------------------------------------------------

/-- The signed amount of seconds that a time of the clock lasts. -/
def clockSeconds (t : ClockTime) : Option Int := do
  let total ← add (← add (← mul t.hour 3600) (← mul t.minute 60)) t.second
  amount (← mul total (if t.negative then -1 else 1))

/-- The universal time of day, given the standard offset and the saved time in force. -/
def universalSeconds (t : TimeOfDay) (stdOffset savings : Int) : Option Int := do
  let time ← clockSeconds t.time
  match t.mode with
  | .wall => do sub (← sub time stdOffset) savings
  | .standard => sub time stdOffset
  | .universal => some time

/-- The instant of a time of day on the day that a rule picks. -/
def instantOn (rule : DayRule) (year : Int) (month : Month) (time : TimeOfDay)
    (stdOffset savings : Int) : Option Int := do
  let day ← dayIn rule year month
  let dateSeconds ← mul day 86400
  instant (← add dateSeconds (← universalSeconds time stdOffset savings))

/-- A time of the clock lasts a small amount. -/
theorem clockSeconds_eq (t : ClockTime) : clockSeconds t = some t.seconds := by
  have := t.hour_le
  have := t.minute_le
  have := t.second_le
  have small : ClockTime.Small t.seconds := ClockTime.Lasts.small ⟨t, rfl⟩
  have signed
      : (t.hour * 3600 + t.minute * 60 + t.second : Int) * (if t.negative then -1 else 1)
        = t.seconds := by
    simp only [ClockTime.seconds]
    split <;> omega
  have bounds := t.seconds_bounds
  simp (disch := omega) only [clockSeconds, add, mul, word_eq, Option.bind_eq_bind,
    Option.bind_some, signed]
  exact if_pos small

variable {stdOffset savings : Int}

/-- A time of day that is read from a clock is a number of sixty-four bits. -/
theorem universalSeconds_eq (t : TimeOfDay) (offset : ClockTime.Lasts stdOffset)
    (saved : ClockTime.Lasts savings)
    : universalSeconds t stdOffset savings = some (t.universalSeconds stdOffset savings) := by
  obtain ⟨u, rfl⟩ := offset
  obtain ⟨v, rfl⟩ := saved
  have := t.time.seconds_bounds
  have := u.seconds_bounds
  have := v.seconds_bounds
  unfold universalSeconds TimeOfDay.universalSeconds
  rw [clockSeconds_eq]
  cases t.mode <;>
    simp (disch := omega) only [sub, word_eq, Option.bind_eq_bind, Option.bind_some]

/-- A rule changes the clock at an instant far from the ends of time. -/
theorem clear_instantOn {rule : DayRule} {year : Int} {month : Month} (low : -2147483648 ≤ year)
    (high : year ≤ 2147483647) (valid : rule.dayPast? month = none) (time : TimeOfDay)
    (offset : ClockTime.Lasts stdOffset) (saved : ClockTime.Lasts savings)
    : Instant.Clear
        (Calendar.secondsOfDay (rule.dayIn year month)
          + time.universalSeconds stdOffset savings) := by
  obtain ⟨t, rfl⟩ := offset
  obtain ⟨u, rfl⟩ := saved
  have bounds := time.universalSeconds_bounds t.seconds_bounds u.seconds_bounds
  have place := rule.dayIn_bounds year month
  have earliest := DayRule.earliestPlace_bounds valid
  have start := Calendar.yearStart_bounds low high
  unfold Instant.Clear Calendar.secondsOfDay Calendar.secondsPerDay
  omega

/-- The instant at which a rule changes the clock is computed as it is. -/
theorem instantOn_eq {rule : DayRule} {year : Int} {month : Month} (low : -2147483648 ≤ year)
    (high : year ≤ 2147483647) (valid : rule.dayPast? month = none) (time : TimeOfDay)
    (offset : ClockTime.Lasts stdOffset) (saved : ClockTime.Lasts savings)
    : instantOn rule year month time stdOffset savings
      = some
        (Calendar.secondsOfDay (rule.dayIn year month)
          + time.universalSeconds stdOffset savings) := by
  have clear := clear_instantOn low high valid time offset saved
  have place := rule.dayIn_bounds year month
  have earliest := DayRule.earliestPlace_bounds valid
  have start := Calendar.yearStart_bounds low high
  obtain ⟨t, rfl⟩ := offset
  obtain ⟨u, rfl⟩ := saved
  have bounds := time.universalSeconds_bounds t.seconds_bounds u.seconds_bounds
  simp only [Calendar.secondsOfDay, Calendar.secondsPerDay] at clear ⊢
  simp (disch := omega) only [instantOn, dayIn_eq low high valid,
    universalSeconds_eq time ⟨t, rfl⟩ ⟨u, rfl⟩, add, mul, word_eq, Option.bind_eq_bind,
    Option.bind_some]
  exact if_pos clear

end Machine

end CivilTime
