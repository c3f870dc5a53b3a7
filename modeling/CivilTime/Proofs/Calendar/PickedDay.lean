import CivilTime.Proofs.Calendar.Gregorian
import CivilTime.Proofs.Machine.Arithmetic
import CivilTime.Proofs.Source.Record
import Mathlib.Order.Bounds.Defs

/-! The day that a rule picks is the one that it describes.
The description is by the proleptic Gregorian calendar alone: days are counted on from the first of
a month, and week days are those of the count. The search of the program moves day by day, and its
end is the first or last such day on its way.
-/

namespace CivilTime

open Calendar

-----------------------------------------------------------------------------------------
-- Days of a month
-----------------------------------------------------------------------------------------

/-- The days behind a valid date are valid and numbered on, by induction on their distance. -/
theorem Calendar.Date.Valid.iterate_next {date : Date} (valid : date.Valid) (n : Nat)
    : (Nat.iterate Date.next n date).Valid
      ∧ (Nat.iterate Date.next n date).number = date.number + n := by
  induction n generalizing date with
  | zero => exact ⟨valid, (Int.add_zero _).symm⟩
  | succ n ih =>
      obtain ⟨next_valid, next_number⟩ := valid.next
      obtain ⟨end_valid, end_number⟩ := ih next_valid
      refine ⟨end_valid, ?_⟩
      change (Nat.iterate Date.next n date.next).number = date.number + (n + 1 : Nat)
      rw [end_number, next_number]
      omega

namespace Month

/-- A date of the month. -/
def dateAt (month : Month) (year : Int) (place : Nat) : Date :=
  { year, month := month.number, day := place }

/-- The date that is reached by counting days from the first of the month, which may lie behind the
end of the month. -/
def countTo (month : Month) (year : Int) (place : Nat) : Date :=
  Nat.iterate Date.next (place - 1) (month.dateAt year 1)

/-- A day of the calendar that is reached by counting days from the first of the month. -/
def CountsTo (month : Month) (year : Int) (place : Nat) (day : Int) : Prop :=
  ∃ weekDay, Counted (month.countTo year place) day weekDay

/-- The day number of the first of a month. -/
def firstDay (month : Month) (year : Int) : Int := yearStart year + month.daysBefore year

/-- The month is one of twelve, by cases on it. -/
theorem number_bounds (month : Month) : 1 ≤ month.number ∧ month.number ≤ 12 := by
  cases month <;> decide

/-- The days of a month end where the next month begins. -/
theorem daysThrough_eq (month : Month) (year : Int)
    : month.daysThrough year
      = month.daysBefore year + daysInMonth month.number (isLeapYear year) :=
  daysBeforeMonth_succ month.number_bounds.1 month.number_bounds.2 _

/-- A date of a month is valid if its place is one of the month. -/
theorem dateAt_valid_iff (month : Month) (year : Int) (place : Nat)
    : (month.dateAt year place).Valid
      ↔ 1 ≤ place ∧ place ≤ daysInMonth month.number (isLeapYear year) :=
  ⟨fun valid => valid.day, fun day => ⟨month.number_bounds, day⟩⟩

/-- The days of a month are numbered on from its first one. -/
theorem dateAt_number (month : Month) (year : Int) (place : Nat)
    : (month.dateAt year place).number = month.firstDay year + (place - 1) :=
  dayNumber_eq month.number_bounds.1 month.number_bounds.2 place

/-- The day that is reached is valid and numbered on from the first of the month. -/
theorem countTo_spec (month : Month) (year : Int) {place : Nat} (first : 1 ≤ place)
    : (month.countTo year place).Valid
      ∧ (month.countTo year place).number = month.firstDay year + (place - 1) := by
  have start : (month.dateAt year 1).Valid :=
    (month.dateAt_valid_iff year 1).mpr ⟨Nat.le_refl 1, one_le_daysInMonth _ _⟩
  obtain ⟨valid, number_eq⟩ := start.iterate_next (place - 1)
  refine ⟨valid, ?_⟩
  rw [countTo, number_eq, dateAt_number]
  omega

/-- Counting reaches the day that is as far behind the first of the month. -/
theorem countsTo_firstDay (month : Month) (year : Int) {place : Nat} (first : 1 ≤ place)
    : month.CountsTo year place (month.firstDay year + (place - 1)) := by
  obtain ⟨valid, number_eq⟩ := month.countTo_spec year first
  rw [← number_eq]
  exact valid.counted

/-- Counting within the month reaches the date of the place. -/
theorem countTo_of_le (month : Month) (year : Int) {place : Nat} (first : 1 ≤ place)
    (le : place ≤ daysInMonth month.number (isLeapYear year))
    : month.countTo year place = month.dateAt year place := by
  obtain ⟨valid, number_eq⟩ := month.countTo_spec year first
  apply valid.eq_of_number_eq ((month.dateAt_valid_iff year place).mpr ⟨first, le⟩)
  rw [number_eq, dateAt_number]

/-- Only a 29th of February is past the end of its month in some year, by cases on the month. -/
theorem past_eq_leapDay (month : Month) {leap : Bool} {place : Nat}
    (past : daysInMonth month.number leap < place) (le : place ≤ month.maxLength)
    : month = feb ∧ place = 29 ∧ leap = false := by
  cases month <;> cases leap <;> simp [daysInMonth, number, maxLength] at past le ⊢ <;> omega

/-- In a common year counting to the 29th of February reaches the first of March. -/
theorem countTo_leapDay {year : Int} (common : isLeapYear year = false)
    : feb.countTo year 29 = mar.dateAt year 1 := by
  obtain ⟨valid, number_eq⟩ := feb.countTo_spec year (show 1 ≤ 29 by decide)
  have march := (mar.dateAt_valid_iff year 1).mpr ⟨Nat.le_refl 1, one_le_daysInMonth _ _⟩
  apply valid.eq_of_number_eq march
  rw [number_eq, dateAt_number, firstDay, firstDay, daysBefore, daysBefore, common]
  have short : daysBeforeMonth mar.number false = daysBeforeMonth feb.number false + 28 := by decide
  rw [short]
  omega

end Month

-----------------------------------------------------------------------------------------
-- Nearest week days
-----------------------------------------------------------------------------------------

/-- A day of the calendar falls on a week day. -/
def Calendar.FallsOn (day : Int) (weekDay : WeekDay) : Prop := ∃ date, Counted date day weekDay

/-- The week day of a day is the one at its position in the week. -/
theorem Calendar.fallsOn_iff {day : Int} {weekDay : WeekDay}
    : FallsOn day weekDay ↔ weekDayIndex day = weekDay.number := by
  constructor
  · rintro ⟨date, counted⟩
    exact counted.number_eq.2.2
  · intro position
    obtain ⟨date, other, counted⟩ := exists_counted day
    have same := WeekDay.number_injective (counted.number_eq.2.2.symm.trans position)
    exact ⟨date, same ▸ counted⟩

namespace WeekDay

/-- The nearest later day on a week day is the first one. -/
theorem onOrAfter_isLeast (weekDay : WeekDay) (start : Int)
    : IsLeast {day | start ≤ day ∧ FallsOn day weekDay} (weekDay.onOrAfter start) := by
  have position := weekDay.number_lt
  simp only [fallsOn_iff]
  refine ⟨⟨(weekDay.onOrAfter_bounds start).1, ?_⟩, ?_⟩
  · unfold onOrAfter weekDayIndex
    omega
  · rintro day ⟨later, falls⟩
    unfold onOrAfter
    unfold weekDayIndex at falls ⊢
    omega

/-- The nearest earlier day on a week day is the last one. -/
theorem onOrBefore_isGreatest (weekDay : WeekDay) (start : Int)
    : IsGreatest {day | day ≤ start ∧ FallsOn day weekDay} (weekDay.onOrBefore start) := by
  have position := weekDay.number_lt
  simp only [fallsOn_iff]
  refine ⟨⟨(weekDay.onOrBefore_bounds start).2, ?_⟩, ?_⟩
  · unfold onOrBefore weekDayIndex
    omega
  · rintro day ⟨earlier, falls⟩
    unfold onOrBefore
    unfold weekDayIndex at falls ⊢
    omega

end WeekDay

-----------------------------------------------------------------------------------------
-- The picked day
-----------------------------------------------------------------------------------------

namespace DayRule

/-- The day that a rule describes: the last such week day of the month, the first such week day not
before a day or the last one not after it, or the day itself. -/
def Describes (rule : DayRule) (year : Int) (month : Month) (picked : Int) : Prop :=
  match rule with
  | last weekDay => IsGreatest {day | ∃ place, Counted (month.dateAt year place) day weekDay} picked
  | onOrAfter weekDay place =>
    ∃ start,
      month.CountsTo year place start
      ∧ IsLeast {day | start ≤ day ∧ FallsOn day weekDay} picked
  | onOrBefore weekDay place =>
    ∃ start,
      month.CountsTo year place start
      ∧ IsGreatest {day | day ≤ start ∧ FallsOn day weekDay} picked
  | fixed place => month.CountsTo year place picked

/-- The days of a month that fall on a week day lie between its ends. -/
theorem counted_dateAt_iff {month : Month} {year day : Int} {weekDay : WeekDay}
    : (∃ place, Counted (month.dateAt year place) day weekDay)
      ↔ month.firstDay year ≤ day
        ∧ day ≤ yearStart year + month.daysThrough year - 1
        ∧ FallsOn day weekDay := by
  simp only [counted_iff, month.dateAt_valid_iff, month.dateAt_number, month.daysThrough_eq,
    fallsOn_iff, Month.firstDay]
  constructor
  · rintro ⟨place, ⟨first, last⟩, number_eq, falls⟩
    exact ⟨by omega, by omega, falls⟩
  · rintro ⟨first, last, falls⟩
    exact ⟨(day - (yearStart year + month.daysBefore year)).toNat + 1, ⟨by omega, by omega⟩,
      by omega, falls⟩

/-- A rule that counts days from one picks the day that it describes, by cases on the rule. The last
week day of a month lies in the month, which is longer than a week. -/
theorem dayIn_describes {rule : DayRule} (named : rule.FromOne) (year : Int) (month : Month)
    : rule.Describes year month (rule.dayIn year month) := by
  cases rule with
  | last weekDay =>
      have ⟨⟨le, falls⟩, greatest⟩ :=
        weekDay.onOrBefore_isGreatest (yearStart year + month.daysThrough year - 1)
      have near := weekDay.onOrBefore_bounds (yearStart year + month.daysThrough year - 1)
      have length := month.daysThrough_eq year
      have long : 28 ≤ daysInMonth month.number (isLeapYear year) := by
        cases month <;> cases isLeapYear year <;> decide
      refine ⟨counted_dateAt_iff.mpr ⟨?_, le, falls⟩, ?_⟩
      · simp only [Month.firstDay, dayIn]
        omega
      · intro day inside
        obtain ⟨_, before_end, day_falls⟩ := counted_dateAt_iff.mp inside
        exact greatest ⟨before_end, day_falls⟩
  | onOrAfter weekDay place =>
      exact ⟨_, month.countsTo_firstDay year (named place rfl), weekDay.onOrAfter_isLeast _⟩
  | onOrBefore weekDay place =>
      exact ⟨_, month.countsTo_firstDay year (named place rfl), weekDay.onOrBefore_isGreatest _⟩
  | fixed place => exact month.countsTo_firstDay year (named place rfl)

/-- A day rule that is accepted for a month picks the day that it describes, in every year of
thirty-two bits. The search for a week day ends, and nothing overflows on the way. A day past the
end of its month can only be a 29th of February, which stands for the first of March. -/
theorem dayIn_gregorian {month : Month} {word : String} {place behind : Place} {rule : DayRule}
    (read : (readDayOf month word).run place = (.ok rule, behind)) {year : Int}
    (low : -2147483648 ≤ year) (high : year ≤ 2147483647)
    : Machine.dayIn rule year month = some (rule.dayIn year month)
      ∧ rule.Describes year month (rule.dayIn year month)
      ∧ ∀ day ∈ rule.namedDay?,
          month.countTo year day = month.dateAt year day
          ∨ month = .feb
            ∧ day = 29
            ∧ isLeapYear year = false
            ∧ month.countTo year day = Month.mar.dateAt year 1 := by
  have inside := yields_readDayOf month word place rule behind read
  have named := yields_readDayOf_fromOne month word place rule behind read
  refine ⟨Machine.dayIn_eq low high inside, dayIn_describes named year month, ?_⟩
  intro day names
  have first := named day names
  have le : day ≤ month.maxLength := by
    simp only [dayPast?, Option.mem_def.mp names, Option.filter_some] at inside
    simpa using inside
  rcases Nat.lt_or_ge (daysInMonth month.number (isLeapYear year)) day with past | reached
  · obtain ⟨rfl, rfl, common⟩ := month.past_eq_leapDay past le
    exact .inr ⟨rfl, rfl, common, Month.countTo_leapDay common⟩
  · exact .inl (month.countTo_of_le year first reached)

/-- Witness: in the common year 2023 the first Sunday from the 29th of February on is the fifth of
March. -/
theorem dayIn_gregorian_march
    : ∃ behind,
        (readDayOf .feb "Sun>=29").run .start = (.ok (.onOrAfter .sun 29), behind)
        ∧ Machine.dayIn (.onOrAfter .sun 29) 2023 .feb = some 19421
        ∧ (onOrAfter .sun 29).Describes 2023 .feb 19421
        ∧ Counted (Month.mar.dateAt 2023 5) 19421 .sun := by
  obtain ⟨behind, read⟩ := ColumnReader.accepts_of_toOption
    (show ((readDayOf .feb "Sun>=29").run .start).1.toOption = some (.onOrAfter .sun 29) by
      decide +kernel)
  have picked : (onOrAfter .sun 29).dayIn 2023 .feb = 19421 := by decide
  have gregorian := dayIn_gregorian read (show -2147483648 ≤ (2023 : Int) by decide) (by decide)
  rw [picked] at gregorian
  exact ⟨behind, read, gregorian.1, gregorian.2.1, counted_iff.mpr (by decide)⟩

end DayRule

end CivilTime
