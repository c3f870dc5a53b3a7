import CivilTime.Calendar.WeekDay
import CivilTime.Proofs.Calendar.Year
import Mathlib.Tactic.IntervalCases

/-! Day numbers count the days of the proleptic Gregorian calendar.
The calendar is counted day by day in both directions from 1 January 1970, a Thursday. The number of
a valid date is its count, and in the supported range the date of a day number is the date that has
been counted with it.
-/

namespace CivilTime

/-- The week day that follows. -/
def WeekDay.next : WeekDay → WeekDay
  | sun => mon
  | mon => tue
  | tue => wed
  | wed => thu
  | thu => fri
  | fri => sat
  | sat => sun

/-- Every week day follows another one. -/
theorem WeekDay.exists_former (weekDay : WeekDay) : ∃ former : WeekDay, former.next = weekDay := by
  cases weekDay
  exacts [⟨sat, rfl⟩, ⟨sun, rfl⟩, ⟨mon, rfl⟩, ⟨tue, rfl⟩, ⟨wed, rfl⟩, ⟨thu, rfl⟩, ⟨fri, rfl⟩]

/-- Week days are told apart by their positions. -/
theorem WeekDay.number_injective {a b : WeekDay} (same : a.number = b.number) : a = b := by
  cases a <;> cases b <;> first | rfl | exact absurd same (by decide)

namespace Calendar

-----------------------------------------------------------------------------------------
-- The calendar
-----------------------------------------------------------------------------------------

/-- The length of a month. -/
def daysInMonth (month : Nat) (leap : Bool) : Nat :=
  match month with
  | 2 => if leap then 29 else 28
  | 4 | 6 | 9 | 11 => 30
  | _ => 31

namespace Date

/-- The length of the month of a date. -/
def monthLength (date : Date) : Nat := daysInMonth date.month (isLeapYear date.year)

/-- A month of the year and a day of that month. -/
structure Valid (date : Date) : Prop where
  month : 1 ≤ date.month ∧ date.month ≤ 12
  day : 1 ≤ date.day ∧ date.day ≤ date.monthLength

instance (date : Date) : Decidable date.Valid :=
  decidable_of_iff
    ((1 ≤ date.month ∧ date.month ≤ 12) ∧ 1 ≤ date.day ∧ date.day ≤ date.monthLength)
    ⟨fun ⟨month, day⟩ => ⟨month, day⟩, fun valid => ⟨valid.month, valid.day⟩⟩

/-- The date that follows. -/
def next (date : Date) : Date :=
  if date.day < date.monthLength then { date with day := date.day + 1 }
  else if date.month < 12 then { year := date.year, month := date.month + 1, day := 1 }
  else { year := date.year + 1, month := 1, day := 1 }

/-- The day number of a date. -/
def number (date : Date) : Int := dayNumber date.year date.month date.day

end Date

/-- The proleptic Gregorian calendar, counted day by day from the epoch: a date with the days from
the epoch to it and with the week day that it falls on. -/
inductive Counted : Date → Int → WeekDay → Prop where
  | epoch : Counted { year := 1970, month := 1, day := 1 } 0 .thu
  | next {date : Date} {day : Int} {weekDay : WeekDay} (counted : Counted date day weekDay)
      : Counted date.next (day + 1) weekDay.next
  | previous {date : Date} {day : Int} {weekDay : WeekDay} (valid : date.Valid)
      (counted : Counted date.next (day + 1) weekDay.next)
      : Counted date day weekDay

-----------------------------------------------------------------------------------------
-- The place of a date in its year
-----------------------------------------------------------------------------------------

/-- A year begins with its first month. -/
theorem daysBeforeMonth_first (leap : Bool) : daysBeforeMonth 1 leap = 0 := by
  cases leap <;> decide

/-- A month ends where the next one begins, by cases on the month. -/
theorem daysBeforeMonth_succ {month : Nat} (first : 1 ≤ month) (last : month ≤ 12) (leap : Bool)
    : daysBeforeMonth (month + 1) leap = daysBeforeMonth month leap + daysInMonth month leap := by
  interval_cases month <;> cases leap <;> rfl

/-- The months together make up the year. -/
theorem yearStart_succ_eq (year : Int)
    : yearStart (year + 1) = yearStart year + daysBeforeMonth 13 (isLeapYear year) := by
  have days (leap : Bool) : daysBeforeMonth 13 leap = 365 + (if leap then 1 else 0) := by
    cases leap <;> rfl
  rw [yearStart_succ, days, Int.add_assoc]

/-- Every month has a first day. -/
theorem one_le_daysInMonth (month : Nat) (leap : Bool) : 1 ≤ daysInMonth month leap := by
  unfold daysInMonth
  split
  · split <;> decide
  all_goals decide

/-- A later month begins behind an earlier one, by induction on the later month. -/
theorem daysBeforeMonth_gap {a b : Nat} (first : 1 ≤ a) (lt : a < b) (last : b ≤ 13) (leap : Bool)
    : daysBeforeMonth a leap + daysInMonth a leap ≤ daysBeforeMonth b leap := by
  induction lt with
  | refl =>
      have step := daysBeforeMonth_succ first (show a ≤ 12 by omega) leap
      rw [step]
  | @step b lt ih =>
      have later : a < b := lt
      have step := daysBeforeMonth_succ (show 1 ≤ b by omega) (show b ≤ 12 by omega) leap
      have earlier := ih (by omega)
      rw [step]
      omega

/-- No month begins in front of its year. -/
theorem daysBeforeMonth_nonneg {month : Nat} (first : 1 ≤ month) (last : month ≤ 13) (leap : Bool)
    : 0 ≤ daysBeforeMonth month leap := by
  have start := daysBeforeMonth_first leap
  rcases Nat.lt_or_eq_of_le first with later | rfl
  · have behind := daysBeforeMonth_gap (Nat.le_refl 1) later last leap
    omega
  · rw [start]

/-- The closed form of a day number in terms of years that start in March. -/
theorem dayNumber_eq_march (year : Int) (month day : Nat)
    : dayNumber year month day
      = if month ≤ 2 then
          marchStart (year - 1) + (979 * (month + 12) - 2919) / 32 + (day - 1) - epochOffset
        else marchStart year + (979 * month - 2919) / 32 + (day - 1) - epochOffset := by
  have closed (march : Int)
      : 1461 * march / 4 - march / 100 + march / 100 / 4 = marchStart march := by
    have quarters : 1461 * march / 4 = 365 * march + march / 4 := by omega
    have cycles : march / 100 / 4 = march / 400 := by omega
    rw [quarters, cycles, marchStart]
  simp only [dayNumber, closed]
  split <;> simp

/-- The closed form agrees with the table of the months: a day number is the start of the year, the
days in front of the month and the days in front of the day. The proof is by cases on the month. -/
theorem dayNumber_eq {year : Int} {month : Nat} (first : 1 ≤ month) (last : month ≤ 12) (day : Nat)
    : dayNumber year month day
      = yearStart year + daysBeforeMonth month (isLeapYear year) + (day - 1) := by
  have march := marchStart_succ (year - 1)
  rw [Int.sub_add_cancel] at march
  rw [dayNumber_eq_march, yearStart_eq]
  interval_cases month <;> cases leap : isLeapYear year <;>
    simp [daysBeforeMonth, leap] at march ⊢ <;> omega

namespace Date

variable {date other : Date}

/-- The number of a date, taken apart into year, month and day. -/
theorem Valid.number_eq (valid : date.Valid)
    : date.number
      = yearStart date.year + daysBeforeMonth date.month (isLeapYear date.year) + (date.day - 1) :=
  dayNumber_eq valid.month.1 valid.month.2 date.day

/-- A date lies in its year. -/
theorem Valid.number_bounds (valid : date.Valid)
    : yearStart date.year ≤ date.number ∧ date.number < yearStart (date.year + 1) := by
  have number_eq := valid.number_eq
  have day := valid.day
  have length : date.monthLength = daysInMonth date.month (isLeapYear date.year) := rfl
  have month := valid.month
  have behind := daysBeforeMonth_gap valid.month.1 (show date.month < 13 by omega) (Nat.le_refl 13)
    (isLeapYear date.year)
  have stop := yearStart_succ_eq date.year
  have start := daysBeforeMonth_nonneg valid.month.1 (by omega) (isLeapYear date.year)
  omega

/-- A date of a later year has a greater number. -/
theorem Valid.number_lt_of_year_lt (valid : date.Valid) (other_valid : other.Valid)
    (lt : date.year < other.year)
    : date.number < other.number := by
  obtain ⟨_, stop⟩ := valid.number_bounds
  obtain ⟨start, _⟩ := other_valid.number_bounds
  have := yearStart_gap (show date.year + 1 ≤ other.year by omega)
  omega

/-- In a year, a date of a later month has a greater number. -/
theorem Valid.number_lt_of_month_lt (valid : date.Valid) (other_valid : other.Valid)
    (year_eq : date.year = other.year) (lt : date.month < other.month)
    : date.number < other.number := by
  have number_eq := valid.number_eq
  have other_number := other_valid.number_eq
  have day := valid.day
  have other_day := other_valid.day
  have last := other_valid.month
  have gap := daysBeforeMonth_gap valid.month.1 lt (by omega) (isLeapYear date.year)
  simp only [monthLength, year_eq] at *
  omega

/-- In a month, a later day has a greater number. -/
theorem Valid.number_lt_of_day_lt (valid : date.Valid) (other_valid : other.Valid)
    (year_eq : date.year = other.year) (month_eq : date.month = other.month)
    (lt : date.day < other.day)
    : date.number < other.number := by
  rw [valid.number_eq, other_valid.number_eq, year_eq, month_eq]
  omega

/-- Valid dates with one number are one date, since a date with another year, month or day has a
greater or a smaller number. -/
theorem Valid.eq_of_number_eq (valid : date.Valid) (other_valid : other.Valid)
    (same : date.number = other.number)
    : date = other := by
  have year_eq : date.year = other.year := by
    rcases Int.lt_trichotomy date.year other.year with lt | eq | gt
    · exact absurd same (Int.ne_of_lt (valid.number_lt_of_year_lt other_valid lt))
    · exact eq
    · exact absurd same.symm (Int.ne_of_lt (other_valid.number_lt_of_year_lt valid gt))
  have month_eq : date.month = other.month := by
    rcases Nat.lt_trichotomy date.month other.month with lt | eq | gt
    · exact absurd same (Int.ne_of_lt (valid.number_lt_of_month_lt other_valid year_eq lt))
    · exact eq
    · exact absurd same.symm
        (Int.ne_of_lt (other_valid.number_lt_of_month_lt valid year_eq.symm gt))
  have day_eq : date.day = other.day := by
    rcases Nat.lt_trichotomy date.day other.day with lt | eq | gt
    · exact absurd same
        (Int.ne_of_lt (valid.number_lt_of_day_lt other_valid year_eq month_eq lt))
    · exact eq
    · exact absurd same.symm
        (Int.ne_of_lt (other_valid.number_lt_of_day_lt valid year_eq.symm month_eq.symm gt))
  cases date
  cases other
  simp_all

-----------------------------------------------------------------------------------------
-- Counting day by day
-----------------------------------------------------------------------------------------

/-- What follows a valid date is a valid date with the number that follows, by cases on the end of
the month and the end of the year. -/
theorem Valid.next (valid : date.Valid) : date.next.Valid ∧ date.next.number = date.number + 1 := by
  have month := valid.month
  have day := valid.day
  have number_eq := valid.number_eq
  have length : date.monthLength = daysInMonth date.month (isLeapYear date.year) := rfl
  by_cases inside : date.day < date.monthLength
  · have next_eq : date.next = { date with day := date.day + 1 } := if_pos inside
    have next_valid : Valid { date with day := date.day + 1 } := ⟨month, by simp, inside⟩
    rw [next_eq, next_valid.number_eq]
    refine ⟨next_valid, ?_⟩
    simp only
    omega
  · by_cases december : date.month < 12
    · have next_eq : date.next = { year := date.year, month := date.month + 1, day := 1 } := by
        rw [Date.next, if_neg inside, if_pos december]
      have next_valid : Valid { year := date.year, month := date.month + 1, day := 1 } :=
        ⟨⟨by simp, december⟩, Nat.le_refl 1, one_le_daysInMonth _ _⟩
      rw [next_eq, next_valid.number_eq]
      refine ⟨next_valid, ?_⟩
      have step := daysBeforeMonth_succ month.1 month.2 (isLeapYear date.year)
      simp only
      omega
    · have next_eq : date.next = { year := date.year + 1, month := 1, day := 1 } := by
        rw [Date.next, if_neg inside, if_neg december]
      have next_valid : Valid { year := date.year + 1, month := 1, day := 1 } :=
        ⟨by simp, Nat.le_refl 1, one_le_daysInMonth _ _⟩
      rw [next_eq, next_valid.number_eq]
      refine ⟨next_valid, ?_⟩
      have last : date.month = 12 := by omega
      have behind : daysBeforeMonth (12 + 1) (isLeapYear date.year)
          = daysBeforeMonth 13 (isLeapYear date.year) := rfl
      have step := daysBeforeMonth_succ month.1 month.2 (isLeapYear date.year)
      have start := daysBeforeMonth_first (isLeapYear (date.year + 1))
      have year := yearStart_succ_eq date.year
      simp only [last] at number_eq step length ⊢
      omega

/-- Every valid date follows another one, by cases on the start of the month and the start of the
year. -/
theorem Valid.exists_former (valid : date.Valid)
    : ∃ former : Date, former.Valid ∧ former.next = date := by
  obtain ⟨year, month, day⟩ := date
  obtain ⟨⟨first, last⟩, ⟨day_first, day_last⟩⟩ := valid
  simp only at first last day_first day_last
  by_cases later : 1 < day
  · let former : Date := { year, month, day := day - 1 }
    have valid : former.Valid :=
      ⟨⟨first, last⟩, Nat.le_sub_one_of_lt later, Nat.le_trans (Nat.sub_le _ _) day_last⟩
    have inside : former.day < former.monthLength :=
      Nat.lt_of_lt_of_le (Nat.sub_one_lt_of_lt day_first) day_last
    refine ⟨former, valid, ?_⟩
    rw [Date.next, if_pos inside]
    simp only [former, Nat.sub_add_cancel day_first]
  · have day_eq : day = 1 := by omega
    by_cases february : 1 < month
    · let former : Date :=
        { year, month := month - 1, day := daysInMonth (month - 1) (isLeapYear year) }
      have before : former.month < 12 := Nat.lt_of_lt_of_le (Nat.sub_one_lt_of_lt first) last
      have valid : former.Valid :=
        ⟨⟨Nat.le_sub_one_of_lt february, Nat.le_of_lt before⟩, one_le_daysInMonth _ _,
          Nat.le_refl _⟩
      have ends : ¬ former.day < former.monthLength := Nat.lt_irrefl _
      refine ⟨former, valid, ?_⟩
      rw [Date.next, if_neg ends, if_pos before]
      simp only [former, Nat.sub_add_cancel first, day_eq]
    · have month_eq : month = 1 := by omega
      refine ⟨{ year := year - 1, month := 12, day := 31 }, ⟨by simp, by simp, Nat.le_refl _⟩, ?_⟩
      simp [Date.next, monthLength, daysInMonth, day_eq, month_eq]

end Date

/-- The position of the week day that follows is the next one, cyclically. -/
theorem weekDayIndex_succ {day : Int} {weekDay : WeekDay}
    : weekDayIndex (day + 1) = weekDay.next.number ↔ weekDayIndex day = weekDay.number := by
  unfold weekDayIndex
  cases weekDay <;> simp only [WeekDay.next, WeekDay.number] <;> omega

/-- A counted date is valid, and its number and its week day are the counted ones. The proof is by
induction on the count. -/
theorem Counted.number_eq {date : Date} {day : Int} {weekDay : WeekDay}
    (counted : Counted date day weekDay)
    : date.Valid ∧ date.number = day ∧ weekDayIndex day = weekDay.number := by
  induction counted with
  | epoch => decide
  | next counted ih =>
      obtain ⟨valid, number_eq, weekDay_eq⟩ := ih
      exact ⟨valid.next.1, by rw [valid.next.2, number_eq], weekDayIndex_succ.mpr weekDay_eq⟩
  | previous valid counted ih =>
      obtain ⟨_, number_eq, weekDay_eq⟩ := ih
      have step := valid.next.2
      exact ⟨valid, by omega, weekDayIndex_succ.mp weekDay_eq⟩

/-- Every day is reached by counting, by induction on its distance from the epoch. -/
theorem exists_counted (day : Int) : ∃ date weekDay, Counted date day weekDay := by
  induction day with
  | zero => exact ⟨_, _, .epoch⟩
  | succ day ih =>
      obtain ⟨date, weekDay, counted⟩ := ih
      exact ⟨date.next, weekDay.next, counted.next⟩
  | pred day ih =>
      obtain ⟨date, weekDay, counted⟩ := ih
      obtain ⟨former, valid, rfl⟩ := counted.number_eq.1.exists_former
      obtain ⟨earlier, rfl⟩ := weekDay.exists_former
      exact ⟨former, earlier, .previous valid (by rwa [Int.sub_add_cancel])⟩

/-- A valid date is counted with its number, since the date that is counted with that number is the
same one. -/
theorem Date.Valid.counted {date : Date} (valid : date.Valid)
    : ∃ weekDay, Counted date date.number weekDay := by
  obtain ⟨reached, weekDay, counted⟩ := exists_counted date.number
  obtain ⟨reached_valid, reached_number, _⟩ := counted.number_eq
  have same := reached_valid.eq_of_number_eq valid reached_number
  exact ⟨weekDay, same ▸ counted⟩

/-- The dates that are counted with a day number are the valid date of that number, on the week day
of the number. -/
theorem counted_iff {date : Date} {day : Int} {weekDay : WeekDay}
    : Counted date day weekDay
      ↔ date.Valid ∧ date.number = day ∧ weekDayIndex day = weekDay.number := by
  constructor
  · exact Counted.number_eq
  · rintro ⟨valid, rfl, weekDay_eq⟩
    obtain ⟨its_weekDay, counted⟩ := valid.counted
    have same := WeekDay.number_injective (counted.number_eq.2.2.symm.trans weekDay_eq)
    exact same ▸ counted

end Calendar

end CivilTime
