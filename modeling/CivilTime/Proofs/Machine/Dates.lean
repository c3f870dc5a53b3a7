import CivilTime.Proofs.Calendar.DateOfDay
import CivilTime.Proofs.Machine.Arithmetic

/-! Dates of day numbers in arithmetic of 32 and 64 bit numbers.
A supported day is moved behind the start of the leading cycles as a signed number and taken apart
with unsigned ones. No sum, difference or product leaves its range, and no number is cut off where
it is narrowed, so day numbers and dates correspond to each other and to the Gregorian calendar.
-/

namespace CivilTime

namespace Machine

-----------------------------------------------------------------------------------------
-- Narrow numbers
-----------------------------------------------------------------------------------------

/-- A signed number of thirty-two bits. -/
def signed (n : Int) : Option Int :=
  if -2147483648 ≤ n ∧ n ≤ 2147483647 then some n else none

/-- An unsigned number of the given number of bits. -/
def unsigned (bits n : Nat) : Option Nat := if n < 2 ^ bits then some n else none

/-- The difference of unsigned numbers. -/
def minus (a b : Nat) : Option Nat := if b ≤ a then some (a - b) else none

/-- A signed number as an unsigned one. -/
def withoutSign (n : Int) : Option Nat := if 0 ≤ n then some n.toNat else none

/-- A number between the two ends is one of thirty-two bits. -/
theorem signed_eq {n : Int} (low : -2147483648 ≤ n) (high : n ≤ 2147483647)
    : signed n = some n :=
  if_pos ⟨low, high⟩

/-- A number below the end is an unsigned one. -/
theorem unsigned_eq {bits n : Nat} (lt : n < 2 ^ bits) : unsigned bits n = some n := if_pos lt

/-- A smaller number can be taken away. -/
theorem minus_eq {a b : Nat} (le : b ≤ a) : minus a b = some (a - b) := if_pos le

/-- A number that is not negative needs no sign. -/
theorem withoutSign_eq {n : Int} (le : 0 ≤ n) : withoutSign n = some n.toNat := if_pos le

-----------------------------------------------------------------------------------------
-- The date of a day
-----------------------------------------------------------------------------------------

/-- The days from the start of the leading cycles to a day that is moved into the supported range.
-/
def cycleDay (day : Int) : Option Nat := do
  let clamped ← signed (Calendar.clampDay day)
  let leading ← signed (146097 * 3670)
  withoutSign (← signed ((← signed (clamped + 719468)) + leading))

/-- Four times the days plus three. -/
def quarterDays (r : Nat) : Option Nat := do unsigned 32 ((← unsigned 32 (4 * r)) + 3)

/-- The year of the century, by a product of sixty-four bits. -/
def yearOfCentury (quarter : Nat) : Option Nat := do
  unsigned 32 ((← unsigned 64 (376287347 * quarter)) / 549755813888)

/-- The day of the March year. -/
def dayOfYear (quarter year : Nat) : Option Nat := do
  let past ← unsigned 32 (1461 * year)
  let left ← minus quarter past
  some (left / 4)

/-- The month and the day of the month in one number. -/
def monthPhase (dayOfYear : Nat) : Option Nat := do
  unsigned 32 ((← unsigned 32 (2141 * dayOfYear)) + 197913)

/-- The calendar year, without the leading cycles. -/
def yearOf (century year early : Nat) : Option Int := do
  let past ← unsigned 32 (100 * century)
  let total ← unsigned 32 ((← unsigned 32 (past + year)) + early)
  signed ((← signed total) - (← signed (400 * 3670)))

/-- The month, January and February belonging to the March year before their own. -/
def month (phase early : Nat) : Option Nat := do
  unsigned 8 (← minus (phase / 65536) (← unsigned 32 (12 * early)))

/-- The day of the month. -/
def place (phase : Nat) : Option Nat := do
  unsigned 8 (← unsigned 32 (phase % 65536 / 2141 + 1))

/-- The date of a day number, the day being moved into the supported range first. -/
def dateOfDay (day : Int) : Option Calendar.Date := do
  let quarters ← quarterDays (← cycleDay day)
  let quarter := (quarters % 146097) ||| 3
  let yearOfCentury ← yearOfCentury quarter
  let dayOfYear ← dayOfYear quarter yearOfCentury
  let phase ← monthPhase dayOfYear
  let early := if 306 ≤ dayOfYear then 1 else 0
  let year ← yearOf (quarters / 146097) yearOfCentury early
  some { year, month := ← month phase early, day := ← place phase }

/-- The days from the start of the leading cycles are counted without an overflow. -/
theorem cycleDay_eq (day : Int)
    : cycleDay day = some (Calendar.cycleDay day) ∧ Calendar.cycleDay day ≤ 636895459 := by
  have range := Calendar.clampDay_bounds day
  simp only [Calendar.cycleDay, Calendar.maxDay, Calendar.epochOffset, Calendar.daysPerCycle,
    Calendar.leadingCycles] at *
  refine ⟨?_, by omega⟩
  simp (disch := omega) only [cycleDay, signed_eq, withoutSign_eq, Option.bind_eq_bind,
    Option.bind_some]
  congr 2

/-- Four times a day that is counted from the start of the leading cycles has thirty-two bits. -/
theorem quarterDays_eq {r : Nat} (le : r ≤ 636895459)
    : quarterDays r = some (Calendar.quarterDays r) := by
  simp (disch := omega) only [quarterDays, Calendar.quarterDays, unsigned_eq, Option.bind_eq_bind,
    Option.bind_some]

/-- The quarter days of a century are few. -/
theorem quarterOfCentury_lt (r : Nat) : Calendar.quarterOfCentury r < 146100 := by
  rw [Calendar.quarterOfCentury_eq]
  simp only [Calendar.daysPerCycle]
  omega

/-- The product that stands for a division has sixty-four bits. -/
theorem yearOfCentury_eq (r : Nat)
    : yearOfCentury (Calendar.quarterOfCentury r) = some (Calendar.yearOfCentury r) := by
  have small := quarterOfCentury_lt r
  have quotient
      : Calendar.yearOfCentury r = 376287347 * Calendar.quarterOfCentury r / 549755813888 := by
    simp only [Calendar.yearOfCentury, Nat.shiftRight_eq_div_pow, Nat.reducePow]
  rw [quotient]
  simp (disch := omega) only [yearOfCentury, unsigned_eq, Option.bind_eq_bind, Option.bind_some]

/-- The years of a century take no more quarter days away than there are. -/
theorem dayOfYear_eq (r : Nat)
    : dayOfYear (Calendar.quarterOfCentury r) (Calendar.yearOfCentury r)
      = some (Calendar.dayOfYear r) := by
  have small := quarterOfCentury_lt r
  have year := Calendar.yearOfCentury_eq r
  simp (disch := omega) only [dayOfYear, Calendar.dayOfYear, unsigned_eq, minus_eq,
    Option.bind_eq_bind, Option.bind_some]

/-- A March year has at most 366 days. -/
theorem dayOfYear_le (r : Nat) : Calendar.dayOfYear r ≤ 365 := by
  have lt := Calendar.dayOfYear_lt r
  split at lt <;> omega

/-- The number of the month and the day has thirty-two bits. -/
theorem monthPhase_eq (r : Nat)
    : monthPhase (Calendar.dayOfYear r) = some (Calendar.monthPhase r) := by
  have le := dayOfYear_le r
  have scaled : 2141 * Calendar.dayOfYear r < 2 ^ 32 := by omega
  have shifted : 2141 * Calendar.dayOfYear r + 197913 < 2 ^ 32 := by omega
  rw [monthPhase, unsigned_eq scaled, Option.bind_eq_bind, Option.bind_some, unsigned_eq shifted]
  rfl

/-- The calendar year has thirty-two bits, before and after the leading cycles are taken away. -/
theorem yearOf_eq {r : Nat} (le : r ≤ 636895459)
    : yearOf (Calendar.century r) (Calendar.yearOfCentury r) (Calendar.carry r)
      = some (((100 * Calendar.century r + Calendar.yearOfCentury r + Calendar.carry r : Nat) : Int)
        - (400 * Calendar.leadingCycles : Nat)) := by
  have century_le : Calendar.century r ≤ 17438 := by
    simp only [Calendar.century, Calendar.quarterDays, Calendar.daysPerCycle]
    omega
  have year_le := Calendar.yearOfCentury_le r
  have carry_le : Calendar.carry r ≤ 1 := by
    unfold Calendar.carry
    split <;> omega
  simp (disch := omega) only [yearOf, Calendar.leadingCycles, unsigned_eq, signed_eq,
    Option.bind_eq_bind, Option.bind_some]
  rfl

/-- The month is not taken below zero and has eight bits. -/
theorem month_eq {phase early : Nat} (enough : 12 * early ≤ phase / 65536) (le : phase / 65536 ≤ 14)
    : month phase early = some (phase / 65536 - 12 * early) := by
  simp (disch := omega) only [month, unsigned_eq, minus_eq, Option.bind_eq_bind, Option.bind_some]

/-- The day of the month has eight bits. -/
theorem place_eq (phase : Nat) : place phase = some (phase % 65536 / 2141 + 1) := by
  simp (disch := omega) only [place, unsigned_eq, Option.bind_eq_bind, Option.bind_some]

/-- January and February are the months thirteen and fourteen of their March year. -/
theorem carry_le (r : Nat)
    : 12 * Calendar.carry r ≤ Calendar.monthPhase r / 65536
      ∧ Calendar.monthPhase r / 65536 ≤ 14 := by
  obtain ⟨_, last, early_iff, _⟩ := Calendar.month_split (dayOfYear_le r)
  simp only [Calendar.carry, Calendar.isEarly, Calendar.monthPhase, decide_eq_true_eq]
  split <;> omega

/-- The date of a day number is computed without an overflow. -/
theorem dateOfDay_eq (day : Int) : dateOfDay day = some (Calendar.dateOfDay day) := by
  obtain ⟨counted, bound⟩ := cycleDay_eq day
  simp only [dateOfDay, Calendar.dateOfDay, Calendar.yearOfDay, counted]
  generalize Calendar.cycleDay day = r at *
  have quarter : Calendar.quarterDays r % 146097 ||| 3 = Calendar.quarterOfCentury r := rfl
  have century : Calendar.quarterDays r / 146097 = Calendar.century r := rfl
  have carry : (if 306 ≤ Calendar.dayOfYear r then 1 else 0) = Calendar.carry r := by
    simp only [Calendar.carry, Calendar.isEarly, decide_eq_true_eq]
  obtain ⟨enough, le⟩ := carry_le r
  have phase := monthPhase_eq r
  generalize Calendar.monthPhase r = phase at *
  simp only [quarterDays_eq bound, quarter, century, yearOfCentury_eq, dayOfYear_eq, phase, carry,
    yearOf_eq bound, month_eq enough le, place_eq, Option.bind_eq_bind, Option.bind_some]

/-- The year of an instant. -/
def yearOfInstant (t : Int) : Option Int := do
  let date ← dateOfDay (t / Calendar.secondsPerDay)
  some date.year

/-- The year of an instant is computed without an overflow. -/
theorem yearOfInstant_eq (t : Int) : yearOfInstant t = some (Calendar.yearOf t) := by
  rw [yearOfInstant, dateOfDay_eq]
  rfl

-----------------------------------------------------------------------------------------
-- The Gregorian calendar
-----------------------------------------------------------------------------------------

/-- The numbers of valid dates are computed, since months and days have eight bits. -/
theorem dayNumber_of_valid {date : Calendar.Date} (valid : date.Valid)
    (low : -2147483648 ≤ date.year) (high : date.year ≤ 2147483647)
    : dayNumber date.year date.month date.day = some date.number := by
  have month := valid.month
  have day := valid.day
  have length : date.monthLength ≤ 31 := by
    unfold Calendar.Date.monthLength Calendar.daysInMonth
    split
    · split <;> decide
    all_goals decide
  exact dayNumber_eq low high (by omega) (by omega)

/-- The date of a supported day is computed, valid and in a year of thirty-two bits. -/
theorem dateOfDay_valid {day : Int} (low : -Calendar.maxDay ≤ day) (high : day ≤ Calendar.maxDay)
    : ∃ date : Calendar.Date,
        dateOfDay day = some date
        ∧ date.Valid
        ∧ dayNumber date.year date.month date.day = some day := by
  obtain ⟨valid, number_eq⟩ := Calendar.dateOfDay_spec day
  rw [Calendar.clampDay_of_supported low high] at number_eq
  have year : Calendar.minYear ≤ (Calendar.dateOfDay day).year
      ∧ (Calendar.dateOfDay day).year ≤ Calendar.maxYear :=
    Calendar.yearOfDay_range day
  have counted := dayNumber_of_valid valid
  simp only [Calendar.minYear, Calendar.maxYear] at year
  rw [number_eq] at counted
  exact ⟨_, dateOfDay_eq day, valid, counted (by omega) (by omega)⟩

/-- Day numbers and dates in machine arithmetic are those of the proleptic Gregorian calendar. The
number of a valid date in a year of thirty-two bits is its count from the epoch. A supported day has
one valid date, with no number out of its range on the way, and the valid date of a supported number
is found again. The year of an instant never falls back, and contains the instant if its day is
supported. -/
theorem calendar_gregorian
    : (∀ date : Calendar.Date,
        date.Valid
        → -2147483648 ≤ date.year
        → date.year ≤ 2147483647
        → dayNumber date.year date.month date.day = some date.number
          ∧ ∀ day, (∃ weekDay, Calendar.Counted date day weekDay) ↔ date.number = day)
      ∧ (∀ day,
          -Calendar.maxDay ≤ day
          → day ≤ Calendar.maxDay
          → ∃ date : Calendar.Date,
              dateOfDay day = some date
              ∧ date.Valid
              ∧ dayNumber date.year date.month date.day = some day)
      ∧ (∀ date : Calendar.Date,
          date.Valid
          → -Calendar.maxDay ≤ date.number
          → date.number ≤ Calendar.maxDay
          → dateOfDay date.number = some date)
      ∧ (∀ t, yearOfInstant t = some (Calendar.yearOf t))
      ∧ (∀ s t, s ≤ t → Calendar.yearOf s ≤ Calendar.yearOf t)
      ∧ ∀ t,
          -Calendar.maxDay ≤ t / Calendar.secondsPerDay
          → t / Calendar.secondsPerDay ≤ Calendar.maxDay
          → Calendar.yearStartSeconds (Calendar.yearOf t) ≤ t
            ∧ t < Calendar.yearStartSeconds (Calendar.yearOf t + 1) := by
  refine ⟨?_, fun _ => dateOfDay_valid, ?_, yearOfInstant_eq, fun _ _ => Calendar.yearOf_mono,
    fun _ => Calendar.yearOf_bounds⟩
  · intro date valid low high
    refine ⟨dayNumber_of_valid valid low high, fun day => ?_⟩
    constructor
    · rintro ⟨weekDay, counted⟩
      exact counted.number_eq.2.1
    · intro number_eq
      rw [← number_eq]
      exact valid.counted
  · intro date valid low high
    rw [dateOfDay_eq, Calendar.dateOfDay_number valid low high]

/-- The leap day of the year 2000. -/
def leapDay : Calendar.Date := { year := 2000, month := 2, day := 29 }

/-- Witness: the leap day of the year 2000 is day 11016, found again from its number, and lies in
its year. -/
theorem calendar_gregorian_leapDay
    : dayNumber 2000 2 29 = some 11016
      ∧ (∃ weekDay, Calendar.Counted leapDay 11016 weekDay)
      ∧ dateOfDay 11016 = some leapDay
      ∧ (∃ date, dateOfDay 11016 = some date ∧ date.Valid)
      ∧ Calendar.yearOf 0 ≤ Calendar.yearOf 951782400
      ∧ Calendar.yearStartSeconds (Calendar.yearOf 951782400) ≤ 951782400 := by
  have number_eq : leapDay.number = 11016 := by decide
  obtain ⟨count, found, back, _, mono, inside⟩ := calendar_gregorian
  obtain ⟨counted, iff_counted⟩ := count leapDay (by decide) (by decide) (by decide)
  rw [number_eq] at counted
  have again := back leapDay (by decide) (by decide) (by decide)
  rw [number_eq] at again
  obtain ⟨date, date_eq, valid, _⟩ := found 11016 (by decide) (by decide)
  exact ⟨counted, (iff_counted 11016).mpr number_eq, again, ⟨date, date_eq, valid⟩,
    mono 0 951782400 (by decide), (inside 951782400 (by decide) (by decide)).1⟩

end Machine

end CivilTime
