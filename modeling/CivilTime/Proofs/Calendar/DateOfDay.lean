import CivilTime.Proofs.Calendar.Gregorian

/-! The date of a day number is the valid date with that number.
A day of a March year is split into its month and its day of the month by one multiplication, which
is exact on the up to 366 days of a year. In the supported range dates and day numbers determine
each other.
-/

namespace CivilTime.Calendar

-----------------------------------------------------------------------------------------
-- The months of a March year
-----------------------------------------------------------------------------------------

/-- A month of a March year, counted from three on, holds the days that the multiplication puts into
it. The proof is by cases on the month. -/
theorem month_split {n : Nat} (le : n ≤ 365)
    : 3 ≤ (2141 * n + 197913) / 65536
      ∧ (2141 * n + 197913) / 65536 ≤ 14
      ∧ (306 ≤ n ↔ 12 < (2141 * n + 197913) / 65536)
      ∧ (979 * ((2141 * n + 197913) / 65536) - 2919) / 32
          + (2141 * n + 197913) % 65536 / 2141
        = n := by
  have first : 3 ≤ (2141 * n + 197913) / 65536 := by omega
  have last : (2141 * n + 197913) / 65536 ≤ 14 := by omega
  refine ⟨first, last, by omega, ?_⟩
  generalize month_eq : (2141 * n + 197913) / 65536 = month at first last ⊢
  interval_cases month <;> omega

/-- The day of the month lies in its month, by cases on the month. The last day of a March year is
29 February and needs a leap year. -/
theorem day_le_daysInMonth {n : Nat} {leap : Bool} (lt : n < 365 + if leap then 1 else 0)
    : (2141 * n + 197913) % 65536 / 2141 + 1
      ≤ daysInMonth
          (if (2141 * n + 197913) / 65536 ≤ 12 then (2141 * n + 197913) / 65536
          else (2141 * n + 197913) / 65536 - 12)
          leap := by
  have le : n ≤ 365 := by split at lt <;> omega
  obtain ⟨first, last, _⟩ := month_split le
  generalize month_eq : (2141 * n + 197913) / 65536 = month at *
  interval_cases month <;> cases leap <;> simp [daysInMonth] at lt ⊢ <;> omega

-----------------------------------------------------------------------------------------
-- Dates of day numbers
-----------------------------------------------------------------------------------------

/-- Whole cycles do not change whether a year has a leap day. -/
theorem isLeapYear_sub_cycles (year : Int) (cycles : Nat)
    : isLeapYear (year - 400 * cycles) = isLeapYear year := by
  have fours : (year - 400 * cycles) % 4 = year % 4 := by omega
  have centuries : (year - 400 * cycles) % 100 = year % 100 := by omega
  have cycles : (year - 400 * cycles) % 400 = year % 400 := by omega
  simp only [isLeapYear, fours, centuries, cycles]

/-- A March year has 366 days only if it ends in the February of a leap year. -/
theorem dayOfYear_lt (r : Nat)
    : dayOfYear r < 365 + if isLeapYear (marchYear r + 1) then 1 else 0 := by
  have day := day_eq_marchStart r
  have behind := day_lt_marchStart_succ r
  have step := marchStart_succ (marchYear r)
  split at step <;> simp only [*, if_true, Bool.false_eq_true, if_false] <;> omega

/-- The date of a day of a March year. -/
def ofMarch (march : Int) (n : Nat) : Date :=
  { year := march + if 306 ≤ n then 1 else 0
    month := (2141 * n + 197913) / 65536 - 12 * if 306 ≤ n then 1 else 0
    day := (2141 * n + 197913) % 65536 / 2141 + 1 }

/-- The date of a day of a March year is valid and as many days behind the start of that year.
January and February belong to the March year before their own. -/
theorem ofMarch_spec {march : Int} {n : Nat}
    (lt : n < 365 + if isLeapYear (march + 1) then 1 else 0)
    : (ofMarch march n).Valid ∧ (ofMarch march n).number = marchStart march + n - epochOffset := by
  obtain ⟨first, last, early_iff, total⟩ := month_split (n := n) (by split at lt <;> omega)
  by_cases early : 306 ≤ n
  · have winter := early_iff.mp early
    have length := day_le_daysInMonth lt
    simp only [ofMarch, Date.number]
    generalize (2141 * n + 197913) % 65536 / 2141 = place at *
    generalize (2141 * n + 197913) / 65536 = month at *
    simp only [early, if_true, Nat.mul_one, if_neg (Nat.not_le.mpr winter)] at length ⊢
    refine ⟨⟨⟨by simp only; omega, by simp only; omega⟩, Nat.le_add_left 1 place, length⟩, ?_⟩
    rw [dayNumber_eq_march, if_pos (by omega), Int.add_sub_cancel]
    omega
  · have autumn : (2141 * n + 197913) / 65536 ≤ 12 :=
      Nat.not_lt.mp fun winter => early (early_iff.mpr winter)
    have length := day_le_daysInMonth (show n < 365 + if isLeapYear march then 1 else 0 by omega)
    simp only [ofMarch, Date.number]
    generalize (2141 * n + 197913) % 65536 / 2141 = place at *
    generalize (2141 * n + 197913) / 65536 = month at *
    simp only [early, if_false, Nat.mul_zero, Nat.sub_zero, Int.add_zero, if_pos autumn]
      at length ⊢
    refine ⟨⟨⟨by simp only; omega, autumn⟩, Nat.le_add_left 1 place, length⟩, ?_⟩
    rw [dayNumber_eq_march, if_neg (by omega)]
    omega

/-- The date of a day is valid and has the number of the day, once the day is moved into the
supported range. -/
theorem dateOfDay_spec (day : Int)
    : (dateOfDay day).Valid ∧ (dateOfDay day).number = clampDay day := by
  have count := cycleDay_eq day
  have place := day_eq_marchStart (cycleDay day)
  have origin := marchStart_sub_cycles (marchYear (cycleDay day)) leadingCycles
  have short : dayOfYear (cycleDay day)
      < 365 + if isLeapYear (marchYear (cycleDay day) - 400 * leadingCycles + 1) then 1 else 0 := by
    have next : marchYear (cycleDay day) - 400 * leadingCycles + 1
        = marchYear (cycleDay day) + 1 - 400 * leadingCycles := by omega
    rw [next, isLeapYear_sub_cycles]
    exact dayOfYear_lt (cycleDay day)
  have date_eq
      : dateOfDay day = ofMarch (marchYear (cycleDay day) - 400 * leadingCycles)
          (dayOfYear (cycleDay day)) := by
    simp only [dateOfDay, yearOfDay, ofMarch, monthPhase, carry, isEarly, marchYear,
      decide_eq_true_eq, Date.mk.injEq, and_true]
    split <;> omega
  obtain ⟨valid, number_eq⟩ := ofMarch_spec short
  rw [date_eq]
  refine ⟨valid, ?_⟩
  rw [number_eq, origin]
  simp only [daysPerCycle] at count
  omega

/-- A supported day stays where it is. -/
theorem clampDay_of_supported {day : Int} (low : -maxDay ≤ day) (high : day ≤ maxDay)
    : clampDay day = day := by
  rw [clampDay, if_neg (Int.not_lt.mpr high), if_neg (Int.not_lt.mpr low)]

/-- In the supported range the date of the number of a valid date is that date, since the number has
no other valid date. -/
theorem dateOfDay_number {date : Date} (valid : date.Valid) (low : -maxDay ≤ date.number)
    (high : date.number ≤ maxDay)
    : dateOfDay date.number = date := by
  obtain ⟨found_valid, number_eq⟩ := dateOfDay_spec date.number
  apply found_valid.eq_of_number_eq valid
  rw [number_eq, clampDay_of_supported low high]

-----------------------------------------------------------------------------------------
-- Years of instants
-----------------------------------------------------------------------------------------

/-- Moving into the supported range keeps the order. -/
theorem clampDay_mono {a b : Int} (le : a ≤ b) : clampDay a ≤ clampDay b := by
  have between (day : Int) : clampDay day = max (-maxDay) (min maxDay day) := by
    unfold clampDay maxDay
    split
    · omega
    · split <;> omega
  rw [between, between]
  omega

/-- A later day lies in the same year or a later one. -/
theorem yearOfDay_mono {a b : Int} (le : a ≤ b) : yearOfDay a ≤ yearOfDay b := by
  obtain ⟨start, _⟩ := yearOfDay_bounds a
  obtain ⟨_, stop⟩ := yearOfDay_bounds b
  have clamped := clampDay_mono le
  by_contra later
  have gap := yearStart_gap (show yearOfDay b + 1 ≤ yearOfDay a by omega)
  omega

/-- A later instant lies in the same year or a later one. -/
theorem yearOf_mono {s t : Int} (le : s ≤ t) : yearOf s ≤ yearOf t :=
  yearOfDay_mono (Int.ediv_le_ediv (by decide) le)

/-- An instant of a supported day lies in its year. -/
theorem yearOf_bounds {t : Int} (low : -maxDay ≤ t / secondsPerDay)
    (high : t / secondsPerDay ≤ maxDay)
    : yearStartSeconds (yearOf t) ≤ t ∧ t < yearStartSeconds (yearOf t + 1) := by
  have bounds := yearOfDay_bounds (t / secondsPerDay)
  rw [clampDay_of_supported low high] at bounds
  simp only [yearOf, yearStartSeconds, secondsOfDay, secondsPerDay] at *
  omega

end CivilTime.Calendar
