import CivilTime.Proofs.Atlas.LocalDateTime

/-! Dates whose month or day is out of range.
A day past the end of its month is counted on from the first day of the month, and so are the two
months behind December, which the March year of their number still has. The fifteenth month begins
the next March year, though, while its number goes on in the first one, whose months are longer on
average: it comes too late, by at least one day for every March year that is passed.
-/

namespace CivilTime

open Calendar

variable {year : Int} {month : Nat}

/-- The first day of a month, where the months behind December are those of the following years. -/
def Calendar.Date.ofMonth (year : Int) (month : Nat) : Date :=
  { year := year + ((month - 1) / 12 : Nat), month := (month - 1) % 12 + 1, day := 1 }

namespace Calendar

theorem Date.valid_ofMonth (year : Int) (month : Nat) : (Date.ofMonth year month).Valid where
  month := by
    simp only [Date.ofMonth]
    omega
  day := ⟨Nat.le_refl 1, one_le_daysInMonth _ _⟩

/-- March years have at most 366 days, by induction on their number. -/
theorem marchStart_add_le (year : Int) (n : Nat)
    : marchStart (year + n) ≤ marchStart year + 366 * n := by
  induction n with
  | zero => simp
  | succ n ih =>
      have step := marchStart_succ (year + n)
      have next : year + (n + 1 : Nat) = year + n + 1 := by omega
      rw [next, step]
      split <;> omega

/-- From March on, a month is one of the twelve months of a March year. -/
theorem exists_place (third : 3 ≤ month)
    : ∃ years place, place < 12 ∧ month = 12 * years + place + 3 :=
  ⟨(month - 3) / 12, (month - 3) % 12, by omega, by omega⟩

/-- A month of a March year begins in this March year, by cases on the end of the calendar year. -/
theorem Date.number_ofMonth {years place : Nat} (inside : place < 12)
    : (Date.ofMonth year (12 * years + place + 3)).number
      = marchStart (year + years) + (979 * (place + 3) - 2919) / 32 - epochOffset := by
  by_cases december : place < 10
  · have passed : (12 * years + place + 3 - 1) / 12 = years := by omega
    have month_eq : (12 * years + place + 3 - 1) % 12 + 1 = place + 3 := by omega
    rw [Date.number, dayNumber_eq_march, Date.ofMonth, passed, month_eq, if_neg (by simp)]
    simp
  · have passed : (12 * years + place + 3 - 1) / 12 = years + 1 := by omega
    have month_eq : (12 * years + place + 3 - 1) % 12 + 1 = place + 3 - 12 := by omega
    have year_eq : year + (years + 1 : Nat) - 1 = year + years := by omega
    have month_cast : ((place + 3 - 12 : Nat) : Int) + 12 = place + 3 := by omega
    rw [Date.number, dayNumber_eq_march, Date.ofMonth, passed, month_eq, if_pos (by simp; omega)]
    simp only [year_eq, month_cast]
    simp

/-- January and February, the months that belong to the March year of the year before, begin the
calendar year. -/
theorem dayNumber_ofMonth_early (first : 1 ≤ month) (last : month ≤ 2) (day : Nat)
    : dayNumber year month day = (Date.ofMonth year month).number + (day - 1) := by
  have passed : (month - 1) / 12 = 0 := Nat.div_eq_of_lt (by omega)
  have month_eq : (month - 1) % 12 + 1 = month := by omega
  rw [Date.number, Date.ofMonth, passed, month_eq, dayNumber_eq_march, dayNumber_eq_march,
    if_pos last, if_pos last]
  simp only [Int.natCast_zero, Int.add_zero]
  omega

/-- In the first March year, days are counted on from the first day of the month. -/
theorem dayNumber_ofMonth (third : 3 ≤ month) (last : month ≤ 14) (day : Nat)
    : dayNumber year month day = (Date.ofMonth year month).number + (day - 1) := by
  obtain ⟨years, place, inside, rfl⟩ := exists_place third
  obtain rfl : years = 0 := by omega
  rw [Date.number_ofMonth inside, dayNumber_eq_march, if_neg (by omega)]
  simp only [Int.natCast_zero, Int.add_zero]
  omega

/-- A month comes too late by at least one day for every March year in front of its own, since
twelve months of the closed form take more than 367 days. -/
theorem dayNumber_ge_ofMonth {years place : Nat} (inside : place < 12) (day : Nat)
    : (Date.ofMonth year (12 * years + place + 3)).number + (day - 1) + years
      ≤ dayNumber year (12 * years + place + 3) day := by
  have passed := marchStart_add_le year years
  have months : (979 * (place + 3) - 2919) / 32 + 367 * years
      ≤ (979 * ((12 * years + place + 3 : Nat) : Int) - 2919) / 32 := by
    omega
  rw [Date.number_ofMonth inside, dayNumber_eq_march, if_neg (by omega)]
  omega

theorem dayNumber_eq_ofMonth_iff (first : 1 ≤ month) (day : Nat)
    : dayNumber year month day = (Date.ofMonth year month).number + (day - 1) ↔ month ≤ 14 := by
  by_cases early : month ≤ 2
  · exact iff_of_true (dayNumber_ofMonth_early first early day) (by omega)
  · constructor
    · intro same
      obtain ⟨years, place, inside, rfl⟩ := exists_place (show 3 ≤ month by omega)
      have too_late
          : (Date.ofMonth year (12 * years + place + 3)).number + (day - 1) + years
            ≤ dayNumber year (12 * years + place + 3) day :=
        dayNumber_ge_ofMonth inside day
      omega
    · intro last
      exact dayNumber_ofMonth (by omega) last day

end Calendar

namespace LocalDateTime

/-- Seconds tell the day numbers of dates with one time. -/
theorem seconds?_eq_some_iff {d : LocalDateTime} (supported : d.isSupported = true) (day : Int)
    : d.seconds? = some (day * secondsPerDay + d.timeOfDay)
      ↔ dayNumber d.year d.month d.day = day := by
  rw [seconds?, if_pos supported, Option.some.injEq, seconds_eq]
  simp only [date, Date.number, secondsPerDay]
  omega

/-- A day is counted on from the first day of its month, and a month from the first one of its year,
exactly up to the fourteenth month. The same holds of the seconds of dates that are not checked. -/
theorem rollsOver_iff (first : 1 ≤ month)
    : ∃ n weekDay,
        Counted (Date.ofMonth year month) n weekDay
        ∧ (∀ day : Nat, dayNumber year month day = n + (day - 1) ↔ month ≤ 14)
        ∧ ∀ d : LocalDateTime,
            d.year = year
            → d.month = month
            → d.isSupported = true
            → (d.seconds? = some ((n + (d.day - 1)) * secondsPerDay + d.timeOfDay)
              ↔ month ≤ 14) := by
  obtain ⟨weekDay, counted⟩ := (Date.valid_ofMonth year month).counted
  refine ⟨_, weekDay, counted, dayNumber_eq_ofMonth_iff first, ?_⟩
  rintro d rfl rfl supported
  rw [seconds?_eq_some_iff supported]
  exact dayNumber_eq_ofMonth_iff first d.day

/-- Witness: the thirtieth day of the fourteenth month of 2025 is 2 March 2026. -/
theorem rollsOver_iff_february
    : Counted (Date.ofMonth 2025 14) 20485 .sun
      ∧ dayNumber 2025 14 30 = 20485 + 29
      ∧ Date.number { year := 2026, month := 3, day := 2 } = 20485 + 29
      ∧ seconds?
            { year := 2025, month := 14, day := 30, hour := 1, minute := 0, second := 0 }
        = some ((20485 + 29) * 86400 + 3600) := by
  obtain ⟨n, weekDay, counted, days, seconds⟩ := @rollsOver_iff 2025 14 (by decide)
  have n_eq : n = 20485 := by
    rw [← counted.number_eq.2.1]
    decide
  subst n_eq
  have february : Counted (Date.ofMonth 2025 14) 20485 .sun := counted_iff.mpr (by decide)
  refine ⟨february, (days 30).mpr (by decide), by decide, ?_⟩
  exact (seconds _ rfl rfl (by decide)).mpr (by decide)

/-- The fifteenth month of 1970 is March 1971, but it comes two days late, as a day and in seconds.
-/
theorem rollsOver_march_late
    : Counted { year := 1971, month := 3, day := 1 } 424 .mon
      ∧ Date.ofMonth 1970 15 = { year := 1971, month := 3, day := 1 }
      ∧ dayNumber 1970 15 1 = 426
      ∧ seconds? { year := 1970, month := 15, day := 1, hour := 0, minute := 0, second := 0 }
        = some (426 * 86400) :=
  ⟨counted_iff.mpr (by decide), by decide, by decide, by decide⟩

end LocalDateTime

end CivilTime
