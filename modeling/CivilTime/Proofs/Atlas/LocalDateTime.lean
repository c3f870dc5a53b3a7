import CivilTime.Atlas.LocalDateTime
import CivilTime.Proofs.Calendar.DateOfDay
import Mathlib.Data.List.Lex

/-! Dates and times of the wall clock become seconds in their order, and come back from them.
A text that is read names a date of the calendar and a time of the day. Seconds of supported days
come back as that date and time. Years are supported as a whole, though, while the supported days
begin and end inside of a year: behind them a date comes back as the nearest supported one.
-/

namespace CivilTime.LocalDateTime

open Calendar

/-- The date. -/
def date (d : LocalDateTime) : Date := { year := d.year, month := d.month, day := d.day }

/-- The same time on another date. -/
def onDate (d : LocalDateTime) (date : Date) : LocalDateTime :=
  { d with year := date.year, month := date.month, day := date.day }

/-- A date of the calendar and a time of the day. -/
structure Valid (d : LocalDateTime) : Prop where
  date : d.date.Valid
  hour : d.hour ≤ 23
  minute : d.minute ≤ 59
  second : d.second ≤ 59

/-- Year, month, day, hour, minute and second, which are ordered like words. -/
def fields (d : LocalDateTime) : List Int := [d.year, d.month, d.day, d.hour, d.minute, d.second]

variable {d e : LocalDateTime} {text : String}

-----------------------------------------------------------------------------------------
-- Texts
-----------------------------------------------------------------------------------------

/-- A month is as long as the calendar says. -/
theorem monthLength_eq (year : Int) {month : Nat} (first : 1 ≤ month) (last : month ≤ 12)
    : monthLength year month = daysInMonth month (isLeapYear year) := by
  simp only [monthLength, daysBeforeMonth_succ first last]
  omega

/-- The check of a date finds the dates of the calendar. -/
theorem isDate_iff {year : Int} {month day : Nat}
    : isDate year month day = true ↔ Date.Valid { year, month, day } := by
  simp only [isDate, Bool.and_eq_true, decide_eq_true_eq]
  constructor
  · rintro ⟨⟨⟨first, last⟩, positive⟩, le⟩
    rw [monthLength_eq year first last] at le
    exact ⟨⟨first, last⟩, positive, Int.ofNat_le.mp le⟩
  · rintro ⟨⟨first, last⟩, positive, le⟩
    rw [monthLength_eq year first last]
    exact ⟨⟨⟨first, last⟩, positive⟩, Int.ofNat_le.mpr le⟩

theorem valid_of_parseDate? {text : List Char} {year : Int} {month day : Nat}
    (parsed : parseDate? text = some (year, month, day))
    : Date.Valid { year, month, day } := by
  simp only [parseDate?, Option.bind_eq_bind, Option.bind_eq_some_iff] at parsed
  obtain ⟨_, _, _, _, _, _, _, _, checked⟩ := parsed
  split at checked
  case isTrue is_date =>
    cases checked
    exact isDate_iff.mp is_date
  case isFalse => cases checked

theorem le_of_upTo? {bound n : Nat} {text : List Char} (parsed : upTo? bound text = some n)
    : n ≤ bound := by
  obtain ⟨_, le⟩ := Option.filter_eq_some_iff.mp parsed
  exact decide_eq_true_eq.mp le

theorem bounds_of_parseTime? {text : List Char} {hour minute second : Nat}
    (parsed : parseTime? text = some (hour, minute, second))
    : hour ≤ 23 ∧ minute ≤ 59 ∧ second ≤ 59 := by
  unfold parseTime? at parsed
  split at parsed
  case h_1 =>
    simp only [Option.bind_eq_bind, Option.bind_eq_some_iff] at parsed
    obtain ⟨_, hour_read, _, minute_read, same⟩ := parsed
    cases same
    exact ⟨le_of_upTo? hour_read, le_of_upTo? minute_read, Nat.zero_le 59⟩
  case h_2 =>
    simp only [Option.bind_eq_bind, Option.bind_eq_some_iff] at parsed
    obtain ⟨_, hour_read, _, minute_read, _, second_read, same⟩ := parsed
    cases same
    exact ⟨le_of_upTo? hour_read, le_of_upTo? minute_read, le_of_upTo? second_read⟩
  case h_3 => cases parsed

/-- What is read is a date of the calendar and a time of the day. -/
theorem valid_of_parse? (parsed : parse? text = some d) : d.Valid := by
  simp only [parse?, Option.bind_eq_bind, Option.bind_eq_some_iff] at parsed
  obtain ⟨_, _, ⟨year, month, day⟩, date_read, ⟨hour, minute, second⟩, time_read, same⟩ := parsed
  cases same
  obtain ⟨hour, minute, second⟩ := bounds_of_parseTime? time_read
  exact { date := valid_of_parseDate? date_read, hour, minute, second }

-----------------------------------------------------------------------------------------
-- Seconds
-----------------------------------------------------------------------------------------

/-- The seconds since midnight. -/
def timeOfDay (d : LocalDateTime) : Int := d.hour * 3600 + d.minute * 60 + d.second

theorem seconds_eq (d : LocalDateTime)
    : d.seconds = d.date.number * secondsPerDay + d.timeOfDay := by
  simp only [seconds, timeOfDay, secondsOfDay, date, Date.number, Int.add_assoc]

theorem Valid.timeOfDay_bounds (valid : d.Valid)
    : 0 ≤ d.timeOfDay ∧ d.timeOfDay < secondsPerDay := by
  obtain ⟨_, hour, minute, second⟩ := valid
  simp only [timeOfDay, secondsPerDay]
  omega

/-- From its seconds a date and time comes back with its time, on the date that is found for its
day. -/
theorem Valid.ofSeconds_seconds (valid : d.Valid)
    : ofSeconds d.seconds = d.onDate (dateOfDay d.date.number) := by
  obtain ⟨nonneg, lt⟩ := valid.timeOfDay_bounds
  have day : d.seconds / secondsPerDay = d.date.number := by
    rw [seconds_eq]
    simp only [secondsPerDay] at *
    omega
  have time : d.seconds % secondsPerDay = d.timeOfDay := by
    rw [seconds_eq]
    simp only [secondsPerDay] at *
    omega
  obtain ⟨_, hour, minute, second⟩ := valid
  simp only [ofSeconds, onDate, day, time, timeOfDay, mk.injEq, true_and]
  omega

/-- A valid date comes back from its day number where it is a supported day. -/
theorem dateOfDay_number_iff {date : Date} (valid : date.Valid)
    : dateOfDay date.number = date ↔ -maxDay ≤ date.number ∧ date.number ≤ maxDay := by
  constructor
  · intro same
    rw [← same, (dateOfDay_spec date.number).2]
    exact clampDay_bounds date.number
  · rintro ⟨low, high⟩
    exact dateOfDay_number valid low high

theorem onDate_eq_iff (d : LocalDateTime) (date : Date) : d.onDate date = d ↔ date = d.date := by
  cases d
  cases date
  simp [onDate, LocalDateTime.date]

/-- A date and time comes back from its seconds exactly on supported days. -/
theorem Valid.ofSeconds_seconds_iff (valid : d.Valid)
    : ofSeconds d.seconds = d ↔ -maxDay ≤ d.date.number ∧ d.date.number ≤ maxDay := by
  rw [valid.ofSeconds_seconds, onDate_eq_iff, dateOfDay_number_iff valid.date]

-----------------------------------------------------------------------------------------
-- Order
-----------------------------------------------------------------------------------------

theorem fields_lt_iff
    : d.fields < e.fields
      ↔ d.year < e.year
        ∨ d.year = e.year
          ∧ (d.month < e.month
            ∨ d.month = e.month
              ∧ (d.day < e.day
                ∨ d.day = e.day
                  ∧ (d.hour < e.hour
                    ∨ d.hour = e.hour
                      ∧ (d.minute < e.minute
                        ∨ d.minute = e.minute ∧ d.second < e.second)))) := by
  simp [fields, List.cons_lt_cons_iff]

theorem fields_injective (same : d.fields = e.fields) : d = e := by
  cases d
  cases e
  simpa [fields] using same

/-- The first field in which two dates and times differ decides on the order of their seconds: a
later day outweighs the time, and on one day an hour and a minute outweigh what follows. -/
theorem Valid.seconds_lt (valid : d.Valid) (other : e.Valid) (lt : d.fields < e.fields)
    : d.seconds < e.seconds := by
  obtain ⟨start, stop⟩ := valid.timeOfDay_bounds
  obtain ⟨other_start, other_stop⟩ := other.timeOfDay_bounds
  have earlier_day (lt : d.date.number < e.date.number) : d.seconds < e.seconds := by
    rw [seconds_eq, seconds_eq]
    simp only [secondsPerDay] at *
    omega
  have earlier_time (same : d.date = e.date) (lt : d.timeOfDay < e.timeOfDay)
      : d.seconds < e.seconds := by
    rw [seconds_eq, seconds_eq, same]
    omega
  obtain ⟨date_valid, hour, minute, second⟩ := valid
  obtain ⟨other_date, other_hour, other_minute, other_second⟩ := other
  rcases fields_lt_iff.mp lt with year | ⟨year, month | ⟨month, day | ⟨day, time⟩⟩⟩
  · exact earlier_day (date_valid.number_lt_of_year_lt other_date year)
  · exact earlier_day (date_valid.number_lt_of_month_lt other_date year month)
  · exact earlier_day (date_valid.number_lt_of_day_lt other_date year month day)
  · apply earlier_time
    · simp only [LocalDateTime.date, year, month, day]
    · simp only [timeOfDay]
      omega

/-- The order of the seconds is that of the fields. -/
theorem Valid.seconds_lt_iff (valid : d.Valid) (other : e.Valid)
    : d.seconds < e.seconds ↔ d.fields < e.fields := by
  refine ⟨fun lt => ?_, valid.seconds_lt other⟩
  rcases lt_trichotomy d.fields e.fields with before | same | behind
  · exact before
  · rw [fields_injective same] at lt
    exact absurd lt (Int.lt_irrefl _)
  · exact absurd lt (Int.lt_asymm (other.seconds_lt valid behind))

theorem seconds_of_seconds? {s : Int} (supported : d.seconds? = some s) : s = d.seconds := by
  unfold seconds? at supported
  split at supported
  · exact (Option.some.inj supported).symm
  · cases supported

/-- A date and time that is read is one of the calendar. Its seconds are turned back into it exactly
on supported days, and are ordered as the dates and times are. -/
theorem parse?_converts (parsed : parse? text = some d)
    : d.Valid
      ∧ (∀ s,
          d.seconds? = some s
          → (ofSeconds s = d ↔ -maxDay ≤ d.date.number ∧ d.date.number ≤ maxDay))
      ∧ ∀ other e s t,
          parse? other = some e
          → d.seconds? = some s
          → e.seconds? = some t
          → (s < t ↔ d.fields < e.fields) := by
  have valid := valid_of_parse? parsed
  refine ⟨valid, ?_, ?_⟩
  · intro s converted
    rw [seconds_of_seconds? converted]
    exact valid.ofSeconds_seconds_iff
  · intro other e s t other_parsed converted other_converted
    rw [seconds_of_seconds? converted, seconds_of_seconds? other_converted]
    exact valid.seconds_lt_iff (valid_of_parse? other_parsed)

/-- Witness: the last second of a year in front of the era comes back from its seconds, and lies in
front of a time of our days. -/
theorem parse?_converts_negative
    : ∃ d e s t,
        parse? "-0001-12-31T23:59:59" = some d
        ∧ parse? "2025-03-09 02:30" = some e
        ∧ d.seconds? = some s
        ∧ e.seconds? = some t
        ∧ d.Valid
        ∧ ofSeconds s = d
        ∧ s < t := by
  let d : LocalDateTime :=
    { year := -1, month := 12, day := 31, hour := 23, minute := 59, second := 59 }
  let e : LocalDateTime :=
    { year := 2025, month := 3, day := 9, hour := 2, minute := 30, second := 0 }
  have parsed : parse? "-0001-12-31T23:59:59" = some d := by decide +kernel
  have other_parsed : parse? "2025-03-09 02:30" = some e := by decide +kernel
  have converted : d.seconds? = some d.seconds := by decide +kernel
  have other_converted : e.seconds? = some e.seconds := by decide +kernel
  obtain ⟨valid, back, order⟩ := parse?_converts parsed
  exact ⟨d, e, d.seconds, e.seconds, parsed, other_parsed, converted, other_converted, valid,
    (back d.seconds converted).mpr (by decide +kernel),
    (order _ e _ e.seconds other_parsed converted other_converted).mpr (by decide +kernel)⟩

/-- The first day of the first supported year lies in front of the supported days: it has seconds,
but they are turned back into the first supported day, a hundred and eight days later. -/
theorem parse?_firstYear_moved
    : ∃ d s,
        parse? "-271821-01-01T00:00" = some d
        ∧ d.seconds? = some s
        ∧ ofSeconds s
          = { year := -271821, month := 4, day := 19, hour := 0, minute := 0, second := 0 }
        ∧ ofSeconds s ≠ d :=
  ⟨{ year := -271821, month := 1, day := 1, hour := 0, minute := 0, second := 0 },
    -8640009417600, by decide +kernel, by decide +kernel, by decide +kernel, by decide +kernel⟩

end CivilTime.LocalDateTime
