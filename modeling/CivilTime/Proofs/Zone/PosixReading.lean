import CivilTime.Proofs.Calendar.PickedDay
import CivilTime.Proofs.Zone.TailLookup
import CivilTime.Zone.Posix
import Mathlib.Tactic.IntervalCases

/-! A POSIX time zone changes where the tail that it is made from does.
The rules are read as POSIX defines them, on the dates of the calendar: a day of the year counts the
dates without 29 February, and a week day of a month is one of the dates of the month that fall on
it.
-/

namespace CivilTime

open Calendar

namespace Posix

-----------------------------------------------------------------------------------------
-- The definition of POSIX
-----------------------------------------------------------------------------------------

/-- The dates of a month in order. -/
def datesOfMonth (year : Int) (month : Nat) : List Date :=
  (List.range (daysInMonth month (isLeapYear year))).map fun place =>
    { year, month, day := place + 1 }

/-- The dates of a year in order. -/
def datesOfYear (year : Int) : List Date :=
  (List.range 12).flatMap fun month => datesOfMonth year (month + 1)

/-- Whether a date is a 29 February. -/
def isLeapDay (date : Date) : Bool := date.month == 2 && date.day == 29

/-- The dates of a month that fall on a week day. -/
def datesOn (weekDay : WeekDay) (year : Int) (month : Month) : List Date :=
  (datesOfMonth year month.number).filter fun date => weekDayIndex date.number == weekDay.number

/-- The date that a rule names in a year, if there is one. Days and weeks are counted from one, and
week five is the last one. -/
def DateRule.dateIn? (rule : DateRule) (year : Int) : Option Date :=
  match rule with
  | julian 0 | monthWeekDay _ 0 _ => none
  | julian (day + 1) => ((datesOfYear year).filter (!isLeapDay ·))[day]?
  | monthWeekDay month 5 weekDay => (datesOn weekDay year month).getLast?
  | monthWeekDay month (week + 1) weekDay => (datesOn weekDay year month)[week]?

/-- The instant of a change in a year. The time is the reading of the wall clock in front of the
change, when it is `offset` and `savings` ahead of universal time. -/
def Change.instantIn? (change : Change) (year offset savings : Int) : Option Int :=
  (change.date.dateIn? year).map fun date =>
    secondsOfDay date.number + change.time - offset - savings

-----------------------------------------------------------------------------------------
-- Days of the year without 29 February
-----------------------------------------------------------------------------------------

/-- The dates of a month of a common year. -/
def commonDates (year : Int) (month : Nat) : List Date :=
  (List.range (daysInMonth month false)).map fun place => { year, month, day := place + 1 }

/-- Without 29 February every year has the dates of a common year. -/
theorem filter_datesOfMonth (year : Int) (month : Nat)
    : (datesOfMonth year month).filter (!isLeapDay ·) = commonDates year month := by
  unfold datesOfMonth commonDates
  by_cases february : month = 2
  · subst february
    rw [List.filter_map]
    cases isLeapYear year <;> rfl
  · have length (leap : Bool) : daysInMonth month leap = daysInMonth month false := by
      unfold daysInMonth
      split
      · contradiction
      all_goals rfl
    rw [length]
    apply List.filter_eq_self.mpr
    simp [isLeapDay, february]

/-- The dates of the first months of a common year are as many as the days in front of the next
month, by induction on the months. -/
theorem commonDates_length (year : Int) {months : Nat} (le : months ≤ 12)
    : (((List.range months).flatMap fun month => commonDates year (month + 1)).length : Int)
      = daysBeforeMonth (months + 1) false := by
  induction months with
  | zero => rfl
  | succ months ih =>
      have step := daysBeforeMonth_succ (Nat.le_add_left 1 months) le false
      rw [step, ← ih (by omega), List.range_succ, List.flatMap_append, List.length_append]
      simp [commonDates]

/-- A date of a common year stands behind those of the earlier months, by induction on the months.
-/
theorem commonDates_get (year : Int) {month place months : Nat} (lt : month < months)
    (le : months ≤ 12) (inside : place < daysInMonth (month + 1) false)
    : ((List.range months).flatMap fun month => commonDates year (month + 1))[
          (daysBeforeMonth (month + 1) false).toNat + place]?
      = some { year, month := month + 1, day := place + 1 } := by
  induction months with
  | zero => omega
  | succ months ih =>
      have length := commonDates_length year (show months ≤ 12 by omega)
      rw [List.range_succ, List.flatMap_append]
      rcases Nat.lt_or_eq_of_le (Nat.le_of_lt_succ lt) with earlier | rfl
      · have behind := daysBeforeMonth_gap (Nat.le_add_left 1 month)
          (show month + 1 < months + 1 by omega) (by omega) false
        have start := daysBeforeMonth_nonneg (Nat.le_add_left 1 month) (by omega) false
        rw [List.getElem?_append_left (by omega)]
        exact ih earlier (by omega)
      · rw [List.getElem?_append_right (by omega)]
        have rest : (daysBeforeMonth (month + 1) false).toNat + place
            - ((List.range month).flatMap fun month => commonDates year (month + 1)).length
            = place := by
          omega
        rw [rest]
        simp [commonDates, inside]

/-- A day of the year without 29 February names the date of its month and place. -/
theorem dateIn?_julian (year : Int) {month : Month} {place : Nat} (first : 1 ≤ place)
    (inside : place ≤ daysInMonth month.number false)
    : (DateRule.julian (daysBeforeMonth month.number false + place).toNat).dateIn? year
      = some (month.dateAt year place) := by
  have number := month.number_bounds
  have start := daysBeforeMonth_nonneg number.1 (by omega) false
  have short : place - 1 < daysInMonth (month.number - 1 + 1) false := by
    rw [Nat.sub_add_cancel number.1]
    omega
  have found := commonDates_get year (show month.number - 1 < 12 by omega) (Nat.le_refl 12) short
  rw [Nat.sub_add_cancel number.1, Nat.sub_add_cancel first] at found
  have position : (daysBeforeMonth month.number false + place).toNat
      = (daysBeforeMonth month.number false).toNat + (place - 1) + 1 := by
    omega
  rw [position, DateRule.dateIn?, datesOfYear, List.filter_flatMap]
  simp only [filter_datesOfMonth]
  exact found

-----------------------------------------------------------------------------------------
-- Week days of a month
-----------------------------------------------------------------------------------------

/-- Every seventh number of a range, by induction on the range. -/
theorem filter_range_mod {c : Nat} (lt : c < 7) (n : Nat)
    : (List.range n).filter (fun k => k % 7 == c)
      = (List.range ((n + 6 - c) / 7)).map fun week => 7 * week + c := by
  induction n with
  | zero =>
      have none : (0 + 6 - c) / 7 = 0 := by omega
      rw [none]
      rfl
  | succ n ih =>
      rw [List.range_succ, List.filter_append, ih]
      by_cases here : n % 7 = c
      · have one_more : (n + 1 + 6 - c) / 7 = (n + 6 - c) / 7 + 1 := by omega
        have last : 7 * ((n + 6 - c) / 7) + c = n := by omega
        rw [one_more, List.range_succ, List.map_append]
        simp [here, last]
      · have as_many : (n + 1 + 6 - c) / 7 = (n + 6 - c) / 7 := by omega
        rw [as_many]
        simp [here]

/-- The days of a month in front of the first one that falls on a week day. -/
def before (weekDay : WeekDay) (year : Int) (month : Month) : Nat :=
  (weekDay.onOrAfter (month.firstDay year) - month.firstDay year).toNat

/-- The dates of a month that fall on a week day are weeks apart. -/
theorem datesOn_eq (weekDay : WeekDay) (year : Int) (month : Month)
    : datesOn weekDay year month
      = (List.range
          ((daysInMonth month.number (isLeapYear year) + 6 - before weekDay year month) / 7)).map
            fun week => month.dateAt year (7 * week + before weekDay year month + 1) := by
  have near := weekDay.onOrAfter_bounds (month.firstDay year)
  have position := weekDay.number_lt
  have dates : datesOfMonth year month.number
      = (List.range (daysInMonth month.number (isLeapYear year))).map fun place =>
          month.dateAt year (place + 1) :=
    rfl
  have falls : ((fun date => weekDayIndex date.number == weekDay.number) ∘ fun place =>
        month.dateAt year (place + 1))
      = fun place => place % 7 == before weekDay year month := by
    funext place
    rw [Function.comp_apply, Bool.eq_iff_iff, beq_iff_eq, beq_iff_eq, Month.dateAt_number]
    unfold before WeekDay.onOrAfter weekDayIndex
    omega
  rw [datesOn, dates, List.filter_map, falls, filter_range_mod (by unfold before; omega),
    List.map_map]
  rfl

/-- The week days of a month begin in its first week. -/
theorem before_eq (weekDay : WeekDay) (year : Int) (month : Month)
    : (month.firstDay year + before weekDay year month : Int)
      = weekDay.onOrAfter (month.firstDay year) := by
  have near := weekDay.onOrAfter_bounds (month.firstDay year)
  unfold before
  omega

/-- A month has at least four weeks. -/
theorem weeks_of_month (month : Month) (leap : Bool) : 28 ≤ daysInMonth month.number leap := by
  cases month <;> cases leap <;> decide

/-- Each of the first four weeks of a month has a day that falls on a week day. -/
theorem dateIn?_week (weekDay : WeekDay) (year : Int) (month : Month) {week : Nat} (lt : week < 4)
    : ∃ date,
        (DateRule.monthWeekDay month (week + 1) weekDay).dateIn? year = some date
        ∧ date.number = weekDay.onOrAfter (month.firstDay year) + 7 * week := by
  have read : (DateRule.monthWeekDay month (week + 1) weekDay).dateIn? year
      = (datesOn weekDay year month)[week]? := by
    interval_cases week <;> rfl
  have start := before_eq weekDay year month
  have near := weekDay.onOrAfter_bounds (month.firstDay year)
  have long := weeks_of_month month (isLeapYear year)
  refine ⟨month.dateAt year (7 * week + before weekDay year month + 1), ?_, ?_⟩
  · rw [read, datesOn_eq, List.getElem?_map, List.getElem?_range (by omega)]
    rfl
  · rw [month.dateAt_number]
    omega

/-- The last week of a month is the one in which the last day on a week day lies. -/
theorem dateIn?_last (weekDay : WeekDay) (year : Int) (month : Month)
    : ∃ date,
        (DateRule.monthWeekDay month 5 weekDay).dateIn? year = some date
        ∧ date.number
          = weekDay.onOrBefore
              (month.firstDay year + daysInMonth month.number (isLeapYear year) - 1) := by
  have read : (DateRule.monthWeekDay month 5 weekDay).dateIn? year
      = (datesOn weekDay year month).getLast? :=
    rfl
  have start := before_eq weekDay year month
  have near := weekDay.onOrAfter_bounds (month.firstDay year)
  have position := weekDay.number_lt
  have long := weeks_of_month month (isLeapYear year)
  rw [read, datesOn_eq, List.getLast?_eq_getElem?, List.length_map, List.length_range,
    List.getElem?_map, List.getElem?_range (by omega), Option.map_some]
  refine ⟨_, rfl, ?_⟩
  rw [month.dateAt_number]
  unfold WeekDay.onOrAfter at start
  unfold WeekDay.onOrBefore
  unfold weekDayIndex at start ⊢
  omega

-----------------------------------------------------------------------------------------
-- Dates and instants of recurrences
-----------------------------------------------------------------------------------------

/-- A POSIX rule names the day that its day rule picks, by cases on the day rule. -/
theorem dateIn?_ofDayRule {month : Month} {rule : DayRule} {date : DateRule}
    (made : DateRule.ofDayRule? month rule = some date) (named : rule.FromOne)
    (inside : rule.dayPast? month = none) (year : Int)
    : ∃ found, date.dateIn? year = some found ∧ found.number = rule.dayIn year month := by
  cases rule with
  | fixed place =>
      simp only [DateRule.ofDayRule?] at made
      split at made
      case isTrue => cases made
      case isFalse ordinary =>
        cases made
        have le : place ≤ month.maxLength := by
          simpa [DayRule.dayPast?, DayRule.namedDay?, Option.filter] using inside
        have length : place ≤ daysInMonth month.number false := by
          rcases Nat.lt_or_ge (daysInMonth month.number false) place with past | reached
          · obtain ⟨february, last, _⟩ := month.past_eq_leapDay past le
            exact absurd ⟨february, last⟩ ordinary
          · exact reached
        refine ⟨_, dateIn?_julian year (named place rfl) length, ?_⟩
        rw [month.dateAt_number]
        rfl
  | last weekDay =>
      cases made
      obtain ⟨found, read, number_eq⟩ := dateIn?_last weekDay year month
      refine ⟨found, read, ?_⟩
      simp only [number_eq, DayRule.dayIn, month.daysThrough_eq, Month.firstDay, Int.add_assoc]
  | onOrAfter weekDay place =>
      simp only [DateRule.ofDayRule?] at made
      split at made
      case isFalse => cases made
      case isTrue aligned =>
        cases made
        rw [Nat.add_comm]
        obtain ⟨found, read, number_eq⟩ :=
          dateIn?_week weekDay year month (show (place - 1) / 7 < 4 by omega)
        refine ⟨found, read, ?_⟩
        rw [number_eq]
        simp only [DayRule.dayIn, WeekDay.onOrAfter, weekDayIndex, Month.firstDay]
        omega
  | onOrBefore weekDay place =>
      simp only [DateRule.ofDayRule?] at made
      split at made
      case isFalse => cases made
      case isTrue aligned =>
        cases made
        have week : place / 7 = place / 7 - 1 + 1 := by omega
        have position := weekDay.number_lt
        rw [week]
        obtain ⟨found, read, number_eq⟩ :=
          dateIn?_week weekDay year month (show place / 7 - 1 < 4 by omega)
        refine ⟨found, read, ?_⟩
        rw [number_eq]
        simp only [DayRule.dayIn, WeekDay.onOrBefore, WeekDay.onOrAfter, weekDayIndex,
          Month.firstDay]
        omega

/-- The change of a recurrence is read at the instant of the recurrence, by cases on what its time
is counted from. -/
theorem instantIn?_ofRecurrence {r : Recurrence} {stdOffset priorSavings : Int} {change : Change}
    (made : Change.ofRecurrence? r stdOffset priorSavings = some change) (named : r.day.FromOne)
    (inside : r.DayInMonth) (year : Int)
    : change.instantIn? year stdOffset priorSavings
      = some (r.instantIn year stdOffset priorSavings) := by
  obtain ⟨date, date_made, rfl⟩ := Option.map_eq_some_iff.mp made
  obtain ⟨found, read, number_eq⟩ := dateIn?_ofDayRule date_made named inside year
  unfold Change.instantIn? Recurrence.instantIn TimeOfDay.universalSeconds
  rw [read, Option.map_some, number_eq, Option.some.injEq]
  cases r.time.mode <;> simp only <;> omega

/-- One of the two recurrences of a pair is standard and the other one saves time. -/
theorem pairOf?_eq_some {rules : List Recurrence} {standard saving : Recurrence}
    (pair : pairOf? rules = some (standard, saving))
    : (rules = [standard, saving] ∨ rules = [saving, standard])
      ∧ standard.savings = 0
      ∧ saving.savings ≠ 0 := by
  unfold pairOf? at pair
  grind

/-- A time zone that is made from a tail of accepted recurrences changes at the instants of the tail
in every year. Read as POSIX defines it, it begins to save time at the instant of the saving
recurrence under standard time, and ends at the instant of the standard one under the saved time. -/
theorem TimeZone.ofTail?_reads {tail : Tail} {tz : TimeZone}
    (accepted
      : ∀ r ∈ tail.rules.recurrences,
          ∃ columns place behind, (Recurrence.read columns).run place = (.ok r, behind))
    (made : TimeZone.ofTail? tail = some tz) (year : Int)
    : ∃ standard saving change,
        (tail.rules.recurrences = [standard, saving] ∨ tail.rules.recurrences = [saving, standard])
        ∧ standard.savings = 0
        ∧ saving.savings ≠ 0
        ∧ tz.offset = tail.stdOffset
        ∧ tz.saving = some change
        ∧ change.savings = saving.savings
        ∧ change.start.instantIn? year tz.offset 0
          = some (saving.instantIn year tail.stdOffset 0)
        ∧ change.stop.instantIn? year tz.offset change.savings
          = some (standard.instantIn year tail.stdOffset saving.savings) := by
  simp only [TimeZone.ofTail?, Option.bind_eq_bind, Option.bind_eq_some_iff] at made
  obtain ⟨⟨standard, saving⟩, pair, _, _, _, _, start, start_made, stop, stop_made, made⟩ := made
  obtain ⟨order, is_standard, saves⟩ := pairOf?_eq_some pair
  have checked (r : Recurrence) (member : r ∈ tail.rules.recurrences)
      : r.day.FromOne ∧ r.DayInMonth := by
    obtain ⟨columns, place, behind, read⟩ := accepted r member
    exact ⟨Recurrence.yields_read_fromOne columns place r behind read,
      (Recurrence.yields_read columns place r behind read).day⟩
  have standard_checked := checked standard (by rcases order with order | order <;> simp [order])
  have saving_checked := checked saving (by rcases order with order | order <;> simp [order])
  cases made
  exact ⟨standard, saving, _, order, is_standard, saves, rfl, rfl, rfl,
    instantIn?_ofRecurrence start_made saving_checked.1 saving_checked.2 year,
    instantIn?_ofRecurrence stop_made standard_checked.1 standard_checked.2 year⟩

/-- The recurrences of summer time are accepted. -/
theorem summerRules_accepted
    : ∀ r ∈ summerRules.recurrences,
        ∃ columns place behind, (Recurrence.read columns).run place = (.ok r, behind) := by
  have given (columns : List String) (r : Recurrence)
      (read : ((Recurrence.read columns).run .start).1.toOption = some r)
      : ∃ columns place behind, (Recurrence.read columns).run place = (.ok r, behind) :=
    ⟨columns, .start, ColumnReader.accepts_of_toOption read⟩
  intro r member
  simp only [summerRules, List.mem_cons, List.not_mem_nil, or_false] at member
  rcases member with rfl | rfl
  · exact given ["S", "2000", "ma", "-", "Mar", "Su>=8", "2", "1", "D"] _ (by decide +kernel)
  · exact given ["S", "2000", "ma", "-", "N", "Su>=1", "2", "0", "S"] _ (by decide +kernel)

/-- Witness: in 2024 a zone five hours behind universal time changes to summer time on 10 March and
back on 3 November, both times at two o'clock. -/
theorem TimeZone.ofTail?_reads_summer
    : ∃ tz change,
        TimeZone.ofTail? summerTail = some tz
        ∧ tz.saving = some change
        ∧ change.start.instantIn? 2024 tz.offset 0 = some 1710054000
        ∧ change.stop.instantIn? 2024 tz.offset change.savings = some 1730613600 := by
  have is_some : (TimeZone.ofTail? summerTail).isSome = true := by decide +kernel
  obtain ⟨tz, made⟩ := Option.isSome_iff_exists.mp is_some
  obtain ⟨standard, saving, change, order, is_standard, _, _, has, _, start, stop⟩ :=
    ofTail?_reads summerRules_accepted made 2024
  rcases order with order | order
  · cases order
    exact absurd is_standard (by decide +kernel)
  · cases order
    exact ⟨tz, change, made, has, start.trans (by decide +kernel), stop.trans (by decide +kernel)⟩

end Posix

end CivilTime
