import CivilTime.Zone.Compiled

/-! The future of a zone as a POSIX time zone string.
POSIX knows one change into saved time and one back in every year, on a day of the year that leaves
out 29 February or on the nth week day of a month. A zone whose tail needs more has no such string.
-/

namespace CivilTime.Posix

/-- The saved time that is left out of a string. -/
def defaultSavings : Int := 3600

/-- The time of day that is left out of a string. -/
def defaultTime : Int := 7200

/-- The days that POSIX can name. -/
inductive DateRule where
  /-- A day of the year without 29 February. -/
  | julian (day : Nat)
  /-- A week day of a week of a month, where week five is the last one. -/
  | monthWeekDay (month : Month) (week : Nat) (weekDay : WeekDay)
  deriving DecidableEq, Repr, Inhabited

/-- The POSIX rule for a day rule, if there is one. -/
def DateRule.ofDayRule? (month : Month) : DayRule → Option DateRule
  | .fixed day =>
    if month = .feb ∧ day = 29 then none
    else some (.julian (Calendar.daysBeforeMonth month.number false + day).toNat)
  | .last weekDay => some (.monthWeekDay month 5 weekDay)
  | .onOrAfter weekDay day =>
    if 1 ≤ day ∧ (day - 1) % 7 = 0 ∧ day ≤ 22 then
      some (.monthWeekDay month (1 + (day - 1) / 7) weekDay)
    else none
  | .onOrBefore weekDay day =>
    if 7 ≤ day ∧ day % 7 = 0 ∧ day ≤ 28 then some (.monthWeekDay month (day / 7) weekDay)
    else none

/-- A yearly change: its day and the reading of the wall clock in front of it. -/
structure Change where
  date : DateRule
  time : Int
  deriving DecidableEq, Repr, Inhabited

/-- The change of a recurrence, given the standard offset and the saved time in front of it. -/
def Change.ofRecurrence? (r : Recurrence) (stdOffset priorSavings : Int) : Option Change :=
  (DateRule.ofDayRule? r.month r.day).map fun date =>
    let seconds := r.time.time.seconds
    { date
      time :=
        match r.time.mode with
        | .wall => seconds
        | .standard => seconds + priorSavings
        | .universal => seconds + stdOffset + priorSavings }

/-- The part of a string on saved time. -/
structure Saving where
  abbreviation : String
  savings : Int
  start : Change
  stop : Change
  deriving DecidableEq, Repr, Inhabited

/-- A POSIX time zone. -/
structure TimeZone where
  abbreviation : String
  /-- The standard offset from universal time. -/
  offset : Int
  saving : Option Saving
  deriving DecidableEq, Repr, Inhabited

/-- The standard and the saving one of two recurrences. -/
def pairOf? : List Recurrence → Option (Recurrence × Recurrence)
  | [a, b] =>
    if a.savings = 0 then if b.savings = 0 then none else some (a, b)
    else if b.savings = 0 then some (b, a)
    else none
  | _ => none

/-- The POSIX time zone of a tail with one standard and one saving recurrence. -/
def TimeZone.ofTail? (tail : Tail) : Option TimeZone := do
  let (standard, saving) ← pairOf? tail.rules.recurrences
  let abbreviation ← (tail.nameFor 0 standard.letter).toOption
  let savingAbbreviation ← (tail.nameFor saving.savings saving.letter).toOption
  let start ← Change.ofRecurrence? saving tail.stdOffset 0
  let stop ← Change.ofRecurrence? standard tail.stdOffset saving.savings
  pure
    { abbreviation
      offset := tail.stdOffset
      saving :=
        some { abbreviation := savingAbbreviation, savings := saving.savings, start, stop } }

/-- An abbreviation, in angle brackets unless it has ASCII letters only. -/
def abbreviationText (name : String) : String :=
  if name.toList.all Char.isAlpha then name else "<" ++ name ++ ">"

/-- A signed time: hours, and the minutes and seconds that are needed. -/
def timeText (seconds : Int) : String :=
  let amount := seconds.natAbs
  let minute := amount % 3600 / 60
  let second := amount % 60
  (if seconds < 0 then "-" else "") ++ toString (amount / 3600) ++
    (if minute = 0 ∧ second = 0 then ""
    else ":" ++ Text.twoDigits minute ++ (if 0 < second then ":" ++ Text.twoDigits second else ""))

/-- An offset, counted to the west as POSIX does. -/
def offsetText (offset : Int) : String := timeText (-offset)

/-- A day. -/
def DateRule.text : DateRule → String
  | julian day => "J" ++ toString day
  | monthWeekDay month week weekDay =>
    "M" ++ toString month.number ++ "." ++ toString week ++ "." ++ toString weekDay.number

/-- A change with the comma in front of it. -/
def Change.text (c : Change) : String :=
  "," ++ c.date.text ++ (if c.time = defaultTime then "" else "/" ++ timeText c.time)

/-- The part of a string on saved time, given the standard offset. -/
def Saving.text (s : Saving) (offset : Int) : String :=
  abbreviationText s.abbreviation ++
    (if s.savings = defaultSavings then "" else offsetText (offset + s.savings)) ++
    s.start.text ++ s.stop.text

/-- The string of a POSIX time zone. -/
def TimeZone.text (tz : TimeZone) : String :=
  abbreviationText tz.abbreviation ++ offsetText tz.offset ++
    (match tz.saving with
      | some saving => saving.text tz.offset
      | none => "")

end Posix

namespace CompiledZone

/-- The POSIX time zone of the time behind the last explicit interval, if there is one. -/
def posix? (zone : CompiledZone) : Option Posix.TimeZone :=
  match zone.tail with
  | some tail => Posix.TimeZone.ofTail? tail
  | none =>
    (zone.intervals.getLast?.filter (·.isOpen)).map fun last =>
      { abbreviation := last.name, offset := last.wallOffset, saving := none }

/-- The POSIX string of the time behind the last explicit interval, if there is one. -/
def posixText? (zone : CompiledZone) : Option String := zone.posix?.map (·.text)

end CompiledZone

end CivilTime
