import CivilTime.Calendar.Day
import CivilTime.Text.Cut
import CivilTime.Text.Numeral

/-! Dates and times of the wall clock, without any offset. -/

namespace CivilTime

structure LocalDateTime where
  year : Int
  month : Nat
  day : Nat
  hour : Nat
  minute : Nat
  second : Nat
  deriving DecidableEq, Repr, Inhabited

namespace LocalDateTime

/-- Whether the year is supported. -/
def isSupported (d : LocalDateTime) : Bool :=
  Calendar.minYear ≤ d.year && d.year ≤ Calendar.maxYear

/-- The seconds of the date and time in universal time. -/
def seconds (d : LocalDateTime) : Int :=
  Calendar.secondsOfDay (Calendar.dayNumber d.year d.month d.day) + d.hour * 3600 +
    d.minute * 60 + d.second

/-- The seconds of the date and time, if its year is supported. -/
def seconds? (d : LocalDateTime) : Option Int := if d.isSupported then some d.seconds else none

/-- The date and time of seconds in universal time. -/
def ofSeconds (s : Int) : LocalDateTime :=
  let date := Calendar.dateOfDay (s / Calendar.secondsPerDay)
  let time := (s % Calendar.secondsPerDay).toNat
  { year := date.year
    month := date.month
    day := date.day
    hour := time / 3600
    minute := time % 3600 / 60
    second := time % 60 }

/-- The length of a month. -/
def monthLength (year : Int) (month : Nat) : Int :=
  let leap := Calendar.isLeapYear year
  Calendar.daysBeforeMonth (month + 1) leap - Calendar.daysBeforeMonth month leap

/-- Whether a month and a day name a date of the calendar. -/
def isDate (year : Int) (month day : Nat) : Bool :=
  1 ≤ month && month ≤ 12 && 1 ≤ day && day ≤ monthLength year month

/-- A number of eight bits. -/
def small? (text : List Char) : Option Nat := (Text.numeral? .bits8 text).map Int.toNat

/-- A number of eight bits up to a bound. -/
def upTo? (bound : Nat) (text : List Char) : Option Nat := (small? text).filter (· ≤ bound)

/-- The year at the start of a date, with an optional minus sign, and the rest behind a hyphen. -/
def parseYear? (text : List Char) : Option (Int × List Char) := do
  let (negative, unsigned) := Text.stripLeading '-' text
  let (yearText, rest) ← Text.cutAt? (· == '-') unsigned
  let year ← Text.numeral? .signed32 yearText
  pure (if negative then -year else year, rest)

/-- A date of the form year, month, day. -/
def parseDate? (text : List Char) : Option (Int × Nat × Nat) := do
  let (year, rest) ← parseYear? text
  let (monthText, dayText) ← Text.cutAt? (· == '-') rest
  let month ← small? monthText
  let day ← small? dayText
  if isDate year month day then pure (year, month, day) else none

/-- A time of the form hour, minute and optional second. -/
def parseTime? (text : List Char) : Option (Nat × Nat × Nat) :=
  match text.splitOnP (· == ':') with
  | [hour, minute] => do pure (← upTo? 23 hour, ← upTo? 59 minute, 0)
  | [hour, minute, second] => do
    pure (← upTo? 23 hour, ← upTo? 59 minute, ← upTo? 59 second)
  | _ => none

/-- Whether a character separates the date from the time. -/
def isSeparator (c : Char) : Bool := c == 'T' || c == 't' || c == ' '

/-- A date and a time with a separator between them. -/
def parse? (text : String) : Option LocalDateTime := do
  let (dateText, timeText) ← Text.cutAt? isSeparator text.toList
  let (year, month, day) ← parseDate? dateText
  let (hour, minute, second) ← parseTime? timeText
  pure { year, month, day, hour, minute, second }

/-- What is said of a text that is no date and time. -/
def parseMessage : String := "expected a date time in the form YYYY-MM-DDTHH:MM[:SS]"

end LocalDateTime

end CivilTime
