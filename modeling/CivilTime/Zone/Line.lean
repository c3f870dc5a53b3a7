import CivilTime.Calendar.DayRule
import CivilTime.Clock
import CivilTime.Instant
import CivilTime.Zone.NameFormat

/-! The lines of a zone record.
Every line but the last carries the instant at which it ends, given as a date and a time of day
that are read with the offsets of the line itself.
-/

namespace CivilTime

/-- Where the saved time of a line comes from. -/
inductive SavingsSource where
  /-- Standard time always applies. -/
  | standard
  /-- A fixed amount always applies. -/
  | fixed (savings : ClockTime)
  /-- A rule set decides. -/
  | rules (name : String)
  deriving DecidableEq, Repr, Inhabited

/-- The end of a line. -/
structure Until where
  year : Int
  month : Month
  day : DayRule
  time : TimeOfDay
  deriving DecidableEq, Repr, Inhabited

/-- The first second of the date in universal time. -/
def Until.dateSeconds (u : Until) : Int :=
  Calendar.secondsOfDay (u.day.dayIn u.year u.month)

/-- The end as an instant, given the offsets in force at it. -/
def Until.instant (u : Until) (stdOffset savings : Int) : Int :=
  u.dateSeconds + u.time.universalSeconds stdOffset savings

structure ZoneLine where
  stdOffset : ClockTime
  savings : SavingsSource
  format : NameFormat
  /-- The exclusive end, absent from a line that never ends. -/
  stop : Option Until
  line : Nat
  deriving DecidableEq, Repr, Inhabited

namespace ZoneLine

/-- Whether the line never ends. -/
def isOpen (l : ZoneLine) : Bool := l.stop.isNone

/-- The end as an instant, given the saved time in force at it. -/
def stopInstant (l : ZoneLine) (savings : Int) : Int :=
  match l.stop with
  | some u => u.instant l.stdOffset.seconds savings
  | none => endOfTime

end ZoneLine

/-- The lines of one zone, in order. -/
structure ZoneRecord where
  /-- The line of the header. -/
  line : Nat
  lines : List ZoneLine
  deriving DecidableEq, Repr, Inhabited

namespace ZoneRecord

/-- The record of a header that no line continues. -/
def ofHeader (header : ZoneLine) : ZoneRecord := { line := header.line, lines := [header] }

/-- Adds a line at the end. -/
def push (record : ZoneRecord) (l : ZoneLine) : ZoneRecord :=
  { record with lines := record.lines ++ [l] }

/-- Whether the last line never ends. -/
def isOpen (record : ZoneRecord) : Bool := record.lines.getLast?.any (·.isOpen)

/-- The names of the rule sets that the lines refer to. -/
def ruleSetNames (record : ZoneRecord) : List String :=
  record.lines.filterMap fun l =>
    match l.savings with
    | .rules name => some name
    | _ => none

end ZoneRecord

end CivilTime
