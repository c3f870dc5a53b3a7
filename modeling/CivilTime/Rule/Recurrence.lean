import CivilTime.Calendar.DayRule
import CivilTime.Clock
import CivilTime.Fault
import CivilTime.Rule.YearBound
import CivilTime.Zone.NameFormat

/-! A recurrence is one yearly change of the clock over a range of years.
Its instant in a year depends on the offsets in force before the change whenever its time of day
is read from a local clock, so every search takes them as arguments.
-/

namespace CivilTime

structure Recurrence where
  /-- The rule set that the recurrence belongs to. -/
  name : String
  first : YearBound
  last : YearBound
  month : Month
  day : DayRule
  time : TimeOfDay
  save : ClockTime
  letter : Option String
  deriving DecidableEq, Repr, Inhabited

namespace Recurrence

/-- The consecutive years that a search looks at before it is given up. -/
def searchLimit : Nat := 500

/-- The year from which a recurrence without a first year is enumerated. -/
def earliestYear : Int := 1800

/-- The time that the recurrence adds to standard time. -/
def savings (r : Recurrence) : Int := r.save.seconds

/-- The first year of the recurrence. -/
def firstYear (r : Recurrence) : Int :=
  match r.first with
  | .earliest => earliestYear
  | bound => bound.number

/-- The last year of the recurrence, if it has one. -/
def lastYear? (r : Recurrence) : Option Int :=
  match r.last with
  | .latest => none
  | bound => some bound.number

/-- Whether the recurrence goes on forever. -/
def isUnbounded (r : Recurrence) : Bool := r.last == .latest

/-- Whether a year lies past the last one of the recurrence. -/
def endsBefore (r : Recurrence) (year : Int) : Bool :=
  match r.lastYear? with
  | some last => last < year
  | none => false

/-- Whether the recurrence applies to a year. -/
def isActiveIn (r : Recurrence) (year : Int) : Bool :=
  r.first.number ≤ year && !r.endsBefore year

/-- The instant of the change in a year, whether or not the recurrence applies to it. -/
def instantIn (r : Recurrence) (year stdOffset savings : Int) : Int :=
  Calendar.secondsOfDay (r.day.dayIn year r.month) + r.time.universalSeconds stdOffset savings

/-- The instant of the change in a year that the recurrence applies to. -/
def instantIn? (r : Recurrence) (year stdOffset savings : Int) : Option Int :=
  if r.isActiveIn year then some (r.instantIn year stdOffset savings) else none

/-- Looks for an instant after `after` in `limit` years from `year` on. -/
def searchForward (r : Recurrence) (after stdOffset savings : Int)
    : Nat → Int → Except Fault (Option (Int × Int))
  | 0, year => .error (.searchExhausted r.name year)
  | limit + 1, year =>
    if r.endsBefore year || Calendar.maxYear < year then .ok none
    else
      let instant := r.instantIn year stdOffset savings
      if after < instant then .ok (some (year, instant))
      else searchForward r after stdOffset savings limit (year + 1)

/-- The first change after an instant in `minYear` or later, with its year. The search starts a
year early, since a local time may be carried over the end of its year. -/
def nextFromYear (r : Recurrence) (after stdOffset savings minYear : Int)
    : Except Fault (Option (Int × Int)) :=
  r.searchForward after stdOffset savings searchLimit
    (max (max (Calendar.yearOf after - 1) r.firstYear) minYear)

/-- The first change after an instant. -/
def next (r : Recurrence) (after stdOffset savings : Int) : Except Fault (Option Int) :=
  (r.nextFromYear after stdOffset savings r.firstYear).map (·.map Prod.snd)

/-- Looks for an instant before `before` in `limit` years from `year` down. -/
def searchBackward (r : Recurrence) (before stdOffset savings : Int)
    : Nat → Int → Except Fault (Option Int)
  | 0, year => .error (.searchExhausted r.name year)
  | limit + 1, year =>
    if year < r.firstYear then .ok none
    else
      let instant := r.instantIn year stdOffset savings
      if instant < before then .ok (some instant)
      else searchBackward r before stdOffset savings limit (year - 1)

/-- The last change before an instant. -/
def previous (r : Recurrence) (before stdOffset savings : Int) : Except Fault (Option Int) :=
  let year := Calendar.yearOf before + 1
  r.searchBackward before stdOffset savings searchLimit
    (match r.lastYear? with
      | some last => min year last
      | none => year)

/-- The recurrence under the abbreviation that is in effect after its change. -/
def withName (r : Recurrence) (format : NameFormat) (stdOffset : Int) : Except Fault Recurrence :=
  (format.apply stdOffset r.savings r.letter).map fun name => { r with name }

end Recurrence

end CivilTime
