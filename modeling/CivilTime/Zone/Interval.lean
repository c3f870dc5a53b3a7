import CivilTime.Instant

/-! Intervals of a zone, on each of which the wall clock keeps one offset and one name. -/

namespace CivilTime

structure Interval where
  /-- The first instant. -/
  start : Int
  /-- The instant behind the last one, the end of time for an open interval. -/
  stop : Int
  stdOffset : Int
  savings : Int
  name : String
  deriving DecidableEq, Repr, Inhabited

namespace Interval

/-- The offset of the wall clock from universal time. -/
def wallOffset (i : Interval) : Int := i.stdOffset + i.savings

/-- Whether time is saved. -/
def isSaving (i : Interval) : Bool := i.savings != 0

/-- Whether an instant lies in the interval. -/
def contains (i : Interval) (instant : Int) : Bool := i.start ≤ instant && instant < i.stop

/-- The wall clock reading at the start. -/
def localStart (i : Interval) : Int := Instant.saturate (i.start + i.wallOffset)

/-- The wall clock reading at the end. -/
def localStop (i : Interval) : Int := Instant.saturate (i.stop + i.wallOffset)

/-- Whether the wall clock shows a reading during the interval. Readings are the seconds that they
would be in universal time. -/
def containsLocal (i : Interval) (reading : Int) : Bool :=
  i.localStart ≤ reading && reading < i.localStop

/-- Whether the interval never ends. -/
def isOpen (i : Interval) : Bool := i.stop == endOfTime

end Interval

end CivilTime
