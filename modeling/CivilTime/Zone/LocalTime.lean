import CivilTime.Zone.Compiled

/-! Lookups by the reading of the wall clock.
A reading belongs to one interval, or to two where the clock was set back over it, or to none where
the clock was set forward over it.
-/

namespace CivilTime

/-- A range of readings that the clock was set forward over. -/
structure LocalGap where
  /-- The wall offset in front of the change. -/
  before : Int
  /-- The wall offset behind the change. -/
  after : Int
  /-- The instant of the change. -/
  instant : Int
  deriving DecidableEq, Repr, Inhabited

/-- The intervals that show a reading. -/
inductive LocalIntervals where
  | skipped (gap : LocalGap)
  | once (interval : Interval)
  | twice (earlier later : Interval)
  deriving DecidableEq, Repr, Inhabited

namespace LocalIntervals

/-- The intervals in order. -/
def toList : LocalIntervals → List Interval
  | skipped _ => []
  | once interval => [interval]
  | twice earlier later => [earlier, later]

/-- The number of intervals. -/
def size (l : LocalIntervals) : Nat := l.toList.length

/-- Whether no interval shows the reading. -/
def isEmpty (l : LocalIntervals) : Bool := l.toList.isEmpty

end LocalIntervals

/-- The gap between two neighbours that a reading falls into. -/
def gapBetween? (reading : Int) (before after : Interval) : Option LocalGap :=
  if before.localStop ≤ reading && reading < after.localStart then
    some { before := before.wallOffset, after := after.wallOffset, instant := after.start }
  else none

/-- The first gap of a list of neighbours that a reading falls into. -/
def gapIn? (reading : Int) : List Interval → Option LocalGap
  | before :: after :: rest =>
    match gapBetween? reading before after with
    | some gap => some gap
    | none => gapIn? reading (after :: rest)
  | _ => none

/-- The intervals of a list that show a reading, or the gap that it falls into. -/
def localIntervals? (reading : Int) (candidates : List Interval) : Option LocalIntervals :=
  match candidates.filter (·.containsLocal reading) with
  | earlier :: later :: _ => some (.twice earlier later)
  | [only] => some (.once only)
  | [] => (gapIn? reading candidates).map .skipped

namespace CompiledZone

/-- The greatest distance of an instant from its reading that is looked at. -/
def localWindow : Int := 2 * Calendar.secondsPerDay

/-- The intervals that show a reading, absent beyond the coverage. -/
def intervalsForLocal (zone : CompiledZone) (reading : Int)
    : Except Fault (Option LocalIntervals) :=
  (zone.intervalsIn (Instant.saturate (reading - localWindow))
    (Instant.saturate (reading + localWindow))).map (localIntervals? reading)

end CompiledZone

end CivilTime
