import CivilTime.Fault
import CivilTime.Zone.Interval

/-! The intervals of a zone while it is compiled.
Spans are added in order from the beginning of time on. An empty span adds nothing, and a span with
the offset and name of the one before it prolongs that one.
-/

namespace CivilTime

structure Timeline where
  /-- The intervals from the last to the first. -/
  newestFirst : List Interval
  count : Nat
  deriving DecidableEq, Repr, Inhabited

namespace Timeline

/-- The greatest number of intervals of a zone. -/
def maxIntervals : Nat := 100000

/-- No intervals. -/
def empty : Timeline := { newestFirst := [], count := 0 }

/-- The intervals in order. -/
def toList (t : Timeline) : List Interval := t.newestFirst.reverse

/-- Adds an interval behind all others. -/
def add (t : Timeline) (span : Interval) : Except ZoneDefect Timeline :=
  if maxIntervals ≤ t.count then .error .tooManyIntervals
  else .ok { newestFirst := span :: t.newestFirst, count := t.count + 1 }

/-- Adds a span. -/
def push (t : Timeline) (span : Interval) : Except ZoneDefect Timeline :=
  if span.stop < span.start then .error .notChronological
  else if span.stop = span.start then .ok t
  else
    match t.newestFirst with
    | [] => if span.start = beginningOfTime then t.add span else .error .lateStart
    | last :: earlier =>
      if last.stop ≠ span.start then .error .gap
      else if last.wallOffset = span.wallOffset ∧ last.name = span.name then
        .ok { t with newestFirst := { last with stop := span.stop } :: earlier }
      else t.add span

/-- Whether the intervals begin at the beginning of time. -/
def startsAtBeginning (t : Timeline) : Bool :=
  t.newestFirst.getLast?.any (·.start == beginningOfTime)

end Timeline

end CivilTime
