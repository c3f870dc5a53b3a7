import CivilTime.Zone.Bisection
import CivilTime.Zone.Tail

/-! Compiled zones and their lookups.
A zone is a list of intervals in order, which starts at the beginning of time and leaves no gaps,
with a tail behind it or an end of its coverage.
-/

namespace CivilTime

structure CompiledZone where
  intervals : List Interval
  tail : Option Tail
  deriving DecidableEq, Repr, Inhabited

namespace CompiledZone

/-- The instant behind the last one that the zone covers. -/
def coverageEnd (zone : CompiledZone) : Int :=
  if zone.tail.isSome then endOfTime
  else
    match zone.intervals.getLast? with
    | some last => last.stop
    | none => beginningOfTime

/-- The explicit interval that contains an instant. -/
def explicitAt (zone : CompiledZone) (instant : Int) : Option Interval :=
  match Bisection.partitionPoint (fun i => i.start ≤ instant) zone.intervals with
  | 0 => none
  | position + 1 => zone.intervals[position]?.filter (·.contains instant)

/-- The tail, for an instant that it covers. -/
def tailAt (zone : CompiledZone) (instant : Int) : Option Tail :=
  zone.tail.filter fun tail => tail.start ≤ instant

/-- The interval that contains an instant, absent beyond the coverage. -/
def intervalAt (zone : CompiledZone) (instant : Int) : Except Fault (Option Interval) :=
  match zone.tailAt instant with
  | some tail => (tail.intervalAt instant).map some
  | none => .ok (zone.explicitAt instant)

/-- The explicit intervals that overlap a range. -/
def explicitIn (zone : CompiledZone) (start stop : Int) : List Interval :=
  zone.intervals.filter fun i => i.start < stop && start < i.stop

/-- The intervals of a tail from `cursor` up to `stop`. An interval that did not move the cursor
forward would be the last one. -/
def tailIn (tail : Tail) (cursor stop : Int) : Except Fault (List Interval) :=
  if cursor < stop then
    match tail.intervalAt cursor with
    | .error fault => .error fault
    | .ok interval =>
      if cursor < interval.stop then (tailIn tail interval.stop stop).map (interval :: ·)
      else .ok [interval]
  else .ok []
termination_by (stop - cursor).toNat
decreasing_by omega

/-- The intervals that overlap a range, in order. -/
def intervalsIn (zone : CompiledZone) (start stop : Int) : Except Fault (List Interval) :=
  let explicit := zone.explicitIn start stop
  match zone.tail with
  | none => .ok explicit
  | some tail => (tailIn tail (max start tail.start) stop).map (explicit ++ ·)

/-- The first boundary after an instant. -/
def nextTransition (zone : CompiledZone) (instant : Int) : Except Fault (Option Int) := do
  match ← zone.intervalAt instant with
  | none => pure none
  | some i => pure (if i.isOpen then none else some i.stop)

/-- The last boundary before an instant. Behind the coverage, this is its end. -/
def previousTransition (zone : CompiledZone) (instant : Int) : Except Fault (Option Int) := do
  let isBehind := zone.coverageEnd < instant
  let probe := if isBehind then zone.coverageEnd else instant
  match ← zone.intervalAt (Instant.saturate (probe - 1)) with
  | none => pure none
  | some i =>
    if i.start = beginningOfTime then pure none
    else pure (some (if isBehind then i.stop else i.start))

end CompiledZone

end CivilTime
