import CivilTime.Rule.Stream
import CivilTime.Zone.Interval

/-! The tail of a zone: rules that go on forever behind the last explicit interval.
The interval around an instant is found by following the changes from an earlier year, whose state
is estimated from the last change before it. A start that shows no boundary in front of the instant
is replaced by an earlier one.
-/

namespace CivilTime

structure Tail where
  /-- The first change that belongs to the tail. -/
  start : Int
  stdOffset : Int
  format : NameFormat
  /-- The saved time in force from the start. -/
  initialSavings : Int
  initialLetter : Option String
  /-- The recurrences that go on forever. -/
  rules : RuleSet
  deriving DecidableEq, Repr, Inhabited

namespace Tail

/-- A point from which the changes are followed. -/
structure Anchor where
  cursor : Int
  savings : Int
  name : String
  /-- Whether an interval is known to start at the cursor. -/
  atBoundary : Bool
  deriving DecidableEq, Repr, Inhabited

/-- The abbreviation for the saved time and the letters in effect. -/
def nameFor (tail : Tail) (savings : Int) (letter : Option String) : Except Fault String :=
  tail.format.apply tail.stdOffset savings letter

/-- The start of the tail. -/
def startAnchor (tail : Tail) : Except Fault Anchor := do
  let name ← tail.nameFor tail.initialSavings tail.initialLetter
  pure { cursor := tail.start, savings := tail.initialSavings, name, atBoundary := true }

/-- The later one of two changes, the first one where they coincide. -/
def laterOf (latest : Option (Int × Recurrence)) (r : Recurrence)
    : Option Int → Option (Int × Recurrence)
  | none => latest
  | some t =>
    match latest with
    | none => some (t, r)
    | some (best, other) => if best < t then some (t, r) else some (best, other)

/-- The recurrence with the latest change up to an instant, the first one of those that share it. -/
def latestUpTo (stdOffset instant : Int)
    : List Recurrence → Option (Int × Recurrence) → Except Fault (Option (Int × Recurrence))
  | [], latest => .ok latest
  | r :: rest, latest => do
    let previous ← r.previous (Instant.saturate (instant + 1)) stdOffset 0
    latestUpTo stdOffset instant rest (laterOf latest r previous)

/-- The start of a year with its estimated state, or the start of the tail where that is later. -/
def anchorAt (tail : Tail) (year : Int) : Except Fault Anchor := do
  let instant := Calendar.yearStartSeconds year
  if instant ≤ tail.start then tail.startAnchor
  else
    match ← latestUpTo tail.stdOffset instant tail.rules.recurrences none with
    | none => tail.startAnchor
    | some (_, r) => do
      let name ← tail.nameFor r.savings r.letter
      pure { cursor := instant, savings := r.savings, name, atBoundary := false }

/-- The interval that is being followed: its start once a boundary is known, and its state. -/
structure Run where
  start : Option Int
  savings : Int
  name : String
  deriving DecidableEq, Repr, Inhabited

/-- Follows one change. A visible change behind the instant ends the interval, and one up to it
starts the interval anew. -/
def followChange (tail : Tail) (instant : Int) (run : Run) (t : Transition)
    : Except Fault (Stream.Visit Run (Run × Int)) := do
  let name ← t.name tail.format tail.stdOffset
  let changed := t.savings != run.savings || name != run.name
  if changed && instant < t.instant then pure (.done (run, t.instant))
  else
    pure (.running
      { start := if changed then some t.instant else run.start
        savings := t.savings
        name })

/-- The interval that a run makes up, unless no boundary in front of it is known. -/
def Run.interval? (run : Run) (stdOffset stop : Int) : Option Interval :=
  run.start.map fun start => { start, stop, stdOffset, savings := run.savings, name := run.name }

/-- Follows the changes from an anchor to the end of the interval around an instant. -/
def walk (tail : Tail) (anchor : Anchor) (instant : Int) : Except Fault (Option Interval) := do
  let run : Run :=
    { start := if anchor.atBoundary then some anchor.cursor else none
      savings := anchor.savings
      name := anchor.name }
  let changes := Stream.after tail.rules anchor.cursor tail.stdOffset anchor.savings
  match ← changes.visit (tail.followChange instant) run with
  | .running run => pure (run.interval? tail.stdOffset endOfTime)
  | .done (run, stop) => pure (run.interval? tail.stdOffset stop)

/-- Tries `limit` anchors from a year downwards. -/
def search (tail : Tail) (instant : Int) : Nat → Int → Except Fault Interval
  | 0, year => .error (.searchExhausted tail.rules.name year)
  | limit + 1, year => do
    let anchor ← tail.anchorAt year
    match ← tail.walk anchor instant with
    | some interval => pure interval
    | none => search tail instant limit (year - 1)

/-- The interval that contains an instant not in front of the tail. -/
def intervalAt (tail : Tail) (instant : Int) : Except Fault Interval :=
  tail.search instant Recurrence.searchLimit (Calendar.yearOf instant - 1)

end Tail

end CivilTime
