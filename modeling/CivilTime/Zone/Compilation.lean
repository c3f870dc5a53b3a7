import CivilTime.Rule.State
import CivilTime.Source.Tables
import CivilTime.Zone.Compiled
import CivilTime.Zone.Timeline

/-! Compilation of zone records.
The lines of a record are laid end to end. A line ends where its own end lies under the saved time
in force there, and hands its offsets to the next line. A last line whose rules go on forever is
followed up to the last year that bounds a rule, and what is left becomes the tail.
-/

namespace CivilTime

namespace Compilation

/-- The progress of a compilation: the intervals so far, the start of the next line and the offsets
at the end of the last one. -/
structure Progress where
  timeline : Timeline
  start : Int
  previous : Option LineOffsets
  deriving DecidableEq, Repr, Inhabited

/-- Nothing compiled yet. -/
def Progress.initial : Progress :=
  { timeline := .empty, start := beginningOfTime, previous := none }

/-- Where a line leads: to the next line, or into the tail. -/
inductive LineEnd where
  | next (progress : Progress)
  | tail (timeline : Timeline) (tail : Tail)

/-- The error for a defect of a zone. -/
def malformed (zone : String) (defect : ZoneDefect) : Fault := .malformedZone zone defect

/-- Adds a span to the intervals of a zone. -/
def pushSpan (zone : String) (timeline : Timeline) (span : Interval) : Except Fault Timeline :=
  (timeline.push span).mapError (malformed zone)

/-- Compiles a line with a fixed amount of saved time. -/
def compileFixed (zone : String) (line : ZoneLine) (progress : Progress) (savings : Int)
    : Except Fault LineEnd := do
  let stdOffset := line.stdOffset.seconds
  let name ← line.format.apply stdOffset savings none
  let stop := line.stopInstant savings
  let timeline ←
    pushSpan zone progress.timeline { start := progress.start, stop, stdOffset, savings, name }
  pure (.next { timeline, start := stop, previous := some { stdOffset, savings } })

/-- The year behind which the changes of a line are left to the tail. There is none unless the line
is the last one, never ends and has rules that go on forever. -/
def cutoffYear? (line : ZoneLine) (rules : RuleSet) (start : Int) (isLast : Bool) : Option Int :=
  if isLast && line.isOpen && !rules.unbounded.isEmpty then
    let startYear := Calendar.yearOf start
    some
      (match rules.lastBoundedYear? with
        | some year => max year startYear
        | none => startYear)
  else none

/-- The span of a line that is being followed, and the intervals in front of it. -/
structure Segment where
  timeline : Timeline
  start : Int
  savings : Int
  name : String
  deriving DecidableEq, Repr, Inhabited

/-- Why the changes of a line are followed no further. -/
inductive Halt where
  /-- The line ends, or only one state is left. -/
  | settled (segment : Segment)
  /-- The tail starts. -/
  | tail (timeline : Timeline) (tail : Tail)

/-- The tail that starts with a change. -/
def tailFrom (line : ZoneLine) (rules : RuleSet) (t : Transition) : Tail :=
  { start := t.instant
    stdOffset := line.stdOffset.seconds
    format := line.format
    initialSavings := t.savings
    initialLetter := t.letter
    rules := { name := rules.name, recurrences := rules.unbounded } }

/-- Closes the span of a line at an instant. -/
def Segment.close (zone : String) (line : ZoneLine) (segment : Segment) (stop : Int)
    : Except Fault Timeline :=
  pushSpan zone segment.timeline
    { start := segment.start
      stop
      stdOffset := line.stdOffset.seconds
      savings := segment.savings
      name := segment.name }

/-- Follows one change of the rules of a line. -/
def followChange (zone : String) (line : ZoneLine) (rules : RuleSet) (cutoff : Option Int)
    (segment : Segment) (t : Transition) : Except Fault (Stream.Visit Segment Halt) := do
  if line.stopInstant segment.savings ≤ t.instant then return .done (.settled segment)
  let timeline ← segment.close zone line t.instant
  let name ← t.name line.format line.stdOffset.seconds
  let segment := { timeline, start := t.instant, savings := t.savings, name }
  if cutoff.any (· < Calendar.yearOf t.instant) then
    if rules.hasAlternatingTail then pure (.done (.tail timeline (tailFrom line rules t)))
    else pure (.done (.settled segment))
  else pure (.running segment)

/-- Ends a line at its own end. -/
def Segment.finish (zone : String) (line : ZoneLine) (segment : Segment)
    : Except Fault LineEnd := do
  let stop := line.stopInstant segment.savings
  let timeline ← segment.close zone line stop
  let previous := { stdOffset := line.stdOffset.seconds, savings := segment.savings }
  pure (.next { timeline, start := stop, previous := some previous })

/-- Compiles a line whose saved time is decided by rules. -/
def compileRules (zone : String) (line : ZoneLine) (rules : RuleSet) (progress : Progress)
    (isLast : Bool) : Except Fault LineEnd := do
  let stdOffset := line.stdOffset.seconds
  let state ← rules.stateAt progress.start stdOffset progress.previous
  let name ← line.format.apply stdOffset state.savings state.letter
  let segment : Segment :=
    { timeline := progress.timeline, start := progress.start, savings := state.savings, name }
  let cutoff := cutoffYear? line rules progress.start isLast
  let changes := Stream.after rules progress.start stdOffset state.savings
  match ← changes.visit (followChange zone line rules cutoff) segment with
  | .running segment => segment.finish zone line
  | .done (.settled segment) => segment.finish zone line
  | .done (.tail timeline tail) => pure (.tail timeline tail)

/-- Compiles a line. -/
def compileLine (zone : String) (rules : Table RuleSet) (line : ZoneLine) (progress : Progress)
    (isLast : Bool) : Except Fault LineEnd :=
  if !isLast && line.isOpen then .error (malformed zone (.openLineInside line.line))
  else
    match line.savings with
    | .standard => compileFixed zone line progress 0
    | .fixed savings => compileFixed zone line progress savings.seconds
    | .rules name =>
      match rules.get? name with
      | none => .error (malformed zone (.unknownRuleSet name))
      | some set => compileRules zone line set progress isLast

/-- The zone that the intervals and the tail make up. -/
def complete (zone : String) (timeline : Timeline) (tail : Option Tail)
    : Except Fault CompiledZone :=
  if timeline.startsAtBeginning then .ok { intervals := timeline.toList, tail }
  else .error (malformed zone .lateStart)

/-- Compiles the lines that are left. -/
def compileLines (zone : String) (rules : Table RuleSet)
    : List ZoneLine → Progress → Except Fault CompiledZone
  | [], progress => complete zone progress.timeline none
  | line :: rest, progress => do
    match ← compileLine zone rules line progress rest.isEmpty with
    | .next progress => compileLines zone rules rest progress
    | .tail timeline tail => complete zone timeline (some tail)

end Compilation

/-- The zone that a record describes under the given rule sets. -/
def ZoneRecord.compile (record : ZoneRecord) (name : String) (rules : Table RuleSet)
    : Except Fault CompiledZone :=
  if record.lines.isEmpty then .error (Compilation.malformed name .noLines)
  else Compilation.compileLines name rules record.lines .initial

namespace Tables

/-- The zone of a name, absent where the name is unknown. -/
def compileZone? (t : Tables) (name : String) : Option (Except Fault CompiledZone) :=
  (t.zones.get? name).map (·.compile name t.rules)

/-- Every zone under its name, in the order of the source. -/
def compileAll (t : Tables) : List (String × Except Fault CompiledZone) :=
  t.zones.map fun (name, record) => (name, record.compile name t.rules)

end Tables

end CivilTime
