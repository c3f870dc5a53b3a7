import CivilTime.Source.LineError

/-! What can go wrong with zones, rule sets and links after their lines have been read. -/

namespace CivilTime

/-- The reasons for which the lines of a zone do not make up one. -/
inductive ZoneDefect where
  | noLines
  /-- A line without an end is followed by another one. -/
  | openLineInside (line : Nat)
  | unknownRuleSet (name : String)
  /-- A line ends before it starts. -/
  | notChronological
  | lateStart
  | gap
  | tooManyIntervals
  /-- A defect that is only known by its description. -/
  | described (reason : String)
  deriving DecidableEq, Repr, Inhabited

/-- The wording of a defect. -/
def ZoneDefect.message : ZoneDefect → String
  | noLines => "the zone has no lines"
  | openLineInside line => s!"line {line} is open ended but is not the last line"
  | unknownRuleSet name => s!"unknown rule set `{name}`"
  | notChronological => "zone lines are not in chronological order"
  | lateStart => "the zone does not start at the beginning of time"
  | gap => "zone lines leave a gap"
  | tooManyIntervals => "the zone exceeds the interval limit"
  | described reason => reason

inductive Fault where
  /-- A source line was refused. -/
  | malformedRecord (error : LineError)
  /-- Two recurrences of a rule set take effect at the same instant. -/
  | simultaneousTransitions (ruleSet : String) (instant : Int)
  | malformedZone (zone : String) (defect : ZoneDefect)
  /-- A link leads to no zone. -/
  | unknownZone (name target : String)
  /-- A name format cannot be applied. -/
  | badNameFormat (format : String)
  /-- The search through the years of a recurrence was given up. -/
  | searchExhausted (ruleSet : String) (year : Int)
  deriving DecidableEq, Repr, Inhabited

/-- The wording of a fault. -/
def Fault.message : Fault → String
  | malformedRecord error => s!"malformed record: {error.message}"
  | simultaneousTransitions ruleSet instant =>
    s!"rule set {ruleSet} has simultaneous transitions at {instant}"
  | malformedZone zone defect => s!"malformed zone {zone}: {defect.message}"
  | unknownZone name target => s!"link {name} references unknown zone {target}"
  | badNameFormat format => s!"invalid name format: {format}"
  | searchExhausted ruleSet year =>
    s!"rule set {ruleSet} did not produce a transition near {year}"

/-- The message of the error that a fault was caused by, where there is one. -/
def Fault.cause? : Fault → Option String
  | malformedRecord error => some error.message
  | _ => none

end CivilTime
