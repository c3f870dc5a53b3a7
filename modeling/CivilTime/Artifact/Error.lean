/-! What can be wrong with the bytes of an artifact. -/

namespace CivilTime.Artifact

/-- The places whose values are marked by a tag. -/
inductive TagField where
  | intervalEnd
  | tail
  | month
  | timeMode
  | year
  | weekDay
  | dayOfMonth
  deriving DecidableEq, Repr, Inhabited

/-- The name of a place in reports. -/
def TagField.name : TagField → String
  | intervalEnd => "interval end"
  | tail => "tail"
  | month => "month"
  | timeMode => "time mode"
  | year => "year"
  | weekDay => "week day"
  | dayOfMonth => "day of month"

/-- The ways in which the intervals of a zone can contradict each other. -/
inductive Inconsistency where
  | noIntervals
  | startsNotIncreasing
  | endBeforeStart
  | tailAfterOpenInterval
  | tailWithoutRecurrences
  deriving DecidableEq, Repr, Inhabited

/-- The wording of an inconsistency. -/
def Inconsistency.message : Inconsistency → String
  | noIntervals => "zone without intervals"
  | startsNotIncreasing => "starts are not increasing"
  | endBeforeStart => "end precedes the last start"
  | tailAfterOpenInterval => "tail after an open interval"
  | tailWithoutRecurrences => "tail without recurrences"

inductive DecodeError where
  | badMagic
  | unsupportedVersion (version : Nat)
  /-- The bytes end at a position where more are expected. -/
  | unexpectedEnd (position : Nat)
  /-- The integer that starts at a position has more than sixty-four bits. -/
  | varintOverflow (position : Nat)
  | stringOutOfRange (index : Nat)
  /-- The string that starts at a position is no UTF-8. -/
  | invalidUtf8 (position : Nat)
  | invalidTag (field : TagField) (tag : Nat)
  | inconsistent (cause : Inconsistency)
  /-- A name cannot be looked up without regard to case, since it is not ASCII. -/
  | unindexableName
  deriving DecidableEq, Repr, Inhabited

/-- The wording of an error. -/
def DecodeError.message : DecodeError → String
  | badMagic => "input is not a compiled zone artifact"
  | unsupportedVersion version => s!"unsupported artifact version {version}"
  | unexpectedEnd position => s!"artifact truncated at byte {position}"
  | varintOverflow position => s!"varint overflow at byte {position}"
  | stringOutOfRange index => s!"string index {index} out of range"
  | invalidUtf8 position => s!"invalid UTF-8 in string at byte {position}"
  | invalidTag field tag => s!"invalid {field.name} tag {tag}"
  | inconsistent cause => s!"inconsistent intervals: {cause.message}"
  | unindexableName =>
    "could not index identifiers: Non-ASCII cannot be added to an ASCII-only trie"

end CivilTime.Artifact
