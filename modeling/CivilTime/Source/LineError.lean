import CivilTime.Text.Numeral

/-! What can be wrong with a line of a source, and in which field of it. -/

namespace CivilTime

/-- The parts of a record that a reader can be inside of. -/
inductive Field where
  | undefined
  | rule
  | zone
  | continuation
  | link
  | zoneLine
  | savingsRule
  | nameFormat
  | untilTime
  | time
  | year
  | month
  | weekDay
  | dayOfMonth
  deriving DecidableEq, Repr, Inhabited

/-- The name of a field in reports. -/
def Field.name : Field → String
  | undefined => "undefined"
  | rule => "Rule"
  | zone => "Zone"
  | continuation => "Continuation"
  | link => "Link"
  | zoneLine => "ZoneLine"
  | savingsRule => "RuleIdentifier"
  | nameFormat => "Abbr. Format"
  | untilTime => "UntilDateTime"
  | time => "Time"
  | year => "Year"
  | month => "Month"
  | weekDay => "WeekDay"
  | dayOfMonth => "DayOfMonth"

/-- The reasons for which a line is refused. -/
inductive LineFault where
  /-- The first word is no keyword. -/
  | unknownRecordKind (word : String)
  /-- A zone header ends before its name. -/
  | missingIdentifier
  /-- The line ends before all columns of the field are read. -/
  | unexpectedEnd (field : Field)
  /-- A word follows the last column of the field. -/
  | unexpectedWord (field : Field) (word : String)
  /-- A word has no meaning in the field. -/
  | unknownValue (field : Field) (word : String)
  /-- A word of the field is no numeral. -/
  | badNumeral (cause : Text.NumeralError) (field : Field)
  /-- The years of a rule run backwards or leave out every year. -/
  | emptyYearRange (range : String)
  /-- A name is defined for the second time. -/
  | duplicateName (name : String)
  deriving DecidableEq, Repr, Inhabited

/-- A refused line. -/
structure LineError where
  line : Nat
  fault : LineFault
  deriving DecidableEq, Repr, Inhabited

/-- The wording of a fault. -/
def LineFault.message : LineFault → String
  | unknownRecordKind word => s!"unknown record kind `{word}`"
  | missingIdentifier => "missing identifier"
  | unexpectedEnd field => s!"unexpected end of line while parsing {field.name}"
  | unexpectedWord field word => s!"unexpected token `{word}` after {field.name}"
  | unknownValue field word => s!"unknown value `{word}` for {field.name}"
  | badNumeral cause field => s!"{cause.message} while parsing {field.name}"
  | emptyYearRange range => s!"FROM year is after TO year ({range})"
  | duplicateName name => s!"`{name}` is already defined"

/-- The wording of a refusal, with its line. -/
def LineError.message (error : LineError) : String :=
  s!"line {error.line}: {error.fault.message}"

end CivilTime
