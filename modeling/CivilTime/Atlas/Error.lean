import CivilTime.Artifact.Error
import CivilTime.Fault
import CivilTime.Files.Access

/-! What can go wrong with a query. -/

namespace CivilTime

/-- The ranges that a query can lie outside of. -/
inductive RangeFault where
  | year
  | instant
  | localTime
  deriving DecidableEq, Repr, Inhabited

/-- The wording of a range that is left. -/
def RangeFault.message : RangeFault → String
  | year => "year is outside the supported range"
  | instant => "instant is beyond the zone's coverage"
  | localTime => "local time is beyond the zone's coverage"

/-- The readings of the clock that do not name one instant. -/
inductive RejectedReading where
  | ambiguous
  | skipped
  deriving DecidableEq, Repr, Inhabited

/-- The wording of a rejection. -/
def RejectedReading.message : RejectedReading → String
  | ambiguous => "local time is ambiguous"
  | skipped => "local time does not exist"

inductive QueryError where
  | unknownName (name : String)
  | outOfRange (fault : RangeFault)
  | rejected (reading : RejectedReading)
  | data (error : Artifact.DecodeError)
  | zone (fault : Fault)
  | file (error : FileError)
  deriving DecidableEq, Repr, Inhabited

namespace QueryError

/-- The wording of an error. -/
def message : QueryError → String
  | unknownName name => s!"unknown time zone identifier: {name}"
  | outOfRange fault => s!"out of range: {fault.message}"
  | rejected reading => s!"rejected: {reading.message}"
  | data error => s!"invalid zone data: {error.message}"
  | zone fault => fault.message
  | file error => error.message

/-- The message of the error that an error was caused by, where there is one. -/
def cause? : QueryError → Option String
  | data error => some error.message
  | zone fault => some fault.message
  | file error => some error.message
  | _ => none

end QueryError

end CivilTime
