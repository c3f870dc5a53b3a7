/-! Times of the clock, signed and with hours beyond the day.
The same form writes a time of day, an offset from universal time and an amount of saved time.
-/

namespace CivilTime

/-- Hours, minutes and seconds under one sign. A negative zero is kept apart from zero, and minutes
and seconds past the fifty-ninth one, which no source can write, are kept as they are. -/
structure ClockTime where
  negative : Bool
  hour : Nat
  minute : Nat
  second : Nat
  hour_le : hour ≤ 65535 := by omega
  minute_le : minute ≤ 255 := by omega
  second_le : second ≤ 255 := by omega
  deriving DecidableEq, Repr

namespace ClockTime

/-- Midnight, and the absence of any offset. -/
def zero : ClockTime := { negative := false, hour := 0, minute := 0, second := 0 }

instance : Inhabited ClockTime := ⟨zero⟩

/-- The signed amount of seconds. -/
def seconds (t : ClockTime) : Int :=
  let amount : Int := t.hour * 3600 + t.minute * 60 + t.second
  if t.negative then -amount else amount

/-- The time that lasts the given seconds, its hours being cut off at the greatest that fit. -/
def ofSeconds (s : Int) : ClockTime :=
  { negative := s < 0
    hour := min (s.natAbs / 3600) 65535
    minute := s.natAbs % 3600 / 60
    second := s.natAbs % 60 }

end ClockTime

/-- The clock that a time of day is read from. -/
inductive ClockMode where
  /-- Wall clock time, including any saved time. -/
  | wall
  /-- Local standard time. -/
  | standard
  /-- Universal time. -/
  | universal
  deriving DecidableEq, Repr, Inhabited

/-- A time of day with the clock that shows it. -/
structure TimeOfDay where
  mode : ClockMode
  time : ClockTime
  deriving DecidableEq, Repr, Inhabited

/-- The universal time of day, given the standard offset and the saved time in force. -/
def TimeOfDay.universalSeconds (t : TimeOfDay) (stdOffset savings : Int) : Int :=
  match t.mode with
  | .wall => t.time.seconds - stdOffset - savings
  | .standard => t.time.seconds - stdOffset
  | .universal => t.time.seconds

end CivilTime
