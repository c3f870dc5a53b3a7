/-! Instants are seconds since the start of 1970 in universal time.
The two ends of the range of signed 64 bit numbers stand for the beginning and the end of time,
and sums with them stay at the ends.
-/

namespace CivilTime

/-- The start of every compiled zone. -/
def beginningOfTime : Int := -9223372036854775808

/-- The end of an interval that never ends. -/
def endOfTime : Int := 9223372036854775807

namespace Instant

/-- The nearest representable instant. -/
def saturate (t : Int) : Int :=
  if t < beginningOfTime then beginningOfTime else if endOfTime < t then endOfTime else t

/-- The representable instant that agrees with `t` modulo the number of all of them. -/
def wrap (t : Int) : Int := t.bmod 18446744073709551616

end Instant

end CivilTime
