/-! The first and last years of a rule, which may be open. -/

namespace CivilTime

inductive YearBound where
  /-- The indefinite past. -/
  | earliest
  | year (year : Int)
  /-- The indefinite future. -/
  | latest
  deriving DecidableEq, Repr, Inhabited

namespace YearBound

/-- The year as a number of thirty-two bits, the open bounds being the ends of their range. -/
def number : YearBound → Int
  | earliest => -2147483648
  | year y => y
  | latest => 2147483647

/-- The order of the bounds, in which every year lies between the open ones. -/
def le : YearBound → YearBound → Bool
  | earliest, _ => true
  | year _, earliest => false
  | year a, year b => a ≤ b
  | year _, latest => true
  | latest, latest => true
  | latest, _ => false

/-- The bounded year, if it is bounded. -/
def year? : YearBound → Option Int
  | year y => some y
  | _ => none

/-- The text of a bound in reports. -/
def text : YearBound → String
  | earliest => "Min"
  | year y => s!"Year({y})"
  | latest => "Max"

end YearBound

end CivilTime
