/-! Day numbers of the proleptic Gregorian calendar.
Day zero is 1 January 1970. A date becomes a day number by a closed form on years that start in
March, and a day number becomes a date by the multiplications of Neri and Schneider, whose
intermediate quantities are definitions of their own.
-/

namespace CivilTime.Calendar

/-- The length of a day in seconds. -/
def secondsPerDay : Int := 86400

/-- The first supported year. -/
def minYear : Int := -271821

/-- The last supported year. -/
def maxYear : Int := 275760

/-- The greatest magnitude of a supported day number. -/
def maxDay : Int := 100000001

/-- The days of four hundred consecutive years. -/
def daysPerCycle : Nat := 146097

/-- The days from 1 March of year zero to 1 January 1970. -/
def epochOffset : Int := 719468

/-- The day number of a date. January and February belong to the preceding March year, and a month
or day past its end rolls over into the following ones. -/
def dayNumber (year : Int) (month day : Nat) : Int :=
  let early : Int := if month ≤ 2 then 1 else 0
  let marchYear := year - early
  let marchMonth := month + 12 * early
  let daysToYear := 1461 * marchYear / 4 - marchYear / 100 + marchYear / 100 / 4
  let daysToMonth := (979 * marchMonth - 2919) / 32
  daysToYear + daysToMonth + (day - 1) - epochOffset

/-- The nearest supported day number. -/
def clampDay (day : Int) : Int :=
  if maxDay < day then maxDay else if day < -maxDay then -maxDay else day

/-- The four hundred year cycles in front of the epoch from which days are counted up. -/
def leadingCycles : Nat := 3670

/-- The days from the start of the leading cycles, a natural number for every supported day. -/
def cycleDay (day : Int) : Nat := (clampDay day + epochOffset + daysPerCycle * leadingCycles).toNat

/-- Four times the day count plus three, whose quotient by the length of a cycle is the century. -/
def quarterDays (r : Nat) : Nat := 4 * r + 3

/-- The century of a day counted from the leading cycles. -/
def century (r : Nat) : Nat := quarterDays r / daysPerCycle

/-- The position in the century in quarter days, with both low bits set. -/
def quarterOfCentury (r : Nat) : Nat := (quarterDays r % daysPerCycle) ||| 3

/-- The year of the century, a division by 1461 done by a multiplication and a shift. -/
def yearOfCentury (r : Nat) : Nat := (376287347 * quarterOfCentury r) >>> 39

/-- The day of the March year. -/
def dayOfYear (r : Nat) : Nat := (quarterOfCentury r - 1461 * yearOfCentury r) / 4

/-- The month and the day of the month in one number, 65536 to the month and 2141 to the day. -/
def monthPhase (r : Nat) : Nat := 2141 * dayOfYear r + 197913

/-- Whether the day lies in January or February, and so in the next calendar year. -/
def isEarly (r : Nat) : Bool := 306 ≤ dayOfYear r

/-- What January and February add to the number of the March year. -/
def carry (r : Nat) : Nat := if isEarly r then 1 else 0

/-- The year of a day number, the day being moved into the supported range first. -/
def yearOfDay (day : Int) : Int :=
  let r := cycleDay day
  (100 * century r + yearOfCentury r + carry r : Nat) - (400 * leadingCycles : Nat)

/-- A calendar date. -/
structure Date where
  year : Int
  month : Nat
  day : Nat
  deriving DecidableEq, Repr

/-- The date of a day number, the day being moved into the supported range first. -/
def dateOfDay (day : Int) : Date :=
  let r := cycleDay day
  { year := yearOfDay day
    month := monthPhase r / 65536 - 12 * carry r
    day := monthPhase r % 65536 / 2141 + 1 }

/-- The day number of the first day of a year. -/
def yearStart (year : Int) : Int := dayNumber year 1 1

/-- The first second of a day. -/
def secondsOfDay (day : Int) : Int := day * secondsPerDay

/-- The first second of a year. -/
def yearStartSeconds (year : Int) : Int := secondsOfDay (yearStart year)

/-- The year that contains an instant, the years at the ends of the supported range standing for
everything beyond them. -/
def yearOf (instant : Int) : Int := yearOfDay (instant / secondsPerDay)

/-- Whether a year has a 29 February. -/
def isLeapYear (year : Int) : Bool := year % 4 == 0 && (year % 100 != 0 || year % 400 == 0)

/-- The days of a year in front of a month, where month 13 stands for the end of the year. -/
def daysBeforeMonth (month : Nat) (leap : Bool) : Int :=
  let leapDay := if leap && 2 < month then 1 else 0
  let days :=
    match month with
    | 1 => 0
    | 2 => 31
    | 3 => 59
    | 4 => 90
    | 5 => 120
    | 6 => 151
    | 7 => 181
    | 8 => 212
    | 9 => 243
    | 10 => 273
    | 11 => 304
    | 12 => 334
    | _ => 365
  days + leapDay

/-- The position of a day in its week, counted from Sunday. The epoch was a Thursday. -/
def weekDayIndex (day : Int) : Nat := ((day + 4) % 7).toNat

end CivilTime.Calendar
