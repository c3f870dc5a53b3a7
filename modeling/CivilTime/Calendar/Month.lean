import CivilTime.Calendar.Day

/-! The months of the year. -/

namespace CivilTime

inductive Month where
  | jan | feb | mar | apr | may | jun | jul | aug | sep | oct | nov | dec
  deriving DecidableEq, Repr, Inhabited

namespace Month

/-- The months under their full names, in order. -/
def keywords : List (String × Month) :=
  [("January", jan), ("February", feb), ("March", mar), ("April", apr), ("May", may),
    ("June", jun), ("July", jul), ("August", aug), ("September", sep), ("October", oct),
    ("November", nov), ("December", dec)]

/-- The number of the month, counted from one. -/
def number : Month → Nat
  | jan => 1
  | feb => 2
  | mar => 3
  | apr => 4
  | may => 5
  | jun => 6
  | jul => 7
  | aug => 8
  | sep => 9
  | oct => 10
  | nov => 11
  | dec => 12

/-- The month of a number. -/
def ofNumber? : Nat → Option Month
  | 0 => none
  | n + 1 => keywords[n]?.map Prod.snd

/-- The three letters that name the month in reports. -/
def shortName : Month → String
  | jan => "Jan"
  | feb => "Feb"
  | mar => "Mar"
  | apr => "Apr"
  | may => "May"
  | jun => "Jun"
  | jul => "Jul"
  | aug => "Aug"
  | sep => "Sep"
  | oct => "Oct"
  | nov => "Nov"
  | dec => "Dec"

/-- The length of the month in a leap year. -/
def maxLength : Month → Nat
  | feb => 29
  | apr | jun | sep | nov => 30
  | _ => 31

/-- The days of the year in front of the month. -/
def daysBefore (month : Month) (year : Int) : Int :=
  Calendar.daysBeforeMonth month.number (Calendar.isLeapYear year)

/-- The days of the year up to the end of the month. -/
def daysThrough (month : Month) (year : Int) : Int :=
  Calendar.daysBeforeMonth (month.number + 1) (Calendar.isLeapYear year)

end Month

end CivilTime
