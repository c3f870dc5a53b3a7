import CivilTime.Calendar.Day

/-! The days of the week, and the nearest day that falls on one. -/

namespace CivilTime

inductive WeekDay where
  | sun | mon | tue | wed | thu | fri | sat
  deriving DecidableEq, Repr, Inhabited

namespace WeekDay

/-- The days under their full names, in order. -/
def keywords : List (String × WeekDay) :=
  [("Sunday", sun), ("Monday", mon), ("Tuesday", tue), ("Wednesday", wed), ("Thursday", thu),
    ("Friday", fri), ("Saturday", sat)]

/-- The position in the week, counted from Sunday as zero. -/
def number : WeekDay → Nat
  | sun => 0
  | mon => 1
  | tue => 2
  | wed => 3
  | thu => 4
  | fri => 5
  | sat => 6

/-- The day at a position in the week. -/
def ofNumber? (n : Nat) : Option WeekDay := keywords[n]?.map Prod.snd

/-- The name of the day in reports. -/
def shortName : WeekDay → String
  | sun => "Sun"
  | mon => "Mon"
  | tue => "Tues"
  | wed => "Wed"
  | thu => "Thurs"
  | fri => "Fri"
  | sat => "Sat"

/-- The first day not before `day` that falls on the week day. -/
def onOrAfter (weekDay : WeekDay) (day : Int) : Int :=
  day + ((weekDay.number : Int) - Calendar.weekDayIndex day) % 7

/-- The last day not after `day` that falls on the week day. -/
def onOrBefore (weekDay : WeekDay) (day : Int) : Int :=
  day - ((Calendar.weekDayIndex day : Int) - weekDay.number) % 7

end WeekDay

end CivilTime
