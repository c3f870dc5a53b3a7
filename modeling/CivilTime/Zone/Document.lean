import CivilTime.Document
import CivilTime.Source.Record
import CivilTime.Zone.LocalTime
import CivilTime.Zone.Posix

/-! Zones, rules and their parts as documents. -/

namespace CivilTime

open Document (variant natural)

/-- The text of a value that may be absent. -/
def optionalText : Option String → Document := .ofOption .text

/-- The fields of a time of the clock with its sign. -/
def ClockTime.fields (t : ClockTime) : List (String × Document) :=
  [("sign", .text (if t.negative then "Negative" else "Positive")),
    ("hour", natural t.hour), ("minute", natural t.minute), ("second", natural t.second)]

/-- A time of the clock with its sign. -/
def ClockTime.document (t : ClockTime) : Document := .record t.fields

/-- The name of a clock. -/
def ClockMode.label : ClockMode → String
  | wall => "Local"
  | standard => "Standard"
  | universal => "Universal"

/-- A time of day under the name of its clock. -/
def TimeOfDay.document (t : TimeOfDay) : Document := variant t.mode.label t.time.document

/-- A bound of years. -/
def YearBound.document : YearBound → Document
  | earliest => .text "Min"
  | year y => variant "Year" (.integer y)
  | latest => .text "Max"

/-- A month by its short name. -/
def Month.document (month : Month) : Document := .text month.shortName

/-- A week day by its short name. -/
def WeekDay.document (weekDay : WeekDay) : Document := .text weekDay.shortName

/-- A day rule under the name of its kind. -/
def DayRule.document : DayRule → Document
  | last weekDay => variant "Last" weekDay.document
  | onOrAfter weekDay day =>
    variant "WeekDayGEThanMonthDay" (.list [weekDay.document, natural day])
  | onOrBefore weekDay day =>
    variant "WeekDayLEThanMonthDay" (.list [weekDay.document, natural day])
  | fixed day => variant "Day" (natural day)

/-- A name format under the name of its kind. -/
def NameFormat.document : NameFormat → Document
  | literal s => variant "Literal" (.text s)
  | letter s => variant "Letter" (.text s)
  | offset s => variant "Offset" (.text s)
  | pair standard saved => variant "Pair" (.list [.text standard, .text saved])

/-- A source of saved time under the name of its kind. -/
def SavingsSource.document : SavingsSource → Document
  | standard => .text "None"
  | fixed savings => variant "Numeric" savings.document
  | rules name => variant "Named" (.text name)

/-- A recurrence. -/
def Recurrence.document (r : Recurrence) : Document :=
  .record
    [("name", .text r.name), ("from", r.first.document), ("to", r.last.document),
      ("month", r.month.document), ("on_date", r.day.document), ("at", r.time.document),
      ("save", r.save.document), ("letter", optionalText r.letter)]

/-- A rule set. -/
def RuleSet.document (rules : RuleSet) : Document :=
  .record
    [("name", .text rules.name), ("recurrences", .list (rules.recurrences.map (·.document)))]

/-- The fields of a change of a rule set. -/
def Transition.fields (t : Transition) : List (String × Document) :=
  [("at", .integer t.instant), ("year", .integer t.year), ("savings", .integer t.savings),
    ("letter", optionalText t.letter), ("recurrence", natural t.index)]

/-- A change of a rule set. -/
def Transition.document (t : Transition) : Document := .record t.fields

/-- The end of a zone line. -/
def Until.document (u : Until) : Document :=
  .record
    [("date",
        .record
          [("year", .integer u.year), ("month", u.month.document), ("day", u.day.document)]),
      ("time", u.time.document)]

/-- The fields of a zone line. -/
def ZoneLine.fields (l : ZoneLine) : List (String × Document) :=
  [("std_offset", l.stdOffset.document), ("rule", l.savings.document),
    ("format", l.format.document), ("until", .ofOption Until.document l.stop),
    ("line_number", natural l.line)]

/-- A zone line. -/
def ZoneLine.document (l : ZoneLine) : Document := .record l.fields

/-- A link. -/
def Link.document (l : Link) : Document :=
  .record [("target", .text l.target), ("alias", .text l.name), ("line_number", natural l.line)]

/-- A record under the name of its kind. -/
def Record.document : Record → Document
  | rule r => variant "Rule" r.document
  | zone name line => variant "Zone" (.record [("name", .text name), ("line", line.document)])
  | continuation line => variant "Continuation" line.document
  | link l => variant "Link" l.document

/-- An interval. -/
def Interval.document (i : Interval) : Document :=
  .record
    [("start", .integer i.start), ("end", .integer i.stop), ("std_offset", .integer i.stdOffset),
      ("savings", .integer i.savings), ("name", .text i.name)]

/-- A tail. -/
def Tail.document (t : Tail) : Document :=
  .record
    [("start", .integer t.start), ("std_offset", .integer t.stdOffset),
      ("format", t.format.document), ("initial_savings", .integer t.initialSavings),
      ("initial_letter", optionalText t.initialLetter), ("rules", t.rules.document)]

/-- The intervals of a zone. -/
def CompiledZone.intervalsDocument (zone : CompiledZone) : Document :=
  .list (zone.intervals.map (·.document))

/-- The tail of a zone. -/
def CompiledZone.tailDocument (zone : CompiledZone) : Document :=
  .ofOption Tail.document zone.tail

/-- A gap of readings. -/
def LocalGap.document (gap : LocalGap) : Document :=
  .record
    [("before", .integer gap.before), ("after", .integer gap.after),
      ("transition", .integer gap.instant)]

/-- The intervals that show a reading, or the gap that none of them shows. -/
def LocalIntervals.document : LocalIntervals → Document
  | skipped gap => gap.document
  | once interval => .list [interval.document]
  | twice earlier later => .list [earlier.document, later.document]

/-- A day of a POSIX string under the name of its kind. -/
def Posix.DateRule.document : Posix.DateRule → Document
  | julian day => variant "JulianNoLeap" (natural day)
  | monthWeekDay month week weekDay =>
    variant "MonthWeekDay" (.list [month.document, natural week, weekDay.document])

/-- A change of a POSIX string. -/
def Posix.Change.document (c : Posix.Change) : Document :=
  .record [("date", c.date.document), ("time", .integer c.time)]

/-- The part of a POSIX string on saved time. -/
def Posix.Saving.document (s : Posix.Saving) : Document :=
  .record
    [("abbr", .text s.abbreviation), ("savings", .integer s.savings),
      ("start", s.start.document), ("end", s.stop.document)]

/-- A POSIX time zone with its string. -/
def Posix.TimeZone.document (tz : Posix.TimeZone) : Document :=
  .record
    [("abbr", .text tz.abbreviation), ("offset", .integer tz.offset),
      ("transition_info", .ofOption Posix.Saving.document tz.saving), ("string", .text tz.text)]

/-- A zone under its name, with the POSIX string of its future. -/
def CompiledZone.dump (zone : CompiledZone) (name : String) : Document :=
  .record
    [("identifier", .text name), ("intervals", zone.intervalsDocument),
      ("tail", zone.tailDocument), ("posix", optionalText zone.posixText?)]

end CivilTime
