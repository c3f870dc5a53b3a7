import CivilTime.Link
import CivilTime.Source.Column
import CivilTime.Text.Words

/-! Records of a source.
A record is one line: a rule, the header of a zone, a further line of a zone or a link. Its columns
are read from left to right, and the first one that is missing or refused ends the record.
-/

namespace CivilTime

open ColumnReader

/-- The next column and the ones behind it. -/
def nextColumn : List String → ColumnReader (String × List String)
  | column :: rest => pure (column, rest)
  | [] => refuseField .unexpectedEnd

/-- Refuses columns behind the last one. -/
def expectEnd : List String → ColumnReader Unit
  | [] => pure ()
  | word :: _ => refuseField (.unexpectedWord · word)

/-- Reads an optional column, whose absence stands for a default value. -/
def optionalColumn (reader : String → ColumnReader α) (default : α)
    : List String → ColumnReader (α × List String)
  | column :: rest => do
    let value ← reader column
    pure (value, rest)
  | [] => pure (default, [])

/-- Reads a day rule of a month. -/
def readDayOf (month : Month) (word : String) : ColumnReader DayRule := do
  let rule ← DayRule.read word
  rule.checkMonth month

/-- Reads the up to four columns of the end of a zone line. -/
def Until.read (columns : List String) : ColumnReader Until :=
  inside .untilTime do
    let (yearText, columns) ← nextColumn columns
    let year ← numeral .signed32 yearText.toList
    let (month, columns) ← optionalColumn Month.read .jan columns
    let (day, columns) ← optionalColumn (readDayOf month) (.fixed 1) columns
    let (time, columns) ←
      optionalColumn (fun word => TimeOfDay.read word.toList) ⟨.wall, .zero⟩ columns
    expectEnd columns
    pure { year, month, day, time }

/-- Reads the end of a zone line, which is absent when no columns are left. -/
def Until.readOptional : List String → ColumnReader (Option Until)
  | [] => pure none
  | columns => some <$> Until.read columns

/-- Reads the columns of a zone line behind any keyword and name. -/
def ZoneLine.read (columns : List String) : ColumnReader ZoneLine :=
  inside .zoneLine do
    let (offsetText, columns) ← nextColumn columns
    let stdOffset ← ClockTime.read offsetText.toList
    let (savingsText, columns) ← nextColumn columns
    let savings ← SavingsSource.read savingsText
    let (formatText, columns) ← nextColumn columns
    let format ← NameFormat.read formatText
    let stop ← Until.readOptional columns
    pure { stdOffset, savings, format, stop, line := (← get).line }

/-- Refuses the years of a rule that leave out every year. -/
def checkYears (first last : YearBound) : ColumnReader Unit :=
  if !first.le last || first == .latest || last == .earliest then
    refuse (.emptyYearRange s!"{first.text}..{last.text}")
  else pure ()

/-- The letters of a rule, for which a hyphen stands when there are none. -/
def lettersOf (word : String) : Option String := if word = "-" then none else some word

/-- Reads the columns of a rule behind its keyword. The fourth one is reserved and not looked at. -/
def Recurrence.read (columns : List String) : ColumnReader Recurrence := do
  let (name, columns) ← nextColumn columns
  let (firstText, columns) ← nextColumn columns
  let first ← YearBound.read firstText
  let (lastText, columns) ← nextColumn columns
  let last ← YearBound.readLast lastText first
  checkYears first last
  let (_, columns) ← nextColumn columns
  let (monthText, columns) ← nextColumn columns
  let month ← Month.read monthText
  let (dayText, columns) ← nextColumn columns
  let day ← readDayOf month dayText
  let (timeText, columns) ← nextColumn columns
  let time ← TimeOfDay.read timeText.toList
  let (saveText, columns) ← nextColumn columns
  let save ← ClockTime.read saveText.toList
  let (letterText, columns) ← nextColumn columns
  expectEnd columns
  pure { name, first, last, month, day, time, save, letter := lettersOf letterText }

/-- Reads the columns of a link behind its keyword. -/
def Link.read (columns : List String) : ColumnReader Link := do
  let (target, columns) ← nextColumn columns
  let (name, columns) ← nextColumn columns
  expectEnd columns
  pure { target, name, line := (← get).line }

/-- Reads the columns of a zone header behind its keyword. -/
def readHeader : List String → ColumnReader (String × ZoneLine)
  | name :: columns => do
    let line ← ZoneLine.read columns
    pure (name, line)
  | [] => refuse .missingIdentifier

/-- The kinds of records that begin with a keyword. -/
inductive RecordKind where
  | rule | zone | link
  deriving DecidableEq, Repr, Inhabited

/-- The keywords of records. -/
def RecordKind.keywords : List (String × RecordKind) :=
  [("Rule", rule), ("Zone", zone), ("Link", link)]

/-- The kind of record that a first word announces. -/
def RecordKind.ofWord? (word : String) : Option RecordKind := Text.keyword? keywords word

/-- One line of a source. -/
inductive Record where
  | rule (recurrence : Recurrence)
  | zone (name : String) (line : ZoneLine)
  | continuation (line : ZoneLine)
  | link (link : Link)
  deriving DecidableEq, Repr, Inhabited

/-- The columns of a line without its comment. -/
def columnsOf (line : String) : List String := Text.words (Text.withoutComment line)

/-- Reads the columns of a record that begins with a keyword. -/
def Record.readKind (columns : List String) : RecordKind → ColumnReader Record
  | .rule => inside .rule (Record.rule <$> Recurrence.read columns)
  | .zone => inside .zone ((fun (name, line) => Record.zone name line) <$> readHeader columns)
  | .link => inside .link (Record.link <$> Link.read columns)

/-- Reads the columns of a line. Where a zone expects a further line, no keyword is looked for, and
a line without columns is no record. -/
def Record.readColumns (continued : Bool) : List String → ColumnReader (Option Record)
  | [] => pure none
  | word :: rest =>
    if continued then
      some <$> inside .continuation (Record.continuation <$> ZoneLine.read (word :: rest))
    else
      match RecordKind.ofWord? word with
      | none => refuse (.unknownRecordKind word)
      | some kind => some <$> Record.readKind rest kind

/-- Reads a line. -/
def Record.read (continued : Bool) (line : String) : ColumnReader (Option Record) :=
  Record.readColumns continued (columnsOf line)

end CivilTime
