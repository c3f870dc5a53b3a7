import CivilTime.Rule.Recurrence
import CivilTime.Source.LineError
import CivilTime.Text.Keyword
import CivilTime.Zone.Line

/-! Readers of single columns.
A reader knows its line and the stack of fields it is inside of, which name the place of an error.
Some fields are left however their reader ends, others only when it succeeds, so an error may
leave fields behind until the next line closes them.
-/

namespace CivilTime

/-- The line being read and the fields that the reader is inside of, innermost first. -/
structure Place where
  line : Nat
  fields : List Field
  deriving DecidableEq, Repr, Inhabited

namespace Place

/-- The place at the start of a line. The undefined field is open around everything that is read. -/
def ofLine (line : Nat) : Place := { line, fields := [.undefined] }

/-- The place in front of the first line. -/
def start : Place := ofLine 0

/-- The innermost field. -/
def field (place : Place) : Field := place.fields.headD .undefined

/-- The start of the following line. All fields but the outermost one are closed, since an error
may have left them behind. -/
def nextLine (place : Place) : Place :=
  { line := place.line + 1, fields := place.fields.drop (place.fields.length - 1) }

/-- The names of the fields from the outside to the inside. -/
def path (place : Place) : List String := place.fields.reverse.map Field.name

end Place

/-- A reader that may refuse its input and moves the place in either case. -/
abbrev ColumnReader (α : Type) := ExceptT LineError (StateM Place) α

namespace ColumnReader

/-- Refuses the input at the current line. -/
def refuse (fault : LineFault) : ColumnReader α := do
  throw { line := (← get).line, fault }

/-- Refuses the input for a reason that names the current field. -/
def refuseField (fault : Field → LineFault) : ColumnReader α := do
  refuse (fault (← get).field)

/-- Refuses a word that has no meaning in the current field. -/
def refuseWord (word : String) : ColumnReader α := refuseField (.unknownValue · word)

/-- Enters a field. -/
def enter (field : Field) : ColumnReader Unit :=
  modify fun place => { place with fields := field :: place.fields }

/-- Leaves the innermost field. -/
def leave : ColumnReader Unit := modify fun place => { place with fields := place.fields.tail }

/-- Reads inside a field that is left however the reader ends. -/
def within (field : Field) (reader : ColumnReader α) : ColumnReader α := do
  enter field
  try
    let value ← reader
    leave
    pure value
  catch error =>
    leave
    throw error

/-- Reads inside a field that is left when the reader succeeds. -/
def inside (field : Field) (reader : ColumnReader α) : ColumnReader α := do
  enter field
  let value ← reader
  leave
  pure value

/-- Reads a word by a partial function. -/
def ofOption (word : String) : Option α → ColumnReader α
  | some value => pure value
  | none => refuseWord word

/-- Reads a numeral of a range. -/
def numeral (range : Text.NumeralRange) (text : List Char) : ColumnReader Int :=
  match Text.readNumeral range text with
  | .ok n => pure n
  | .error cause => refuseField (.badNumeral cause)

/-- Reads a numeral of eight bits. -/
def small (text : List Char) : ColumnReader Nat := Int.toNat <$> numeral .bits8 text

/-- Reads an optional further field of a time, whose absence stands for zero. -/
def optionalSmall : Option (List Char) → ColumnReader Nat
  | some text => small text
  | none => pure 0

end ColumnReader

open ColumnReader

/-- The parts of a time in front of and behind its first two colons. -/
def timeParts (text : List Char) : List Char × Option (List Char) × Option (List Char) :=
  match Text.cutAt? (· == ':') text with
  | none => (text, none, none)
  | some (hour, rest) =>
    match Text.cutAt? (· == ':') rest with
    | none => (hour, some rest, none)
    | some (minute, second) => (hour, some minute, some second)

/-- Reads an optional minus sign and up to three fields between colons. -/
def ClockTime.read (text : List Char) : ColumnReader ClockTime :=
  inside .time do
    let (negative, unsigned) := Text.stripLeading '-' text
    let (hourText, minuteText, secondText) := timeParts unsigned
    let hour ← Int.toNat <$> numeral .bits16 hourText
    let minute ← optionalSmall minuteText
    let second ← optionalSmall secondText
    if h : hour ≤ 65535 ∧ minute ≤ 59 ∧ second ≤ 59 then
      pure
        { negative, hour, minute, second
          hour_le := h.1
          minute_le := Nat.le_trans h.2.1 (by decide)
          second_le := Nat.le_trans h.2.2 (by decide) }
    else refuseWord (String.ofList text)

/-- The clock that the last letter of a time names, and the time without it. -/
def timeMode (text : List Char) : ClockMode × List Char :=
  match text.getLast? with
  | some 's' => (.standard, text.dropLast)
  | some 'u' | some 'g' | some 'z' => (.universal, text.dropLast)
  | some 'w' => (.wall, text.dropLast)
  | _ => (.wall, text)

/-- Reads a time of day with an optional letter for its clock. -/
def TimeOfDay.read (text : List Char) : ColumnReader TimeOfDay := do
  let (mode, rest) := timeMode text
  let time ← ClockTime.read rest
  pure { mode, time }

/-- Reads the year that bounds a rule. -/
def YearBound.read (word : String) : ColumnReader YearBound :=
  within .year do
    if Text.startsWithLetter word.toList then
      ofOption word
        (Text.keyword? [("minimum", YearBound.earliest), ("maximum", YearBound.latest)] word)
    else YearBound.year <$> numeral .signed32 word.toList

/-- Whether a word repeats the first year of a rule as its last one. A word that could also begin
one of the open bounds does not. -/
def repeatsFirstYear (word : String) : Bool :=
  Text.startsWithLetter word.toList &&
    (Text.keyword? [("only", ()), ("minimum", ()), ("maximum", ())] word).isSome &&
    (Text.keyword? [("only", ())] word).isSome

/-- Reads the last year of a rule. -/
def YearBound.readLast (word : String) (first : YearBound) : ColumnReader YearBound :=
  if repeatsFirstYear word then pure first else YearBound.read word

/-- Reads the name of a month. -/
def Month.read (word : String) : ColumnReader Month :=
  within .month (ofOption word (Text.keyword? Month.keywords word))

/-- Reads the name of a week day. -/
def WeekDay.read (text : List Char) : ColumnReader WeekDay :=
  let word := String.ofList text
  within .weekDay (ofOption word (Text.keyword? WeekDay.keywords word))

/-- Refuses a day that no month has. -/
def checkDay (day : Nat) (word : String) : ColumnReader Nat :=
  if 1 ≤ day ∧ day ≤ 31 then pure day else refuseWord word

/-- Reads the two sides of a comparison of a week day with a day of the month. -/
def readComparison (sides : List Char × List Char) (word : String)
    : ColumnReader (WeekDay × Nat) := do
  let weekDay ← WeekDay.read sides.1
  let day ← small sides.2
  let day ← checkDay day word
  pure (weekDay, day)

/-- The rest of a word that begins with `last`. -/
def afterLast? (text : List Char) : Option (List Char) :=
  if Text.sameIgnoringCase (text.take 4) "last".toList then some (text.drop 4) else none

/-- Reads a day rule. -/
def DayRule.read (word : String) : ColumnReader DayRule :=
  let text := word.toList
  within .dayOfMonth
    (match afterLast? text with
      | some weekDay => DayRule.last <$> WeekDay.read weekDay
      | none =>
        match Text.cutAtMark? '>' '=' text with
        | some sides => (fun (weekDay, day) => .onOrAfter weekDay day) <$> readComparison sides word
        | none =>
          match Text.cutAtMark? '<' '=' text with
          | some sides =>
            (fun (weekDay, day) => .onOrBefore weekDay day) <$> readComparison sides word
          | none => do
            let day ← small text
            DayRule.fixed <$> checkDay day word)

/-- Refuses a day rule that names a day past the end of its month. -/
def DayRule.checkMonth (rule : DayRule) (month : Month) : ColumnReader DayRule :=
  match rule.dayPast? month with
  | some day => refuseWord s!"{month.shortName} {day}"
  | none => pure rule

/-- Reads where the saved time of a zone line comes from. -/
def SavingsSource.read (word : String) : ColumnReader SavingsSource :=
  within .savingsRule
    (if word = "-" then pure .standard
    else if Text.startsWithDigit (Text.stripLeading '-' word.toList).2 then
      SavingsSource.fixed <$> ClockTime.read word.toList
    else pure (.rules word))

/-- Reads a name format, which every word is. -/
def NameFormat.read (word : String) : ColumnReader NameFormat :=
  within .nameFormat (pure (NameFormat.ofSource word))

end CivilTime
