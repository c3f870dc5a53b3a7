import CivilTime.Artifact.Decoder
import CivilTime.Artifact.Writer

/-! Reading of artifacts.
The bytes may come from anywhere, so everything that a zone relies on is checked: the starts of its
intervals increase, its end lies behind them, and a tail follows an end and has recurrences.
-/

namespace CivilTime.Artifact

namespace Decoder

/-- The string of an index. -/
def stringAt (strings : Strings) (index : Nat) : Except DecodeError String :=
  match strings[index]? with
  | some s => .ok s
  | none => .error (.stringOutOfRange index)

/-- Takes the index of a string. -/
def string (strings : Strings) : Decoder String := do
  let index ← varint
  stringAt strings index

/-- Takes optional letters. -/
def letter (strings : Strings) : Decoder (Option String) := do
  match ← varint with
  | 0 => pure none
  | index + 1 => do
    let s ← stringAt strings index
    pure (some s)

/-- Takes a year bound. -/
def yearBound : Decoder YearBound := do
  match ← byte with
  | 0 => pure .earliest
  | 1 => do
    let year ← signed
    if -2147483648 ≤ year ∧ year ≤ 2147483647 then pure (.year year)
    else fail (.invalidTag .year (year % 18446744073709551616).toNat)
  | 2 => pure .latest
  | tag => fail (.invalidTag .year tag)

/-- Takes a month. -/
def month : Decoder Month := do
  let number ← byte
  match Month.ofNumber? number with
  | some month => pure month
  | none => fail (.invalidTag .month number)

/-- Takes a week day. -/
def weekDay : Decoder WeekDay := do
  let number ← byte
  match WeekDay.ofNumber? number with
  | some weekDay => pure weekDay
  | none => fail (.invalidTag .weekDay number)

/-- Takes a day rule. -/
def dayRule : Decoder DayRule := do
  match ← byte with
  | 0 => DayRule.fixed <$> byte
  | 1 => DayRule.last <$> weekDay
  | 2 => do
    let weekDay ← weekDay
    DayRule.onOrAfter weekDay <$> byte
  | 3 => do
    let weekDay ← weekDay
    DayRule.onOrBefore weekDay <$> byte
  | tag => fail (.invalidTag .dayOfMonth tag)

/-- Takes the clock of a time of day. -/
def clockMode : Decoder ClockMode := do
  match ← byte with
  | 0 => pure .wall
  | 1 => pure .standard
  | 2 => pure .universal
  | tag => fail (.invalidTag .timeMode tag)

/-- Takes a recurrence. -/
def recurrence (strings : Strings) : Decoder Recurrence := do
  let name ← string strings
  let first ← yearBound
  let last ← yearBound
  let month ← month
  let day ← dayRule
  let seconds ← signed
  let mode ← clockMode
  let saveSeconds ← signed
  let letter ← letter strings
  pure
    { name, first, last, month, day
      time := { mode, time := .ofSeconds seconds }
      save := .ofSeconds saveSeconds
      letter }

/-- Takes a tail that starts at an instant. Its rule set is named after the first recurrence. -/
def tail (strings : Strings) (start : Int) : Decoder Tail := do
  let stdOffset ← signed
  let format ← string strings
  let initialSavings ← signed
  let initialLetter ← letter strings
  let count ← varint
  match ← many count (recurrence strings) with
  | [] => fail (.inconsistent .tailWithoutRecurrences)
  | r :: rest =>
    pure
      { start, stdOffset, format := .ofSource format, initialSavings, initialLetter
        rules := { name := r.name, recurrences := r :: rest } }

/-- Takes `count` starts, each given as its difference from `base` and later than `last`. The
starts that have been taken are in `taken`, the last one first. -/
def starts (base last : Int) (taken : List Int) : Nat → Decoder (List Int)
  | 0 => pure taken.reverse
  | count + 1 => do
    let difference ← signed
    let start := Instant.wrap (base + difference)
    if start ≤ last then fail (.inconsistent .startsNotIncreasing)
    else starts start start (start :: taken) count

/-- Takes the offsets and the name of an interval between two instants. -/
def interval (strings : Strings) (start stop : Int) : Decoder Interval := do
  let wall ← signed
  let savings ← signed
  let name ← string strings
  pure { start, stop, stdOffset := Instant.wrap (wall - savings), savings, name }

/-- Takes the intervals from `start` on that begin at the given instants. The last one is open. -/
def intervals (strings : Strings) (start : Int) (taken : List Interval)
    : List Int → Decoder (List Interval)
  | [] => do
    let last ← interval strings start endOfTime
    pure (last :: taken).reverse
  | next :: rest => do
    let i ← interval strings start next
    intervals strings next (i :: taken) rest

/-- Takes the end of the last interval, if it has one. -/
def coverage (later : List Int) : Decoder (Option Int) := do
  match ← byte with
  | 0 => pure none
  | 1 => do
    let difference ← signed
    let stop := Instant.wrap (later.getLast?.getD 0 + difference)
    if stop ≤ later.getLast?.getD beginningOfTime then fail (.inconsistent .endBeforeStart)
    else pure (some stop)
  | tag => fail (.invalidTag .intervalEnd tag)

/-- The intervals with the last one ended at an instant. -/
def endLast (stop : Int) : List Interval → List Interval
  | [] => []
  | [last] => [{ last with stop }]
  | i :: rest => i :: endLast stop rest

/-- Takes an optional tail behind the end of the last interval. -/
def optionalTail (strings : Strings) (stop : Option Int) : Decoder (Option Tail) := do
  match ← byte with
  | 0 => pure none
  | 1 =>
    match stop with
    | none => fail (.inconsistent .tailAfterOpenInterval)
    | some stop => some <$> tail strings stop
  | tag => fail (.invalidTag .tail tag)

/-- Takes a zone. -/
def zone (strings : Strings) : Decoder CompiledZone := do
  match ← varint with
  | 0 => fail (.inconsistent .noIntervals)
  | count + 1 => do
    let later ← starts 0 beginningOfTime [] count
    let explicit ← intervals strings beginningOfTime [] later
    let stop ← coverage later
    let tail ← optionalTail strings stop
    let intervals :=
      match stop with
      | some stop => endLast stop explicit
      | none => explicit
    pure { intervals, tail }

/-- Takes a string. -/
def text : Decoder String := do
  let length ← varint
  let start := (← get).position
  let bytes ← take length
  match Text.decode? bytes with
  | some s => pure s
  | none => fail (.invalidUtf8 start)

/-- Takes a directory entry: the index of a name and the place of its zone. -/
def entry : Decoder (Nat × Nat) := do
  let name ← varint
  let place ← varint
  pure (name, place)

end Decoder

/-- The parts of an artifact in front of the zones, and the bytes of the zones. -/
structure Sections where
  strings : Strings
  directory : List (Nat × Nat)
  zones : List UInt8
  deriving DecidableEq, Repr, Inhabited

/-- Takes the sections of an artifact. -/
def Decoder.sections : Decoder Sections := do
  let start ← take magic.length
  if start ≠ magic then fail .badMagic
  let found ← byte
  if found ≠ version.toNat then fail (.unsupportedVersion found)
  let stringCount ← varint
  let strings ← many stringCount text
  let directoryCount ← varint
  let directory ← many directoryCount entry
  let zonesLength ← varint
  let zones ← take zonesLength
  pure { strings, directory, zones }

/-- The zone at a place. -/
def Sections.zoneAt (s : Sections) (place : Nat) : Except DecodeError CompiledZone :=
  if s.zones.length < place then .error (.unexpectedEnd place)
  else (Decoder.zone s.strings).decode (s.zones.drop place)

/-- The zone at a place, which is read unless it is among the zones that have been read. -/
def Sections.zoneOnce (s : Sections) (decoded : List (Nat × CompiledZone)) (place : Nat)
    : Except DecodeError CompiledZone :=
  match decoded.lookup place with
  | some zone => .ok zone
  | none => s.zoneAt place

/-- Reads the zones of the remaining directory entries into an index ordered by name. The place of
a zone is its token. -/
def Sections.index (s : Sections)
    : List (Nat × Nat) → List (Nat × CompiledZone) → ZoneIndex
      → Except DecodeError (ZoneIndex)
  | [], _, index => .ok index
  | (nameIndex, place) :: rest, decoded, index => do
    let name ← Decoder.stringAt s.strings nameIndex
    let zone ← s.zoneOnce decoded place
    s.index rest ((place, zone) :: decoded) (index.insertSorted name { token := place, zone })

/-- The zones of an artifact under their names, ordered by name. -/
def read (bytes : List UInt8) : Except DecodeError (ZoneIndex) := do
  let sections ← Decoder.sections.decode bytes
  sections.index sections.directory [] []

end CivilTime.Artifact
