import CivilTime.Artifact.Varint
import CivilTime.Text.Utf8
import CivilTime.Zone.Shared

/-! Artifacts hold the zones of many names in one sequence of bytes.
An artifact is the magic bytes and the version, the strings, a directory from names to the places
of their zones, and the zones themselves. Strings and shared zones are written once. The start of a
zone and the contiguity of its intervals are implied.
-/

namespace CivilTime.Artifact

/-- The bytes that begin every artifact, the letters `TZDC`. -/
def magic : List UInt8 := [0x54, 0x5a, 0x44, 0x43]

/-- The version of the format. -/
def version : UInt8 := 1

/-- The strings of an artifact in the order of their indices. -/
abbrev Strings := List String

/-- A writer that gives indices to the strings it uses. -/
abbrev Encoder (α : Type) := StateM Strings α

namespace Encoder

/-- The index of a string, the next free one for a new string. -/
def intern (s : String) : Encoder Nat := do
  let strings ← get
  match strings.idxOf? s with
  | some index => pure index
  | none => do
    set (strings ++ [s])
    pure strings.length

/-- The bytes of a string's index. -/
def string (s : String) : Encoder (List UInt8) := writeVarint <$> intern s

/-- The bytes of optional letters: zero, or their index plus one. -/
def letter : Option String → Encoder (List UInt8)
  | none => pure [0]
  | some s => (fun index => writeVarint (index + 1)) <$> intern s

/-- The bytes of a year bound. -/
def yearBytes : YearBound → List UInt8
  | .earliest => [0]
  | .year y => 1 :: writeSigned y
  | .latest => [2]

/-- The bytes of a day rule. -/
def dayBytes : DayRule → List UInt8
  | .fixed day => [0, day.toUInt8]
  | .last weekDay => [1, weekDay.number.toUInt8]
  | .onOrAfter weekDay day => [2, weekDay.number.toUInt8, day.toUInt8]
  | .onOrBefore weekDay day => [3, weekDay.number.toUInt8, day.toUInt8]

/-- The tag of the clock of a time of day. -/
def modeTag : ClockMode → UInt8
  | .wall => 0
  | .standard => 1
  | .universal => 2

/-- The bytes of a recurrence. -/
def recurrence (r : Recurrence) : Encoder (List UInt8) := do
  let name ← string r.name
  let letters ← letter r.letter
  pure (name ++ yearBytes r.first ++ yearBytes r.last ++ [r.month.number.toUInt8] ++
    dayBytes r.day ++ writeSigned r.time.time.seconds ++ [modeTag r.time.mode] ++
    writeSigned r.save.seconds ++ letters)

/-- The bytes of the values of a list, one behind the other. -/
def each (encode : α → Encoder (List UInt8)) : List α → Encoder (List UInt8)
  | [] => pure []
  | value :: rest => do
    let bytes ← encode value
    let others ← each encode rest
    pure (bytes ++ others)

/-- The bytes of a tail without its start, which is the end of the last interval. -/
def tail (t : Tail) : Encoder (List UInt8) := do
  let format ← string t.format.source
  let letters ← letter t.initialLetter
  let recurrences ← each recurrence t.rules.recurrences
  pure (writeSigned t.stdOffset ++ format ++ writeSigned t.initialSavings ++ letters ++
    writeVarint t.rules.recurrences.length ++ recurrences)

/-- The bytes of an optional tail. -/
def optionalTail : Option Tail → Encoder (List UInt8)
  | none => pure [0]
  | some t => (1 :: ·) <$> tail t

/-- The bytes of the offsets and the name of an interval. -/
def interval (i : Interval) : Encoder (List UInt8) := do
  let name ← string i.name
  pure (writeSigned i.wallOffset ++ writeSigned i.savings ++ name)

/-- The bytes of starts as differences, each from the one before and the first from `base`. -/
def startBytes (base : Int) : List Interval → List UInt8
  | [] => []
  | i :: rest => writeSigned (Instant.wrap (i.start - base)) ++ startBytes i.start rest

/-- The start from which the end of the last interval is counted. The implied first start counts as
zero. -/
def lastBase (intervals : List Interval) : Int :=
  match intervals.tail.getLast? with
  | some last => last.start
  | none => 0

/-- The bytes of the end of the last interval, which an open one leaves out. -/
def endBytes (intervals : List Interval) : List UInt8 :=
  match intervals.getLast? with
  | none => [0]
  | some last =>
    if last.isOpen then [0]
    else 1 :: writeSigned (Instant.wrap (last.stop - lastBase intervals))

/-- The bytes of a zone. -/
def zone (z : CompiledZone) : Encoder (List UInt8) := do
  let states ← each interval z.intervals
  let tail ← optionalTail z.tail
  pure (writeVarint z.intervals.length ++ startBytes 0 z.intervals.tail ++ states ++
    endBytes z.intervals ++ tail)

end Encoder

/-- An artifact while zones are added to it. -/
structure Writer where
  strings : Strings
  /-- The bytes of the zones, the last one first. -/
  newestFirst : List (List UInt8)
  /-- The length of the bytes of all zones. -/
  size : Nat
  /-- The place of each zone that has been written, by its token. -/
  places : List (Nat × Nat)
  /-- The place of the zone of each name, ordered by name. -/
  directory : Table Nat
  deriving DecidableEq, Repr, Inhabited

namespace Writer

/-- An artifact without zones. -/
def empty : Writer :=
  { strings := [], newestFirst := [], size := 0, places := [], directory := [] }

/-- Writes a zone that has not been written yet. -/
def writeZone (w : Writer) (shared : SharedZone) : Writer :=
  let (bytes, strings) := (Encoder.zone shared.zone).run w.strings
  { w with
    strings
    newestFirst := bytes :: w.newestFirst
    size := w.size + bytes.length
    places := (shared.token, w.size) :: w.places }

/-- Gives a name to the zone at a place. -/
def point (w : Writer) (name : String) (place : Nat) : Writer :=
  { w with directory := w.directory.insertSorted name place }

/-- Adds a zone under a name. A zone that is shared with an earlier name is not written again. -/
def add (w : Writer) (name : String) (shared : SharedZone) : Writer :=
  match w.places.lookup shared.token with
  | some place => w.point name place
  | none => (w.writeZone shared).point name w.size

/-- The bytes of a string. -/
def stringBytes (s : String) : List UInt8 :=
  let bytes := Text.encode s
  writeVarint bytes.length ++ bytes

/-- The bytes of a directory entry. -/
def entryBytes (entry : String × Nat) : Encoder (List UInt8) := do
  let name ← Encoder.string entry.1
  pure (name ++ writeVarint entry.2)

/-- The bytes of the artifact. -/
def finish (w : Writer) : List UInt8 :=
  let (entries, strings) := (Encoder.each entryBytes w.directory).run w.strings
  magic ++ [version] ++
    writeVarint strings.length ++ strings.flatMap stringBytes ++
    writeVarint w.directory.length ++ entries ++
    writeVarint w.size ++ w.newestFirst.reverse.flatten

/-- The artifact that holds the zones of an index. -/
def ofIndex (index : ZoneIndex) : Writer :=
  index.foldl (fun w (name, shared) => w.add name shared) .empty

end Writer

end CivilTime.Artifact
