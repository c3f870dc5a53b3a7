import CivilTime.Artifact.Reader
import CivilTime.Atlas.Choice
import CivilTime.Atlas.Error
import CivilTime.Atlas.LocalDateTime
import CivilTime.Atlas.NameLookup
import CivilTime.Zone.LocalTime

/-! An atlas answers queries about the zones of an artifact.
Names are matched without regard to the case of ASCII letters. Of names that differ in case only,
the last one in order is found.
-/

namespace CivilTime

/-- The text of an offset from universal time: a sign, hours and minutes, and seconds if any. -/
def offsetText (offset : Int) : String :=
  let amount := offset.natAbs
  (if offset < 0 then "-" else "+") ++ Text.twoDigits (amount / 3600) ++ ":" ++
    Text.twoDigits (amount % 3600 / 60) ++
    (if amount % 60 = 0 then "" else ":" ++ Text.twoDigits (amount % 60))

/-- An instant and the offset that it was resolved with. -/
structure Resolved where
  instant : Int
  offset : Int
  deriving DecidableEq, Repr, Inhabited

/-- The offset in effect at an instant. -/
structure OffsetInfo where
  /-- The instant from which the offset applies, absent from the beginning of time. -/
  since : Option Int
  offset : Int
  isSaving : Bool
  abbreviation : String
  deriving DecidableEq, Repr, Inhabited

/-- The offset of an interval. -/
def OffsetInfo.ofInterval (i : Interval) : OffsetInfo :=
  { since := if i.start = beginningOfTime then none else some i.start
    offset := i.wallOffset
    isSaving := i.isSaving
    abbreviation := i.name }

/-- The instants at which the clock shows a reading. -/
inductive Candidates where
  | skipped (gap : LocalGap)
  | once (instant : Resolved)
  | twice (earlier later : Resolved)
  deriving DecidableEq, Repr, Inhabited

namespace Candidates

/-- The instant at which the clock shows a reading during an interval. -/
def inInterval (reading : Int) (i : Interval) : Resolved :=
  { instant := reading - i.wallOffset, offset := i.wallOffset }

/-- The instants for the intervals that show a reading. -/
def ofIntervals (reading : Int) : LocalIntervals → Candidates
  | .skipped gap => skipped gap
  | .once i => once (inInterval reading i)
  | .twice earlier later => twice (inInterval reading earlier) (inInterval reading later)

/-- The instants in order. -/
def toList : Candidates → List Resolved
  | skipped _ => []
  | once instant => [instant]
  | twice earlier later => [earlier, later]

/-- The gap that the reading falls into. -/
def gap? : Candidates → Option LocalGap
  | skipped gap => some gap
  | _ => none

/-- The one instant that a disambiguation chooses. In a gap the offset of the other side is applied
to the reading, which leads to the chosen side. -/
def choose (reading : Int) : Candidates → Disambiguation → Except QueryError Resolved
  | once instant, _ => .ok instant
  | twice _ _, .reject => .error (.rejected .ambiguous)
  | twice _ later, .later => .ok later
  | twice earlier _, _ => .ok earlier
  | skipped _, .reject => .error (.rejected .skipped)
  | skipped gap, .earlier => .ok { instant := reading - gap.after, offset := gap.before }
  | skipped gap, _ => .ok { instant := reading - gap.before, offset := gap.after }

end Candidates

/-- A loaded artifact. -/
structure Atlas where
  /-- The zones, ordered by name. -/
  index : ZoneIndex
  /-- The names in order. -/
  names : List String
  lookup : NameLookup
  deriving Inhabited

namespace Atlas

/-- The atlas of an index with a lookup of its names, unless that cannot hold one of them. -/
def ofIndexWith (build : NameLookup.Builder) (index : ZoneIndex) : Except QueryError Atlas :=
  match build (NameLookup.keysOf index.names) with
  | some lookup => .ok { index, names := index.names, lookup }
  | none => .error (.data .unindexableName)

/-- The atlas of the bytes of an artifact with a lookup of its names. -/
def ofBytesWith (build : NameLookup.Builder) (bytes : List UInt8) : Except QueryError Atlas :=
  match Artifact.read bytes with
  | .ok index => ofIndexWith build index
  | .error error => .error (.data error)

/-- The atlas of the bytes of an artifact. -/
def ofBytes (bytes : List UInt8) : Except QueryError Atlas := ofBytesWith NameLookup.ascii bytes

/-- Reads an artifact from a file. -/
def load [Monad m] (files : FileAccess m) (path : String) : m (Except QueryError Atlas) := do
  match ← files.readBytes path with
  | .ok bytes => pure (ofBytes bytes)
  | .error error => pure (.error (.file error))

/-- The name that bytes spell, as it is written in the data. -/
def normalizeBytes (atlas : Atlas) (bytes : List UInt8) : Except QueryError String :=
  match (atlas.lookup bytes).bind fun position => atlas.names[position]? with
  | some name => .ok name
  | none => .error (.unknownName (Text.decodeLossy bytes))

/-- The name that a text spells, as it is written in the data. -/
def normalize (atlas : Atlas) (name : String) : Except QueryError String :=
  atlas.normalizeBytes (Text.encode name)

/-- The zone of a name. -/
def zone (atlas : Atlas) (name : String) : Except QueryError CompiledZone := do
  let normalized ← atlas.normalize name
  match atlas.index.get? normalized with
  | some shared => pure shared.zone
  | none => throw (.unknownName name)

/-- A lookup in a zone as a query. -/
def ofLookup (result : Except Fault α) : Except QueryError α := result.mapError .zone

/-- The answer of a query that may be outside of a range. -/
def inRange (fault : RangeFault) : Option α → Except QueryError α
  | some value => .ok value
  | none => .error (.outOfRange fault)

/-- The offset in effect at an instant. -/
def offsetAt (atlas : Atlas) (name : String) (instant : Int) : Except QueryError OffsetInfo := do
  let zone ← atlas.zone name
  let interval ← ofLookup (zone.intervalAt instant)
  inRange .instant (interval.map .ofInterval)

/-- The seconds of a wall clock reading. -/
def readingOf (d : LocalDateTime) : Except QueryError Int := inRange .year d.seconds?

/-- The instants at which the clock of a zone shows a date and time. -/
def candidates (atlas : Atlas) (name : String) (d : LocalDateTime)
    : Except QueryError Candidates := do
  let reading ← readingOf d
  let zone ← atlas.zone name
  let intervals ← ofLookup (zone.intervalsForLocal reading)
  inRange .localTime (intervals.map (.ofIntervals reading))

/-- The one instant for a date and time of the wall clock. -/
def resolve (atlas : Atlas) (name : String) (d : LocalDateTime) (choice : Disambiguation)
    : Except QueryError Resolved := do
  let candidates ← atlas.candidates name d
  let reading ← readingOf d
  candidates.choose reading choice

/-- The nearest boundary on one side of an instant. -/
def transition (atlas : Atlas) (name : String) (instant : Int) (direction : Direction)
    : Except QueryError (Option Int) := do
  let zone ← atlas.zone name
  ofLookup
    (match direction with
      | .next => zone.nextTransition instant
      | .previous => zone.previousTransition instant)

end Atlas

end CivilTime
