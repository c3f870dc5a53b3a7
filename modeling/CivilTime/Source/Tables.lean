import CivilTime.Rule.RuleSet
import CivilTime.Source.Record
import CivilTime.Table

/-! The records of one or more sources.
Rules of one name are collected in one rule set, while a zone or link name keeps its first record
and reports every further one. Records keep the order of their sources.
-/

namespace CivilTime

structure Tables where
  rules : Table RuleSet
  zones : Table ZoneRecord
  links : Table Link
  errors : List LineError
  deriving DecidableEq, Repr, Inhabited

namespace Tables

/-- No records. -/
def empty : Tables := { rules := [], zones := [], links := [], errors := [] }

/-- Reports an error. -/
def report (t : Tables) (error : LineError) : Tables := { t with errors := t.errors ++ [error] }

/-- Adds a recurrence to the rule set of its name. -/
def addRule (t : Tables) (r : Recurrence) : Tables :=
  { t with rules := t.rules.alter r.name fun old => (old.getD (.empty r.name)).push r }

/-- Adds a zone, unless its name is taken. -/
def addZone (t : Tables) (name : String) (record : ZoneRecord) : Tables :=
  if t.zones.contains name then t.report { line := record.line, fault := .duplicateName name }
  else { t with zones := t.zones ++ [(name, record)] }

/-- Adds a link, unless its name is taken by another one. -/
def addLink (t : Tables) (link : Link) : Tables :=
  if t.links.contains link.name then
    t.report { line := link.line, fault := .duplicateName link.name }
  else { t with links := t.links ++ [(link.name, link)] }

/-- Adds the recurrences of a rule set to the one of its name. -/
def addRuleSet (t : Tables) (name : String) (rules : RuleSet) : Tables :=
  { t with
    rules := t.rules.alter name fun old =>
      match old with
      | some old => old.append rules
      | none => rules }

/-- Adds all records of another source. Its own errors follow the ones that adding them brings. -/
def extend (t other : Tables) : Tables :=
  let t := other.rules.foldl (fun t (name, rules) => t.addRuleSet name rules) t
  let t := other.zones.foldl (fun t (name, record) => t.addZone name record) t
  let t := other.links.foldl (fun t (_, link) => t.addLink link) t
  { t with errors := t.errors ++ other.errors }

end Tables

/-- The zone that the next line may belong to. -/
inductive OpenZone where
  | idle
  /-- A zone whose last line has an end. -/
  | collecting (name : String) (record : ZoneRecord)
  /-- A zone with a refused line, whose remaining lines are passed over. -/
  | discarding
  deriving DecidableEq, Repr, Inhabited

namespace OpenZone

/-- Whether the next line is expected to continue a zone. -/
def expectsLine : OpenZone → Bool
  | idle => false
  | _ => true

/-- The fewest columns of a further zone line that has an end. -/
def columnsWithEnd : Nat := 4

/-- The fewest columns of a zone header that has an end. -/
def headerColumnsWithEnd : Nat := 6

/-- Whether a first word announces a zone. -/
def isHeader (columns : List String) : Bool :=
  columns.head?.any fun word => RecordKind.ofWord? word == some .zone

/-- What follows a refused line: the lines that would have continued its zone are passed over. -/
def afterRefused (zone : OpenZone) (columns : List String) : OpenZone :=
  let expectsMore :=
    if zone.expectsLine then columnsWithEnd ≤ columns.length
    else isHeader columns && headerColumnsWithEnd ≤ columns.length
  if expectsMore then .discarding else .idle

end OpenZone

/-- What has been read of a source. -/
structure Collector where
  place : Place
  zone : OpenZone
  tables : Tables
  deriving Repr, Inhabited

namespace Collector

/-- Nothing read yet. -/
def start : Collector := { place := .start, zone := .idle, tables := .empty }

/-- Takes a zone whose last line is `l`: it is complete if the line never ends. -/
def takeZone (c : Collector) (name : String) (record : ZoneRecord) (l : ZoneLine) : Collector :=
  if l.isOpen then { c with zone := .idle, tables := c.tables.addZone name record }
  else { c with zone := .collecting name record }

/-- Takes a record. -/
def takeRecord (c : Collector) : Record → Collector
  | .rule r => { c with tables := c.tables.addRule r }
  | .zone name l => c.takeZone name (.ofHeader l) l
  | .continuation l =>
    match c.zone with
    | .collecting name record => c.takeZone name (record.push l) l
    | _ => if l.isOpen then { c with zone := .idle } else c
  | .link link => { c with tables := c.tables.addLink link }

/-- Takes the columns of a line that may be a record. -/
def takeColumns (c : Collector) (columns : List String) : Collector :=
  match (Record.readColumns c.zone.expectsLine columns).run c.place with
  | (.ok none, place) => { c with place }
  | (.ok (some record), place) => { c with place }.takeRecord record
  | (.error error, place) =>
    { place, zone := c.zone.afterRefused columns, tables := c.tables.report error }

/-- Takes a line. Lines without columns are counted and have no other effect. -/
def takeLine (c : Collector) (line : String) : Collector :=
  let c := { c with place := c.place.nextLine }
  let columns := columnsOf line
  if columns.isEmpty then c
  else
    match c.zone with
    | .discarding =>
      if columns.length < OpenZone.columnsWithEnd then { c with zone := .idle } else c
    | _ => c.takeColumns columns

/-- The records read. A zone that still expects a line ends where its last line does. -/
def finish (c : Collector) : Tables :=
  match c.zone with
  | .collecting name record => c.tables.addZone name record
  | _ => c.tables

end Collector

/-- The records of a source text. Refused lines are reported and do not stop the reading. -/
def Tables.ofText (text : String) : Tables :=
  ((Text.lines text).foldl Collector.takeLine .start).finish

end CivilTime
