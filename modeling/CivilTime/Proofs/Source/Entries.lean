import CivilTime.Proofs.Source.Place
import CivilTime.Source.Tables

/-! A source is a list of entries.
Which entry a line adds, if any, is decided by its columns, its number and the zone that is open in
front of it. The tables take no part in that, so they are the entries added one after the other.
-/

namespace CivilTime

/-- What a line adds to the tables. -/
inductive Entry where
  | rule (recurrence : Recurrence)
  | zone (name : String) (record : ZoneRecord)
  | link (link : Link)
  | error (error : LineError)
  deriving DecidableEq, Repr

namespace Tables

def add (t : Tables) : Entry → Tables
  | .rule r => t.addRule r
  | .zone name record => t.addZone name record
  | .link link => t.addLink link
  | .error error => t.report error

def addAll (t : Tables) (entries : List Entry) : Tables := entries.foldl add t

@[simp] theorem addAll_nil (t : Tables) : t.addAll [] = t := rfl

@[simp] theorem addAll_cons (t : Tables) (entry : Entry) (rest : List Entry)
    : t.addAll (entry :: rest) = (t.add entry).addAll rest :=
  rfl

theorem addAll_append (t : Tables) (front back : List Entry)
    : t.addAll (front ++ back) = (t.addAll front).addAll back :=
  List.foldl_append ..

end Tables

/-- The record on a line of a number. -/
def Record.onLine (continued : Bool) (number : Nat) (columns : List String)
    : Except LineError (Option Record) :=
  ((Record.readColumns continued columns).run (.ofLine number)).1

namespace OpenZone

/-- A zone whose last line is `l` is added if the line never ends, and stays open otherwise. -/
def takeZone (name : String) (record : ZoneRecord) (l : ZoneLine) : OpenZone × Option Entry :=
  if l.isOpen then (.idle, some (.zone name record)) else (.collecting name record, none)

def takeRecord (zone : OpenZone) : Record → OpenZone × Option Entry
  | .rule r => (zone, some (.rule r))
  | .zone name l => takeZone name (.ofHeader l) l
  | .continuation l =>
    match zone with
    | .collecting name record => takeZone name (record.push l) l
    | _ => (if l.isOpen then .idle else zone, none)
  | .link link => (zone, some (.link link))

/-- What is open behind a line that may be a record, and the entry of the line. -/
def takeColumns (zone : OpenZone) (number : Nat) (columns : List String)
    : OpenZone × Option Entry :=
  match Record.onLine zone.expectsLine number columns with
  | .ok none => (zone, none)
  | .ok (some record) => zone.takeRecord record
  | .error error => (zone.afterRefused columns, some (.error error))

/-- What is open behind a line, and the entry of the line. -/
def takeLine (zone : OpenZone) (number : Nat) (columns : List String)
    : OpenZone × Option Entry :=
  if columns.isEmpty then (zone, none)
  else
    match zone with
    | .discarding => (if columns.length < columnsWithEnd then .idle else .discarding, none)
    | _ => zone.takeColumns number columns

/-- What is open behind lines, and their entries. The lines follow one of the given number. -/
def run (zone : OpenZone) (number : Nat) : List (List String) → OpenZone × List Entry
  | [] => (zone, [])
  | columns :: rest =>
    let step := zone.takeLine (number + 1) columns
    let behind := step.1.run (number + 1) rest
    (behind.1, step.2.toList ++ behind.2)

/-- The entry of a zone that is open at the end of a source. -/
def closing : OpenZone → List Entry
  | .collecting name record => [.zone name record]
  | _ => []

theorem run_append (zone : OpenZone) (number : Nat) (front back : List (List String))
    : zone.run number (front ++ back)
      = (((zone.run number front).1.run (number + front.length) back).1,
        (zone.run number front).2
          ++ ((zone.run number front).1.run (number + front.length) back).2) := by
  induction front generalizing zone number with
  | nil => rfl
  | cons columns rest ih =>
      simp only [List.cons_append, run, ih, List.length_cons, List.append_assoc]
      rw [Nat.add_assoc, Nat.add_comm 1]

theorem run_singleton (zone : OpenZone) (number : Nat) (columns : List String)
    : zone.run number [columns]
      = ((zone.takeLine (number + 1) columns).1,
        (zone.takeLine (number + 1) columns).2.toList) := by
  simp only [run, List.append_nil]

end OpenZone

-----------------------------------------------------------------------------------------
-- The collector
-----------------------------------------------------------------------------------------

namespace Collector

variable {c : Collector}

/-- The collector that follows a step of the open zone has added the entry of the step. -/
structure Follows (t : Tables) (c : Collector) (step : OpenZone × Option Entry) : Prop where
  zone : c.zone = step.1
  tables : c.tables = t.addAll step.2.toList

theorem follows_takeZone (c : Collector) (name : String) (record : ZoneRecord) (l : ZoneLine)
    : Follows c.tables (c.takeZone name record l) (OpenZone.takeZone name record l) := by
  unfold Collector.takeZone OpenZone.takeZone
  cases l.isOpen <;> exact ⟨rfl, rfl⟩

theorem follows_takeRecord (c : Collector) (record : Record)
    : Follows c.tables (c.takeRecord record) (c.zone.takeRecord record) := by
  obtain ⟨place, zone, tables⟩ := c
  cases record with
  | rule r => exact ⟨rfl, rfl⟩
  | link link => exact ⟨rfl, rfl⟩
  | zone name l => exact follows_takeZone _ name _ l
  | continuation l =>
      cases zone with
      | collecting name record => exact follows_takeZone _ name _ l
      | idle =>
          simp only [takeRecord, OpenZone.takeRecord]
          cases l.isOpen <;> exact ⟨rfl, rfl⟩
      | discarding =>
          simp only [takeRecord, OpenZone.takeRecord]
          cases l.isOpen <;> exact ⟨rfl, rfl⟩

theorem place_takeRecord (c : Collector) (record : Record)
    : (c.takeRecord record).place = c.place := by
  have place_takeZone (name : String) (r : ZoneRecord) (l : ZoneLine)
      : (c.takeZone name r l).place = c.place := by
    unfold Collector.takeZone
    cases l.isOpen <;> rfl
  cases record with
  | rule r => rfl
  | link link => rfl
  | zone name l => exact place_takeZone name _ l
  | continuation l =>
      simp only [takeRecord]
      split
      · exact place_takeZone _ _ l
      · cases l.isOpen <;> rfl

theorem follows_takeColumns (c : Collector) {number : Nat} (columns : List String)
    (place_eq : c.place = .ofLine number)
    : Follows c.tables (c.takeColumns columns) (c.zone.takeColumns number columns) := by
  unfold Collector.takeColumns OpenZone.takeColumns Record.onLine
  rw [← place_eq]
  cases (Record.readColumns c.zone.expectsLine columns).run c.place with
  | mk outcome after =>
      cases outcome with
      | error error => exact ⟨rfl, rfl⟩
      | ok found =>
          cases found with
          | none => exact ⟨rfl, rfl⟩
          | some record => exact follows_takeRecord { c with place := after } record

theorem within_takeColumns (c : Collector) (columns : List String)
    : c.place.Within (c.takeColumns columns).place := by
  have stays := (Record.restores_readColumns c.zone.expectsLine columns).within_run c.place
  unfold Collector.takeColumns
  cases outcome : (Record.readColumns c.zone.expectsLine columns).run c.place with
  | mk given after =>
      rw [outcome] at stays
      cases given with
      | error error => exact stays
      | ok found =>
          cases found with
          | none => exact stays
          | some record => exact (place_takeRecord { c with place := after } record) ▸ stays

theorem follows_takeLine (grounded : c.place.Grounded) (line : String)
    : Follows c.tables (c.takeLine line) (c.zone.takeLine (c.place.line + 1) (columnsOf line)) := by
  obtain ⟨place, zone, tables⟩ := c
  have next : place.nextLine = .ofLine (place.line + 1) := grounded.nextLine
  simp only [Collector.takeLine, OpenZone.takeLine]
  generalize columnsOf line = columns
  cases columns.isEmpty with
  | true =>
      simp only [if_true]
      exact ⟨rfl, rfl⟩
  | false =>
      simp only [Bool.false_eq_true, if_false]
      cases zone with
      | discarding =>
          simp only
          split <;> exact ⟨rfl, rfl⟩
      | idle => exact follows_takeColumns { place := place.nextLine, zone := .idle, tables } _ next
      | collecting name record =>
          exact follows_takeColumns
            { place := place.nextLine, zone := .collecting name record, tables } _ next

/-- A line is read from its start, whatever is left open on it. -/
theorem within_takeLine (grounded : c.place.Grounded) (line : String)
    : (Place.ofLine (c.place.line + 1)).Within (c.takeLine line).place := by
  rw [← grounded.nextLine]
  simp only [Collector.takeLine]
  split
  · exact .refl _
  · split
    · split <;> exact .refl _
    · exact within_takeColumns { c with place := c.place.nextLine } _

/-- The collector holds the zone and the tables that the lines lead to, by induction on the lines.
-/
theorem takeLines_eq (grounded : c.place.Grounded) (lines : List String)
    : (lines.foldl takeLine c).zone = (c.zone.run c.place.line (lines.map columnsOf)).1
      ∧ (lines.foldl takeLine c).tables
        = c.tables.addAll (c.zone.run c.place.line (lines.map columnsOf)).2 := by
  induction lines generalizing c with
  | nil => exact ⟨rfl, rfl⟩
  | cons line rest ih =>
      have follows := follows_takeLine grounded line
      have inside := within_takeLine grounded line
      have number_eq : c.place.line + 1 = (c.takeLine line).place.line := inside.line.symm
      rw [List.foldl_cons, List.map_cons, OpenZone.run, Tables.addAll_append, ← follows.zone,
        ← follows.tables, number_eq]
      exact ih (inside.grounded (Place.grounded_ofLine _))

end Collector

-----------------------------------------------------------------------------------------
-- The text
-----------------------------------------------------------------------------------------

namespace Text

/-- The columns of each line of a text. -/
def columnLines (text : String) : List (List String) := (lines text).map columnsOf

end Text

/-- The zone that is open in front of the line at a position of a text. -/
def OpenZone.inFrontOf (text : String) (position : Nat) : OpenZone :=
  (((Text.lines text).take position).foldl Collector.takeLine .start).zone

theorem OpenZone.inFrontOf_eq (text : String) (position : Nat)
    : inFrontOf text position = (idle.run 0 ((Text.columnLines text).take position)).1 := by
  rw [inFrontOf, (Collector.takeLines_eq Place.grounded_start _).1, Text.columnLines,
    ← List.map_take]
  rfl

/-- The entries of a text. -/
def Entry.listOf (text : String) : List Entry :=
  (OpenZone.idle.run 0 (Text.columnLines text)).2
    ++ (OpenZone.idle.run 0 (Text.columnLines text)).1.closing

/-- The tables of a text hold its entries. -/
theorem Tables.ofText_eq (text : String)
    : Tables.ofText text = empty.addAll (Entry.listOf text) := by
  have taken := Collector.takeLines_eq (c := .start) Place.grounded_start (Text.lines text)
  have finished (c : Collector) : c.finish = c.tables.addAll c.zone.closing := by
    unfold Collector.finish OpenZone.closing
    cases c.zone <;> rfl
  rw [Tables.ofText, finished, taken.1, taken.2, ← addAll_append]
  rfl

end CivilTime
