import CivilTime.Proofs.Source.Accounts
import CivilTime.Proofs.Source.Removal

/-! A line that is refused costs a source the record of the line, and nothing else.
Behind a refused line of a zone the lines of the zone are passed over by their columns alone. They
are as many as would have been read, since a zone line has an end exactly if it has the columns for
one, so the reading is in step again behind the zone.
-/

namespace CivilTime

-----------------------------------------------------------------------------------------
-- Entries of the lines from one on
-----------------------------------------------------------------------------------------

namespace OpenZone

variable {zone : OpenZone} {number : Nat} {columns other : List String}
  {rest : List (List String)} {record : Record} {error : LineError}

/-- The entries of the last lines of a source, with the one of a zone that is open at its end. The
lines follow one of the given number. -/
def entries (zone : OpenZone) (number : Nat) (lines : List (List String)) : List Entry :=
  (zone.run number lines).2 ++ (zone.run number lines).1.closing

theorem entries_cons (zone : OpenZone) (number : Nat) (columns : List String)
    (rest : List (List String))
    : zone.entries number (columns :: rest)
      = (zone.takeLine (number + 1) columns).2.toList
        ++ (zone.takeLine (number + 1) columns).1.entries (number + 1) rest :=
  List.append_assoc ..

theorem entries_append (zone : OpenZone) (number : Nat) (front back : List (List String))
    : zone.entries number (front ++ back)
      = (zone.run number front).2
        ++ (zone.run number front).1.entries (number + front.length) back := by
  rw [entries, run_append, List.append_assoc]
  rfl

/-- Behind a refused line of a zone as many lines are passed over as would have been read for it, if
none of them is refused. The induction is on the lines. -/
theorem entries_discarding {name : String} {record : ZoneRecord} {lines : List (List String)}
    (clean : ((collecting name record).entries number lines).filterMap Entry.error? = [])
    : ∃ complete,
        (collecting name record).entries number lines
        = .zone name complete :: discarding.entries number lines := by
  induction lines generalizing number record with
  | nil => exact ⟨record, rfl⟩
  | cons columns rest ih =>
      by_cases empty : columns = []
      · subst empty
        exact ih clean
      have step := step_takeLine (.collecting name record) (number + 1) columns
      rw [entries_cons] at clean ⊢
      rw [entries_cons, takeLine_discarding empty]
      generalize takeLine (.collecting name record) (number + 1) columns = taken at step clean ⊢
      obtain ⟨behind, entry⟩ := taken
      dsimp only at step clean ⊢
      cases step with
      | blank same => exact absurd same empty
      | refused => cases clean
      | further read ended =>
          cases Record.shape_of_onLine read with
          | further _ _ enough =>
              rw [if_neg (Nat.not_lt.mpr (enough.mp ended))]
              exact ih clean
      | closed read endless =>
          cases Record.shape_of_onLine read with
          | further _ _ enough =>
              have few : columns.length < columnsWithEnd := by
                rw [← Nat.not_le, ← enough, endless]
                simp
              rw [if_pos few]
              exact ⟨_, rfl⟩

end OpenZone

-----------------------------------------------------------------------------------------
-- A refused line in the place of a record
-----------------------------------------------------------------------------------------

/-- The columns of a refused line are as many as keep the lines behind it in step, if they stand in
the place of those of the record. -/
def Record.KeepsRole (columns other : List String) : Record → Prop
  | .rule _ | .link _ =>
    ¬ (OpenZone.isHeader other = true ∧ OpenZone.headerColumnsWithEnd ≤ other.length)
  | .zone _ _ =>
    OpenZone.isHeader other = true
    ∧ (OpenZone.headerColumnsWithEnd ≤ other.length
      ↔ OpenZone.headerColumnsWithEnd ≤ columns.length)
  | .continuation _ =>
    OpenZone.columnsWithEnd ≤ other.length ↔ OpenZone.columnsWithEnd ≤ columns.length

namespace OpenZone

variable {zone : OpenZone} {number : Nat} {columns other : List String}
  {rest : List (List String)} {record : Record} {error : LineError}

/-- The entry of the record on a line, given the zone that is open in front of the line. A line of a
zone belongs to the entry of the whole zone. -/
inductive BelongsTo (zone : OpenZone) : Record → Entry → Prop
  | rule (r : Recurrence) : BelongsTo zone (.rule r) (.rule r)
  | link (l : Link) : BelongsTo zone (.link l) (.link l)
  | header (name : String) (l : ZoneLine) (complete : ZoneRecord)
    : BelongsTo zone (.zone name l) (.zone name complete)
  | further {name : String} {record : ZoneRecord} (open_eq : zone = .collecting name record)
    (l : ZoneLine) (complete : ZoneRecord)
    : BelongsTo zone (.continuation l) (.zone name complete)

/-- A line that is refused adds its error. -/
theorem takeLine_of_refused (met : zone ≠ .discarding)
    (refused : Record.onLine zone.expectsLine number other = .error error)
    : zone.takeLine number other = (zone.afterRefused other, some (.error error)) := by
  have filled : other ≠ [] := by
    rintro rfl
    cases refused
  rw [takeLine_eq met filled, takeColumns, refused]

theorem afterRefused_idle (other : List String)
    : idle.afterRefused other
      = if isHeader other = true ∧ headerColumnsWithEnd ≤ other.length then .discarding
        else .idle := by
  simp [afterRefused, expectsLine]

theorem afterRefused_collecting (name : String) (record : ZoneRecord) (other : List String)
    : (collecting name record).afterRefused other
      = if columnsWithEnd ≤ other.length then .discarding else .idle := by
  simp [afterRefused, expectsLine]

/-- A refused line in the place of a record leaves its error in the place of the entry of the
record, if it keeps the role of the record and no other line is refused. -/
theorem entries_of_refused (met : zone ≠ .discarding)
    (read : Record.onLine zone.expectsLine (number + 1) columns = .ok (some record))
    (refused : Record.onLine zone.expectsLine (number + 1) other = .error error)
    (keeps : record.KeepsRole columns other)
    (clean : (zone.entries number (columns :: rest)).filterMap Entry.error? = [])
    : ∃ entry behind,
        zone.BelongsTo record entry
        ∧ zone.entries number (columns :: rest) = entry :: behind
        ∧ zone.entries number (other :: rest) = .error error :: behind := by
  have step := step_takeLine zone (number + 1) columns
  rw [entries_cons] at clean
  rw [entries_cons, entries_cons, takeLine_of_refused met refused]
  generalize zone.takeLine (number + 1) columns = taken at step clean ⊢
  obtain ⟨after, entry⟩ := taken
  dsimp only at step clean ⊢
  have shape := Record.shape_of_onLine read
  cases step with
  | blank empty => exact absurd empty (Record.ne_nil_of_onLine read)
  | passed => exact absurd rfl met
  | passedLast => exact absurd rfl met
  | refused _ also_refused => cases also_refused.symm.trans read
  | rule also_read =>
      obtain rfl := Option.some.inj (Except.ok.inj (also_read.symm.trans read))
      rw [afterRefused_idle, if_neg keeps]
      exact ⟨_, _, .rule _, rfl, rfl⟩
  | link also_read =>
      obtain rfl := Option.some.inj (Except.ok.inj (also_read.symm.trans read))
      rw [afterRefused_idle, if_neg keeps]
      exact ⟨_, _, .link _, rfl, rfl⟩
  | header also_read ended =>
      obtain rfl := Option.some.inj (Except.ok.inj (also_read.symm.trans read))
      cases shape with
      | header _ enough =>
          obtain ⟨complete, entries_eq⟩ := entries_discarding clean
          rw [afterRefused_idle, if_pos ⟨keeps.1, keeps.2.mpr (enough.mp ended)⟩]
          exact ⟨_, _, .header _ _ complete, entries_eq, rfl⟩
  | single also_read endless =>
      obtain rfl := Option.some.inj (Except.ok.inj (also_read.symm.trans read))
      cases shape with
      | header _ enough =>
          have few : ¬ headerColumnsWithEnd ≤ columns.length := by
            rw [← enough, endless]
            simp
          rw [afterRefused_idle, if_neg fun kept => few (keeps.2.mp kept.2)]
          exact ⟨_, _, .header _ _ _, rfl, rfl⟩
  | further also_read ended =>
      obtain rfl := Option.some.inj (Except.ok.inj (also_read.symm.trans read))
      cases shape with
      | further _ _ enough =>
          obtain ⟨complete, entries_eq⟩ := entries_discarding clean
          rw [afterRefused_collecting, if_pos (keeps.mpr (enough.mp ended))]
          exact ⟨_, _, .further rfl _ complete, entries_eq, rfl⟩
  | closed also_read endless =>
      obtain rfl := Option.some.inj (Except.ok.inj (also_read.symm.trans read))
      cases shape with
      | further _ _ enough =>
          have few : ¬ columnsWithEnd ≤ columns.length := by
            rw [← enough, endless]
            simp
          rw [afterRefused_collecting, if_neg fun kept => few (keeps.mp kept)]
          exact ⟨_, _, .further rfl _ _, rfl, rfl⟩

end OpenZone

-----------------------------------------------------------------------------------------
-- Texts
-----------------------------------------------------------------------------------------

theorem Entry.listOf_of_append {text : String} {front back : List (List String)}
    {columns : List String} (lines_eq : Text.columnLines text = front ++ columns :: back)
    : listOf text
      = (OpenZone.idle.run 0 front).2
        ++ (OpenZone.idle.run 0 front).1.entries front.length (columns :: back) := by
  have split := OpenZone.idle.entries_append 0 front (columns :: back)
  rwa [Nat.zero_add, ← lines_eq] at split

namespace Tables

/-- What has been read in front of the line at a position of a text. -/
def inFrontOf (text : String) (position : Nat) : Tables :=
  (((Text.lines text).take position).foldl Collector.takeLine .start).tables

theorem inFrontOf_eq (text : String) (position : Nat)
    : inFrontOf text position
      = empty.addAll (OpenZone.idle.run 0 ((Text.columnLines text).take position)).2 := by
  rw [inFrontOf, (Collector.takeLines_eq Place.grounded_start _).2, Text.columnLines,
    ← List.map_take]
  rfl

/-- Where nothing is reported, no zone is being discarded in front of any line. -/
theorem before_ne_discarding {text : String} {position : Nat} (clean : (ofText text).errors = [])
    (inside : position < (Text.columnLines text).length)
    : OpenZone.before (Text.columnLines text) position ≠ .discarding := by
  intro discarding
  obtain ⟨error, reported, _⟩ := refused_of_discarding inside discarding
  rw [clean] at reported
  cases reported

/-- A source whose lines are all read, with one of them replaced by a line that is refused in its
place, reports nothing but that line. It misses the record of the line, or its zone, and nothing
else, if the new line has the role of the old one. -/
theorem ofText_contains {old new line other : String} {position : Nat} {record : Record}
    {error : LineError} (clean : (ofText old).errors = [])
    (found : (Text.lines old)[position]? = some line)
    (replaced : Text.lines new = (Text.lines old).set position other)
    (read
      : Record.onLine (OpenZone.inFrontOf old position).expectsLine (position + 1) (columnsOf line)
        = .ok (some record))
    (refused
      : Record.onLine (OpenZone.inFrontOf old position).expectsLine (position + 1)
          (columnsOf other)
        = .error error)
    (keeps : record.KeepsRole (columnsOf line) (columnsOf other))
    : error.line = position + 1
      ∧ (ofText new).errors = [error]
      ∧ ∃ entry,
          (OpenZone.inFrontOf old position).BelongsTo record entry
          ∧ (ofText old).Misses (inFrontOf old position) (ofText new) entry := by
  refine ⟨Record.line_of_onLine_error refused, ?_⟩
  have found_columns : (Text.columnLines old)[position]? = some (columnsOf line) := by
    rw [Text.columnLines, List.getElem?_map, found]
    rfl
  obtain ⟨inside, line_eq⟩ := List.getElem?_eq_some_iff.mp found_columns
  have met := before_ne_discarding clean inside
  have old_lines
      : Text.columnLines old
        = (Text.columnLines old).take position
          ++ columnsOf line :: (Text.columnLines old).drop (position + 1) := by
    rw [← line_eq, List.getElem_cons_drop, List.take_append_drop]
  have new_lines
      : Text.columnLines new
        = (Text.columnLines old).take position
          ++ columnsOf other :: (Text.columnLines old).drop (position + 1) := by
    rw [Text.columnLines, replaced, List.map_set, List.set_eq_take_append_cons_drop]
    exact if_pos inside
  have front_length : ((Text.columnLines old).take position).length = position :=
    List.length_take_of_le inside.le
  rw [OpenZone.inFrontOf_eq] at read refused ⊢
  rw [inFrontOf_eq]
  rw [OpenZone.before] at met
  generalize (Text.columnLines old).take position = front at *
  generalize (Text.columnLines old).drop (position + 1) = back at *
  rw [← front_length] at read refused
  rw [ofText_eq, Entry.listOf_of_append old_lines] at clean
  have unreported := errors_of_clean clean
  rw [List.filterMap_append, List.append_eq_nil_iff] at unreported
  obtain ⟨entry, behind, belongs, old_behind, new_behind⟩ :=
    OpenZone.entries_of_refused met read refused keeps unreported.2
  rw [old_behind] at clean
  obtain ⟨reported, misses⟩ := misses_of_error clean error
  rw [ofText_eq, ofText_eq, Entry.listOf_of_append old_lines, Entry.listOf_of_append new_lines,
    old_behind, new_behind]
  exact ⟨reported, entry, belongs, misses⟩

/-- A source with a zone of two lines and a link. -/
def soundText : String := "Z X 0 - A 2000\n1 - B\nL X Y\n"

/-- The source with a month in the header of its zone that there is none of. -/
def brokenText : String := "Z X 0 - A 2000 Nv\n1 - B\nL X Y\n"

/-- The header of the zone of the source. -/
def soundHeader : ZoneLine :=
  { stdOffset := .zero
    savings := .standard
    format := .literal "A"
    stop := some { year := 2000, month := .jan, day := .fixed 1, time := ⟨.wall, .zero⟩ }
    line := 1 }

/-- Witness: the header is reported, the zone is dropped with its second line, and the link stays.
-/
theorem ofText_contains_header
    : (ofText brokenText).errors = [{ line := 1, fault := .unknownValue .month "Nv" }]
      ∧ ∃ record,
          (ofText soundText).Misses empty (ofText brokenText) (.zone "X" record) := by
  have clean : (ofText soundText).errors = [] := by decide +kernel
  have found : (Text.lines soundText)[0]? = some "Z X 0 - A 2000" := by decide +kernel
  have replaced : Text.lines brokenText = (Text.lines soundText).set 0 "Z X 0 - A 2000 Nv" := by
    decide +kernel
  have read
      : Record.onLine (OpenZone.inFrontOf soundText 0).expectsLine (0 + 1)
          (columnsOf "Z X 0 - A 2000")
        = .ok (some (.zone "X" soundHeader)) := by
    decide +kernel
  have refused
      : Record.onLine (OpenZone.inFrontOf soundText 0).expectsLine (0 + 1)
          (columnsOf "Z X 0 - A 2000 Nv")
        = .error { line := 1, fault := .unknownValue .month "Nv" } := by
    decide +kernel
  obtain ⟨-, reported, entry, belongs, misses⟩ :=
    ofText_contains clean found replaced read refused ⟨by decide +kernel, by decide +kernel⟩
  cases belongs with
  | header _ _ record => exact ⟨reported, record, misses⟩

end Tables

end CivilTime
