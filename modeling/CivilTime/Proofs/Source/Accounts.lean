import CivilTime.Proofs.Source.Contents
import CivilTime.Proofs.Source.Shape

/-! Which lines of a source are accounted for.
A line that is met while no zone is being discarded leaves a record or an error. The lines behind a
refused zone are taken for its own as long as they have enough columns, and leave neither.
-/

namespace CivilTime

-----------------------------------------------------------------------------------------
-- Steps
-----------------------------------------------------------------------------------------

namespace OpenZone

/-- What a line makes of the open zone, and the entry that it adds. -/
inductive Step (number : Nat) (columns : List String) : OpenZone → OpenZone → Option Entry → Prop
  | blank {zone : OpenZone} (empty : columns = []) : Step number columns zone zone none
  | passed (filled : columns ≠ []) (ended : columnsWithEnd ≤ columns.length)
    : Step number columns .discarding .discarding none
  | passedLast (filled : columns ≠ []) (endless : columns.length < columnsWithEnd)
    : Step number columns .discarding .idle none
  | refused {zone behind : OpenZone} {error : LineError} (met : zone ≠ .discarding)
    (read : Record.onLine zone.expectsLine number columns = .error error)
    (behind_eq : behind = zone.afterRefused columns)
    : Step number columns zone behind (some (.error error))
  | rule {r : Recurrence} (read : Record.onLine false number columns = .ok (some (.rule r)))
    : Step number columns .idle .idle (some (.rule r))
  | link {link : Link} (read : Record.onLine false number columns = .ok (some (.link link)))
    : Step number columns .idle .idle (some (.link link))
  | header {name : String} {l : ZoneLine}
    (read : Record.onLine false number columns = .ok (some (.zone name l)))
    (ended : l.isOpen = false)
    : Step number columns .idle (.collecting name (.ofHeader l)) none
  | single {name : String} {l : ZoneLine}
    (read : Record.onLine false number columns = .ok (some (.zone name l)))
    (endless : l.isOpen = true)
    : Step number columns .idle .idle (some (.zone name (.ofHeader l)))
  | further {name : String} {record : ZoneRecord} {l : ZoneLine}
    (read : Record.onLine true number columns = .ok (some (.continuation l)))
    (ended : l.isOpen = false)
    : Step number columns (.collecting name record) (.collecting name (record.push l)) none
  | closed {name : String} {record : ZoneRecord} {l : ZoneLine}
    (read : Record.onLine true number columns = .ok (some (.continuation l)))
    (endless : l.isOpen = true)
    : Step number columns (.collecting name record) .idle (some (.zone name (record.push l)))

theorem takeLine_eq {zone : OpenZone} {columns : List String} (met : zone ≠ .discarding)
    (filled : columns ≠ []) (number : Nat)
    : zone.takeLine number columns = zone.takeColumns number columns := by
  rw [takeLine, if_neg (by simpa using filled)]
  exact met

theorem takeLine_discarding {columns : List String} (filled : columns ≠ []) (number : Nat)
    : discarding.takeLine number columns
      = (if columns.length < columnsWithEnd then .idle else .discarding, none) := by
  rw [takeLine, if_neg (by simpa using filled)]

theorem step_takeColumns {zone : OpenZone} {columns : List String} (met : zone ≠ .discarding)
    (filled : columns ≠ []) (number : Nat)
    : Step number columns zone (zone.takeColumns number columns).1
        (zone.takeColumns number columns).2 := by
  unfold takeColumns
  cases read : Record.onLine zone.expectsLine number columns with
  | error error => exact .refused met read rfl
  | ok found =>
      obtain ⟨record, rfl, shape⟩ := Record.onLine_eq_ok read filled
      cases zone with
      | discarding => exact absurd rfl met
      | idle =>
          cases shape with
          | rule r => exact .rule read
          | link => exact .link read
          | @header name l =>
              simp only [takeRecord, takeZone]
              split
              case isTrue endless => exact .single read endless
              case isFalse ended => exact .header read (Bool.eq_false_of_not_eq_true ended)
      | collecting name record =>
          cases shape with
          | @further l =>
              simp only [takeRecord, takeZone]
              split
              case isTrue endless => exact .closed read endless
              case isFalse ended => exact .further read (Bool.eq_false_of_not_eq_true ended)

theorem step_takeLine (zone : OpenZone) (number : Nat) (columns : List String)
    : Step number columns zone (zone.takeLine number columns).1
        (zone.takeLine number columns).2 := by
  by_cases empty : columns = []
  · subst empty
    exact .blank rfl
  · by_cases discarded : zone = .discarding
    · subst discarded
      rw [takeLine_discarding empty]
      split
      case isTrue endless => exact .passedLast empty endless
      case isFalse ended => exact .passed empty (Nat.not_lt.mp ended)
    · rw [takeLine_eq discarded empty]
      exact step_takeColumns discarded empty number

theorem afterRefused_ne_collecting (zone : OpenZone) (columns : List String) (name : String)
    (record : ZoneRecord)
    : zone.afterRefused columns ≠ .collecting name record := by
  intro same
  simp only [afterRefused] at same
  repeat' split at same
  all_goals cases same

/-- The zone that is open in front of the line at a position. -/
def before (lines : List (List String)) (position : Nat) : OpenZone :=
  (idle.run 0 (lines.take position)).1

end OpenZone

/-- The entry of the line at a position. -/
def Entry.at? (lines : List (List String)) (position : Nat) : Option Entry :=
  lines[position]?.bind fun columns =>
    ((OpenZone.before lines position).takeLine (position + 1) columns).2

section Positions

variable {lines : List (List String)} {columns : List String} {position : Nat}

/-- The lines behind the one at a position follow a step that it takes. -/
theorem OpenZone.run_take_succ (found : lines[position]? = some columns)
    : idle.run 0 (lines.take (position + 1))
      = (((before lines position).takeLine (position + 1) columns).1,
        (idle.run 0 (lines.take position)).2 ++ (Entry.at? lines position).toList) := by
  obtain ⟨inside, -⟩ := List.getElem?_eq_some_iff.mp found
  have length_eq : (lines.take position).length = position := List.length_take_of_le inside.le
  rw [Entry.at?, found, List.take_add_one, found, Option.toList_some, run_append,
    run_singleton, length_eq, Nat.zero_add]
  rfl

/-- The lines up to a position have the entries of each of them, by induction on the position. -/
theorem OpenZone.run_take (lines : List (List String)) (position : Nat)
    : (idle.run 0 (lines.take position)).2
      = (List.range position).filterMap (Entry.at? lines) := by
  induction position with
  | zero => rfl
  | succ position ih =>
      rw [List.range_succ, List.filterMap_append, ← ih]
      cases found : lines[position]? with
      | none =>
          have no_entry : Entry.at? lines position = none := by
            rw [Entry.at?, found]
            rfl
          rw [List.take_add_one, found, List.filterMap_cons, no_entry]
          simp
      | some columns =>
          rw [run_take_succ found, List.filterMap_cons]
          cases Entry.at? lines position <;> rfl

theorem OpenZone.before_succ (found : lines[position]? = some columns)
    : before lines (position + 1)
      = ((before lines position).takeLine (position + 1) columns).1 := by
  rw [before, run_take_succ found]

theorem Entry.at?_eq (found : lines[position]? = some columns)
    : at? lines position
      = ((OpenZone.before lines position).takeLine (position + 1) columns).2 := by
  rw [at?, found]
  rfl

/-- The line at a position takes a step from the zone in front of it to the one behind it. -/
theorem OpenZone.step_at (found : lines[position]? = some columns)
    : Step (position + 1) columns (before lines position) (before lines (position + 1))
        (Entry.at? lines position) := by
  rw [before_succ found, Entry.at?_eq found]
  exact step_takeLine ..

/-- The entries of a text are those of its lines, and the one of a zone that is open at its end. -/
theorem Entry.listOf_eq (text : String)
    : listOf text
      = (List.range (Text.columnLines text).length).filterMap (at? (Text.columnLines text))
        ++ (OpenZone.before (Text.columnLines text) (Text.columnLines text).length).closing := by
  rw [← OpenZone.run_take, OpenZone.before, List.take_length]
  rfl

-----------------------------------------------------------------------------------------
-- Zones
-----------------------------------------------------------------------------------------

/-- The zone of a header awaits a further line in front of a position, and its lines so far make up
a record.
-/
inductive Awaits (lines : List (List String)) (start : Nat) (name : String)
    : Nat → ZoneRecord → Prop
  | header {columns : List String} {l : ZoneLine} (found : lines[start]? = some columns)
    (read : Record.onLine false (start + 1) columns = .ok (some (.zone name l)))
    (ended : l.isOpen = false)
    : Awaits lines start name (start + 1) (.ofHeader l)
  | blank {position : Nat} {record : ZoneRecord} (awaits : Awaits lines start name position record)
    (found : lines[position]? = some [])
    : Awaits lines start name (position + 1) record
  | further {position : Nat} {record : ZoneRecord} {columns : List String} {l : ZoneLine}
    (awaits : Awaits lines start name position record) (found : lines[position]? = some columns)
    (read : Record.onLine true (position + 1) columns = .ok (some (.continuation l)))
    (ended : l.isOpen = false)
    : Awaits lines start name (position + 1) (record.push l)

/-- The header of a zone and the lines behind it make up a record. The last one never ends, or there
is no further line.
-/
inductive Completes (lines : List (List String)) (start : Nat) (name : String) : ZoneRecord → Prop
  | single {columns : List String} {l : ZoneLine} (found : lines[start]? = some columns)
    (read : Record.onLine false (start + 1) columns = .ok (some (.zone name l)))
    (endless : l.isOpen = true)
    : Completes lines start name (.ofHeader l)
  | closed {position : Nat} {record : ZoneRecord} {columns : List String} {l : ZoneLine}
    (awaits : Awaits lines start name position record) (found : lines[position]? = some columns)
    (read : Record.onLine true (position + 1) columns = .ok (some (.continuation l)))
    (endless : l.isOpen = true)
    : Completes lines start name (record.push l)
  | unfinished {record : ZoneRecord} (awaits : Awaits lines start name lines.length record)
    : Completes lines start name record

variable {start : Nat} {name : String} {record : ZoneRecord}

theorem Awaits.le_length (awaits : Awaits lines start name position record)
    : position ≤ lines.length := by
  cases awaits with
  | header found => exact (List.getElem?_eq_some_iff.mp found).1
  | blank _ found => exact (List.getElem?_eq_some_iff.mp found).1
  | further _ found => exact (List.getElem?_eq_some_iff.mp found).1

theorem Awaits.start_lt (awaits : Awaits lines start name position record)
    : start < position := by
  induction awaits with
  | header => exact Nat.lt_succ_self start
  | blank _ _ ih => exact Nat.lt_succ_of_lt ih
  | further _ _ _ _ ih => exact Nat.lt_succ_of_lt ih

theorem Awaits.line_eq (awaits : Awaits lines start name position record)
    : record.line = start + 1 := by
  induction awaits with
  | header found read ended =>
      cases Record.shape_of_onLine read with
      | header numbered => exact numbered
  | blank _ _ ih => exact ih
  | further _ _ _ _ ih => exact ih

theorem Completes.line_eq (completes : Completes lines start name record)
    : record.line = start + 1 := by
  cases completes with
  | single found read =>
      cases Record.shape_of_onLine read with
      | header numbered => exact numbered
  | closed awaits => exact awaits.line_eq
  | unfinished awaits => exact awaits.line_eq

/-- A zone whose header is met while none is open is open as long as it awaits lines. -/
theorem Awaits.before_eq (awaits : Awaits lines start name position record)
    (idle : OpenZone.before lines start = .idle)
    : OpenZone.before lines position = .collecting name record := by
  induction awaits with
  | header found read ended =>
      rw [OpenZone.before_succ found, idle,
        OpenZone.takeLine_eq (by simp) (Record.ne_nil_of_onLine read)]
      simp only [OpenZone.takeColumns, OpenZone.expectsLine, read, OpenZone.takeRecord,
        OpenZone.takeZone, ended, Bool.false_eq_true, if_false]
  | blank _ found ih =>
      rw [OpenZone.before_succ found, ih]
      rfl
  | further _ found read ended ih =>
      rw [OpenZone.before_succ found, ih,
        OpenZone.takeLine_eq (by simp) (Record.ne_nil_of_onLine read)]
      simp only [OpenZone.takeColumns, OpenZone.expectsLine, read, OpenZone.takeRecord,
        OpenZone.takeZone, ended, Bool.false_eq_true, if_false]

/-- The lines that a zone would await are passed over with its header, since they have ends. -/
theorem Awaits.before_eq_discarding (awaits : Awaits lines start name position record)
    (discarding : OpenZone.before lines start = .discarding)
    : OpenZone.before lines position = .discarding := by
  induction awaits with
  | @header columns l found read ended =>
      have filled := Record.ne_nil_of_onLine read
      cases Record.shape_of_onLine read with
      | header _ enough =>
          have := enough.mp ended
          rw [OpenZone.before_succ found, discarding, OpenZone.takeLine_discarding filled, if_neg]
          simp only [OpenZone.headerColumnsWithEnd, OpenZone.columnsWithEnd] at this ⊢
          omega
  | blank _ found ih =>
      rw [OpenZone.before_succ found, ih]
      rfl
  | further _ found read ended ih =>
      have filled := Record.ne_nil_of_onLine read
      cases Record.shape_of_onLine read with
      | further _ _ enough =>
          rw [OpenZone.before_succ found, ih, OpenZone.takeLine_discarding filled,
            if_neg (Nat.not_lt.mpr (enough.mp ended))]

/-- A zone is open where its header and the lines behind it make up its record so far. -/
theorem OpenZone.awaits_of_before (inside : position ≤ lines.length)
    (collecting : before lines position = .collecting name record)
    : ∃ start, start < position ∧ before lines start = .idle
        ∧ Awaits lines start name position record := by
  induction position generalizing record with
  | zero => cases collecting
  | succ position ih =>
      have found := List.getElem?_eq_getElem (l := lines) inside
      generalize lines[position] = columns at found
      have step := step_at found
      rw [collecting] at step
      -- the zone in front is generalized, since the cases of the step fix what it is
      generalize Entry.at? lines position = entry at step
      generalize zone_eq : before lines position = zone at step
      cases step with
      | blank empty =>
          obtain ⟨start, start_lt, idle, awaits⟩ := ih (Nat.le_of_succ_le inside) zone_eq
          exact ⟨start, Nat.lt_succ_of_lt start_lt, idle, awaits.blank (empty ▸ found)⟩
      | refused _ _ behind_eq =>
          exact absurd behind_eq.symm (afterRefused_ne_collecting _ _ _ _)
      | header read ended =>
          exact ⟨position, Nat.lt_succ_self _, zone_eq, .header found read ended⟩
      | further read ended =>
          obtain ⟨start, start_lt, idle, awaits⟩ := ih (Nat.le_of_succ_le inside) zone_eq
          exact ⟨start, Nat.lt_succ_of_lt start_lt, idle, awaits.further found read ended⟩

-----------------------------------------------------------------------------------------
-- Lines that are met
-----------------------------------------------------------------------------------------

/-- The line that an entry tells is met while no zone is being discarded. -/
theorem Entry.met_of_at? {entry : Entry} (added : at? lines position = some entry) {line : Nat}
    (told : entry.line? = some line)
    : ∃ met, line = met + 1 ∧ OpenZone.before lines met ≠ .discarding := by
  cases found : lines[position]? with
  | none => rw [at?, found] at added; cases added
  | some columns =>
      obtain ⟨inside, -⟩ := List.getElem?_eq_some_iff.mp found
      have step := OpenZone.step_at found
      rw [added] at step
      generalize OpenZone.before lines (position + 1) = behind at step
      generalize zone_eq : OpenZone.before lines position = zone at step
      cases step with
      | refused met read =>
          cases told
          exact ⟨position, Record.line_of_onLine_error read, zone_eq ▸ met⟩
      | rule => cases told
      | link read =>
          cases told
          cases Record.shape_of_onLine read with
          | link numbered => exact ⟨position, numbered, by simp [zone_eq]⟩
      | single read =>
          cases told
          cases Record.shape_of_onLine read with
          | header numbered => exact ⟨position, numbered, by simp [zone_eq]⟩
      | closed =>
          cases told
          obtain ⟨start, _, idle, awaits⟩ := OpenZone.awaits_of_before inside.le zone_eq
          exact ⟨start, awaits.line_eq, by simp [idle]⟩

/-- A zone is being discarded behind a line that is refused. -/
theorem OpenZone.refused_of_before (inside : position ≤ lines.length)
    (discarding : before lines position = .discarding)
    : ∃ earlier error, earlier < position ∧ Entry.at? lines earlier = some (.error error)
        ∧ error.line = earlier + 1 := by
  induction position with
  | zero => cases discarding
  | succ position ih =>
      have found := List.getElem?_eq_getElem (l := lines) inside
      generalize lines[position] = columns at found
      have earlier (still : before lines position = .discarding)
          : ∃ earlier error, earlier < position + 1 ∧ Entry.at? lines earlier = some (.error error)
              ∧ error.line = earlier + 1 := by
        obtain ⟨earlier, error, earlier_lt, added, line_eq⟩ := ih (Nat.le_of_succ_le inside) still
        exact ⟨earlier, error, Nat.lt_succ_of_lt earlier_lt, added, line_eq⟩
      have step := step_at found
      rw [discarding] at step
      generalize zone_eq : before lines position = zone at step
      generalize entry_eq : Entry.at? lines position = entry at step
      cases step with
      | blank => exact earlier zone_eq
      | passed => exact earlier zone_eq
      | refused met read =>
          exact ⟨position, _, Nat.lt_succ_self _, entry_eq, Record.line_of_onLine_error read⟩

/-- The rule of a name on the line at a position. -/
def Recurrence.at? (lines : List (List String)) (name : String) (position : Nat)
    : Option Recurrence :=
  match lines[position]? with
  | none => none
  | some columns =>
    match Record.onLine false (position + 1) columns with
    | .ok (some (.rule r)) => if r.name = name then some r else none
    | _ => none

/-- A line adds its rule if no zone is open in front of it. -/
theorem Entry.recurrence?_at? (lines : List (List String)) (name : String) (position : Nat)
    : (at? lines position).bind (recurrence? name)
      = if OpenZone.before lines position = .idle then Recurrence.at? lines name position
        else none := by
  cases found : lines[position]? with
  | none =>
      rw [at?, Recurrence.at?, found]
      simp
  | some columns =>
      have step := OpenZone.step_at found
      rw [Recurrence.at?, found]
      generalize OpenZone.before lines (position + 1) = behind at step
      generalize OpenZone.before lines position = zone at step ⊢
      generalize at? lines position = entry at step ⊢
      cases step with
      | blank empty =>
          subst empty
          exact (ite_self none).symm
      | passed => rfl
      | passedLast => rfl
      | refused met read =>
          cases zone with
          | idle =>
              have read : Record.onLine false (position + 1) columns = .error _ := read
              simp [read, recurrence?]
          | collecting name record => rfl
          | discarding => rfl
      | rule read => simp [read, recurrence?]
      | link read => simp [read, recurrence?]
      | header read => simp [read]
      | single read => simp [read, recurrence?]
      | further read => rfl
      | closed read => rfl

end Positions

-----------------------------------------------------------------------------------------
-- Texts
-----------------------------------------------------------------------------------------

/-- What becomes of the record on the line at a position: it is found in the tables, or an error
tells its line. For the header of a zone, an error may also tell a line that the zone awaits.
-/
inductive Tables.Accounts (t : Tables) (lines : List (List String)) (position : Nat) : Prop
  | refused {error : LineError} (reported : error ∈ t.errors) (line_eq : error.line = position + 1)
  | refusedLater {name : String} {later : Nat} {record : ZoneRecord} {error : LineError}
    (awaits : Awaits lines position name later record) (reported : error ∈ t.errors)
    (line_eq : error.line = later + 1)
  | rule {columns : List String} {r : Recurrence} (found : lines[position]? = some columns)
    (read : Record.onLine false (position + 1) columns = .ok (some (.rule r)))
    (held : r ∈ t.recurrencesOf r.name)
  | zone {name : String} {record : ZoneRecord} (completes : Completes lines position name record)
    (held : t.zones.get? name = some record)
  | link {columns : List String} {link : Link} (found : lines[position]? = some columns)
    (read : Record.onLine false (position + 1) columns = .ok (some (.link link)))
    (held : t.links.get? link.name = some link)

section Texts

variable {text : String} {position : Nat} {entry : Entry}

theorem Entry.mem_listOf_of_at? (added : at? (Text.columnLines text) position = some entry)
    : entry ∈ listOf text := by
  have inside : position < (Text.columnLines text).length := by
    by_contra outside
    rw [at?, List.getElem?_eq_none (Nat.not_lt.mp outside)] at added
    cases added
  rw [listOf_eq]
  exact List.mem_append_left _ (List.mem_filterMap.mpr ⟨position, List.mem_range.mpr inside, added⟩)

theorem Entry.mem_listOf_iff
    : entry ∈ listOf text
      ↔ (∃ position, at? (Text.columnLines text) position = some entry)
        ∨ entry
          ∈ (OpenZone.before (Text.columnLines text) (Text.columnLines text).length).closing := by
  constructor
  · intro member
    rw [listOf_eq] at member
    refine (List.mem_append.mp member).imp_left fun listed => ?_
    obtain ⟨position, -, added⟩ := List.mem_filterMap.mp listed
    exact ⟨position, added⟩
  · rintro (⟨position, added⟩ | closing)
    · exact mem_listOf_of_at? added
    · rw [listOf_eq]
      exact List.mem_append_right _ closing

namespace Tables

theorem shows_ofText (member : entry ∈ Entry.listOf text) : (ofText text).Shows entry := by
  rw [ofText_eq]
  exact shows_addAll member empty

/-- A complete record is found, or leaves an error on the line of its header. -/
theorem Accounts.of_completes {name : String} {record : ZoneRecord}
    (completes : Completes (Text.columnLines text) position name record)
    (member : .zone name record ∈ Entry.listOf text)
    : (ofText text).Accounts (Text.columnLines text) position := by
  rcases shows_ofText member with held | ⟨error, reported, line_eq⟩
  · exact .zone completes held
  · exact .refused reported (line_eq.trans completes.line_eq)

/-- A zone that awaits lines is completed, or one of them is refused. The induction is on the number
of lines that are left.
-/
theorem Accounts.of_awaits {start : Nat} {name : String} {record : ZoneRecord}
    (awaits : Awaits (Text.columnLines text) start name position record)
    (idle : OpenZone.before (Text.columnLines text) start = .idle)
    : (ofText text).Accounts (Text.columnLines text) start := by
  generalize left_eq : (Text.columnLines text).length - position = left
  induction left generalizing position record with
  | zero =>
      have at_end : position = (Text.columnLines text).length := by
        have := awaits.le_length
        omega
      subst at_end
      refine .of_completes (.unfinished awaits) ?_
      rw [Entry.mem_listOf_iff, awaits.before_eq idle]
      exact .inr (List.mem_singleton_self _)
  | succ left ih =>
      have inside : position < (Text.columnLines text).length := by omega
      have found := List.getElem?_eq_getElem inside
      generalize (Text.columnLines text)[position] = columns at found
      have step := OpenZone.step_at found
      rw [awaits.before_eq idle] at step
      generalize OpenZone.before (Text.columnLines text) (position + 1) = behind at step
      generalize entry_eq : Entry.at? (Text.columnLines text) position = entry at step
      cases step with
      | blank empty => exact ih (awaits.blank (empty ▸ found)) (by omega)
      | refused met read =>
          exact .refusedLater awaits (shows_ofText (Entry.mem_listOf_of_at? entry_eq))
            (Record.line_of_onLine_error read)
      | further read ended => exact ih (awaits.further found read ended) (by omega)
      | closed read endless =>
          exact .of_completes (.closed awaits found read endless)
            (Entry.mem_listOf_of_at? entry_eq)

/-- A line that begins with a keyword is accounted for if no zone is being discarded in front of it.
-/
theorem Accounts.of_met {word : String} {rest : List String} {kind : RecordKind}
    (found : (Text.columnLines text)[position]? = some (word :: rest))
    (announced : RecordKind.ofWord? word = some kind)
    (met : OpenZone.before (Text.columnLines text) position ≠ .discarding)
    : (ofText text).Accounts (Text.columnLines text) position := by
  have step := OpenZone.step_at found
  generalize OpenZone.before (Text.columnLines text) (position + 1) = behind at step
  generalize zone_eq : OpenZone.before (Text.columnLines text) position = zone at step met
  generalize entry_eq : Entry.at? (Text.columnLines text) position = entry at step
  have shows (entry : Entry) (same : Entry.at? (Text.columnLines text) position = some entry)
      : (ofText text).Shows entry :=
    shows_ofText (Entry.mem_listOf_of_at? same)
  cases step with
  | blank empty => cases empty
  | passed => exact absurd rfl met
  | passedLast => exact absurd rfl met
  | refused _ read => exact .refused (shows _ entry_eq) (Record.line_of_onLine_error read)
  | rule read => exact .rule found read (shows _ entry_eq)
  | link read =>
      cases Record.shape_of_onLine read with
      | link numbered =>
          rcases shows _ entry_eq with held | ⟨error, reported, line_eq⟩
          · exact .link found read held
          · exact .refused reported (line_eq.trans numbered)
  | header read ended => exact .of_awaits (.header found read ended) zone_eq
  | single read endless =>
      exact .of_completes (.single found read endless) (Entry.mem_listOf_of_at? entry_eq)
  | further read =>
      obtain ⟨error, refused⟩ := Record.onLine_of_keyword announced (position + 1)
      cases refused.symm.trans read
  | closed read =>
      obtain ⟨error, refused⟩ := Record.onLine_of_keyword announced (position + 1)
      cases refused.symm.trans read

/-- No zone is being discarded in front of a line that the tables tell. -/
theorem met_of_mentions (mentions : (ofText text).Mentions (position + 1))
    : OpenZone.before (Text.columnLines text) position ≠ .discarding := by
  rw [ofText_eq] at mentions
  have no_line : ¬ empty.Mentions (position + 1) := by simp [Mentions, empty]
  obtain ⟨entry, member, told⟩ := (mentions_addAll mentions).resolve_left no_line
  rcases Entry.mem_listOf_iff.mp member with ⟨other, added⟩ | closing
  · obtain ⟨met, line_eq, not_discarding⟩ := Entry.met_of_at? added told
    rwa [Nat.succ.inj line_eq]
  · cases zone_eq : OpenZone.before (Text.columnLines text) (Text.columnLines text).length with
    | idle => rw [zone_eq] at closing; cases closing
    | discarding => rw [zone_eq] at closing; cases closing
    | collecting name record =>
        rw [zone_eq] at closing
        obtain rfl := List.mem_singleton.mp closing
        obtain ⟨start, _, idle, awaits⟩ := OpenZone.awaits_of_before le_rfl zone_eq
        have line_eq : record.line = position + 1 := Option.some.inj told
        rw [Nat.succ.inj (line_eq.symm.trans awaits.line_eq), idle]
        simp

/-- A line that is passed over follows one that is refused. -/
theorem refused_of_discarding (inside : position < (Text.columnLines text).length)
    (discarding : OpenZone.before (Text.columnLines text) position = .discarding)
    : ∃ error ∈ (ofText text).errors, error.line ≤ position := by
  obtain ⟨earlier, error, earlier_lt, added, line_eq⟩ :=
    OpenZone.refused_of_before inside.le discarding
  exact ⟨error, shows_ofText (Entry.mem_listOf_of_at? added), by omega⟩

/-- A rule set holds the rules of its name on the lines with no open zone in front of them. -/
theorem recurrencesOf_ofText (text : String) (name : String)
    : (ofText text).recurrencesOf name
      = ((List.range (Text.columnLines text).length).filter fun position =>
          OpenZone.before (Text.columnLines text) position = .idle).filterMap
        (Recurrence.at? (Text.columnLines text) name) := by
  have no_rule (zone : OpenZone) : zone.closing.filterMap (Entry.recurrence? name) = [] := by
    cases zone <;> rfl
  rw [ofText_eq, recurrencesOf_addAll, Entry.listOf_eq, List.filterMap_append, no_rule,
    List.append_nil, List.filterMap_filterMap, List.filterMap_filter]
  refine List.filterMap_congr fun position _ => ?_
  rw [Entry.recurrence?_at?]
  simp

/-- Every line that begins with a keyword is accounted for, unless a zone is being discarded in
front of it. Such a line is told nowhere, nor are the lines that it would await as the header of a
zone, and an error tells one in front of it. The rule sets hold the rules of the lines with no open
zone in front of them, in order.
-/
theorem ofText_accounts (text : String)
    : (∀ position word rest kind,
        (Text.columnLines text)[position]? = some (word :: rest)
        → RecordKind.ofWord? word = some kind
        → (OpenZone.inFrontOf text position ≠ .discarding
            → (ofText text).Accounts (Text.columnLines text) position)
          ∧ (OpenZone.inFrontOf text position = .discarding
            → ¬ (ofText text).Mentions (position + 1)
              ∧ (∀ name later record,
                  Awaits (Text.columnLines text) position name later record
                  → ¬ (ofText text).Mentions (later + 1))
              ∧ ∃ error ∈ (ofText text).errors, error.line ≤ position))
      ∧ ∀ name,
          (ofText text).recurrencesOf name
            = ((List.range (Text.columnLines text).length).filter fun position =>
                OpenZone.inFrontOf text position = .idle).filterMap
              (Recurrence.at? (Text.columnLines text) name) := by
  have before_eq (position : Nat)
      : OpenZone.inFrontOf text position = OpenZone.before (Text.columnLines text) position :=
    OpenZone.inFrontOf_eq text position
  simp only [before_eq]
  refine ⟨fun position word rest kind found announced => ⟨?_, ?_⟩, recurrencesOf_ofText text⟩
  · exact Accounts.of_met found announced
  · intro discarding
    refine ⟨fun mentions => met_of_mentions mentions discarding, ?_, ?_⟩
    · intro name later record awaits mentions
      exact met_of_mentions mentions (awaits.before_eq_discarding discarding)
    · exact refused_of_discarding (List.getElem?_eq_some_iff.mp found).1 discarding

/-- A source with a link behind a zone header that is refused. -/
def skippedText : String := "Z X 0 - A 2000 Nv\nL A B\n"

/-- Witness: the header is accounted for, and the link is passed over with it. -/
theorem ofText_accounts_skipped
    : (ofText skippedText).Accounts (Text.columnLines skippedText) 0
      ∧ ¬ (ofText skippedText).Mentions 2 := by
  have header := (ofText_accounts skippedText).1 0 "Z" ["X", "0", "-", "A", "2000", "Nv"] .zone
    (by decide +kernel) (by decide +kernel)
  have link := (ofText_accounts skippedText).1 1 "L" ["A", "B"] .link (by decide +kernel)
    (by decide +kernel)
  exact ⟨header.1 (by decide +kernel), (link.2 (by decide +kernel)).1⟩

/-- The link has not become a record, and no error tells its line. -/
theorem ofText_skipped_lost
    : (Text.columnLines skippedText)[1]? = some ["L", "A", "B"]
      ∧ RecordKind.ofWord? "L" = some .link
      ∧ ofText skippedText
        = { empty with errors := [{ line := 1, fault := .unknownValue .month "Nv" }] }
      ∧ ¬ (ofText skippedText).Accounts (Text.columnLines skippedText) 1 := by
  have tables_eq
      : ofText skippedText
        = { empty with errors := [{ line := 1, fault := .unknownValue .month "Nv" }] } := by
    decide +kernel
  refine ⟨by decide +kernel, by decide +kernel, tables_eq, ?_⟩
  rw [tables_eq]
  rintro (⟨reported, line_eq⟩ | ⟨awaits, reported, line_eq⟩ | ⟨_, _, held⟩ | ⟨_, held⟩
    | ⟨_, _, held⟩)
  · rw [List.mem_singleton.mp reported] at line_eq
    cases line_eq
  · rw [List.mem_singleton.mp reported] at line_eq
    have := awaits.start_lt
    simp only at line_eq
    omega
  · cases held
  · cases held
  · cases held

end Tables

end Texts

end CivilTime
