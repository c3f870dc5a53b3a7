import CivilTime.Proofs.Source.Merging

/-! A source can be cut into two behind a complete line.
The lines behind the cut are read as the beginning of a source of their own if no zone is open
there, apart from their numbers. The tables of the whole are those of the parts, merged.
-/

namespace CivilTime

-----------------------------------------------------------------------------------------
-- Other numbers
-----------------------------------------------------------------------------------------

/-- A zone record with other numbers. -/
def ZoneRecord.renumber (change : Nat → Nat) (record : ZoneRecord) : ZoneRecord :=
  { line := change record.line, lines := record.lines.map (·.renumber change) }

/-- An error with another number. -/
def LineError.renumber (change : Nat → Nat) (error : LineError) : LineError :=
  { error with line := change error.line }

/-- An entry with other numbers. -/
def Entry.renumber (change : Nat → Nat) : Entry → Entry
  | .rule r => .rule r
  | .zone name record => .zone name (record.renumber change)
  | .link l => .link (l.renumber change)
  | .error e => .error (e.renumber change)

/-- An open zone with other numbers. -/
def OpenZone.renumber (change : Nat → Nat) : OpenZone → OpenZone
  | .collecting name record => .collecting name (record.renumber change)
  | other => other

/-- Tables whose records and errors have other numbers. -/
def Tables.renumber (change : Nat → Nat) (t : Tables) : Tables :=
  { rules := t.rules
    zones := t.zones.mapValues (·.renumber change)
    links := t.links.mapValues (·.renumber change)
    errors := t.errors.map (·.renumber change) }

namespace Tables

variable (change : Nat → Nat)

theorem renumber_add (t : Tables) (entry : Entry)
    : (t.add entry).renumber change = (t.renumber change).add (entry.renumber change) := by
  cases entry with
  | rule r => rfl
  | error error => simp [add, report, renumber, Entry.renumber]
  | zone name record =>
      simp only [add, addZone, Entry.renumber, renumber, Table.contains_mapValues]
      split
      · simp [report, LineError.renumber, ZoneRecord.renumber]
      · simp [Table.mapValues]
  | link link =>
      simp only [add, addLink, Entry.renumber, renumber, Table.contains_mapValues, Link.renumber]
      split
      · simp [report, LineError.renumber]
      · simp [Table.mapValues]

/-- The tables of renumbered entries, by induction on the entries. -/
theorem renumber_addAll (t : Tables) (entries : List Entry)
    : (t.addAll entries).renumber change
      = (t.renumber change).addAll (entries.map (·.renumber change)) := by
  induction entries generalizing t with
  | nil => rfl
  | cons entry rest ih => rw [addAll_cons, List.map_cons, addAll_cons, ih, renumber_add]

end Tables

-----------------------------------------------------------------------------------------
-- The lines behind a cut
-----------------------------------------------------------------------------------------

/-- A line further down is read as the same record with another number. -/
theorem Record.onLine_add (continued : Bool) (number shift : Nat) (columns : List String)
    : Record.onLine continued (number + shift) columns
      = ((Record.onLine continued number columns).map
            (Option.map (·.renumber (· + shift)))).mapError
          (·.renumber (· + shift)) := by
  have marks := Record.marks_readColumns continued columns
  rw [onLine, onLine, marks.run_ofLine (number + shift), marks.run_ofLine number]
  cases (Record.readColumns continued columns).run .start with
  | mk outcome after =>
      cases outcome with
      | error error => rfl
      | ok found =>
          cases found with
          | none => rfl
          | some record => cases record <;> rfl

namespace OpenZone

section Renumbering

variable (change : Nat → Nat)

theorem takeZone_renumber (name : String) (record : ZoneRecord) (l : ZoneLine)
    : takeZone name (record.renumber change) (l.renumber change)
      = ((takeZone name record l).1.renumber change,
        (takeZone name record l).2.map (·.renumber change)) := by
  have same : (l.renumber change).isOpen = l.isOpen := rfl
  rw [takeZone, takeZone, same]
  split <;> rfl

theorem takeRecord_renumber (zone : OpenZone) (record : Record)
    : (zone.renumber change).takeRecord (record.renumber change)
      = ((zone.takeRecord record).1.renumber change,
        (zone.takeRecord record).2.map (·.renumber change)) := by
  cases record with
  | rule r => rfl
  | link link => rfl
  | zone name l => exact takeZone_renumber change name (.ofHeader l) l
  | continuation l =>
      have same : (l.renumber change).isOpen = l.isOpen := rfl
      cases zone with
      | collecting name record =>
          have pushed
              : (record.renumber change).push (l.renumber change)
                = (record.push l).renumber change := by
            simp [ZoneRecord.renumber, ZoneRecord.push]
          refine Eq.trans ?_ (takeZone_renumber change name (record.push l) l)
          rw [← pushed]
          rfl
      | idle =>
          simp only [Record.renumber, renumber, takeRecord, same]
          split <;> rfl
      | discarding =>
          simp only [Record.renumber, renumber, takeRecord, same]
          split <;> rfl

theorem closing_renumber (zone : OpenZone)
    : (zone.renumber change).closing = zone.closing.map (·.renumber change) := by
  cases zone <;> rfl

end Renumbering

variable (shift : Nat)

theorem takeColumns_add (zone : OpenZone) (number : Nat) (columns : List String)
    : (zone.renumber (· + shift)).takeColumns (number + shift) columns
      = ((zone.takeColumns number columns).1.renumber (· + shift),
        (zone.takeColumns number columns).2.map (·.renumber (· + shift))) := by
  have expects : (zone.renumber (· + shift)).expectsLine = zone.expectsLine := by
    cases zone <;> rfl
  have refused
      : (zone.renumber (· + shift)).afterRefused columns
        = (zone.afterRefused columns).renumber (· + shift) := by
    simp only [afterRefused, expects]
    split <;> split <;> rfl
  simp only [takeColumns, expects, Record.onLine_add]
  cases Record.onLine zone.expectsLine number columns with
  | error error => exact congrArg (fun zone => (zone, _)) refused
  | ok found =>
      cases found with
      | none => rfl
      | some record => exact takeRecord_renumber _ zone record

theorem takeLine_add (zone : OpenZone) (number : Nat) (columns : List String)
    : (zone.renumber (· + shift)).takeLine (number + shift) columns
      = ((zone.takeLine number columns).1.renumber (· + shift),
        (zone.takeLine number columns).2.map (·.renumber (· + shift))) := by
  simp only [takeLine]
  cases columns.isEmpty with
  | true => rfl
  | false =>
      simp only [Bool.false_eq_true, if_false]
      cases zone with
      | discarding =>
          simp only [renumber]
          split <;> rfl
      | idle => exact takeColumns_add shift .idle number columns
      | collecting name record =>
          exact takeColumns_add shift (.collecting name record) number columns

/-- Lines further down have the same entries with other numbers, by induction on the lines. -/
theorem run_add (zone : OpenZone) (number : Nat) (lines : List (List String))
    : (zone.renumber (· + shift)).run (number + shift) lines
      = ((zone.run number lines).1.renumber (· + shift),
        (zone.run number lines).2.map (·.renumber (· + shift))) := by
  induction lines generalizing zone number with
  | nil => rfl
  | cons columns rest ih =>
      have next : number + shift + 1 = number + 1 + shift := by omega
      simp only [run, next, takeLine_add, ih, List.map_append]
      cases (zone.takeLine (number + 1) columns).2 <;> rfl

end OpenZone

-----------------------------------------------------------------------------------------
-- Cutting a text
-----------------------------------------------------------------------------------------

namespace Text

/-- The number of lines that are complete. -/
def lineCount (text : String) : Nat := text.toList.count '\n'

/-- A text without an incomplete line at its end. -/
def EndsLine (text : String) : Prop := text = "" ∨ text.toList.getLast? = some '\n'

theorem length_splitOnP {α : Type} (isSeparator : α → Bool) (text : List α)
    : (text.splitOnP isSeparator).length = text.countP isSeparator + 1 := by
  induction text with
  | nil => rfl
  | cons c rest ih =>
      rw [List.splitOnP_cons_eq_if_modifyHead, List.countP_cons]
      split <;> simp_all

/-- The lines of a text that is cut behind a complete line are those of its parts. The first part
has an empty line behind them.
-/
theorem columnLines_append {front : String} (ends : EndsLine front) (back : String)
    : ∃ complete,
        columnLines front = complete ++ [[]]
        ∧ columnLines (front ++ back) = complete ++ columnLines back
        ∧ complete.length = lineCount front := by
  have blank : columnsOf (String.ofList []) = [] := by decide
  rcases ends with rfl | ends
  · exact ⟨[], rfl, by simp, rfl⟩
  · obtain ⟨before, text_eq⟩ := List.getLast?_eq_some_iff.mp ends
    refine ⟨(before.splitOnP (· == '\n')).map (columnsOf ∘ String.ofList), ?_, ?_, ?_⟩
    · simp only [columnLines, lines, text_eq]
      rw [List.splitOnP_append_cons before [] (by rfl)]
      simp [blank]
    · simp only [columnLines, lines, String.toList_append, text_eq, List.append_assoc,
        List.singleton_append]
      rw [List.splitOnP_append_cons before back.toList (by rfl)]
      simp
    · rw [List.length_map, length_splitOnP, lineCount, text_eq, List.count_append]
      rfl

end Text

/-- The zone that is open at the end of a text. -/
def OpenZone.behind (text : String) : OpenZone :=
  ((Text.lines text).foldl Collector.takeLine .start).zone

theorem OpenZone.behind_eq (text : String)
    : behind text = (idle.run 0 (Text.columnLines text)).1 := by
  rw [behind, (Collector.takeLines_eq Place.grounded_start _).1]
  rfl

/-- The entries of a text that is cut where no zone is open are those of its parts. -/
theorem Entry.listOf_append {front : String} (ends : Text.EndsLine front)
    (idle : OpenZone.behind front = .idle) (back : String)
    : Entry.listOf (front ++ back)
      = Entry.listOf front ++ (Entry.listOf back).map (·.renumber (· + Text.lineCount front)) := by
  obtain ⟨complete, front_eq, whole_eq, length_eq⟩ := Text.columnLines_append ends back
  rw [OpenZone.behind_eq, front_eq, OpenZone.run_append, OpenZone.run_singleton] at idle
  simp only [OpenZone.takeLine, List.isEmpty_nil, if_true] at idle
  -- the empty line at the end of the first part adds nothing
  have front_entries : Entry.listOf front = (OpenZone.idle.run 0 complete).2 := by
    rw [Entry.listOf, front_eq, OpenZone.run_append, OpenZone.run_singleton]
    simp [OpenZone.takeLine, idle, OpenZone.closing]
  have behind
      : OpenZone.idle.run (0 + complete.length) (Text.columnLines back)
        = ((OpenZone.idle.run 0 (Text.columnLines back)).1.renumber (· + Text.lineCount front),
          (OpenZone.idle.run 0 (Text.columnLines back)).2.map
            (·.renumber (· + Text.lineCount front))) := by
    rw [length_eq]
    exact OpenZone.run_add (Text.lineCount front) .idle 0 (Text.columnLines back)
  rw [front_entries, Entry.listOf, whole_eq, OpenZone.run_append, idle, behind, Entry.listOf,
    OpenZone.closing_renumber, List.map_append, List.append_assoc]

/-- The tables of a text that is cut where no zone is open are those of its parts, merged. -/
theorem Tables.ofText_append {front : String} (ends : Text.EndsLine front)
    (idle : OpenZone.behind front = .idle) (back : String)
    : (ofText (front ++ back)).Same
        ((ofText front).extend ((ofText back).renumber (· + Text.lineCount front))) := by
  rw [ofText_eq, ofText_eq, ofText_eq, Entry.listOf_append ends idle, addAll_append,
    renumber_addAll]
  exact addAll_same_extend _ _

end CivilTime
