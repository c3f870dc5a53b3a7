import CivilTime.Proofs.Source.Column
import CivilTime.Source.Record

/-! What the readers of records check.
Years are numbers of thirty-two bits and days are days of their months, in rules and in the ends of
zone lines alike. The times of rules are regular, and the formats of zone lines are as they are
written.
-/

namespace CivilTime

open ColumnReader

/-- The checks that a rule passes. -/
structure Recurrence.Checked (r : Recurrence) : Prop where
  first : r.first.InRange
  last : r.last.InRange
  day : r.DayInMonth
  time : r.time.time.Regular
  save : r.save.Regular

/-- The checks that the end of a zone line passes. -/
structure Until.Checked (u : Until) : Prop where
  year : -2147483648 ≤ u.year ∧ u.year ≤ 2147483647
  day : u.day.dayPast? u.month = none

/-- The checks that a zone line passes. -/
structure ZoneLine.Checked (line : ZoneLine) : Prop where
  stop : ∀ u ∈ line.stop, u.Checked
  format : ∃ source, line.format = .ofSource source

/-- The checks that a record passes. -/
def Record.Checked : Record → Prop
  | .rule r => r.Checked
  | .zone _ line | .continuation line => line.Checked
  | .link _ => True

/-- An optional column gives what its reader gives, or the default value. -/
theorem yields_optionalColumn {α : Type} {P : α → Prop} {reader : String → ColumnReader α}
    {default : α} (given : ∀ column, Yields (reader column) P) (holds : P default)
    (columns : List String)
    : Yields (optionalColumn reader default columns) fun result => P result.1 := by
  cases columns with
  | nil => exact yields_pure holds
  | cons column rest => exact (given column).bind fun _ held => yields_pure held

/-- A day that is read for a month is a day of it. -/
theorem yields_readDayOf (month : Month) (word : String)
    : Yields (readDayOf month word) fun day => day.dayPast? month = none :=
  (yields_true _).bind fun rule _ => rule.yields_checkMonth month

/-- A day that is read for a month is counted from one. -/
theorem yields_readDayOf_fromOne (month : Month) (word : String)
    : Yields (readDayOf month word) DayRule.FromOne :=
  (DayRule.yields_read word).bind fun rule named place checked behind read =>
    rule.yields_checkMonth_same month place checked behind read ▸ named

/-- The first of a month is a day of it, by cases on the month. -/
theorem DayRule.dayPast?_first (month : Month) : (DayRule.fixed 1).dayPast? month = none := by
  cases month <;> decide

/-- The end of a zone line passes its checks. -/
theorem Until.yields_read (columns : List String) : Yields (Until.read columns) Checked := by
  refine Yields.inside ?_ _
  refine (yields_true _).bind fun (yearText, columns) _ => ?_
  refine (yields_numeral (by decide) (by decide) _).bind fun year year_range => ?_
  refine (yields_true _).bind fun (month, columns) _ => ?_
  refine (yields_optionalColumn (yields_readDayOf month) (DayRule.dayPast?_first month) _).bind
    fun (day, columns) inside => ?_
  refine (yields_true _).bind fun (time, columns) _ => ?_
  exact (yields_true _).bind fun _ _ => yields_pure ⟨year_range, inside⟩

/-- A zone line passes its checks. -/
theorem ZoneLine.yields_read (columns : List String) : Yields (ZoneLine.read columns) Checked := by
  have yields_stop (columns : List String)
      : Yields (Until.readOptional columns) fun stop => ∀ u ∈ stop, u.Checked := by
    unfold Until.readOptional
    split
    · exact yields_pure (by simp)
    · exact (Until.yields_read _).map fun u checked => by simpa using checked
  refine Yields.inside ?_ _
  refine (yields_true _).bind fun (offsetText, columns) _ => ?_
  refine (yields_true _).bind fun stdOffset _ => ?_
  refine (yields_true _).bind fun (savingsText, columns) _ => ?_
  refine (yields_true _).bind fun savings _ => ?_
  refine (yields_true _).bind fun (formatText, columns) _ => ?_
  refine (NameFormat.yields_read _).bind fun format source => ?_
  refine (yields_stop columns).bind fun stop checked => ?_
  exact (yields_true _).bind fun _ _ => yields_pure ⟨checked, source⟩

/-- A rule passes its checks. -/
theorem Recurrence.yields_read (columns : List String)
    : Yields (Recurrence.read columns) Checked := by
  refine (yields_true _).bind fun (name, columns) _ => ?_
  refine (yields_true _).bind fun (firstText, columns) _ => ?_
  refine (YearBound.yields_read _).bind fun first first_range => ?_
  refine (yields_true _).bind fun (lastText, columns) _ => ?_
  refine (YearBound.yields_readLast first_range _).bind fun last last_range => ?_
  refine (yields_true _).bind fun _ _ => ?_
  refine (yields_true _).bind fun (reserved, columns) _ => ?_
  refine (yields_true _).bind fun (monthText, columns) _ => ?_
  refine (yields_true _).bind fun month _ => ?_
  refine (yields_true _).bind fun (dayText, columns) _ => ?_
  refine (yields_readDayOf month _).bind fun day inside => ?_
  refine (yields_true _).bind fun (timeText, columns) _ => ?_
  refine (TimeOfDay.yields_read _).bind fun time time_regular => ?_
  refine (yields_true _).bind fun (saveText, columns) _ => ?_
  refine (ClockTime.yields_read _).bind fun save save_regular => ?_
  refine (yields_true _).bind fun (letterText, columns) _ => ?_
  exact (yields_true _).bind fun _ _ =>
    yields_pure ⟨first_range, last_range, inside, time_regular, save_regular⟩

/-- A rule names days of the month that are counted from one. -/
theorem Recurrence.yields_read_fromOne (columns : List String)
    : Yields (Recurrence.read columns) fun r => r.day.FromOne := by
  refine (yields_true _).bind fun (name, columns) _ => ?_
  refine (yields_true _).bind fun (firstText, columns) _ => ?_
  refine (yields_true _).bind fun first _ => ?_
  refine (yields_true _).bind fun (lastText, columns) _ => ?_
  refine (yields_true _).bind fun last _ => ?_
  refine (yields_true _).bind fun _ _ => ?_
  refine (yields_true _).bind fun (reserved, columns) _ => ?_
  refine (yields_true _).bind fun (monthText, columns) _ => ?_
  refine (yields_true _).bind fun month _ => ?_
  refine (yields_true _).bind fun (dayText, columns) _ => ?_
  refine (yields_readDayOf_fromOne month _).bind fun day named => ?_
  refine (yields_true _).bind fun (timeText, columns) _ => ?_
  refine (yields_true _).bind fun time _ => ?_
  refine (yields_true _).bind fun (saveText, columns) _ => ?_
  refine (yields_true _).bind fun save _ => ?_
  refine (yields_true _).bind fun (letterText, columns) _ => ?_
  exact (yields_true _).bind fun _ _ => yields_pure named

/-- A record passes its checks, by cases on its kind. -/
theorem Record.yields_readKind (columns : List String) (kind : RecordKind)
    : Yields (Record.readKind columns kind) Checked := by
  cases kind with
  | rule =>
      refine Yields.inside ?_ _
      exact (Recurrence.yields_read columns).map fun _ checked => checked
  | zone =>
      have yields_header : Yields (readHeader columns) fun header => header.2.Checked := by
        unfold readHeader
        split
        · exact (ZoneLine.yields_read _).bind fun _ checked => yields_pure checked
        · exact yields_refuse _
      refine Yields.inside ?_ _
      exact yields_header.map fun _ checked => checked
  | link =>
      refine Yields.inside ?_ _
      exact (yields_true (Link.read columns)).map fun _ _ => trivial

/-- The record of a line passes its checks. -/
theorem Record.yields_readColumns (continued : Bool) (columns : List String)
    : Yields (Record.readColumns continued columns) fun record => ∀ r ∈ record, r.Checked := by
  have found (r : Record) (checked : r.Checked) : ∀ q ∈ some r, q.Checked := by
    simpa using checked
  unfold readColumns
  split
  case h_1 => exact yields_pure (by simp)
  case h_2 word rest =>
    split
    · refine Yields.map (P := Checked) (Yields.inside ?_ _) found
      exact (ZoneLine.yields_read _).map fun _ checked => checked
    · split
      · exact yields_refuse _
      · exact (yields_readKind rest _).map found

end CivilTime
