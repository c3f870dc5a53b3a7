import CivilTime.Proofs.Source.Column
import CivilTime.Source.Record

/-! A line is read alike wherever it stands.
Its number is put into the records that it gives and into the refusal of the line, and is looked at
for nothing else.
-/

namespace CivilTime

namespace ColumnReader

variable {α β : Type} {mark : Nat → α → α} {mark' : Nat → β → β}

/-- A reader that comes to the same on every line, up to the number of the line. A refusal carries
the number, and `mark` puts it into a value.
-/
def Marks (reader : ColumnReader α) (mark : Nat → α → α) : Prop :=
  ∀ line fields,
    reader.run { line, fields }
      = match reader.run { line := 0, fields } with
        | (.ok value, after) => (.ok (mark line value), { after with line })
        | (.error error, after) => (.error { error with line }, { after with line })

/-- What a reader comes to at the start of a line. -/
theorem Marks.run_ofLine {reader : ColumnReader α} (marks : Marks reader mark) (line : Nat)
    : reader.run (.ofLine line)
      = match reader.run .start with
        | (.ok value, after) => (.ok (mark line value), { after with line })
        | (.error error, after) => (.error { error with line }, { after with line }) :=
  marks line [.undefined]

/-- A reader whose values do not tell the number of the line. -/
abbrev Blind (reader : ColumnReader α) : Prop := Marks reader fun _ value => value

-----------------------------------------------------------------------------------------
-- Sequences of readers
-----------------------------------------------------------------------------------------

theorem run_inside (field : Field) (reader : ColumnReader α) (place : Place)
    : (inside field reader).run place
      = match reader.run { place with fields := field :: place.fields } with
        | (.ok value, after) => (.ok value, { after with fields := after.fields.tail })
        | (.error error, after) => (.error error, after) := by
  rw [inside, run_bind]
  change (reader >>= _).run _ = _
  rw [run_bind]
  cases reader.run { place with fields := field :: place.fields } with
  | mk outcome after => cases outcome <;> rfl

theorem run_within (field : Field) (reader : ColumnReader α) (place : Place)
    : (within field reader).run place
      = match reader.run { place with fields := field :: place.fields } with
        | (outcome, after) => (outcome, { after with fields := after.fields.tail }) := by
  rw [within, run_bind]
  refine (run_tryCatch _ _ _).trans ?_
  rw [run_bind]
  cases reader.run { place with fields := field :: place.fields } with
  | mk outcome after => cases outcome <;> rfl

/-- A blind reader can stand in front of any other one. Its values are the same on every line, and
it stays on the line.
-/
theorem Marks.bind {first : ColumnReader α} {rest : α → ColumnReader β} (blind : Blind first)
    (later : ∀ value, Marks (rest value) mark')
    : Marks (first >>= rest) mark' := by
  intro line fields
  have here := blind line fields
  have start := blind 0 fields
  rw [run_bind, run_bind, here]
  cases outcome : first.run { line := 0, fields } with
  | mk given after =>
      rw [outcome] at start
      cases given with
      | error error => rfl
      | ok value =>
          have after_eq : after = { line := 0, fields := after.fields } := (Prod.mk.inj start).2
          simp only
          rw [after_eq]
          exact later value line after.fields

theorem Marks.map {reader : ColumnReader α} {change : α → β} (marks : Marks reader mark)
    (kept : ∀ line value, change (mark line value) = mark' line (change value))
    : Marks (change <$> reader) mark' := by
  intro line fields
  rw [← bind_pure_comp, run_bind, run_bind, marks line fields]
  cases reader.run { line := 0, fields } with
  | mk outcome after =>
      cases outcome with
      | error error => rfl
      | ok value => exact congrArg (fun value => (Except.ok value, _)) (kept line value)

theorem Marks.inside {reader : ColumnReader α} (marks : Marks reader mark) (field : Field)
    : Marks (inside field reader) mark := by
  intro line fields
  rw [run_inside, run_inside, marks]
  cases reader.run { line := 0, fields := field :: fields } with
  | mk outcome after => cases outcome <;> rfl

theorem Marks.within {reader : ColumnReader α} (marks : Marks reader mark) (field : Field)
    : Marks (within field reader) mark := by
  intro line fields
  rw [run_within, run_within, marks]
  cases reader.run { line := 0, fields := field :: fields } with
  | mk outcome after => cases outcome <;> rfl

-----------------------------------------------------------------------------------------
-- Columns
-----------------------------------------------------------------------------------------

theorem blind_pure (value : α) : Blind (pure value) := fun _ _ => rfl

theorem marks_refuse (fault : LineFault) : Marks (refuse fault) mark := fun _ _ => rfl

theorem marks_refuseField (fault : Field → LineFault) : Marks (refuseField fault) mark :=
  fun _ _ => rfl

theorem marks_refuseWord (word : String) : Marks (refuseWord word) mark := marks_refuseField _

theorem blind_ofOption (word : String) (found : Option α) : Blind (ofOption word found) := by
  cases found with
  | some value => exact blind_pure value
  | none => exact marks_refuseWord word

theorem blind_numeral (range : Text.NumeralRange) (text : List Char)
    : Blind (numeral range text) := by
  unfold numeral
  split
  · exact blind_pure _
  · exact marks_refuseField _

theorem blind_small (text : List Char) : Blind (small text) :=
  (blind_numeral _ text).map fun _ _ => rfl

theorem blind_optionalSmall (text : Option (List Char)) : Blind (optionalSmall text) := by
  cases text with
  | some text => exact blind_small text
  | none => exact blind_pure 0

end ColumnReader

open ColumnReader

theorem ClockTime.blind_read (text : List Char) : Blind (ClockTime.read text) := by
  refine Marks.inside ?_ _
  refine Marks.bind ((blind_numeral _ _).map fun _ _ => rfl) fun hour => ?_
  refine Marks.bind (blind_optionalSmall _) fun minute => ?_
  refine Marks.bind (blind_optionalSmall _) fun second => ?_
  split
  · exact blind_pure _
  · exact marks_refuseWord _

theorem TimeOfDay.blind_read (text : List Char) : Blind (TimeOfDay.read text) :=
  Marks.bind (ClockTime.blind_read _) fun _ => blind_pure _

theorem YearBound.blind_read (word : String) : Blind (YearBound.read word) := by
  refine Marks.within ?_ _
  split
  · exact blind_ofOption _ _
  · exact (blind_numeral _ _).map fun _ _ => rfl

theorem YearBound.blind_readLast (word : String) (first : YearBound)
    : Blind (YearBound.readLast word first) := by
  unfold readLast
  split
  · exact blind_pure first
  · exact blind_read word

theorem Month.blind_read (word : String) : Blind (Month.read word) :=
  (blind_ofOption _ _).within _

theorem WeekDay.blind_read (text : List Char) : Blind (WeekDay.read text) :=
  (blind_ofOption _ _).within _

theorem blind_checkDay (day : Nat) (word : String) : Blind (checkDay day word) := by
  unfold checkDay
  split
  · exact blind_pure day
  · exact marks_refuseWord word

theorem blind_readComparison (sides : List Char × List Char) (word : String)
    : Blind (readComparison sides word) :=
  Marks.bind (WeekDay.blind_read _) fun _ =>
    Marks.bind (blind_small _) fun _ =>
      Marks.bind (blind_checkDay _ _) fun _ => blind_pure _

theorem DayRule.blind_read (word : String) : Blind (DayRule.read word) := by
  refine Marks.within ?_ _
  split
  · exact (WeekDay.blind_read _).map fun _ _ => rfl
  · split
    · exact (blind_readComparison _ _).map fun _ _ => rfl
    · split
      · exact (blind_readComparison _ _).map fun _ _ => rfl
      · exact Marks.bind (blind_small _) fun _ => (blind_checkDay _ _).map fun _ _ => rfl

theorem DayRule.blind_checkMonth (rule : DayRule) (month : Month)
    : Blind (rule.checkMonth month) := by
  unfold checkMonth
  split
  · exact marks_refuseWord _
  · exact blind_pure rule

theorem SavingsSource.blind_read (word : String) : Blind (SavingsSource.read word) := by
  refine Marks.within ?_ _
  split
  · exact blind_pure _
  · split
    · exact (ClockTime.blind_read _).map fun _ _ => rfl
    · exact blind_pure _

theorem NameFormat.blind_read (word : String) : Blind (NameFormat.read word) :=
  (blind_pure _).within _

-----------------------------------------------------------------------------------------
-- Records
-----------------------------------------------------------------------------------------

theorem blind_nextColumn (columns : List String) : Blind (nextColumn columns) := by
  cases columns with
  | nil => exact marks_refuseField _
  | cons column rest => exact blind_pure (column, rest)

theorem blind_expectEnd (columns : List String) : Blind (expectEnd columns) := by
  cases columns with
  | nil => exact blind_pure ()
  | cons word rest => exact fun _ _ => rfl

theorem blind_optionalColumn {α : Type} {reader : String → ColumnReader α} {default : α}
    (blind : ∀ column, Blind (reader column)) (columns : List String)
    : Blind (optionalColumn reader default columns) := by
  cases columns with
  | nil => exact blind_pure (default, [])
  | cons column rest => exact Marks.bind (blind column) fun _ => blind_pure _

theorem blind_readDayOf (month : Month) (word : String) : Blind (readDayOf month word) :=
  Marks.bind (DayRule.blind_read word) fun rule => rule.blind_checkMonth month

theorem Until.blind_read (columns : List String) : Blind (Until.read columns) := by
  refine Marks.inside ?_ _
  refine Marks.bind (blind_nextColumn _) fun (yearText, columns) => ?_
  refine Marks.bind (blind_numeral _ _) fun year => ?_
  refine Marks.bind (blind_optionalColumn Month.blind_read _) fun (month, columns) => ?_
  refine Marks.bind (blind_optionalColumn (blind_readDayOf month) _) fun (day, columns) => ?_
  refine Marks.bind (blind_optionalColumn (fun word => TimeOfDay.blind_read word.toList) _)
    fun (time, columns) => ?_
  exact Marks.bind (blind_expectEnd _) fun _ => blind_pure _

theorem Until.blind_readOptional (columns : List String) : Blind (Until.readOptional columns) := by
  cases columns with
  | nil => exact blind_pure none
  | cons column rest => exact (Until.blind_read _).map fun _ _ => rfl

/-- A zone line with another number. -/
def ZoneLine.renumber (change : Nat → Nat) (l : ZoneLine) : ZoneLine :=
  { l with line := change l.line }

/-- A link with another number. -/
def Link.renumber (change : Nat → Nat) (link : Link) : Link :=
  { link with line := change link.line }

/-- A record with another number. A rule does not tell its line. -/
def Record.renumber (change : Nat → Nat) : Record → Record
  | .rule r => .rule r
  | .zone name l => .zone name (l.renumber change)
  | .continuation l => .continuation (l.renumber change)
  | .link l => .link (l.renumber change)

theorem ZoneLine.marks_read (columns : List String)
    : Marks (ZoneLine.read columns) fun line => ZoneLine.renumber fun _ => line := by
  refine Marks.inside ?_ _
  refine Marks.bind (blind_nextColumn _) fun (offsetText, columns) => ?_
  refine Marks.bind (ClockTime.blind_read _) fun stdOffset => ?_
  refine Marks.bind (blind_nextColumn _) fun (savingsText, columns) => ?_
  refine Marks.bind (SavingsSource.blind_read _) fun savings => ?_
  refine Marks.bind (blind_nextColumn _) fun (formatText, columns) => ?_
  refine Marks.bind (NameFormat.blind_read _) fun format => ?_
  exact Marks.bind (Until.blind_readOptional _) fun stop _ _ => rfl

theorem blind_checkYears (first last : YearBound) : Blind (checkYears first last) := by
  unfold checkYears
  split
  · exact marks_refuse _
  · exact blind_pure ()

theorem Recurrence.blind_read (columns : List String) : Blind (Recurrence.read columns) := by
  refine Marks.bind (blind_nextColumn _) fun (name, columns) => ?_
  refine Marks.bind (blind_nextColumn _) fun (firstText, columns) => ?_
  refine Marks.bind (YearBound.blind_read _) fun first => ?_
  refine Marks.bind (blind_nextColumn _) fun (lastText, columns) => ?_
  refine Marks.bind (YearBound.blind_readLast _ _) fun last => ?_
  refine Marks.bind (blind_checkYears _ _) fun _ => ?_
  refine Marks.bind (blind_nextColumn _) fun (reserved, columns) => ?_
  refine Marks.bind (blind_nextColumn _) fun (monthText, columns) => ?_
  refine Marks.bind (Month.blind_read _) fun month => ?_
  refine Marks.bind (blind_nextColumn _) fun (dayText, columns) => ?_
  refine Marks.bind (blind_readDayOf _ _) fun day => ?_
  refine Marks.bind (blind_nextColumn _) fun (timeText, columns) => ?_
  refine Marks.bind (TimeOfDay.blind_read _) fun time => ?_
  refine Marks.bind (blind_nextColumn _) fun (saveText, columns) => ?_
  refine Marks.bind (ClockTime.blind_read _) fun save => ?_
  refine Marks.bind (blind_nextColumn _) fun (letterText, columns) => ?_
  exact Marks.bind (blind_expectEnd _) fun _ => blind_pure _

theorem Link.marks_read (columns : List String)
    : Marks (Link.read columns) fun line => Link.renumber fun _ => line := by
  refine Marks.bind (blind_nextColumn _) fun (target, columns) => ?_
  refine Marks.bind (blind_nextColumn _) fun (name, columns) => ?_
  exact Marks.bind (blind_expectEnd _) fun _ _ _ => rfl

theorem marks_readHeader (columns : List String)
    : Marks (readHeader columns)
        fun line header => (header.1, header.2.renumber fun _ => line) := by
  cases columns with
  | nil => exact marks_refuse _
  | cons name rest =>
      change Marks ((fun line => (name, line)) <$> ZoneLine.read rest) _
      exact (ZoneLine.marks_read rest).map fun _ _ => rfl

theorem Record.marks_readKind (columns : List String) (kind : RecordKind)
    : Marks (Record.readKind columns kind) fun line => Record.renumber fun _ => line := by
  cases kind with
  | rule =>
      refine Marks.inside ?_ _
      exact (Recurrence.blind_read columns).map fun _ _ => rfl
  | zone =>
      refine Marks.inside ?_ _
      exact (marks_readHeader columns).map fun _ _ => rfl
  | link =>
      refine Marks.inside ?_ _
      exact (Link.marks_read columns).map fun _ _ => rfl

/-- The columns of a line are read alike wherever it stands. -/
theorem Record.marks_readColumns (continued : Bool) (columns : List String)
    : Marks (Record.readColumns continued columns) fun line =>
        Option.map (Record.renumber fun _ => line) := by
  have found {reader : ColumnReader Record}
      (marks : Marks reader fun line => Record.renumber fun _ => line)
      : Marks (some <$> reader) fun line => Option.map (Record.renumber fun _ => line) :=
    marks.map fun _ _ => rfl
  cases columns with
  | nil => exact fun _ _ => rfl
  | cons word rest =>
      cases continued with
      | true =>
          refine found (Marks.inside ?_ _)
          exact (ZoneLine.marks_read (word :: rest)).map fun _ _ => rfl
      | false =>
          rw [readColumns]
          simp only [Bool.false_eq_true, if_false]
          cases RecordKind.ofWord? word with
          | none => exact marks_refuse _
          | some kind => exact found (marks_readKind rest kind)

end CivilTime
