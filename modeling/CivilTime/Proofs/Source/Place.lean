import CivilTime.Proofs.Source.Numbering

/-! Readers and the fields that they are inside of.
A reader that accepts its input has left every field that it entered. One that refuses may leave
fields open, and may close a field that another reader has left open, but never one that was open in
front of it. So what a line comes to does not depend on the lines in front of it.
-/

namespace CivilTime

namespace Place

/-- The fields of one place are open at another one, inside of which only further ones are. -/
structure Within (before after : Place) : Prop where
  line : after.line = before.line
  fields : before.fields <:+ after.fields

theorem Within.refl (place : Place) : place.Within place := ⟨rfl, List.suffix_rfl⟩

theorem Within.trans {first second third : Place} (inner : first.Within second)
    (outer : second.Within third)
    : first.Within third :=
  ⟨outer.line.trans inner.line, inner.fields.trans outer.fields⟩

/-- Closing a field behind a reader that has entered one keeps the fields in front of it. -/
theorem Within.leave {place after : Place} {field : Field}
    (entered : Within { place with fields := field :: place.fields } after)
    : place.Within { after with fields := after.fields.tail } := by
  refine ⟨entered.line, ?_⟩
  obtain ⟨extra, split⟩ := entered.fields
  cases extra with
  | nil => exact ⟨[], by simp [← split]⟩
  | cons inner extra => exact ⟨extra ++ [field], by simp [← split]⟩

/-- A place of a line that is being read: the field that is open at the start of the line still is.
-/
def Grounded (place : Place) : Prop := (ofLine place.line).Within place

theorem grounded_ofLine (line : Nat) : (ofLine line).Grounded := .refl _

theorem grounded_start : start.Grounded := grounded_ofLine 0

theorem Within.grounded {before after : Place} (inside : before.Within after)
    (grounded : before.Grounded)
    : after.Grounded := by
  rw [Grounded, inside.line]
  exact grounded.trans inside

/-- The next line starts afresh, whatever has been left open on this one. -/
theorem Grounded.nextLine {place : Place} (grounded : place.Grounded)
    : place.nextLine = ofLine (place.line + 1) := by
  obtain ⟨extra, split⟩ := grounded.fields
  simp [Place.nextLine, ofLine, ← split]

end Place

namespace ColumnReader

variable {α β : Type}

/-- A reader that leaves the place as it was if it accepts its input, and with further fields inside
the ones that were open if it refuses. -/
def Restores (reader : ColumnReader α) : Prop :=
  ∀ place,
    match reader.run place with
    | (.ok _, after) => after = place
    | (.error _, after) => place.Within after

/-- Wherever a reader ends, the fields in front of it are open. -/
theorem Restores.within_run {reader : ColumnReader α} (restores : Restores reader) (place : Place)
    : place.Within (reader.run place).2 := by
  have restored := restores place
  cases outcome : reader.run place with
  | mk given after =>
      rw [outcome] at restored
      cases given with
      | error error => exact restored
      | ok value =>
          have same : after = place := restored
          exact same ▸ .refl place

-----------------------------------------------------------------------------------------
-- Sequences of readers
-----------------------------------------------------------------------------------------

theorem restores_pure (value : α) : Restores (pure value) := fun _ => rfl

theorem restores_get : Restores (get : ColumnReader Place) := fun _ => rfl

theorem restores_refuse (fault : LineFault) : Restores (refuse fault : ColumnReader α) :=
  fun place => .refl place

theorem restores_refuseField (fault : Field → LineFault)
    : Restores (refuseField fault : ColumnReader α) :=
  fun place => .refl place

theorem restores_refuseWord (word : String) : Restores (refuseWord word : ColumnReader α) :=
  restores_refuseField _

theorem Restores.bind {first : ColumnReader α} {rest : α → ColumnReader β}
    (restores : Restores first) (later : ∀ value, Restores (rest value))
    : Restores (first >>= rest) := by
  intro place
  have here := restores place
  rw [run_bind]
  cases outcome : first.run place with
  | mk given between =>
      rw [outcome] at here
      cases given with
      | error error => exact here
      | ok value =>
          have same : between = place := here
          exact same ▸ later value between

theorem Restores.map {reader : ColumnReader α} (restores : Restores reader) (change : α → β)
    : Restores (change <$> reader) := by
  rw [← bind_pure_comp]
  exact restores.bind fun value => restores_pure (change value)

theorem Restores.inside {reader : ColumnReader α} (restores : Restores reader) (field : Field)
    : Restores (inside field reader) := by
  intro place
  have entered := restores { place with fields := field :: place.fields }
  rw [run_inside]
  cases outcome : reader.run { place with fields := field :: place.fields } with
  | mk given after =>
      rw [outcome] at entered
      cases given with
      | error error => exact ⟨entered.line, (List.suffix_cons _ _).trans entered.fields⟩
      | ok value =>
          have same : after = { place with fields := field :: place.fields } := entered
          rw [same]
          rfl

/-- A refusing reader may have left fields open, of which the innermost one is closed instead. -/
theorem Restores.within {reader : ColumnReader α} (restores : Restores reader) (field : Field)
    : Restores (within field reader) := by
  intro place
  have entered := restores { place with fields := field :: place.fields }
  rw [run_within]
  cases outcome : reader.run { place with fields := field :: place.fields } with
  | mk given after =>
      rw [outcome] at entered
      cases given with
      | error error => exact entered.leave
      | ok value =>
          have same : after = { place with fields := field :: place.fields } := entered
          rw [same]
          rfl

-----------------------------------------------------------------------------------------
-- Columns
-----------------------------------------------------------------------------------------

theorem restores_ofOption (word : String) (found : Option α) : Restores (ofOption word found) := by
  cases found with
  | some value => exact restores_pure value
  | none => exact restores_refuseWord word

theorem restores_numeral (range : Text.NumeralRange) (text : List Char)
    : Restores (numeral range text) := by
  unfold numeral
  split
  · exact restores_pure _
  · exact restores_refuseField _

theorem restores_small (text : List Char) : Restores (small text) := (restores_numeral _ text).map _

theorem restores_optionalSmall (text : Option (List Char)) : Restores (optionalSmall text) := by
  cases text with
  | some text => exact restores_small text
  | none => exact restores_pure 0

end ColumnReader

open ColumnReader

theorem ClockTime.restores_read (text : List Char) : Restores (ClockTime.read text) := by
  refine Restores.inside ?_ _
  refine ((restores_numeral _ _).map _).bind fun hour => ?_
  refine (restores_optionalSmall _).bind fun minute => ?_
  refine (restores_optionalSmall _).bind fun second => ?_
  split
  · exact restores_pure _
  · exact restores_refuseWord _

theorem TimeOfDay.restores_read (text : List Char) : Restores (TimeOfDay.read text) :=
  (ClockTime.restores_read _).bind fun _ => restores_pure _

theorem YearBound.restores_read (word : String) : Restores (YearBound.read word) := by
  refine Restores.within ?_ _
  split
  · exact restores_ofOption _ _
  · exact (restores_numeral _ _).map _

theorem YearBound.restores_readLast (word : String) (first : YearBound)
    : Restores (YearBound.readLast word first) := by
  unfold readLast
  split
  · exact restores_pure first
  · exact restores_read word

theorem Month.restores_read (word : String) : Restores (Month.read word) :=
  (restores_ofOption _ _).within _

theorem WeekDay.restores_read (text : List Char) : Restores (WeekDay.read text) :=
  (restores_ofOption _ _).within _

theorem restores_checkDay (day : Nat) (word : String) : Restores (checkDay day word) := by
  unfold checkDay
  split
  · exact restores_pure day
  · exact restores_refuseWord word

theorem restores_readComparison (sides : List Char × List Char) (word : String)
    : Restores (readComparison sides word) :=
  (WeekDay.restores_read _).bind fun _ =>
    (restores_small _).bind fun _ => (restores_checkDay _ _).bind fun _ => restores_pure _

theorem DayRule.restores_read (word : String) : Restores (DayRule.read word) := by
  refine Restores.within ?_ _
  split
  · exact (WeekDay.restores_read _).map _
  · split
    · exact (restores_readComparison _ _).map _
    · split
      · exact (restores_readComparison _ _).map _
      · exact (restores_small _).bind fun _ => (restores_checkDay _ _).map _

theorem restores_readDayOf (month : Month) (word : String) : Restores (readDayOf month word) := by
  refine (DayRule.restores_read word).bind fun rule => ?_
  unfold DayRule.checkMonth
  split
  · exact restores_refuseWord _
  · exact restores_pure rule

theorem SavingsSource.restores_read (word : String) : Restores (SavingsSource.read word) := by
  refine Restores.within ?_ _
  split
  · exact restores_pure _
  · split
    · exact (ClockTime.restores_read _).map _
    · exact restores_pure _

/-- A refused time leaves its field open, and the column closes that one in place of its own. -/
example : ((SavingsSource.read "1:x").run .start).2.path = ["undefined", "RuleIdentifier"] := by
  decide

theorem NameFormat.restores_read (word : String) : Restores (NameFormat.read word) :=
  (restores_pure _).within _

-----------------------------------------------------------------------------------------
-- Records
-----------------------------------------------------------------------------------------

theorem restores_nextColumn (columns : List String) : Restores (nextColumn columns) := by
  cases columns with
  | nil => exact restores_refuseField _
  | cons column rest => exact restores_pure (column, rest)

theorem restores_expectEnd (columns : List String) : Restores (expectEnd columns) := by
  cases columns with
  | nil => exact restores_pure ()
  | cons word rest => exact restores_refuseField (.unexpectedWord · word)

theorem restores_optionalColumn {α : Type} {reader : String → ColumnReader α} {default : α}
    (restores : ∀ column, Restores (reader column)) (columns : List String)
    : Restores (optionalColumn reader default columns) := by
  cases columns with
  | nil => exact restores_pure (default, [])
  | cons column rest => exact (restores column).bind fun _ => restores_pure _

theorem Until.restores_read (columns : List String) : Restores (Until.read columns) := by
  refine Restores.inside ?_ _
  refine (restores_nextColumn _).bind fun (yearText, columns) => ?_
  refine (restores_numeral _ _).bind fun year => ?_
  refine (restores_optionalColumn Month.restores_read _).bind fun (month, columns) => ?_
  refine (restores_optionalColumn (restores_readDayOf month) _).bind fun (day, columns) => ?_
  refine (restores_optionalColumn (fun word => TimeOfDay.restores_read word.toList) _).bind
    fun (time, columns) => ?_
  exact (restores_expectEnd _).bind fun _ => restores_pure _

theorem Until.restores_readOptional (columns : List String)
    : Restores (Until.readOptional columns) := by
  cases columns with
  | nil => exact restores_pure none
  | cons column rest => exact (Until.restores_read _).map _

theorem ZoneLine.restores_read (columns : List String) : Restores (ZoneLine.read columns) := by
  refine Restores.inside ?_ _
  refine (restores_nextColumn _).bind fun (offsetText, columns) => ?_
  refine (ClockTime.restores_read _).bind fun stdOffset => ?_
  refine (restores_nextColumn _).bind fun (savingsText, columns) => ?_
  refine (SavingsSource.restores_read _).bind fun savings => ?_
  refine (restores_nextColumn _).bind fun (formatText, columns) => ?_
  refine (NameFormat.restores_read _).bind fun format => ?_
  refine (Until.restores_readOptional _).bind fun stop => ?_
  exact restores_get.bind fun _ => restores_pure _

theorem restores_checkYears (first last : YearBound) : Restores (checkYears first last) := by
  unfold checkYears
  split
  · exact restores_refuse _
  · exact restores_pure ()

theorem Recurrence.restores_read (columns : List String) : Restores (Recurrence.read columns) := by
  refine (restores_nextColumn _).bind fun (name, columns) => ?_
  refine (restores_nextColumn _).bind fun (firstText, columns) => ?_
  refine (YearBound.restores_read _).bind fun first => ?_
  refine (restores_nextColumn _).bind fun (lastText, columns) => ?_
  refine (YearBound.restores_readLast _ _).bind fun last => ?_
  refine (restores_checkYears _ _).bind fun _ => ?_
  refine (restores_nextColumn _).bind fun (reserved, columns) => ?_
  refine (restores_nextColumn _).bind fun (monthText, columns) => ?_
  refine (Month.restores_read _).bind fun month => ?_
  refine (restores_nextColumn _).bind fun (dayText, columns) => ?_
  refine (restores_readDayOf _ _).bind fun day => ?_
  refine (restores_nextColumn _).bind fun (timeText, columns) => ?_
  refine (TimeOfDay.restores_read _).bind fun time => ?_
  refine (restores_nextColumn _).bind fun (saveText, columns) => ?_
  refine (ClockTime.restores_read _).bind fun save => ?_
  refine (restores_nextColumn _).bind fun (letterText, columns) => ?_
  exact (restores_expectEnd _).bind fun _ => restores_pure _

theorem Link.restores_read (columns : List String) : Restores (Link.read columns) := by
  refine (restores_nextColumn _).bind fun (target, columns) => ?_
  refine (restores_nextColumn _).bind fun (name, columns) => ?_
  refine (restores_expectEnd _).bind fun _ => ?_
  exact restores_get.bind fun _ => restores_pure _

theorem restores_readHeader (columns : List String) : Restores (readHeader columns) := by
  cases columns with
  | nil => exact restores_refuse _
  | cons name rest => exact (ZoneLine.restores_read rest).bind fun _ => restores_pure _

theorem Record.restores_readKind (columns : List String) (kind : RecordKind)
    : Restores (Record.readKind columns kind) := by
  cases kind with
  | rule => exact ((Recurrence.restores_read columns).map _).inside _
  | zone => exact ((restores_readHeader columns).map _).inside _
  | link => exact ((Link.restores_read columns).map _).inside _

theorem Record.restores_readColumns (continued : Bool) (columns : List String)
    : Restores (Record.readColumns continued columns) := by
  cases columns with
  | nil => exact restores_pure none
  | cons word rest =>
      cases continued with
      | true => exact (((ZoneLine.restores_read (word :: rest)).map _).inside _).map _
      | false =>
          simp only [readColumns, Bool.false_eq_true, if_false]
          cases RecordKind.ofWord? word with
          | none => exact restores_refuse _
          | some kind => exact (restores_readKind rest kind).map _

theorem Record.restores_read (continued : Bool) (line : String)
    : Restores (Record.read continued line) :=
  restores_readColumns continued (columnsOf line)

-----------------------------------------------------------------------------------------
-- Lines one after the other
-----------------------------------------------------------------------------------------

namespace Record

/-- What each of the lines behind a place comes to, with the place that it leaves behind. A line
comes with whether it continues a zone.
-/
def readAll (place : Place) : List (Bool × String) → List (Except LineError (Option Record) × Place)
  | [] => []
  | (continued, line) :: rest =>
    let outcome := (Record.read continued line).run place.nextLine
    outcome :: readAll outcome.2 rest

/-- A line comes to what it comes to on its own, by induction on the lines. The base of the fields
survives every one of them.
-/
theorem readAll_eq {place : Place} (grounded : place.Grounded) (lines : List (Bool × String))
    : readAll place lines
      = lines.mapIdx fun i line =>
          (Record.read line.1 line.2).run (.ofLine (place.line + 1 + i)) := by
  induction lines generalizing place with
  | nil => rfl
  | cons line rest ih =>
      obtain ⟨continued, text⟩ := line
      have inside := (restores_read continued text).within_run (.ofLine (place.line + 1))
      have later := ih (inside.grounded (Place.grounded_ofLine _))
      have line_eq : ((Record.read continued text).run (.ofLine (place.line + 1))).2.line
          = place.line + 1 := inside.line
      rw [readAll, grounded.nextLine, List.mapIdx_cons]
      simp only [later, line_eq, Nat.add_zero, Nat.add_assoc, Nat.add_comm 1]

/-- What a line comes to does not depend on the lines in front of it: it is what the line comes to
at the start of a line of its number. An accepted line leaves the fields as they were, and a refused
one leaves further fields inside of them.
-/
theorem readAll_independent (lines : List (Bool × String))
    : readAll .start lines
        = lines.mapIdx (fun i line => (Record.read line.1 line.2).run (.ofLine (i + 1)))
      ∧ ∀ continued line, Restores (Record.read continued line) := by
  refine ⟨?_, restores_read⟩
  rw [readAll_eq Place.grounded_start]
  simp only [Place.start, Place.ofLine, Nat.zero_add, Nat.add_comm 1]

end Record

end CivilTime
