import CivilTime.Proofs.Source.Entries

/-! What a line is refused for.
Its columns tell the fault. That a name is defined again is none of these faults: it is only found
where the records are put together. This is shown along the readers.
-/

namespace CivilTime

/-- Whether a name is defined again. -/
def LineFault.isDuplicate : LineFault → Bool
  | .duplicateName _ => true
  | _ => false

namespace ColumnReader

variable {α β : Type} {P : LineFault → Prop}

/-- Every fault that a reader refuses its input for has a property. -/
def Refuses (reader : ColumnReader α) (P : LineFault → Prop) : Prop :=
  ∀ place error after, reader.run place = (.error error, after) → P error.fault

-----------------------------------------------------------------------------------------
-- Sequences of readers
-----------------------------------------------------------------------------------------

theorem refuses_pure (value : α) : Refuses (pure value) P := by
  intro place error after read
  cases read

theorem refuses_get : Refuses (get : ColumnReader Place) P := by
  intro place error after read
  cases read

theorem refuses_refuse {fault : LineFault} (holds : P fault)
    : Refuses (refuse fault : ColumnReader α) P := by
  intro place error after read
  cases read
  exact holds

theorem refuses_refuseField (fault : Field → LineFault) (holds : ∀ field, P (fault field))
    : Refuses (refuseField fault : ColumnReader α) P := by
  intro place error after read
  cases read
  exact holds _

theorem Refuses.bind {first : ColumnReader α} {rest : α → ColumnReader β}
    (here : Refuses first P) (later : ∀ value, Refuses (rest value) P)
    : Refuses (first >>= rest) P := by
  intro place error after read
  rw [run_bind] at read
  cases outcome : first.run place with
  | mk given between =>
      rw [outcome] at read
      cases given with
      | error fault =>
          cases read
          exact here _ _ _ outcome
      | ok value => exact later value _ _ _ read

theorem Refuses.map {reader : ColumnReader α} (refuses : Refuses reader P) (change : α → β)
    : Refuses (change <$> reader) P := by
  rw [← bind_pure_comp]
  exact refuses.bind fun value => refuses_pure (change value)

theorem Refuses.inside {reader : ColumnReader α} (refuses : Refuses reader P) (field : Field)
    : Refuses (inside field reader) P := by
  intro place error after read
  rw [run_inside] at read
  cases outcome : reader.run { place with fields := field :: place.fields } with
  | mk given between =>
      rw [outcome] at read
      cases given with
      | error fault =>
          cases read
          exact refuses _ _ _ outcome
      | ok value => cases read

theorem Refuses.within {reader : ColumnReader α} (refuses : Refuses reader P) (field : Field)
    : Refuses (within field reader) P := by
  intro place error after read
  rw [run_within] at read
  cases outcome : reader.run { place with fields := field :: place.fields } with
  | mk given between =>
      rw [outcome] at read
      cases read
      exact refuses _ _ _ outcome

-----------------------------------------------------------------------------------------
-- Columns
-----------------------------------------------------------------------------------------

/-- A reader that refuses its input for what the columns tell. -/
abbrev Plain (reader : ColumnReader α) : Prop :=
  Refuses reader fun fault => fault.isDuplicate = false

theorem plain_refuseWord (word : String) : Plain (refuseWord word : ColumnReader α) :=
  refuses_refuseField _ fun _ => rfl

theorem plain_ofOption (word : String) (found : Option α) : Plain (ofOption word found) := by
  cases found with
  | some value => exact refuses_pure value
  | none => exact plain_refuseWord word

theorem plain_numeral (range : Text.NumeralRange) (text : List Char)
    : Plain (numeral range text) := by
  unfold numeral
  split
  · exact refuses_pure _
  · exact refuses_refuseField _ fun _ => rfl

theorem plain_small (text : List Char) : Plain (small text) := (plain_numeral _ text).map _

theorem plain_optionalSmall (text : Option (List Char)) : Plain (optionalSmall text) := by
  cases text with
  | some text => exact plain_small text
  | none => exact refuses_pure 0

end ColumnReader

open ColumnReader

theorem ClockTime.plain_read (text : List Char) : Plain (ClockTime.read text) := by
  refine Refuses.inside ?_ _
  refine ((plain_numeral _ _).map _).bind fun hour => ?_
  refine (plain_optionalSmall _).bind fun minute => ?_
  refine (plain_optionalSmall _).bind fun second => ?_
  split
  · exact refuses_pure _
  · exact plain_refuseWord _

theorem TimeOfDay.plain_read (text : List Char) : Plain (TimeOfDay.read text) :=
  (ClockTime.plain_read _).bind fun _ => refuses_pure _

theorem YearBound.plain_read (word : String) : Plain (YearBound.read word) := by
  refine Refuses.within ?_ _
  split
  · exact plain_ofOption _ _
  · exact (plain_numeral _ _).map _

theorem YearBound.plain_readLast (word : String) (first : YearBound)
    : Plain (YearBound.readLast word first) := by
  unfold readLast
  split
  · exact refuses_pure first
  · exact plain_read word

theorem Month.plain_read (word : String) : Plain (Month.read word) :=
  (plain_ofOption _ _).within _

theorem WeekDay.plain_read (text : List Char) : Plain (WeekDay.read text) :=
  (plain_ofOption _ _).within _

theorem plain_checkDay (day : Nat) (word : String) : Plain (checkDay day word) := by
  unfold checkDay
  split
  · exact refuses_pure day
  · exact plain_refuseWord word

theorem plain_readComparison (sides : List Char × List Char) (word : String)
    : Plain (readComparison sides word) :=
  (WeekDay.plain_read _).bind fun _ =>
    (plain_small _).bind fun _ => (plain_checkDay _ _).bind fun _ => refuses_pure _

theorem DayRule.plain_read (word : String) : Plain (DayRule.read word) := by
  refine Refuses.within ?_ _
  split
  · exact (WeekDay.plain_read _).map _
  · split
    · exact (plain_readComparison _ _).map _
    · split
      · exact (plain_readComparison _ _).map _
      · exact (plain_small _).bind fun _ => (plain_checkDay _ _).map _

theorem plain_readDayOf (month : Month) (word : String) : Plain (readDayOf month word) := by
  refine (DayRule.plain_read word).bind fun rule => ?_
  unfold DayRule.checkMonth
  split
  · exact plain_refuseWord _
  · exact refuses_pure rule

theorem SavingsSource.plain_read (word : String) : Plain (SavingsSource.read word) := by
  refine Refuses.within ?_ _
  split
  · exact refuses_pure _
  · split
    · exact (ClockTime.plain_read _).map _
    · exact refuses_pure _

-----------------------------------------------------------------------------------------
-- Records
-----------------------------------------------------------------------------------------

theorem plain_nextColumn (columns : List String) : Plain (nextColumn columns) := by
  cases columns with
  | nil => exact refuses_refuseField _ fun _ => rfl
  | cons column rest => exact refuses_pure (column, rest)

theorem plain_expectEnd (columns : List String) : Plain (expectEnd columns) := by
  cases columns with
  | nil => exact refuses_pure ()
  | cons word rest => exact refuses_refuseField (.unexpectedWord · word) fun _ => rfl

theorem plain_optionalColumn {α : Type} {reader : String → ColumnReader α} {default : α}
    (plain : ∀ column, Plain (reader column)) (columns : List String)
    : Plain (optionalColumn reader default columns) := by
  cases columns with
  | nil => exact refuses_pure (default, [])
  | cons column rest => exact (plain column).bind fun _ => refuses_pure _

theorem Until.plain_read (columns : List String) : Plain (Until.read columns) := by
  refine Refuses.inside ?_ _
  refine (plain_nextColumn _).bind fun (yearText, columns) => ?_
  refine (plain_numeral _ _).bind fun year => ?_
  refine (plain_optionalColumn Month.plain_read _).bind fun (month, columns) => ?_
  refine (plain_optionalColumn (plain_readDayOf month) _).bind fun (day, columns) => ?_
  refine (plain_optionalColumn (fun word => TimeOfDay.plain_read word.toList) _).bind
    fun (time, columns) => ?_
  exact (plain_expectEnd _).bind fun _ => refuses_pure _

theorem Until.plain_readOptional (columns : List String) : Plain (Until.readOptional columns) := by
  cases columns with
  | nil => exact refuses_pure none
  | cons column rest => exact (Until.plain_read _).map _

theorem ZoneLine.plain_read (columns : List String) : Plain (ZoneLine.read columns) := by
  refine Refuses.inside ?_ _
  refine (plain_nextColumn _).bind fun (offsetText, columns) => ?_
  refine (ClockTime.plain_read _).bind fun stdOffset => ?_
  refine (plain_nextColumn _).bind fun (savingsText, columns) => ?_
  refine (SavingsSource.plain_read _).bind fun savings => ?_
  refine (plain_nextColumn _).bind fun (formatText, columns) => ?_
  refine Refuses.bind ((refuses_pure _).within _) fun format => ?_
  refine (Until.plain_readOptional _).bind fun stop => ?_
  exact refuses_get.bind fun _ => refuses_pure _

theorem plain_checkYears (first last : YearBound) : Plain (checkYears first last) := by
  unfold checkYears
  split
  · exact refuses_refuse rfl
  · exact refuses_pure ()

theorem Recurrence.plain_read (columns : List String) : Plain (Recurrence.read columns) := by
  refine (plain_nextColumn _).bind fun (name, columns) => ?_
  refine (plain_nextColumn _).bind fun (firstText, columns) => ?_
  refine (YearBound.plain_read _).bind fun first => ?_
  refine (plain_nextColumn _).bind fun (lastText, columns) => ?_
  refine (YearBound.plain_readLast _ _).bind fun last => ?_
  refine (plain_checkYears _ _).bind fun _ => ?_
  refine (plain_nextColumn _).bind fun (reserved, columns) => ?_
  refine (plain_nextColumn _).bind fun (monthText, columns) => ?_
  refine (Month.plain_read _).bind fun month => ?_
  refine (plain_nextColumn _).bind fun (dayText, columns) => ?_
  refine (plain_readDayOf _ _).bind fun day => ?_
  refine (plain_nextColumn _).bind fun (timeText, columns) => ?_
  refine (TimeOfDay.plain_read _).bind fun time => ?_
  refine (plain_nextColumn _).bind fun (saveText, columns) => ?_
  refine (ClockTime.plain_read _).bind fun save => ?_
  refine (plain_nextColumn _).bind fun (letterText, columns) => ?_
  exact (plain_expectEnd _).bind fun _ => refuses_pure _

theorem Link.plain_read (columns : List String) : Plain (Link.read columns) := by
  refine (plain_nextColumn _).bind fun (target, columns) => ?_
  refine (plain_nextColumn _).bind fun (name, columns) => ?_
  refine (plain_expectEnd _).bind fun _ => ?_
  exact refuses_get.bind fun _ => refuses_pure _

theorem plain_readHeader (columns : List String) : Plain (readHeader columns) := by
  cases columns with
  | nil => exact refuses_refuse rfl
  | cons name rest => exact (ZoneLine.plain_read rest).bind fun _ => refuses_pure _

theorem Record.plain_readKind (columns : List String) (kind : RecordKind)
    : Plain (Record.readKind columns kind) := by
  cases kind with
  | rule => exact ((Recurrence.plain_read columns).map _).inside _
  | zone => exact ((plain_readHeader columns).map _).inside _
  | link => exact ((Link.plain_read columns).map _).inside _

theorem Record.plain_readColumns (continued : Bool) (columns : List String)
    : Plain (Record.readColumns continued columns) := by
  cases columns with
  | nil => exact refuses_pure none
  | cons word rest =>
      cases continued with
      | true => exact (((ZoneLine.plain_read (word :: rest)).map _).inside _).map _
      | false =>
          simp only [readColumns, Bool.false_eq_true, if_false]
          cases RecordKind.ofWord? word with
          | none => exact refuses_refuse rfl
          | some kind => exact (plain_readKind rest kind).map _

/-- A line is refused for what its columns tell. -/
theorem Record.isDuplicate_of_onLine {continued : Bool} {number : Nat} {columns : List String}
    {error : LineError} (read : Record.onLine continued number columns = .error error)
    : error.fault.isDuplicate = false :=
  plain_readColumns continued columns _ error _ (Prod.ext read rfl)

end CivilTime
