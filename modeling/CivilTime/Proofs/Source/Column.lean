import CivilTime.Proofs.Rule.Search
import CivilTime.Source.Column

/-! What the readers of single columns check.
A property of every value that a reader gives is shown along the reader: it holds behind a sequence
of readers where it holds whatever the earlier ones give.
-/

namespace CivilTime

-----------------------------------------------------------------------------------------
-- Numerals
-----------------------------------------------------------------------------------------

namespace Text

variable {range : NumeralRange} {n : Int}

/-- A number stays in its range when digits are appended to it, by induction on the digits. -/
theorem readDigits_bounds {negative : Bool} {value : Int} {digits : List Char}
    (read : readDigits range negative value digits = .ok n)
    (lower : range.least ≤ value) (upper : value ≤ range.greatest)
    : range.least ≤ n ∧ n ≤ range.greatest := by
  induction digits generalizing value with
  | nil =>
      simp only [readDigits, Except.ok.injEq] at read
      exact read ▸ ⟨lower, upper⟩
  | cons c rest ih =>
      rw [readDigits] at read
      split at read
      case isFalse => cases read
      dsimp only at read
      generalize (if negative then _ else _ : Int) = next at read
      split at read
      case isTrue => cases read
      split at read
      case isTrue => cases read
      exact ih read (by omega) (by omega)

/-- A numeral writes a number of its range, if the range has zero. -/
theorem readNumeral_bounds {text : List Char} (read : readNumeral range text = .ok n)
    (lower : range.least ≤ 0) (upper : 0 ≤ range.greatest)
    : range.least ≤ n ∧ n ≤ range.greatest := by
  unfold readNumeral at read
  split at read
  case h_5 =>
    split at read
    · exact readDigits_bounds read lower upper
    · cases read
  all_goals first
    | cases read
    | exact readDigits_bounds read lower upper

variable {α : Type}

/-- What a keyword stands for is a value of the table, or has been found in front of it. The
induction is on the table. -/
theorem matchKeyword_mem {text : List Char} {found : Option α} {table : List (String × α)}
    {value : α} (spelled : matchKeyword text found table = some value)
    : value ∈ found ∨ value ∈ table.map Prod.snd := by
  induction table generalizing found with
  | nil => exact .inl spelled
  | cons entry rest ih =>
      obtain ⟨keyword, here⟩ := entry
      unfold matchKeyword at spelled
      split at spelled
      case isTrue =>
        cases spelled
        exact .inr (by simp)
      split at spelled
      case isFalse =>
        exact (ih spelled).imp_right (by simp +contextual)
      split at spelled
      case h_1 => cases spelled
      case h_2 =>
        rcases ih spelled with same | later
        · cases same
          exact .inr (by simp)
        · exact .inr (by simp [later])

/-- What a keyword stands for is a value of its table. -/
theorem keyword?_mem {table : List (String × α)} {text : String} {value : α}
    (spelled : keyword? table text = some value)
    : value ∈ table.map Prod.snd := by
  unfold keyword? at spelled
  split at spelled
  · cases spelled
  · exact (matchKeyword_mem spelled).resolve_left (by simp)

end Text

-----------------------------------------------------------------------------------------
-- Properties of what a reader gives
-----------------------------------------------------------------------------------------

namespace ColumnReader

variable {α β : Type} {P : α → Prop} {Q : β → Prop}

/-- Every value that a reader gives, wherever it stands, has a property. -/
def Yields (reader : ColumnReader α) (P : α → Prop) : Prop :=
  ∀ place value after, reader.run place = (.ok value, after) → P value

/-- A reader whose outcome is a value has accepted its input. -/
theorem accepts_of_toOption {reader : ColumnReader α} {place : Place} {value : α}
    (given : (reader.run place).1.toOption = some value)
    : ∃ after, reader.run place = (.ok value, after) := by
  cases outcome : reader.run place with
  | mk result after =>
      cases result with
      | error error => simp [outcome, Except.toOption] at given
      | ok found =>
          have same : found = value := by simpa [outcome, Except.toOption] using given
          exact ⟨after, by rw [same]⟩

/-- A sequence of readers runs the second one where the first one has left the place. -/
theorem run_bind (reader : ColumnReader α) (rest : α → ColumnReader β) (place : Place)
    : (reader >>= rest).run place
      = match reader.run place with
        | (.ok value, between) => (rest value).run between
        | (.error error, between) => (.error error, between) := by
  unfold ExceptT.run
  simp only [bind, ExceptT.bind, ExceptT.mk, StateT.bind, ExceptT.bindCont]
  cases reader place with
  | mk outcome between => cases outcome <;> rfl

/-- The handler of an error runs where the error has left the place. -/
theorem run_tryCatch (reader : ColumnReader α) (handle : LineError → ColumnReader α) (place : Place)
    : (tryCatch reader handle).run place
      = match reader.run place with
        | (.ok value, between) => (.ok value, between)
        | (.error error, between) => (handle error).run between := by
  unfold ExceptT.run
  simp only [tryCatch, tryCatchThe, MonadExceptOf.tryCatch, ExceptT.tryCatch, ExceptT.mk, bind,
    StateT.bind]
  cases reader place with
  | mk outcome between => cases outcome <;> rfl

/-- A reader that looks at no column gives its value. -/
theorem yields_pure {value : α} (holds : P value) : Yields (pure value) P := by
  intro place result after read
  cases read
  exact holds

/-- Nothing needs to be known of what a reader gives. -/
theorem yields_true (reader : ColumnReader α) : Yields reader fun _ => True :=
  fun _ _ _ _ => trivial

/-- A reader that refuses its input gives nothing. -/
theorem yields_refuse (fault : LineFault) : Yields (refuse fault) P := by
  intro place result after read
  cases read

/-- A reader that refuses its input gives nothing. -/
theorem yields_refuseField (fault : Field → LineFault) : Yields (refuseField fault) P := by
  intro place result after read
  cases read

/-- A reader that refuses its word gives nothing. -/
theorem yields_refuseWord (word : String) : Yields (refuseWord word) P := yields_refuseField _

/-- Behind a reader, the next one goes on with whatever the first one gives. -/
theorem Yields.bind {reader : ColumnReader α} {rest : α → ColumnReader β}
    (first : Yields reader P) (later : ∀ value, P value → Yields (rest value) Q)
    : Yields (reader >>= rest) Q := by
  intro place result after read
  rw [run_bind] at read
  cases outcome : reader.run place with
  | mk given between =>
      cases given with
      | error fault =>
          simp only [outcome] at read
          cases read
      | ok value =>
          simp only [outcome] at read
          exact later value (first place value between outcome) between result after read

/-- A reader whose value is changed afterwards gives the changed value. -/
theorem Yields.map {reader : ColumnReader α} {change : α → β} (given : Yields reader P)
    (kept : ∀ value, P value → Q (change value))
    : Yields (change <$> reader) Q := by
  rw [← bind_pure_comp]
  exact given.bind fun value holds => yields_pure (kept value holds)

/-- An error that is thrown gives nothing. -/
theorem yields_throw (error : LineError) : Yields (throw error : ColumnReader α) P := by
  intro place result after read
  cases read

/-- A reader whose errors are handled gives what it or the handler gives. -/
theorem Yields.tryCatch {reader : ColumnReader α} {handle : LineError → ColumnReader α}
    (given : Yields reader P) (handled : ∀ error, Yields (handle error) P)
    : Yields (tryCatch reader handle) P := by
  intro place result after read
  rw [run_tryCatch] at read
  cases outcome : reader.run place with
  | mk given_here between =>
      cases given_here with
      | error error =>
          simp only [outcome] at read
          exact handled error between result after read
      | ok value =>
          simp only [outcome] at read
          cases read
          exact given place _ _ outcome

/-- A reader gives the same values inside a field. -/
theorem Yields.inside {reader : ColumnReader α} (given : Yields reader P) (field : Field)
    : Yields (inside field reader) P :=
  (yields_true _).bind fun _ _ =>
    given.bind fun _ holds => (yields_true _).bind fun _ _ => yields_pure holds

/-- A reader gives the same values inside a field that it always leaves. -/
theorem Yields.within {reader : ColumnReader α} (given : Yields reader P) (field : Field)
    : Yields (within field reader) P :=
  (yields_true _).bind fun _ _ =>
    (given.bind fun _ holds => (yields_true _).bind fun _ _ => yields_pure holds).tryCatch fun _ =>
      (yields_true _).bind fun _ _ => yields_throw _

/-- A numeral of a range that has zero gives a number of the range. -/
theorem yields_numeral {range : Text.NumeralRange} (lower : range.least ≤ 0)
    (upper : 0 ≤ range.greatest) (text : List Char)
    : Yields (numeral range text) fun n => range.least ≤ n ∧ n ≤ range.greatest := by
  unfold numeral
  split
  case h_1 n read => exact yields_pure (Text.readNumeral_bounds read lower upper)
  case h_2 => exact yields_refuseField _

end ColumnReader

open ColumnReader

-----------------------------------------------------------------------------------------
-- Times and formats
-----------------------------------------------------------------------------------------

/-- The minutes and seconds of a time are less than sixty. -/
def ClockTime.Regular (t : ClockTime) : Prop := t.minute ≤ 59 ∧ t.second ≤ 59

/-- A zero with a minus sign. -/
def ClockTime.NegativeZero (t : ClockTime) : Prop := t.negative = true ∧ t.seconds = 0

instance (t : ClockTime) : Decidable t.NegativeZero := inferInstanceAs (Decidable (_ ∧ _))

/-- A regular time is the one that its seconds stand for, unless it is a negative zero. -/
theorem ClockTime.Regular.ofSeconds_eq_iff {t : ClockTime} (regular : t.Regular)
    : ofSeconds t.seconds = t ↔ ¬ t.NegativeZero := by
  obtain ⟨negative, hour, minute, second, hour_le, _, _⟩ := t
  obtain ⟨minute_le, second_le⟩ : minute ≤ 59 ∧ second ≤ 59 := regular
  simp only [NegativeZero, ofSeconds, seconds, ClockTime.mk.injEq]
  cases negative with
  | false =>
      simp only [Bool.false_eq_true, if_false, decide_eq_false_iff_not, false_and,
        not_false_eq_true, iff_true]
      omega
  | true =>
      simp only [if_true, decide_eq_true_eq, true_and]
      omega

/-- The times of a source are regular. -/
theorem ClockTime.yields_read (text : List Char) : Yields (ClockTime.read text) Regular := by
  refine Yields.inside ?_ _
  refine (yields_true _).bind fun hour _ => ?_
  refine (yields_true _).bind fun minute _ => ?_
  refine (yields_true _).bind fun second _ => ?_
  split
  case isTrue bounds => exact yields_pure bounds.2
  case isFalse => exact yields_refuseWord _

/-- The times of day of a source are regular. -/
theorem TimeOfDay.yields_read (text : List Char)
    : Yields (TimeOfDay.read text) fun t => t.time.Regular :=
  (ClockTime.yields_read _).bind fun _ regular => yields_pure regular

/-- The formats of a source are those of its words. -/
theorem NameFormat.yields_read (word : String)
    : Yields (NameFormat.read word) fun format => ∃ source, format = .ofSource source :=
  (yields_pure ⟨word, rfl⟩).within _

-----------------------------------------------------------------------------------------
-- Years and days
-----------------------------------------------------------------------------------------

/-- A year bound is a number of thirty-two bits. -/
def YearBound.InRange (bound : YearBound) : Prop :=
  -2147483648 ≤ bound.number ∧ bound.number ≤ 2147483647

instance (bound : YearBound) : Decidable bound.InRange := inferInstanceAs (Decidable (_ ∧ _))

/-- The bounds of a rule are numbers of thirty-two bits. -/
theorem YearBound.yields_read (word : String) : Yields (YearBound.read word) InRange := by
  refine Yields.within ?_ _
  split
  · unfold ofOption
    split
    case h_1 bound found =>
      have spelled := Text.keyword?_mem found
      simp only [List.map_cons, List.map_nil, List.mem_cons, List.not_mem_nil, or_false] at spelled
      rcases spelled with rfl | rfl <;> exact yields_pure ⟨by decide, by decide⟩
    case h_2 => exact yields_refuseWord _
  · exact (yields_numeral (by decide) (by decide) _).map fun _ bounds => bounds

/-- The last year of a rule is a number of thirty-two bits if its first one is. -/
theorem YearBound.yields_readLast {first : YearBound} (first_range : first.InRange) (word : String)
    : Yields (YearBound.readLast word first) InRange := by
  unfold readLast
  split
  · exact yields_pure first_range
  · exact yields_read word

/-- A day rule that passes the check of its month names no day past the end of it. -/
theorem DayRule.yields_checkMonth (rule : DayRule) (month : Month)
    : Yields (rule.checkMonth month) fun checked => checked.dayPast? month = none := by
  unfold checkMonth
  split
  case h_1 => exact yields_refuseWord _
  case h_2 inside => exact yields_pure inside

/-- A day rule that passes the check of its month is not changed by it. -/
theorem DayRule.yields_checkMonth_same (rule : DayRule) (month : Month)
    : Yields (rule.checkMonth month) fun checked => checked = rule := by
  unfold checkMonth
  split
  case h_1 => exact yields_refuseWord _
  case h_2 => exact yields_pure rfl

/-- The days of the month that a rule names are counted from one. -/
def DayRule.FromOne (rule : DayRule) : Prop := ∀ day ∈ rule.namedDay?, 1 ≤ day

/-- A day of the month that passes its check is counted from one. -/
theorem yields_checkDay (day : Nat) (word : String)
    : Yields (checkDay day word) fun checked => 1 ≤ checked := by
  unfold checkDay
  split
  case isTrue bounds => exact yields_pure bounds.1
  case isFalse => exact yields_refuseWord _

/-- The day of the month that a week day is compared with is counted from one. -/
theorem yields_readComparison (sides : List Char × List Char) (word : String)
    : Yields (readComparison sides word) fun compared => 1 ≤ compared.2 := by
  refine (yields_true _).bind fun weekDay _ => ?_
  refine (yields_true _).bind fun day _ => ?_
  exact (yields_checkDay day word).bind fun _ first => yields_pure first

/-- The days that the rules of a source name are counted from one, by cases on the kind of rule. -/
theorem DayRule.yields_read (word : String) : Yields (DayRule.read word) FromOne := by
  have named {rule : DayRule} {day : Nat} (first : 1 ≤ day) (names : rule.namedDay? = some day)
      : rule.FromOne := by
    intro other is_named
    rw [names, Option.mem_some_iff] at is_named
    exact is_named ▸ first
  refine Yields.within ?_ _
  split
  · exact (yields_true _).map fun weekDay _ day is_named => by cases is_named
  split
  · exact (yields_readComparison _ word).map fun _ first => named first rfl
  split
  · exact (yields_readComparison _ word).map fun _ first => named first rfl
  · refine (yields_true _).bind fun day _ => ?_
    exact (yields_checkDay day word).map fun _ first => named first rfl

end CivilTime
