import CivilTime.Proofs.Machine.Search
import CivilTime.Proofs.Zone.NameFormat

/-! Formats applied in arithmetic of signed 64 bit numbers.
Only a template for the offset takes a sum, that of standard offset and saved time, and the amount
of it. The abbreviation is absent where one of the two overflows, and else it is what the format
gives.
-/

namespace CivilTime

namespace NameFormat

/-- An offset that has a text: a number of sixty-four bits whose amount is one as well. The least
number has no such amount. -/
def Printable (offset : Int) : Prop :=
  -9223372036854775808 < offset ∧ offset ≤ 9223372036854775807

instance (offset : Int) : Decidable (Printable offset) := inferInstanceAs (Decidable (_ ∧ _))

/-- The source is a template for the offset, and the sum of standard offset and saved time that it
shows has no text. -/
def Overflows (source : String) (stdOffset savings : Int) : Prop :=
  Writes source (.offset source) ∧ ¬ Printable (stdOffset + savings)

end NameFormat

namespace Machine

open NameFormat (Printable Overflows Unfit EndsInPercent Gives Writes ofSource)

-----------------------------------------------------------------------------------------
-- Texts of offsets
-----------------------------------------------------------------------------------------

/-- The text of an offset, which is written from its amount. -/
def offsetText (offset : Int) : Option String := do
  let _ ← word offset.natAbs
  some (NameFormat.offsetText offset)

/-- The abbreviation without a check of the format. -/
def fill (format : NameFormat) (stdOffset savings : Int) (letter : Option String)
    : Option String :=
  match format with
  | .offset template => do
    let text ← offsetText (← add stdOffset savings)
    some (String.ofList (Text.replaceMark '%' 'z' text.toList template.toList))
  | .literal _ | .letter _ | .pair _ _ => some (format.fill stdOffset savings letter)

/-- The abbreviation for a standard offset, the saved time and the letters in effect. The format is
checked before a sum is taken. -/
def applyFormat (format : NameFormat) (stdOffset savings : Int) (letter : Option String)
    : Machine String :=
  if format.isApplicable then liftM (fill format stdOffset savings letter)
  else of (.error (.badNameFormat format.source))

variable {stdOffset savings : Int} {letter : Option String}

/-- A sum that has a text is computed, and its text is written. -/
theorem offsetText_add (printable : Printable (stdOffset + savings))
    : (add stdOffset savings).bind offsetText
      = some (NameFormat.offsetText (stdOffset + savings)) := by
  obtain ⟨low, high⟩ := printable
  have sum : add stdOffset savings = some (stdOffset + savings) := word_eq (by omega) high
  have amount : word (stdOffset + savings).natAbs = some ↑(stdOffset + savings).natAbs :=
    word_eq (by omega) (by omega)
  rw [sum, Option.bind_some, offsetText, amount]
  rfl

/-- A sum that has no text overflows, or its amount does. -/
theorem offsetText_add_eq_none (unprintable : ¬ Printable (stdOffset + savings))
    : (add stdOffset savings).bind offsetText = none := by
  rw [Option.bind_eq_none_iff]
  intro sum sum_eq
  obtain ⟨⟨low, high⟩, rfl⟩ := Option.ite_some_none_eq_some.mp sum_eq
  have amount : word (stdOffset + savings).natAbs = none := by
    refine if_neg fun fits => unprintable ⟨?_, high⟩
    have amount_high := fits.2
    unfold beginningOfTime at low
    unfold endOfTime at amount_high
    omega
  rw [offsetText, amount]
  rfl

/-- What a format fills in needs a sum only if it is a template for the offset. -/
theorem fill_eq {format : NameFormat}
    (printable : ∀ template, format = .offset template → Printable (stdOffset + savings))
    : fill format stdOffset savings letter = some (format.fill stdOffset savings letter) := by
  cases format with
  | literal name | letter template | pair standard saved => rfl
  | offset template =>
      have text := offsetText_add (printable template rfl)
      simp only [fill, NameFormat.fill, Option.bind_eq_bind]
      rw [← Option.bind_assoc, text, Option.bind_some]

/-- A template for the offset is not filled in where its sum has no text. -/
theorem fill_offset_eq_none {template : String}
    (unprintable : ¬ Printable (stdOffset + savings))
    : fill (.offset template) stdOffset savings letter = none := by
  have no_text := offsetText_add_eq_none unprintable
  simp only [fill, Option.bind_eq_bind]
  rw [← Option.bind_assoc, no_text, Option.bind_none]

-----------------------------------------------------------------------------------------
-- Outcomes of a format
-----------------------------------------------------------------------------------------

/-- A format whose sum has a text, if it takes one, is applied as it is. -/
theorem applyFormat_eq {format : NameFormat}
    (printable : ∀ template, format = .offset template → Printable (stdOffset + savings))
    : applyFormat format stdOffset savings letter
      = of (format.apply stdOffset savings letter) := by
  unfold applyFormat NameFormat.apply
  split
  · rw [fill_eq printable]
    rfl
  · rfl

variable {source : String}

/-- The format of a source is applied as it is unless the source overflows. -/
theorem run_applyFormat_ofSource (exact_sum : ¬ Overflows source stdOffset savings)
    : (applyFormat (ofSource source) stdOffset savings letter).run
      = some ((ofSource source).apply stdOffset savings letter) := by
  refine congrArg ExceptT.run (applyFormat_eq fun template template_eq => ?_)
  have same : template = source := by
    rw [← NameFormat.source_ofSource source, template_eq, NameFormat.source]
  have writes : Writes source (.offset source) := by
    rw [NameFormat.writes_iff, template_eq, same]
  exact Decidable.byContradiction fun unprintable => exact_sum ⟨writes, unprintable⟩

/-- A source that overflows is no name, and so none that ends in a percent sign. -/
theorem not_endsInPercent_of_overflows (overflows : Overflows source stdOffset savings)
    : ¬ EndsInPercent source := by
  intro ends
  have same := ends.1.unique overflows.1
  cases same

/-- A source that overflows has no abbreviation if it is fit. -/
theorem run_applyFormat_eq_none (overflows : Overflows source stdOffset savings)
    (fit : ¬ Unfit source)
    : (applyFormat (ofSource source) stdOffset savings letter).run = none := by
  obtain ⟨writes, unprintable⟩ := overflows
  rw [applyFormat, if_pos (NameFormat.isApplicable_ofSource.mpr (.inl fit)),
    NameFormat.writes_iff.mp writes, fill_offset_eq_none unprintable]
  rfl

/-- A source that overflows is refused all the same if it is unfit, as the check comes first. -/
theorem run_applyFormat_of_unfit (overflows : Overflows source stdOffset savings)
    (unfit : Unfit source)
    : (applyFormat (ofSource source) stdOffset savings letter).run
      = some (.error (.badNameFormat source)) := by
  have refused : ¬ (ofSource source).isApplicable = true := by
    rw [NameFormat.isApplicable_ofSource, not_or, not_not]
    exact ⟨unfit, not_endsInPercent_of_overflows overflows⟩
  rw [applyFormat, if_neg refused, NameFormat.source_ofSource]
  rfl

/-- Every source is the one of the format that is read from it. The format is refused exactly if the
source is unfit, with the exception of a name whose one percent sign is its last character, which is
kept as it stands. Otherwise it gives the name of a pair that the saved time asks for, or the
template with its escapes replaced, unless the sum of the offsets that a template shows has no text.
Where no number overflows, the outcome is the one in unbounded numbers. -/
theorem applyFormat_ofSource (source : String) (stdOffset savings : Int) (letter : Option String)
    : (ofSource source).source = source
      ∧ ofSource (ofSource source).source = ofSource source
      ∧ (∀ fault,
          (applyFormat (ofSource source) stdOffset savings letter).run = some (.error fault)
          ↔ fault = .badNameFormat source ∧ Unfit source ∧ ¬ EndsInPercent source)
      ∧ (∀ name,
          (applyFormat (ofSource source) stdOffset savings letter).run = some (.ok name)
          ↔ (¬ Unfit source ∧ ¬ Overflows source stdOffset savings
              ∧ Gives source stdOffset savings letter name)
            ∨ (EndsInPercent source ∧ name = source))
      ∧ ((applyFormat (ofSource source) stdOffset savings letter).run = none
          ↔ ¬ Unfit source ∧ Overflows source stdOffset savings)
      ∧ ∀ outcome,
          (applyFormat (ofSource source) stdOffset savings letter).run = some outcome
          → (ofSource source).apply stdOffset savings letter = outcome := by
  refine ⟨NameFormat.source_ofSource source, by rw [NameFormat.source_ofSource], ?_⟩
  by_cases overflows : Overflows source stdOffset savings
  case neg =>
    rw [run_applyFormat_ofSource overflows]
    refine ⟨fun fault => ?_, fun name => ?_, by simp [overflows], fun _ => Option.some.inj⟩
    · rw [Option.some_inj, NameFormat.apply_ofSource_eq_error_iff]
    · rw [Option.some_inj, NameFormat.apply_ofSource_eq_ok_iff]
      simp [overflows]
  case pos =>
    have not_ends := not_endsInPercent_of_overflows overflows
    by_cases unfit : Unfit source
    · rw [run_applyFormat_of_unfit overflows unfit]
      refine ⟨by simp [unfit, not_ends, eq_comm], by simp [unfit, not_ends], by simp [unfit], ?_⟩
      rintro _ ⟨⟩
      exact NameFormat.apply_ofSource_eq_error_iff.mpr ⟨rfl, unfit, not_ends⟩
    · rw [run_applyFormat_eq_none overflows unfit]
      simp [unfit, overflows, not_ends]

/-- A name that ends in a percent sign is unfit, but it is not refused. -/
theorem applyFormat_endsInPercent
    : Unfit "A%" ∧ (applyFormat (ofSource "A%") 0 0 none).run = some (.ok "A%") :=
  ⟨.literal (NameFormat.writes_iff.mpr (by decide)) (by decide), by decide⟩

/-- The greatest offset and one second of saved time have no sum to show. -/
example : (applyFormat (ofSource "%z") 9223372036854775807 1 none).run = none := by decide

end Machine

end CivilTime
