import CivilTime.Proofs.Source.Entries
import CivilTime.Proofs.Source.Record
import CivilTime.Proofs.Text.LowerCase

/-! What the columns of a line tell of its record.
A line that begins with the keyword of a record never continues a zone, and a zone line has an end
exactly if it has enough columns for one.
-/

namespace CivilTime

open ColumnReader

-----------------------------------------------------------------------------------------
-- Keywords and times
-----------------------------------------------------------------------------------------

namespace Text

variable {α : Type}

/-- A text that stands for a keyword begins one of the table, whatever has been found in front of
it. The induction is on the table.
-/
theorem matchKeyword_abbreviates {text : List Char} {found : Option α}
    {table : List (String × α)} {value : α} (spelled : matchKeyword text found table = some value)
    : value ∈ found ∨ ∃ entry ∈ table, foldCase text <+: foldCase entry.1.toList := by
  induction table generalizing found with
  | nil => exact .inl spelled
  | cons entry rest ih =>
      obtain ⟨keyword, here⟩ := entry
      unfold matchKeyword at spelled
      split at spelled
      case isTrue same =>
        rw [sameIgnoringCase, beq_iff_eq] at same
        exact .inr ⟨_, List.mem_cons_self .., same ▸ List.prefix_rfl⟩
      split at spelled
      case isTrue short =>
        exact .inr ⟨_, List.mem_cons_self .., List.isPrefixOf_iff_prefix.mp short⟩
      case isFalse =>
        refine (ih spelled).imp_right ?_
        rintro ⟨entry, member, begins⟩
        exact ⟨entry, List.mem_cons_of_mem _ member, begins⟩

/-- A text that stands for a keyword is the beginning of one. -/
theorem keyword?_abbreviates {table : List (String × α)} {text : String} {value : α}
    (spelled : keyword? table text = some value)
    : text.toList ≠ [] ∧ ∃ entry ∈ table, foldCase text.toList <+: foldCase entry.1.toList := by
  unfold keyword? at spelled
  split at spelled
  case isTrue => cases spelled
  case isFalse filled =>
    refine ⟨fun empty => filled ?_, (matchKeyword_abbreviates spelled).resolve_left (by simp)⟩
    rw [String.isEmpty_iff, ← String.toList_eq_nil_iff, empty]

end Text

/-- The first letter of a record's keyword is no digit and no sign. -/
theorem RecordKind.letter_of_ofWord? {word : String} {kind : RecordKind}
    (announced : ofWord? word = some kind)
    : ∃ c rest, word.toList = c :: rest ∧ 65 ≤ c.toNat := by
  obtain ⟨filled, entry, member, begins⟩ := Text.keyword?_abbreviates announced
  obtain ⟨c, rest, text_eq⟩ := List.exists_cons_of_ne_nil filled
  have letters : ∃ d later, Text.foldCase entry.1.toList = d :: later ∧ 97 ≤ d.toNat := by
    simp only [keywords, List.mem_cons, List.not_mem_nil, or_false] at member
    rcases member with rfl | rfl | rfl
    · exact ⟨'r', ['u', 'l', 'e'], by decide, by decide⟩
    · exact ⟨'z', ['o', 'n', 'e'], by decide, by decide⟩
    · exact ⟨'l', ['i', 'n', 'k'], by decide, by decide⟩
  obtain ⟨d, later, keyword_eq, lower⟩ := letters
  rw [text_eq, Text.foldCase, List.map_cons, keyword_eq, List.cons_prefix_cons] at begins
  rw [← begins.1] at lower
  refine ⟨c, rest, text_eq, ?_⟩
  rw [Text.toNat_toLower] at lower
  split at lower <;> omega

/-- A text that begins with a letter is no numeral. -/
theorem ColumnReader.yields_numeral_letter {range : Text.NumeralRange} {c : Char}
    {rest : List Char} (letter : 65 ≤ c.toNat)
    : Yields (numeral range (c :: rest)) fun _ => False := by
  have no_plus : c ≠ '+' := fun same => absurd letter (same ▸ by decide)
  have no_minus : c ≠ '-' := fun same => absurd letter (same ▸ by decide)
  have no_digit : c.isDigit = false := by
    have above : ¬ c.toNat ≤ 57 := by omega
    rw [Char.isDigit, Bool.and_eq_false_iff]
    exact .inr (decide_eq_false fun low => above (UInt32.le_iff_toNat_le.mp low))
  have refused : Text.readNumeral range (c :: rest) = .error .invalidDigit := by
    unfold Text.readNumeral
    split
    case h_6 => rw [Text.readDigits, if_neg (by simp [no_digit])]
    all_goals simp_all
  rw [numeral, refused]
  exact yields_refuseField _

/-- A text that begins with a letter is no time. -/
theorem ClockTime.yields_read_letter {c : Char} {rest : List Char} (letter : 65 ≤ c.toNat)
    : Yields (ClockTime.read (c :: rest)) fun _ => False := by
  have no_minus : c ≠ '-' := fun same => absurd letter (same ▸ by decide)
  have no_colon : c ≠ ':' := fun same => absurd letter (same ▸ by decide)
  have hour_eq : ∃ digits, (timeParts (c :: rest)).1 = c :: digits := by
    unfold timeParts
    split
    case h_1 => exact ⟨rest, rfl⟩
    case h_2 hour behind cut =>
      simp only [Text.cutAt?] at cut
      split at cut
      · cases cut
      · cases cut
        refine ⟨rest.takeWhile fun d => !(d == ':'), ?_⟩
        split <;> simp [no_colon]
  obtain ⟨digits, hour_eq⟩ := hour_eq
  have stripped : Text.stripLeading '-' (c :: rest) = (false, c :: rest) := by
    rw [Text.stripLeading, if_neg no_minus]
  have refused : Yields (numeral .bits16 (timeParts (c :: rest)).1) fun _ => False := by
    rw [hour_eq]
    exact yields_numeral_letter letter
  refine Yields.inside ?_ _
  rw [stripped]
  refine Yields.bind (P := fun _ => False) ?_ fun _ impossible => impossible.elim
  exact refused.map fun _ impossible => impossible

-----------------------------------------------------------------------------------------
-- Records
-----------------------------------------------------------------------------------------

/-- A further line of a zone begins with no keyword, and has an end if it has a column for it. -/
theorem ZoneLine.yields_read_columns (columns : List String)
    : Yields (ZoneLine.read columns) fun l =>
        (∀ word ∈ columns.head?, RecordKind.ofWord? word = none)
        ∧ (l.isOpen = false ↔ OpenZone.columnsWithEnd ≤ columns.length) := by
  have yields_nextColumn (columns : List String)
      : Yields (nextColumn columns) fun next => columns = next.1 :: next.2 := by
    cases columns with
    | nil => exact yields_refuseField _
    | cons column rest => exact yields_pure rfl
  refine Yields.inside ?_ _
  refine (yields_nextColumn _).bind fun (offsetText, columns₁) first => ?_
  -- a keyword begins with a letter, so it is refused where the offset is read
  have yields_offset
      : Yields (ClockTime.read offsetText.toList)
          fun _ => RecordKind.ofWord? offsetText = none := by
    cases announced : RecordKind.ofWord? offsetText with
    | none => exact fun _ _ _ _ => rfl
    | some kind =>
        obtain ⟨c, rest, text_eq, letter⟩ := RecordKind.letter_of_ofWord? announced
        rw [text_eq]
        exact fun place time after read =>
          (ClockTime.yields_read_letter letter place time after read).elim
  refine yields_offset.bind fun stdOffset no_keyword => ?_
  refine (yields_nextColumn _).bind fun (savingsText, columns₂) second => ?_
  refine (yields_true _).bind fun savings _ => ?_
  refine (yields_nextColumn _).bind fun (formatText, columns₃) third => ?_
  refine (yields_true _).bind fun format _ => ?_
  have yields_stop
      : Yields (Until.readOptional columns₃) fun stop => stop.isNone = false ↔ columns₃ ≠ [] := by
    cases columns₃ with
    | nil => exact yields_pure (by simp)
    | cons column rest => exact (yields_true _).map fun _ _ => by simp
  refine yields_stop.bind fun stop filled => ?_
  refine (yields_true _).bind fun _ _ => yields_pure ⟨?_, ?_⟩
  · rw [first]
    rintro word ⟨⟩
    exact no_keyword
  · refine filled.trans ?_
    rw [first, second, third, ← List.length_pos_iff]
    simp only [List.length_cons, OpenZone.columnsWithEnd]
    omega

namespace Record

variable {continued : Bool} {number : Nat} {columns : List String} {record : Record}
  {error : LineError}

/-- What a record tells of its line: its number, whether it continues a zone, and its columns. -/
inductive Shape (number : Nat) (columns : List String) : Bool → Record → Prop
  | rule (r : Recurrence) : Shape number columns false (.rule r)
  | header {name : String} {l : ZoneLine} (numbered : l.line = number)
    (ended : l.isOpen = false ↔ OpenZone.headerColumnsWithEnd ≤ columns.length)
    : Shape number columns false (.zone name l)
  | further {l : ZoneLine} (numbered : l.line = number)
    (no_keyword : ∀ word ∈ columns.head?, RecordKind.ofWord? word = none)
    (ended : l.isOpen = false ↔ OpenZone.columnsWithEnd ≤ columns.length)
    : Shape number columns true (.continuation l)
  | link {link : Link} (numbered : link.line = number) : Shape number columns false (.link link)

theorem onLine_eq (continued : Bool) (number : Nat) (columns : List String)
    : onLine continued number columns
      = match (readColumns continued columns).run .start with
        | (.ok found, _) => .ok (found.map (renumber fun _ => number))
        | (.error error, _) => .error { error with line := number } := by
  rw [onLine, (marks_readColumns continued columns).run_ofLine]
  cases (readColumns continued columns).run .start with
  | mk outcome after => cases outcome <;> rfl

theorem line_of_onLine_error (refused : onLine continued number columns = .error error)
    : error.line = number := by
  rw [onLine_eq] at refused
  split at refused
  · cases refused
  · cases refused
    rfl

/-- The columns of a line have a record of their shape, apart from the number. -/
theorem yields_readColumns_shape (continued : Bool) (columns : List String)
    : Yields (readColumns continued columns) fun found =>
        columns ≠ [] → ∃ record, found = some record
          ∧ ∀ number, Shape number columns continued (record.renumber fun _ => number) := by
  cases columns with
  | nil => exact fun _ _ _ _ filled => absurd rfl filled
  | cons word rest =>
      cases continued with
      | true =>
          refine Yields.map (Yields.inside ?_ _) fun record shape _ => ⟨record, rfl, shape⟩
          refine (ZoneLine.yields_read_columns (word :: rest)).map fun l facts => ?_
          exact fun number => .further rfl facts.1 facts.2
      | false =>
          rw [readColumns]
          simp only [Bool.false_eq_true, if_false]
          cases RecordKind.ofWord? word with
          | none => exact yields_refuse _
          | some kind =>
              refine Yields.map ?_ fun record shape _ => ⟨record, rfl, shape⟩
              cases kind with
              | rule =>
                  refine Yields.inside ?_ _
                  exact (yields_true _).map fun r _ _ => .rule r
              | link =>
                  refine Yields.inside ?_ _
                  exact (yields_true _).map fun link _ _ => .link rfl
              | zone =>
                  refine Yields.inside ?_ _
                  cases rest with
                  | nil => exact (yields_refuse _).map fun _ impossible => impossible
                  | cons name rest =>
                      have yields_header
                          : Yields (readHeader (name :: rest)) fun header =>
                              header.2.isOpen = false
                              ↔ OpenZone.columnsWithEnd ≤ rest.length :=
                        (ZoneLine.yields_read_columns rest).bind fun l facts =>
                          yields_pure facts.2
                      refine yields_header.map fun header ended number => .header rfl ?_
                      refine ended.trans ?_
                      simp only [List.length_cons, OpenZone.columnsWithEnd,
                        OpenZone.headerColumnsWithEnd]
                      omega

theorem onLine_eq_ok {found : Option Record}
    (read : onLine continued number columns = .ok found) (filled : columns ≠ [])
    : ∃ record, found = some record ∧ Shape number columns continued record := by
  rw [onLine_eq] at read
  cases outcome : (readColumns continued columns).run .start with
  | mk given after =>
      rw [outcome] at read
      cases given with
      | error error => cases read
      | ok value =>
          cases read
          obtain ⟨record, rfl, shape⟩ :=
            yields_readColumns_shape continued columns _ _ _ outcome filled
          exact ⟨_, rfl, shape number⟩

theorem ne_nil_of_onLine (read : onLine continued number columns = .ok (some record))
    : columns ≠ [] := by
  rintro rfl
  cases read

theorem shape_of_onLine (read : onLine continued number columns = .ok (some record))
    : Shape number columns continued record := by
  obtain ⟨_, same, shape⟩ := onLine_eq_ok read (ne_nil_of_onLine read)
  rw [Option.some.inj same]
  exact shape

/-- A line that begins with a keyword is refused where a zone goes on. -/
theorem onLine_of_keyword {word : String} {rest : List String} {kind : RecordKind}
    (announced : RecordKind.ofWord? word = some kind) (number : Nat)
    : ∃ error, onLine true number (word :: rest) = .error error := by
  cases read : onLine true number (word :: rest) with
  | error error => exact ⟨error, rfl⟩
  | ok found =>
      obtain ⟨record, rfl, shape⟩ := onLine_eq_ok read (by simp)
      cases shape with
      | further numbered no_keyword ended =>
          rw [no_keyword word rfl] at announced
          cases announced

end Record

end CivilTime
