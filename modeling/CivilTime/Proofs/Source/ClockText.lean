import CivilTime.Proofs.Source.Place
import CivilTime.Proofs.Text.Cut

/-! Which texts are times of day, and of what.
A time is an optional minus sign, one to three numbers between colons and an optional letter for its
clock. The sign, the colons and the letter are told from the numbers by their characters, so a text
stands for one time at most, and the reader finds the parts that the text has been put together
from.
-/

namespace CivilTime

-----------------------------------------------------------------------------------------
-- Numbers
-----------------------------------------------------------------------------------------

namespace Text

variable {range : NumeralRange} {text digits : List Char} {n : Nat}

/-- A text that writes a number: an optional plus sign and at least one digit. -/
def Decimal (text : List Char) (n : Nat) : Prop :=
  ∃ digits,
    (text = digits ∨ text = '+' :: digits)
    ∧ digits ≠ []
    ∧ (∀ c ∈ digits, c.isDigit = true)
    ∧ Nat.ofDigitChars 10 digits 0 = n

/-- A number grows with further digits. -/
theorem le_ofDigitChars (digits : List Char) (value : Nat)
    : value ≤ Nat.ofDigitChars 10 digits value := by
  rw [Nat.ofDigitChars_eq_ofDigitChars_zero]
  have places : 0 < 10 ^ digits.length := Nat.pow_pos (by decide)
  have grown := Nat.le_mul_of_pos_left value places
  omega

/-- Digits are read as the number they write if it stays in the range. The induction is on the
digits, of which the first one that leaves the range ends the reading. -/
theorem readDigits_eq_ok_iff (least : range.least = 0) (value : Nat) {result : Int}
    (small : value ≤ range.greatest)
    : readDigits range false value digits = .ok result
      ↔ (∀ c ∈ digits, c.isDigit = true)
        ∧ (Nat.ofDigitChars 10 digits value : Int) = result
        ∧ result ≤ range.greatest := by
  induction digits generalizing value with
  | nil =>
      simp only [readDigits, Except.ok.injEq, Nat.ofDigitChars_nil, List.not_mem_nil, false_implies,
        implies_true, true_and]
      omega
  | cons c rest ih =>
      rw [readDigits, List.forall_mem_cons, Nat.ofDigitChars_cons]
      by_cases digit : c.isDigit = true
      · have low : '0'.toNat ≤ c.toNat := by
          have bounds : '0'.val ≤ c.val := by
            rw [Char.isDigit, Bool.and_eq_true, decide_eq_true_eq] at digit
            exact digit.1
          exact UInt32.le_iff_toNat_le.mp bounds
        have next_eq : (value : Int) * 10 + ((c.toNat : Int) - '0'.toNat)
            = (10 * value + (c.toNat - '0'.toNat) : Nat) := by
          omega
        have grown := le_ofDigitChars rest (10 * value + (c.toNat - '0'.toNat))
        simp only [digit, if_true, Bool.false_eq_true, if_false, next_eq, least, true_and]
        rw [if_neg (by omega)]
        split
        case isTrue large =>
          refine iff_of_false (by simp) ?_
          rintro ⟨_, rfl, le⟩
          omega
        case isFalse inside => exact ih _ (by omega)
      · simp [digit]

/-- A text that begins with another character than a digit writes no number without a sign. -/
theorem not_digits_of_head {c : Char} {rest : List Char} (other : c.isDigit = false)
    (all : ∀ d ∈ c :: rest, d.isDigit = true)
    : False := by
  have digit := all c (List.mem_cons_self ..)
  rw [other] at digit
  cases digit

/-- A number of a range from zero on is read from the texts that write it, by cases on the start of
the text. -/
theorem readNumeral_eq_ok_iff (least : range.least = 0) (greatest : 0 ≤ range.greatest)
    {result : Int}
    : readNumeral range text = .ok result
      ↔ ∃ n : Nat, Decimal text n ∧ (n : Int) = result ∧ result ≤ range.greatest := by
  have read_digits (digits : List Char)
      : readDigits range false 0 digits = .ok result
        ↔ (∀ c ∈ digits, c.isDigit = true)
          ∧ (Nat.ofDigitChars 10 digits 0 : Int) = result
          ∧ result ≤ range.greatest :=
    readDigits_eq_ok_iff least 0 greatest
  unfold readNumeral
  split
  case h_1 =>
    refine iff_of_false (by simp) ?_
    rintro ⟨n, ⟨digits, rfl | same, filled, _⟩, _⟩
    · exact filled rfl
    · cases same
  case h_2 =>
    refine iff_of_false (by simp) ?_
    rintro ⟨n, ⟨digits, rfl | same, filled, all, _⟩, _⟩
    · exact not_digits_of_head (by decide) all
    · exact filled (List.cons.inj same).2.symm
  case h_3 =>
    refine iff_of_false (by simp) ?_
    rintro ⟨n, ⟨digits, rfl | same, _, all, _⟩, _⟩
    · exact not_digits_of_head (by decide) all
    · exact absurd (List.cons.inj same).1 (by decide)
  case h_4 digits lone =>
    rw [read_digits]
    constructor
    · rintro ⟨all, value_eq, le⟩
      have filled : digits ≠ [] := fun empty => lone (by rw [empty])
      exact ⟨_, ⟨digits, .inr rfl, filled, all, rfl⟩, value_eq, le⟩
    · rintro ⟨n, ⟨others, rfl | same, _, all, rfl⟩, value_eq, le⟩
      · exact absurd all (not_digits_of_head (by decide))
      · obtain rfl := (List.cons.inj same).2
        exact ⟨all, value_eq, le⟩
  case h_5 digits lone =>
    rw [if_neg (by omega)]
    refine iff_of_false (by simp) ?_
    rintro ⟨n, ⟨others, rfl | same, _, all, _⟩, _⟩
    · exact not_digits_of_head (by decide) all
    · exact absurd (List.cons.inj same).1 (by decide)
  case h_6 filled _ _ no_plus _ =>
    rw [read_digits]
    constructor
    · rintro ⟨all, value_eq, le⟩
      exact ⟨_, ⟨text, .inl rfl, filled, all, rfl⟩, value_eq, le⟩
    · rintro ⟨n, ⟨digits, rfl | same, _, all, rfl⟩, value_eq, le⟩
      · exact ⟨all, value_eq, le⟩
      · exact absurd same (no_plus digits)

/-- The characters of a number are digits and the plus sign. -/
theorem Decimal.digit_or_plus {c : Char} (number : Decimal text n) (member : c ∈ text)
    : c.isDigit = true ∨ c = '+' := by
  obtain ⟨digits, rfl | rfl, _, all, _⟩ := number
  · exact .inl (all c member)
  · exact (List.mem_cons.mp member).symm.imp_left (all c)

/-- A number has no other character than digits and the plus sign in it. -/
theorem Decimal.not_mem {c : Char} (number : Decimal text n) (other : c.isDigit = false)
    (no_plus : c ≠ '+')
    : c ∉ text := by
  intro member
  rcases number.digit_or_plus member with digit | plus
  · rw [other] at digit
    cases digit
  · exact no_plus plus

/-- The last character of a text is a digit. -/
def EndsInDigit (text : List Char) : Prop := ∃ c, text.getLast? = some c ∧ c.isDigit = true

theorem EndsInDigit.append (ends : EndsInDigit text) (front : List Char)
    : EndsInDigit (front ++ text) := by
  obtain ⟨c, last, digit⟩ := ends
  exact ⟨c, by rw [List.getLast?_append, last, Option.some_or], digit⟩

theorem Decimal.endsInDigit (number : Decimal text n) : EndsInDigit text := by
  obtain ⟨digits, written, filled, all, _⟩ := number
  refine ⟨digits.getLast filled, ?_, all _ (List.getLast_mem filled)⟩
  rcases written with rfl | rfl
  · exact List.getLast?_eq_some_getLast filled
  · rw [List.getLast?_cons_of_ne_nil filled]
    exact List.getLast?_eq_some_getLast filled

/-- An optional number, whose absence stands for zero. -/
def DecimalOrZero : Option (List Char) → Nat → Prop
  | some text, n => Decimal text n
  | none, n => n = 0

end Text

-----------------------------------------------------------------------------------------
-- Readers and what they accept
-----------------------------------------------------------------------------------------

namespace ColumnReader

variable {α β : Type} {place : Place}

/-- A reader accepts its input and gives a value. -/
def Accepts (reader : ColumnReader α) (place : Place) (value : α) : Prop :=
  (reader.run place).1 = .ok value

theorem accepts_pure_iff {given value : α} : Accepts (pure given) place value ↔ given = value :=
  Iff.of_eq (Except.ok.injEq ..)

theorem not_accepts_refuseField (fault : Field → LineFault) (value : α)
    : ¬ Accepts (refuseField fault) place value :=
  nofun

/-- A sequence of readers accepts what all of them do, at the same place. -/
theorem Restores.accepts_bind_iff {first : ColumnReader α} {rest : α → ColumnReader β}
    (restores : Restores first) {value : β}
    : Accepts (first >>= rest) place value
      ↔ ∃ between, Accepts first place between ∧ Accepts (rest between) place value := by
  have restored := restores place
  unfold Accepts
  rw [run_bind]
  cases outcome : first.run place with
  | mk given after =>
      rw [outcome] at restored
      cases given with
      | error error => simp
      | ok between =>
          have same : after = place := restored
          simp [same]

theorem Restores.accepts_map_iff {reader : ColumnReader α} (restores : Restores reader)
    {change : α → β} {value : β}
    : Accepts (change <$> reader) place value
      ↔ ∃ given, Accepts reader place given ∧ change given = value := by
  rw [← bind_pure_comp, restores.accepts_bind_iff]
  simp only [accepts_pure_iff]

/-- A reader accepts the same inside a field. -/
theorem accepts_inside_iff {field : Field} {reader : ColumnReader α} {value : α}
    : Accepts (inside field reader) place value
      ↔ Accepts reader { place with fields := field :: place.fields } value := by
  unfold Accepts
  rw [run_inside]
  cases reader.run { place with fields := field :: place.fields } with
  | mk outcome after => cases outcome <;> simp

/-- The numerals of a range from zero on are the numbers that are in the range. -/
theorem accepts_numeral_iff {range : Text.NumeralRange} (least : range.least = 0)
    (greatest : 0 ≤ range.greatest) {text : List Char} {n : Nat}
    : Accepts (Int.toNat <$> numeral range text) place n
      ↔ Text.Decimal text n ∧ (n : Int) ≤ range.greatest := by
  have accepts_iff {value : Int}
      : Accepts (numeral range text) place value ↔ Text.readNumeral range text = .ok value := by
    unfold numeral
    split
    case h_1 number read => rw [accepts_pure_iff, read, Except.ok.injEq]
    case h_2 cause read =>
      rw [read]
      exact iff_of_false (not_accepts_refuseField _ _) (by simp)
  rw [(restores_numeral range text).accepts_map_iff]
  simp only [accepts_iff, Text.readNumeral_eq_ok_iff least greatest]
  constructor
  · rintro ⟨_, ⟨number, written, rfl, inside⟩, rfl⟩
    exact ⟨written, inside⟩
  · rintro ⟨written, inside⟩
    exact ⟨n, ⟨n, written, rfl, inside⟩, rfl⟩

theorem accepts_optionalSmall_iff {text : Option (List Char)} {n : Nat}
    : Accepts (optionalSmall text) place n ↔ Text.DecimalOrZero text n ∧ n ≤ 255 := by
  cases text with
  | some text =>
      rw [optionalSmall, small, accepts_numeral_iff rfl (by decide), Text.DecimalOrZero]
      exact and_congr_right fun _ => Int.ofNat_le
  | none =>
      rw [optionalSmall, accepts_pure_iff, Text.DecimalOrZero]
      omega

end ColumnReader

open ColumnReader

-----------------------------------------------------------------------------------------
-- Fields between colons
-----------------------------------------------------------------------------------------

/-- A text that writes hours, minutes and seconds in one to three fields between colons. The fields
that are left out stand for zero. -/
inductive ClockTime.Fields : List Char → Nat → Nat → Nat → Prop
  | hour {h : List Char} {hour : Nat} : Text.Decimal h hour → Fields h hour 0 0
  | minute {h m : List Char} {hour minute : Nat} :
      Text.Decimal h hour → Text.Decimal m minute → Fields (h ++ ':' :: m) hour minute 0
  | second {h m s : List Char} {hour minute second : Nat} :
      Text.Decimal h hour → Text.Decimal m minute → Text.Decimal s second →
      Fields (h ++ ':' :: (m ++ ':' :: s)) hour minute second

section Fields

variable {text : List Char} {hour minute second : Nat}

/-- No colon stands in a number. -/
theorem Text.Decimal.no_colon {n : Nat} (number : Text.Decimal text n)
    : ∀ x ∈ text, (x == ':') = false := by
  intro x member
  rw [beq_eq_false_iff_ne]
  rintro rfl
  exact number.not_mem (by decide) (by decide) member

/-- A number is not cut at a colon. -/
theorem Text.Decimal.cutAt?_eq_none {n : Nat} (number : Text.Decimal text n)
    : Text.cutAt? (· == ':') text = none := by
  cases cut : Text.cutAt? (· == ':') text with
  | none => rfl
  | some sides =>
      obtain ⟨c, colon, rfl, _⟩ := Text.cutAt?_eq_some_iff.mp cut
      exact absurd colon (by simp [number.no_colon c (by simp)])

/-- A text is cut at the colon behind its first number. -/
theorem Text.Decimal.cutAt?_append {n : Nat} (number : Text.Decimal text n) (rest : List Char)
    : Text.cutAt? (· == ':') (text ++ ':' :: rest) = some (text, rest) :=
  Text.cutAt?_eq_some_iff.mpr ⟨':', rfl, rfl, number.no_colon⟩

/-- The fields of a text are the parts that it is cut into. A third part with a colon in it is no
number. -/
theorem ClockTime.fields_iff
    : Fields text hour minute second
      ↔ Text.Decimal (timeParts text).1 hour
        ∧ Text.DecimalOrZero (timeParts text).2.1 minute
        ∧ Text.DecimalOrZero (timeParts text).2.2 second := by
  constructor
  · intro fields
    cases fields with
    | hour first =>
        rw [timeParts, first.cutAt?_eq_none]
        exact ⟨first, rfl, rfl⟩
    | minute first further =>
        simp only [timeParts, first.cutAt?_append, further.cutAt?_eq_none]
        exact ⟨first, further, rfl⟩
    | second first further last =>
        simp only [timeParts, first.cutAt?_append, further.cutAt?_append]
        exact ⟨first, further, last⟩
  · unfold timeParts
    split
    case h_1 =>
      rintro ⟨first, rfl, rfl⟩
      exact .hour first
    case h_2 front rest cut =>
      obtain ⟨c, colon, rfl, _⟩ := Text.cutAt?_eq_some_iff.mp cut
      obtain rfl := beq_iff_eq.mp colon
      split
      case h_1 =>
        rintro ⟨first, further, rfl⟩
        exact .minute first further
      case h_2 middle back cut =>
        obtain ⟨c, colon, rfl, _⟩ := Text.cutAt?_eq_some_iff.mp cut
        obtain rfl := beq_iff_eq.mp colon
        rintro ⟨first, further, last⟩
        exact .second first further last

/-- No minus sign stands in the fields of a time. -/
theorem ClockTime.Fields.no_minus (fields : Fields text hour minute second) : '-' ∉ text := by
  have number_no_minus {front : List Char} {n : Nat} (number : Text.Decimal front n)
      : '-' ∉ front :=
    number.not_mem (by decide) (by decide)
  cases fields with
  | hour first => exact number_no_minus first
  | minute first further => simp [number_no_minus first, number_no_minus further]
  | second first further last =>
      simp [number_no_minus first, number_no_minus further, number_no_minus last]

theorem ClockTime.Fields.endsInDigit (fields : Fields text hour minute second)
    : Text.EndsInDigit text := by
  cases fields with
  | hour first => exact first.endsInDigit
  | minute _ further => exact (further.endsInDigit.append [':']).append _
  | @second _ m s _ _ _ _ _ last =>
      have behind_hour : Text.EndsInDigit (m ++ ':' :: s) :=
        (last.endsInDigit.append [':']).append m
      exact (behind_hour.append [':']).append _

end Fields

-----------------------------------------------------------------------------------------
-- Signs and letters
-----------------------------------------------------------------------------------------

/-- A text is put together again from its leading mark and the rest. -/
theorem Text.stripLeading_text (mark : Char) (text : List Char)
    : text
      = (if (stripLeading mark text).1 then [mark] else []) ++ (stripLeading mark text).2 := by
  cases text with
  | nil => rfl
  | cons c rest =>
      rw [stripLeading]
      split
      case isTrue same => exact same ▸ rfl
      case isFalse => rfl

/-- A leading mark is told from a text that the mark does not stand in. -/
theorem Text.stripLeading_append {mark : Char} {text : List Char} (marked : Bool)
    (unmarked : mark ∉ text)
    : stripLeading mark ((if marked then [mark] else []) ++ text) = (marked, text) := by
  cases marked with
  | true => simp [stripLeading]
  | false =>
      cases text with
      | nil => rfl
      | cons c rest =>
          have differs : c ≠ mark := fun same => unmarked (same ▸ List.mem_cons_self ..)
          simp [stripLeading, differs]

/-- The texts that stand for a clock behind a time. -/
inductive ClockMode.Letters : List Char → ClockMode → Prop
  | none : Letters [] .wall
  | wall : Letters ['w'] .wall
  | standard : Letters ['s'] .standard
  | universal {c : Char} : c = 'u' ∨ c = 'g' ∨ c = 'z' → Letters [c] .universal

/-- The letter of a text is told from the digit that the time in front of it ends in. -/
theorem ClockMode.Letters.timeMode_append {time letters : List Char} {mode : ClockMode}
    (named : Letters letters mode) (ends : Text.EndsInDigit time)
    : timeMode (time ++ letters) = (mode, time) := by
  cases named with
  | none =>
      obtain ⟨c, last, digit⟩ := ends
      rw [List.append_nil, timeMode, last]
      split
      case h_6 => rfl
      all_goals
        next letter =>
          cases letter
          exact absurd digit (by decide)
  | wall => simp [timeMode]
  | standard => simp [timeMode]
  | universal one => rcases one with rfl | rfl | rfl <;> simp [timeMode]

/-- A text is put together again from its time and the letter of its clock. -/
theorem timeMode_letters (text : List Char)
    : ∃ letters,
        ClockMode.Letters letters (timeMode text).1
        ∧ text = (timeMode text).2 ++ letters := by
  have split_last {c : Char} (last : text.getLast? = some c) : text = text.dropLast ++ [c] :=
    (List.dropLast_append_getLast? c last).symm
  unfold timeMode
  split
  case h_1 last => exact ⟨_, .standard, split_last last⟩
  case h_2 last => exact ⟨_, .universal (.inl rfl), split_last last⟩
  case h_3 last => exact ⟨_, .universal (.inr (.inl rfl)), split_last last⟩
  case h_4 last => exact ⟨_, .universal (.inr (.inr rfl)), split_last last⟩
  case h_5 last => exact ⟨_, .wall, split_last last⟩
  case h_6 => exact ⟨_, .none, (List.append_nil text).symm⟩

-----------------------------------------------------------------------------------------
-- Times
-----------------------------------------------------------------------------------------

/-- A text that writes a time: an optional minus sign and the fields, of which the hours have
sixteen bits and the others are less than sixty. -/
def ClockTime.Spelled (text : List Char) (t : ClockTime) : Prop :=
  ∃ fields,
    text = (if t.negative then ['-'] else []) ++ fields
    ∧ Fields fields t.hour t.minute t.second
    ∧ t.hour ≤ 65535
    ∧ t.minute ≤ 59
    ∧ t.second ≤ 59

/-- A time is read from the texts that write it. -/
theorem ClockTime.accepts_read_iff {text : List Char} {place : Place} {t : ClockTime}
    : Accepts (ClockTime.read text) place t ↔ Spelled text t := by
  rw [ClockTime.read, accepts_inside_iff, ((restores_numeral _ _).map _).accepts_bind_iff]
  have accepts_hour_iff (place : Place) (hourText : List Char) (hour : Nat)
      : Accepts (Int.toNat <$> numeral .bits16 hourText) place hour
        ↔ Text.Decimal hourText hour ∧ (hour : Int) ≤ 65535 :=
    accepts_numeral_iff rfl (by decide)
  simp only [(restores_optionalSmall _).accepts_bind_iff, accepts_optionalSmall_iff,
    accepts_hour_iff]
  constructor
  · rintro ⟨hour, ⟨first, _⟩, minute, ⟨further, _⟩, second, ⟨last, _⟩, checked⟩
    split at checked
    case isTrue bounds =>
      obtain rfl := accepts_pure_iff.mp checked
      exact ⟨_, Text.stripLeading_text '-' text, fields_iff.mpr ⟨first, further, last⟩, bounds⟩
    case isFalse => exact absurd checked (not_accepts_refuseField _ _)
  · rintro ⟨fields, rfl, written, bounds⟩
    rw [Text.stripLeading_append t.negative written.no_minus]
    obtain ⟨first, further, last⟩ := fields_iff.mp written
    refine ⟨t.hour, ⟨first, Int.ofNat_le.mpr bounds.1⟩, t.minute, ⟨further, t.minute_le⟩, t.second,
      ⟨last, t.second_le⟩, ?_⟩
    rw [dif_pos bounds]
    rfl

/-- A text that writes a time of day: a time and the letter of its clock. -/
def TimeOfDay.Spelled (text : List Char) (t : TimeOfDay) : Prop :=
  ∃ time letters,
    text = time ++ letters
    ∧ t.time.Spelled time
    ∧ ClockMode.Letters letters t.mode

/-- A time of day is read from the texts that write it. -/
theorem TimeOfDay.accepts_read_iff {text : List Char} {place : Place} {t : TimeOfDay}
    : Accepts (TimeOfDay.read text) place t ↔ Spelled text t := by
  rw [TimeOfDay.read, (ClockTime.restores_read _).accepts_bind_iff]
  simp only [accepts_pure_iff, ClockTime.accepts_read_iff]
  constructor
  · rintro ⟨time, spelled, rfl⟩
    obtain ⟨letters, named, text_eq⟩ := timeMode_letters text
    exact ⟨_, letters, text_eq, spelled, named⟩
  · rintro ⟨time, letters, rfl, spelled, named⟩
    have ends : Text.EndsInDigit time := by
      obtain ⟨fields, rfl, written, _⟩ := spelled
      exact written.endsInDigit.append _
    rw [named.timeMode_append ends]
    exact ⟨t.time, spelled, rfl⟩

/-- Times of day are read by their grammar: from the texts that write one, and from no other text.
The seconds are the sum of the fields under the sign, and they stand for the time that has been read
unless it is a negative zero. -/
theorem TimeOfDay.read_spelled (text : List Char) (place : Place) (t : TimeOfDay)
    : (((TimeOfDay.read text).run place).1 = .ok t ↔ Spelled text t)
      ∧ (Spelled text t →
          t.time.seconds
            = (if t.time.negative then -1 else 1)
              * (t.time.hour * 3600 + t.time.minute * 60 + t.time.second : Int)
          ∧ (ClockTime.ofSeconds t.time.seconds = t.time ↔ ¬ t.time.NegativeZero)) := by
  refine ⟨accepts_read_iff, fun spelled => ⟨?_, ?_⟩⟩
  · rw [ClockTime.seconds]
    split <;> omega
  · obtain ⟨_, _, _, ⟨_, _, _, _, regular⟩, _⟩ := spelled
    exact ClockTime.Regular.ofSeconds_eq_iff regular

/-- Witness: a universal time of day in front of midnight, with a plus sign and a leading zero. -/
theorem TimeOfDay.read_spelled_negative
    : ((TimeOfDay.read "-0:+25:021u".toList).run .start).1
        = .ok ⟨.universal, .ofSeconds (-1521)⟩
      ∧ (ClockTime.ofSeconds (-1521)).seconds = -1 * (0 * 3600 + 25 * 60 + 21) := by
  have spelled : Spelled "-0:+25:021u".toList ⟨.universal, .ofSeconds (-1521)⟩ := by
    refine ⟨"-0:+25:021".toList, ['u'], by decide, ⟨"0:+25:021".toList, by decide, ?_, by decide⟩,
      .universal (.inl rfl)⟩
    refine .second (h := ['0']) (m := ['+', '2', '5']) (s := ['0', '2', '1']) ?_ ?_ ?_
    · exact ⟨['0'], .inl rfl, by decide, List.all_eq_true.mp rfl, by decide⟩
    · exact ⟨['2', '5'], .inr rfl, by decide, List.all_eq_true.mp rfl, by decide⟩
    · exact ⟨['0', '2', '1'], .inl rfl, by decide, List.all_eq_true.mp rfl, by decide⟩
  obtain ⟨read_iff, read_of_spelled⟩ := read_spelled _ .start _
  exact ⟨read_iff.mpr spelled, (read_of_spelled spelled).1⟩

end CivilTime
