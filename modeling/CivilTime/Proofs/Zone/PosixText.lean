import CivilTime.Proofs.Calendar.Gregorian
import CivilTime.Proofs.Text.Delimited
import CivilTime.Proofs.Zone.Consistency
import CivilTime.Zone.Posix

/-! A POSIX string tells the time zone that it writes.
Its parts stand next to one another without separators, and parts with the usual value are left out.
Each part still tells where it ends: an abbreviation at its bracket or in front of the first
character that is no letter, a time or a date in front of the first character that continues
neither. So equal strings are taken apart alike from the front.
-/

namespace CivilTime

open Text

/-- Months are told apart by their numbers. -/
theorem Month.number_injective {a b : Month} (same : a.number = b.number) : a = b := by
  cases a <;> cases b <;> first | rfl | exact absurd same (by decide)

namespace Posix

/-- Whether a character may continue a time, or a date with its time. -/
def continues (c : Char) : Bool := c.isDigit || c == ':' || c == '/'

theorem isDigit_of_not_continues {c : Char} (outside : continues c = false)
    : c.isDigit = false := by
  simp only [continues, Bool.or_eq_false_iff] at outside
  exact outside.1.1

/-- A letter continues no time: digits, the colon and the slash come in front of all letters. -/
theorem not_continues_of_isAlpha {c : Char} (letter : c.isAlpha = true) : continues c = false := by
  have low : 'A'.val ≤ c.val := by
    rcases (Bool.or_eq_true ..).mp letter with upper | lower
    · have range : 'A'.val ≤ c.val ∧ c.val ≤ 'Z'.val := of_decide_eq_true upper
      exact range.1
    · have low : 'a'.val ≤ c.val := of_decide_eq_true (Bool.and_eq_true_iff.mp lower).1
      exact UInt32.le_trans (by decide) low
  rw [← Bool.not_eq_true]
  intro inside
  simp only [continues, Bool.or_eq_true, beq_iff_eq] at inside
  rcases inside with (digit | rfl) | rfl
  · have high : c.val ≤ '9'.val := of_decide_eq_true (Bool.and_eq_true_iff.mp digit).2
    exact absurd (UInt32.le_trans low high) (by decide)
  · exact absurd low (by decide)
  · exact absurd low (by decide)

variable {x y : List Char}

-----------------------------------------------------------------------------------------
-- Times
-----------------------------------------------------------------------------------------

/-- The seconds of a time, if they are needed. -/
def secondPart (second : Nat) : List Char := markedUnless (second = 0) ':' (twoDigits second).toList

/-- The minutes and seconds of a time, if they are needed. -/
def minutePart (minute second : Nat) : List Char :=
  markedUnless (minute = 0 ∧ second = 0) ':' ((twoDigits minute).toList ++ secondPart second)

/-- A time without its sign. -/
def amountPart (amount : Nat) : List Char :=
  Nat.toDigits 10 (amount / 3600) ++ minutePart (amount % 3600 / 60) (amount % 60)

theorem toList_timeText (seconds : Int)
    : (timeText seconds).toList
      = if seconds < 0 then '-' :: amountPart seconds.natAbs else amountPart seconds.natAbs := by
  have hours : (timeText seconds).toList
      = (if seconds < 0 then ['-'] else []) ++ amountPart seconds.natAbs := by
    simp only [timeText, amountPart, minutePart, secondPart, markedUnless, String.toList_append,
      toList_toString, Nat.pos_iff_ne_zero, ite_not, apply_ite String.toList, List.append_assoc]
    rfl
  rw [hours]
  split <;> rfl

theorem secondPart_unique {s t : Nat} (small : s < 60) (small' : t < 60)
    (stops : Stops continues x) (stops' : Stops continues y)
    (same : secondPart s ++ x = secondPart t ++ y)
    : s = t ∧ x = y := by
  rcases markedUnless_cases (by decide) stops stops' same with ⟨rfl, rfl, rest⟩ | ⟨_, _, behind⟩
  · exact ⟨rfl, rest⟩
  · exact twoDigits_unique (by omega) (by omega) behind

theorem minutePart_unique {m s n t : Nat} (minute : m < 60) (second : s < 60) (minute' : n < 60)
    (second' : t < 60) (stops : Stops continues x) (stops' : Stops continues y)
    (same : minutePart m s ++ x = minutePart n t ++ y)
    : (m = n ∧ s = t) ∧ x = y := by
  rcases markedUnless_cases (by decide) stops stops' same with ⟨zero, zero', rest⟩ | ⟨_, _, behind⟩
  · exact ⟨by omega, rest⟩
  · rw [List.append_assoc, List.append_assoc] at behind
    obtain ⟨minutes, behind⟩ := twoDigits_unique (by omega) (by omega) behind
    obtain ⟨seconds, rest⟩ := secondPart_unique second second' stops stops' behind
    exact ⟨⟨minutes, seconds⟩, rest⟩

theorem amountPart_unique {a b : Nat} (stops : Stops continues x) (stops' : Stops continues y)
    (same : amountPart a ++ x = amountPart b ++ y)
    : a = b ∧ x = y := by
  have hours_end {minute second : Nat} {rest : List Char} (rest_stops : Stops continues rest)
      : Stops Char.isDigit (minutePart minute second ++ rest) :=
    stops_markedUnless (by decide) (rest_stops.mono fun _ => isDigit_of_not_continues)
  unfold amountPart at same
  rw [List.append_assoc, List.append_assoc] at same
  obtain ⟨hours, behind⟩ := digits_unique (hours_end stops) (hours_end stops') same
  obtain ⟨⟨minutes, seconds⟩, rest⟩ := minutePart_unique (by omega) (by omega) (by omega) (by omega)
    stops stops' behind
  exact ⟨by omega, rest⟩

/-- A time without its sign begins with a digit. -/
theorem exists_amountPart_eq_cons (amount : Nat)
    : ∃ c rest, amountPart amount = c :: rest ∧ c.isDigit = true := by
  obtain ⟨c, rest, written, digit⟩ := exists_digits_eq_cons (amount / 3600)
  exact ⟨c, rest ++ _, by rw [amountPart, written, List.cons_append], digit⟩

theorem timeText_unique {s t : Int} (stops : Stops continues x) (stops' : Stops continues y)
    (same : (timeText s).toList ++ x = (timeText t).toList ++ y)
    : s = t ∧ x = y := by
  have unsigned {amount : Nat} {rest behind : List Char}
      : amountPart amount ++ rest ≠ '-' :: behind := by
    obtain ⟨c, written, eq, digit⟩ := exists_amountPart_eq_cons amount
    rw [eq]
    intro signed
    rw [(List.cons.inj signed).1] at digit
    cases digit
  rw [toList_timeText, toList_timeText] at same
  split at same <;> split at same
  · obtain ⟨amounts, rest⟩ := amountPart_unique stops stops' (List.cons.inj same).2
    exact ⟨by omega, rest⟩
  · exact absurd same.symm unsigned
  · exact absurd same unsigned
  · obtain ⟨amounts, rest⟩ := amountPart_unique stops stops' same
    exact ⟨by omega, rest⟩

/-- A time begins with its sign or a digit, so it stops what has neither. -/
theorem stops_timeText {p : Char → Bool} (seconds : Int) (sign : p '-' = false)
    (digits : ∀ c : Char, c.isDigit = true → p c = false)
    : Stops p ((timeText seconds).toList ++ x) := by
  obtain ⟨c, rest, written, digit⟩ := exists_amountPart_eq_cons seconds.natAbs
  rw [toList_timeText]
  split
  · exact stops_cons sign
  · rw [written]
    exact stops_cons (digits c digit)

-----------------------------------------------------------------------------------------
-- Changes
-----------------------------------------------------------------------------------------

theorem toList_julian (day : Nat)
    : (DateRule.julian day).text.toList = 'J' :: Nat.toDigits 10 day := by
  rw [DateRule.text, String.toList_append, toList_toString]
  rfl

theorem toList_monthWeekDay (month : Month) (week : Nat) (weekDay : WeekDay)
    : (DateRule.monthWeekDay month week weekDay).text.toList
      = 'M' :: (Nat.toDigits 10 month.number
          ++ '.' :: (Nat.toDigits 10 week ++ '.' :: Nat.toDigits 10 weekDay.number)) := by
  simp only [DateRule.text, String.toList_append, toList_toString, List.append_assoc]
  rfl

theorem dateText_unique {a b : DateRule} (stops : Stops Char.isDigit x)
    (stops' : Stops Char.isDigit y) (same : a.text.toList ++ x = b.text.toList ++ y)
    : a = b ∧ x = y := by
  have point : Char.isDigit '.' = false := by decide
  cases a with
  | julian day =>
      cases b with
      | julian day' =>
          rw [toList_julian, toList_julian] at same
          obtain ⟨rfl, rest⟩ := digits_unique stops stops' (List.cons.inj same).2
          exact ⟨rfl, rest⟩
      | monthWeekDay month week weekDay =>
          rw [toList_julian, toList_monthWeekDay] at same
          exact absurd (List.cons.inj same).1 (by decide)
  | monthWeekDay month week weekDay =>
      cases b with
      | julian day =>
          rw [toList_julian, toList_monthWeekDay] at same
          exact absurd (List.cons.inj same).1 (by decide)
      | monthWeekDay month' week' weekDay' =>
          rw [toList_monthWeekDay, toList_monthWeekDay] at same
          simp only [List.cons_append, List.append_assoc] at same
          obtain ⟨months, behind⟩ :=
            digits_unique (stops_cons point) (stops_cons point) (List.cons.inj same).2
          obtain ⟨weeks, behind⟩ :=
            digits_unique (stops_cons point) (stops_cons point) (List.cons.inj behind).2
          obtain ⟨weekDays, rest⟩ := digits_unique stops stops' (List.cons.inj behind).2
          rw [Month.number_injective months, weeks, WeekDay.number_injective weekDays]
          exact ⟨rfl, rest⟩

/-- The time of a change, if it is not the usual one. -/
def clockPart (time : Int) : List Char :=
  markedUnless (time = defaultTime) '/' (timeText time).toList

theorem toList_changeText (change : Change)
    : change.text.toList = ',' :: (change.date.text.toList ++ clockPart change.time) := by
  simp only [Change.text, clockPart, markedUnless, String.toList_append, apply_ite String.toList,
    List.append_assoc]
  rfl

theorem clockPart_unique {s t : Int} (stops : Stops continues x) (stops' : Stops continues y)
    (same : clockPart s ++ x = clockPart t ++ y)
    : s = t ∧ x = y := by
  rcases markedUnless_cases (by decide) stops stops' same
    with ⟨usual, usual', rest⟩ | ⟨_, _, behind⟩
  · exact ⟨usual.trans usual'.symm, rest⟩
  · exact timeText_unique stops stops' behind

theorem changeText_unique {a b : Change} (stops : Stops continues x) (stops' : Stops continues y)
    (same : a.text.toList ++ x = b.text.toList ++ y)
    : a = b ∧ x = y := by
  have date_ends {time : Int} {rest : List Char} (rest_stops : Stops continues rest)
      : Stops Char.isDigit (clockPart time ++ rest) :=
    stops_markedUnless (by decide) (rest_stops.mono fun _ => isDigit_of_not_continues)
  obtain ⟨date, time⟩ := a
  obtain ⟨date', time'⟩ := b
  rw [toList_changeText, toList_changeText] at same
  simp only [List.cons_append, List.append_assoc] at same
  obtain ⟨rfl, behind⟩ :=
    dateText_unique (date_ends stops) (date_ends stops') (List.cons.inj same).2
  obtain ⟨rfl, rest⟩ := clockPart_unique stops stops' behind
  exact ⟨rfl, rest⟩

/-- A change begins with its comma. -/
theorem stops_changeText {p : Char → Bool} (change : Change) (comma : p ',' = false)
    : Stops p (change.text.toList ++ x) := by
  rw [toList_changeText]
  exact stops_cons comma

-----------------------------------------------------------------------------------------
-- Abbreviations
-----------------------------------------------------------------------------------------

/-- An abbreviation that can be told from what follows it. -/
structure Delimited (name : String) : Prop where
  filled : name ≠ ""
  unbracketed : '>' ∉ name.toList

theorem toList_abbreviationText (name : String)
    : (abbreviationText name).toList
      = if name.toList.all Char.isAlpha then name.toList else '<' :: (name.toList ++ ['>']) := by
  unfold abbreviationText
  split
  · rfl
  · simp only [String.toList_append, List.append_assoc]
    rfl

/-- An abbreviation of letters begins with one. -/
theorem Delimited.exists_eq_cons {name : String} (delimited : Delimited name)
    (letters : name.toList.all Char.isAlpha = true)
    : ∃ c rest, name.toList = c :: rest ∧ c.isAlpha = true := by
  cases written : name.toList with
  | nil => exact absurd (String.toList_eq_nil_iff.mp written) delimited.filled
  | cons c rest => exact ⟨c, rest, rfl, List.all_eq_true.mp letters c (by simp [written])⟩

/-- An abbreviation begins with a letter or a bracket, so it stops what has neither. -/
theorem Delimited.stops {p : Char → Bool} {name : String} (delimited : Delimited name)
    (bracket : p '<' = false) (letters : ∀ c : Char, c.isAlpha = true → p c = false)
    : Stops p ((abbreviationText name).toList ++ x) := by
  rw [toList_abbreviationText]
  split
  case isTrue all_letters =>
    obtain ⟨c, rest, written, letter⟩ := delimited.exists_eq_cons all_letters
    rw [written]
    exact stops_cons (letters c letter)
  case isFalse => exact stops_cons bracket

theorem abbreviationText_unique {a b : String} (delimited : Delimited a) (delimited' : Delimited b)
    (stops : Stops Char.isAlpha x) (stops' : Stops Char.isAlpha y)
    (same : (abbreviationText a).toList ++ x = (abbreviationText b).toList ++ y)
    : a = b ∧ x = y := by
  have unbracketed {name : String} {rest behind : List Char} (name_delimited : Delimited name)
      (letters : name.toList.all Char.isAlpha = true)
      : name.toList ++ rest ≠ '<' :: behind := by
    obtain ⟨c, _, written, letter⟩ := name_delimited.exists_eq_cons letters
    rw [written]
    intro bracketed
    rw [(List.cons.inj bracketed).1] at letter
    cases letter
  have inside {name : String} (name_delimited : Delimited name)
      : ∀ c ∈ name.toList, (c != '>') = true := fun c member =>
    bne_iff_ne.mpr fun bracket => name_delimited.unbracketed (bracket ▸ member)
  rw [toList_abbreviationText, toList_abbreviationText] at same
  split at same <;> split at same
  case isTrue.isTrue letters letters' =>
    obtain ⟨names, rest⟩ := append_unique (List.all_eq_true.mp letters)
      (List.all_eq_true.mp letters') stops stops' same
    exact ⟨String.toList_inj.mp names, rest⟩
  case isTrue.isFalse letters _ => exact absurd same (unbracketed delimited letters)
  case isFalse.isTrue _ letters => exact absurd same.symm (unbracketed delimited' letters)
  case isFalse.isFalse =>
    have behind := (List.cons.inj same).2
    simp only [List.append_eq, List.append_assoc, List.singleton_append] at behind
    obtain ⟨names, brackets⟩ := append_unique (inside delimited) (inside delimited')
      (stops_cons (by decide)) (stops_cons (by decide)) behind
    exact ⟨String.toList_inj.mp names, (List.cons.inj brackets).2⟩

-----------------------------------------------------------------------------------------
-- Time zones
-----------------------------------------------------------------------------------------

/-- The abbreviations of a time zone can be told from what follows them. -/
structure TimeZone.Delimited (tz : TimeZone) : Prop where
  standard : Posix.Delimited tz.abbreviation
  saving : ∀ saving ∈ tz.saving, Posix.Delimited saving.abbreviation

/-- The offset of saved time, if it is not the usual one. -/
def savingPart (offset savings : Int) : List Char :=
  if savings = defaultSavings then [] else (offsetText (offset + savings)).toList

theorem toList_savingText (saving : Saving) (offset : Int)
    : (saving.text offset).toList
      = (abbreviationText saving.abbreviation).toList
        ++ (savingPart offset saving.savings
          ++ (saving.start.text.toList ++ saving.stop.text.toList)) := by
  simp only [Saving.text, savingPart, String.toList_append, apply_ite String.toList,
    List.append_assoc]
  rfl

/-- An offset begins with its sign or a digit, so it stops what has neither. -/
theorem stops_offsetText {p : Char → Bool} (offset : Int) (sign : p '-' = false)
    (digits : ∀ c : Char, c.isDigit = true → p c = false)
    : Stops p ((offsetText offset).toList ++ x) :=
  stops_timeText (-offset) sign digits

theorem offsetText_unique {a b : Int} (stops : Stops continues x) (stops' : Stops continues y)
    (same : (offsetText a).toList ++ x = (offsetText b).toList ++ y)
    : a = b ∧ x = y := by
  obtain ⟨offsets, rest⟩ := timeText_unique stops stops' same
  exact ⟨Int.neg_inj.mp offsets, rest⟩

/-- No digit is a letter. -/
theorem not_isAlpha_of_isDigit (c : Char) (digit : c.isDigit = true) : c.isAlpha = false := by
  rw [← Bool.not_eq_true]
  intro letter
  have outside := not_continues_of_isAlpha letter
  simp [continues, digit] at outside

/-- The part between an abbreviation and the first change has no letter at its front. -/
theorem stops_savingPart {offset savings : Int} (change : Change)
    : Stops Char.isAlpha (savingPart offset savings ++ (change.text.toList ++ x)) := by
  unfold savingPart
  split
  · exact stops_changeText change (by decide)
  · exact stops_offsetText _ (by decide) not_isAlpha_of_isDigit

/-- In front of a change, an offset is told from the usual one that is left out. -/
theorem savingPart_unique {offset s t : Int} {a b : Change}
    (same : savingPart offset s ++ (a.text.toList ++ x)
      = savingPart offset t ++ (b.text.toList ++ y))
    : s = t ∧ a.text.toList ++ x = b.text.toList ++ y := by
  have written {offset : Int} {change : Change} {rest behind : List Char}
      : change.text.toList ++ rest ≠ (offsetText offset).toList ++ behind := by
    intro eq
    have comma : Stops (· == ',') (change.text.toList ++ rest) :=
      eq ▸ stops_offsetText offset (by decide) fun c digit => by
        rw [beq_eq_false_iff_ne]
        rintro rfl
        cases digit
    rw [toList_changeText] at comma
    exact absurd (comma ',' rfl) (by decide)
  unfold savingPart at same
  split at same <;> split at same
  case isTrue.isTrue usual usual' => exact ⟨usual.trans usual'.symm, same⟩
  case isTrue.isFalse => exact absurd same written
  case isFalse.isTrue => exact absurd same.symm written
  case isFalse.isFalse =>
    obtain ⟨offsets, rest⟩ := offsetText_unique (stops_changeText a (by decide))
      (stops_changeText b (by decide)) same
    exact ⟨by omega, rest⟩

theorem savingText_unique {a b : Saving} {offset : Int} (delimited : Delimited a.abbreviation)
    (delimited' : Delimited b.abbreviation)
    (same : (a.text offset).toList = (b.text offset).toList)
    : a = b := by
  obtain ⟨abbreviation, savings, start, stop⟩ := a
  obtain ⟨abbreviation', savings', start', stop'⟩ := b
  rw [toList_savingText, toList_savingText] at same
  obtain ⟨rfl, behind⟩ := abbreviationText_unique delimited delimited' (stops_savingPart start)
    (stops_savingPart start') same
  obtain ⟨rfl, changes⟩ := savingPart_unique behind
  have comma : continues ',' = false := by decide
  rw [← List.append_nil stop.text.toList, ← List.append_nil stop'.text.toList] at changes
  obtain ⟨rfl, last⟩ := changeText_unique (stops_changeText stop comma)
    (stops_changeText stop' comma) changes
  obtain ⟨rfl, -⟩ := changeText_unique stops_nil stops_nil last
  rfl

/-- What is written on saved time, if there is any. -/
def savingsText (saving : Option Saving) (offset : Int) : List Char :=
  saving.elim [] fun saving => (saving.text offset).toList

theorem toList_text (tz : TimeZone)
    : tz.text.toList
      = (abbreviationText tz.abbreviation).toList
        ++ ((offsetText tz.offset).toList ++ savingsText tz.saving tz.offset) := by
  obtain ⟨abbreviation, offset, saving⟩ := tz
  cases saving <;> simp only [TimeZone.text, savingsText, String.toList_append, List.append_assoc]
  all_goals rfl

variable {saving saving' : Option Saving} {offset : Int}

/-- What is written on saved time begins with an abbreviation, which continues no offset. -/
theorem stops_savingsText (delimited : ∀ s ∈ saving, Delimited s.abbreviation)
    : Stops continues (savingsText saving offset) := by
  cases saving with
  | none => exact stops_nil
  | some s =>
      rw [savingsText, Option.elim_some, toList_savingText]
      exact (delimited s rfl).stops (by decide) fun _ => not_continues_of_isAlpha

theorem savingsText_unique (delimited : ∀ s ∈ saving, Delimited s.abbreviation)
    (delimited' : ∀ s ∈ saving', Delimited s.abbreviation)
    (same : savingsText saving offset = savingsText saving' offset)
    : saving = saving' := by
  have filled {s : Saving} : (s.text offset).toList ≠ [] := by
    rw [toList_savingText, toList_changeText]
    simp
  cases saving with
  | none =>
      cases saving' with
      | none => rfl
      | some s => exact absurd same.symm filled
  | some s =>
      cases saving' with
      | none => exact absurd same filled
      | some s' => rw [savingText_unique (delimited s rfl) (delimited' s' rfl) same]

/-- A time zone is told by its string. -/
theorem TimeZone.Delimited.text_injective {a b : TimeZone} (delimited : a.Delimited)
    (delimited' : b.Delimited) (same : a.text = b.text)
    : a = b := by
  have characters := congrArg String.toList same
  rw [toList_text, toList_text] at characters
  have sign : Char.isAlpha '-' = false := by decide
  obtain ⟨abbreviations, behind⟩ := abbreviationText_unique delimited.standard delimited'.standard
    (stops_offsetText a.offset sign not_isAlpha_of_isDigit)
    (stops_offsetText b.offset sign not_isAlpha_of_isDigit) characters
  obtain ⟨offsets, savings⟩ := offsetText_unique (stops_savingsText delimited.saving)
    (stops_savingsText delimited'.saving) behind
  rw [offsets] at savings
  have savings := savingsText_unique delimited.saving delimited'.saving savings
  cases a
  cases b
  exact (TimeZone.mk.injEq ..).mpr ⟨abbreviations, offsets, savings⟩

/-- Without an abbreviation for saved time, twelve hours are also one hour and two hours. -/
example
    : let twelve (change : Change) : TimeZone :=
        { abbreviation := "A"
          offset := -43200
          saving := some { abbreviation := "", savings := 3600, start := change, stop := change } }
      let oneAndTwo (change : Change) : TimeZone :=
        { abbreviation := "A"
          offset := -3600
          saving := some { abbreviation := "", savings := -3600, start := change, stop := change } }
      (twelve default).text = (oneAndTwo default).text := by
  decide +kernel

end Posix

/-- Two zones whose futures have the same POSIX string have the same POSIX time zone, if its
abbreviations can be told from what follows them. -/
theorem CompiledZone.posixText?_unambiguous {a b : CompiledZone} {tz tz' : Posix.TimeZone}
    (future : a.posix? = some tz) (future' : b.posix? = some tz') (delimited : tz.Delimited)
    (delimited' : tz'.Delimited) (same : a.posixText? = b.posixText?)
    : tz = tz' := by
  rw [posixText?, posixText?, future, future'] at same
  exact delimited.text_injective delimited' (Option.some.inj same)

/-- Summer time five hours behind universal time, from March to November. -/
def Posix.easternTime : Posix.TimeZone :=
  { abbreviation := "EST"
    offset := -18000
    saving :=
      some
        { abbreviation := "EDT"
          savings := 3600
          start := { date := .monthWeekDay .mar 2 .sun, time := 7200 }
          stop := { date := .monthWeekDay .nov 1 .sun, time := 7200 } } }

theorem Posix.easternTime_delimited : easternTime.Delimited where
  standard := ⟨by decide, by decide⟩
  saving saving member := by
    cases member
    exact ⟨by decide, by decide⟩

/-- Witness: the zone with summer time and its tail alone have the same string, so they have the
same POSIX time zone. -/
theorem posixText?_unambiguous_summer
    : ∃ tz tz',
        summerTailZone.posix? = some tz
        ∧ CompiledZone.posix? { intervals := [], tail := some summerTail } = some tz'
        ∧ summerTailZone.posixText? = some "EST5EDT,M3.2.0,M11.1.0"
        ∧ tz = tz' := by
  have future : summerTailZone.posix? = some Posix.easternTime := by decide +kernel
  have tail_alone : CompiledZone.posix? { intervals := [], tail := some summerTail }
      = some Posix.easternTime := by
    decide +kernel
  refine ⟨_, _, future, tail_alone, by decide +kernel, ?_⟩
  exact CompiledZone.posixText?_unambiguous future tail_alone Posix.easternTime_delimited
    Posix.easternTime_delimited (by decide +kernel)

end CivilTime
