import CivilTime.Text.Numeral
import Mathlib.Data.List.TakeWhile

/-! Pieces of a text that tell where they end.
A piece of characters of one class ends in front of the first character of another class, and a
piece of a fixed length needs no such mark. In front of any two rests, equal texts then have equal
pieces and equal rests.
-/

namespace CivilTime.Text

variable {p q : Char → Bool} {a b x y : List Char} {m n : Nat}

/-- The text is empty or begins with a character outside of a class. -/
def Stops (p : Char → Bool) (rest : List Char) : Prop := ∀ c ∈ rest.head?, p c = false

theorem stops_nil : Stops p [] := fun _ member => by cases member

theorem stops_cons {c : Char} (outside : p c = false) : Stops p (c :: x) := by
  intro other member
  cases member
  exact outside

/-- A text that stops in front of a class stops in front of any part of it. -/
theorem Stops.mono (stops : Stops q x) (narrower : ∀ c, q c = false → p c = false) : Stops p x :=
  fun c member => narrower c (stops c member)

theorem takeWhile_append_of_stops (inside : ∀ c ∈ a, p c = true) (stops : Stops p x)
    : (a ++ x).takeWhile p = a := by
  rw [List.takeWhile_append_of_pos inside]
  cases x with
  | nil => simp
  | cons c rest => rw [List.takeWhile_cons_of_neg (by simp [stops c rfl]), List.append_nil]

/-- Two pieces of a class are told by their texts, in front of rests that do not go on with it. -/
theorem append_unique (inside : ∀ c ∈ a, p c = true) (inside' : ∀ c ∈ b, p c = true)
    (stops : Stops p x) (stops' : Stops p y) (same : a ++ x = b ++ y)
    : a = b ∧ x = y := by
  have pieces : a = b := by
    rw [← takeWhile_append_of_stops inside stops, same, takeWhile_append_of_stops inside' stops']
  subst pieces
  exact ⟨rfl, List.append_cancel_left same⟩

/-- A piece behind a mark, left out with its mark under a condition. -/
def markedUnless (absent : Prop) [Decidable absent] (mark : Char) (piece : List Char) : List Char :=
  if absent then [] else mark :: piece

/-- In front of rests that do not begin with the mark, it tells whether the piece is left out. -/
theorem markedUnless_cases {P Q : Prop} [Decidable P] [Decidable Q] {mark : Char}
    (inside : p mark = true) (stops : Stops p x) (stops' : Stops p y)
    (same : markedUnless P mark a ++ x = markedUnless Q mark b ++ y)
    : (P ∧ Q ∧ x = y) ∨ (¬ P ∧ ¬ Q ∧ a ++ x = b ++ y) := by
  have ne_mark {rest behind : List Char} (rest_stops : Stops p rest) : rest ≠ mark :: behind := by
    rintro rfl
    simp [rest_stops mark rfl] at inside
  unfold markedUnless at same
  split at same <;> split at same
  case isTrue.isTrue absent absent' => exact .inl ⟨absent, absent', same⟩
  case isTrue.isFalse => exact absurd same (ne_mark stops)
  case isFalse.isTrue => exact absurd same.symm (ne_mark stops')
  case isFalse.isFalse present present' => exact .inr ⟨present, present', (List.cons.inj same).2⟩

/-- A piece that may be left out stops a class in front of it if its mark and its rest do. -/
theorem stops_markedUnless {P : Prop} [Decidable P] {mark : Char} (outside : q mark = false)
    (stops : Stops q x)
    : Stops q (markedUnless P mark a ++ x) := by
  unfold markedUnless
  split
  · exact stops
  · exact stops_cons outside

-----------------------------------------------------------------------------------------
-- Decimal numerals
-----------------------------------------------------------------------------------------

theorem toList_toString (n : Nat) : (toString n).toList = Nat.toDigits 10 n := by
  rw [Nat.toString_eq_ofList_toDigits, String.toList_ofList]

theorem isDigit_of_mem_digits {c : Char} (member : c ∈ Nat.toDigits 10 n) : c.isDigit = true :=
  Nat.isDigit_of_mem_toDigits (by decide) (by decide) member

/-- The digits of a number are one digit and further ones. -/
theorem exists_digits_eq_cons (n : Nat)
    : ∃ c rest, Nat.toDigits 10 n = c :: rest ∧ c.isDigit = true := by
  cases written : Nat.toDigits 10 n with
  | nil => exact absurd written Nat.toDigits_ne_nil
  | cons c rest => exact ⟨c, rest, rfl, isDigit_of_mem_digits (n := n) (by simp [written])⟩

theorem digits_unique (stops : Stops Char.isDigit x) (stops' : Stops Char.isDigit y)
    (same : Nat.toDigits 10 m ++ x = Nat.toDigits 10 n ++ y)
    : m = n ∧ x = y := by
  obtain ⟨same_digits, rest⟩ := append_unique (fun _ => isDigit_of_mem_digits)
    (fun _ => isDigit_of_mem_digits) stops stops' same
  refine ⟨?_, rest⟩
  rw [← Nat.ofDigitChars_ten_toDigits (n := m), ← Nat.ofDigitChars_ten_toDigits (n := n)]
  exact congrArg (Nat.ofDigitChars 10 · 0) same_digits

/-- Two digits write a number below a hundred. -/
theorem toList_twoDigits (small : n < 100)
    : (twoDigits n).toList = [(n / 10).digitChar, (n % 10).digitChar] := by
  unfold twoDigits
  split
  case isTrue lt =>
    rw [String.toList_append, toList_toString, Nat.toDigits_of_lt_base lt,
      Nat.div_eq_of_lt lt, Nat.mod_eq_of_lt lt]
    rfl
  case isFalse ge =>
    rw [toList_toString, Nat.toDigits_of_base_le (by decide) (by omega),
      Nat.toDigits_of_lt_base (by omega), List.singleton_append]

/-- A digit tells its number. -/
theorem digitChar_unique (lt : m < 10) (lt' : n < 10) (same : m.digitChar = n.digitChar)
    : m = n := by
  have codes := congrArg Char.toNat same
  rw [Nat.toNat_digitChar_of_lt_ten lt, Nat.toNat_digitChar_of_lt_ten lt'] at codes
  omega

theorem twoDigits_unique (small : m < 100) (small' : n < 100)
    (same : (twoDigits m).toList ++ x = (twoDigits n).toList ++ y)
    : m = n ∧ x = y := by
  rw [toList_twoDigits small, toList_twoDigits small'] at same
  obtain ⟨tens, ones, rest⟩ : _ ∧ _ ∧ x = y := by simpa using same
  have same_tens := digitChar_unique (by omega) (by omega) tens
  have same_ones := digitChar_unique (by omega) (by omega) ones
  exact ⟨by omega, rest⟩

end CivilTime.Text
