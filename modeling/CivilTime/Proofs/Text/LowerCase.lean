import CivilTime.Proofs.Text.Utf8
import CivilTime.Text.Ascii
import Mathlib.Data.List.Basic

/-! The lower case of a text has the bytes of the text in lower case.
The bytes of a character that is not ASCII have their highest bit set, so none of them is a letter.
-/

namespace CivilTime.Text

variable {c : Char} {b : UInt8}

/-- Only capitals are changed, and each has its small letter thirty-two places behind it. -/
theorem toNat_toLower (c : Char)
    : c.toLower.toNat = if 65 ≤ c.toNat ∧ c.toNat ≤ 90 then c.toNat + 32 else c.toNat := by
  have bounds : c.val ≥ 'A'.val ∧ c.val ≤ 'Z'.val ↔ 65 ≤ c.toNat ∧ c.toNat ≤ 90 := by
    rw [ge_iff_le, UInt32.le_iff_toNat_le, UInt32.le_iff_toNat_le]
    rfl
  unfold Char.toLower
  split
  case isTrue capital =>
    rw [if_pos (bounds.mp capital)]
    have bound := (bounds.mp capital).2
    have sum : (c.val + ('a'.val - 'A'.val)).toNat = (c.toNat + 32) % 2 ^ 32 := by
      rw [UInt32.toNat_add]
      rfl
    exact sum.trans (Nat.mod_eq_of_lt (by omega))
  case isFalse other => rw [if_neg fun capital => other (bounds.mpr capital)]

theorem toLower_eq_self (no_capital : ¬ (65 ≤ c.toNat ∧ c.toNat ≤ 90)) : c.toLower = c := by
  rw [← Char.toNat_inj, toNat_toLower, if_neg no_capital]

theorem lowercase_lowercase (text : String) : lowercase (lowercase text) = lowercase text := by
  have settled : ∀ c : Char, c.toLower.toLower = c.toLower := by
    intro c
    refine toLower_eq_self ?_
    rw [toNat_toLower]
    split <;> omega
  simp only [lowercase, foldCase, String.toList_ofList, List.map_map, Function.comp_def, settled]

-----------------------------------------------------------------------------------------
-- Bytes
-----------------------------------------------------------------------------------------

theorem utf8EncodeChar_of_ascii (ascii : c.toNat < 128)
    : String.utf8EncodeChar c = [UInt8.ofNat c.toNat] := by
  have small : c.val.toNat ≤ 127 := Nat.le_of_lt_succ ascii
  rw [String.utf8EncodeChar, if_pos small]
  rfl

/-- Bytes that are no capitals are kept. -/
theorem foldByte_eq_self (no_capital : b.toNat < 65 ∨ 90 < b.toNat) : foldByte b = b := by
  have outside : ¬ (0x41 ≤ b ∧ b ≤ 0x5a) := by
    simp only [UInt8.le_iff_toNat_le]
    simp
    omega
  rw [foldByte, if_neg (by simpa using outside)]

/-- Only a capital has a byte that is one, by cases on the number of bytes. -/
theorem no_capital_of_mem (other : ¬ (65 ≤ c.toNat ∧ c.toNat ≤ 90))
    (member : b ∈ String.utf8EncodeChar c)
    : b.toNat < 65 ∨ 90 < b.toNat := by
  have value : c.toNat = c.val.toNat := rfl
  simp only [String.utf8EncodeChar] at member
  split at member
  · obtain rfl := List.mem_singleton.mp member
    rw [UInt8.toNat_ofNat']
    omega
  · split at member
    · simp only [List.mem_cons, List.not_mem_nil, or_false] at member
      rcases member with rfl | rfl <;> simp only [UInt8.toNat_ofNat'] <;> omega
    · split at member
      · simp only [List.mem_cons, List.not_mem_nil, or_false] at member
        rcases member with rfl | rfl | rfl <;> simp only [UInt8.toNat_ofNat'] <;> omega
      · simp only [List.mem_cons, List.not_mem_nil, or_false] at member
        rcases member with rfl | rfl | rfl | rfl <;> simp only [UInt8.toNat_ofNat'] <;> omega

theorem utf8EncodeChar_toLower (c : Char)
    : String.utf8EncodeChar c.toLower = (String.utf8EncodeChar c).map foldByte := by
  by_cases capital : 65 ≤ c.toNat ∧ c.toNat ≤ 90
  · have lower := toNat_toLower c
    rw [if_pos capital] at lower
    rw [utf8EncodeChar_of_ascii (by omega), utf8EncodeChar_of_ascii (by omega), lower,
      List.map_singleton, foldByte, if_pos]
    · rw [UInt8.ofNat_add]
      rfl
    · simp only [Bool.and_eq_true, decide_eq_true_eq, UInt8.le_iff_toNat_le, UInt8.toNat_ofNat']
      simp
      omega
  · have kept : ∀ b ∈ String.utf8EncodeChar c, foldByte b = b := fun b member =>
      foldByte_eq_self (no_capital_of_mem capital member)
    rw [toLower_eq_self capital, List.map_congr_left kept, List.map_id']

theorem encode_lowercase (text : String)
    : encode (lowercase text) = (encode text).map foldByte := by
  rw [encode_eq_flatMap, encode_eq_flatMap, lowercase, String.toList_ofList, foldCase,
    List.flatMap_map, List.map_flatMap]
  exact List.flatMap_congr fun c _ => utf8EncodeChar_toLower c

/-- Texts are the same in lower case if their bytes are. -/
theorem map_foldByte_eq_iff {text other : String}
    : (encode text).map foldByte = (encode other).map foldByte
      ↔ lowercase text = lowercase other := by
  rw [← encode_lowercase, ← encode_lowercase]
  exact ⟨encode_injective, congrArg encode⟩

end CivilTime.Text
