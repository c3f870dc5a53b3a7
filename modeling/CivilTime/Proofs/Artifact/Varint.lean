import CivilTime.Artifact.Varint
import CivilTime.Instant
import Mathlib.Algebra.GroupWithZero.Nat

/-! Numbers of at most sixty-four bits are read as they are written.
The groups of a number are its digits to the base 128, so what is read of the first groups and what
the remaining ones stand for always add up to the number.
-/

namespace CivilTime

/-- An instant that is a signed number of sixty-four bits. Amounts of seconds have the same range.
-/
def Instant.Representable (t : Int) : Prop := beginningOfTime ≤ t ∧ t ≤ endOfTime

instance (t : Int) : Decidable (Instant.Representable t) := inferInstanceAs (Decidable (_ ∧ _))

/-- A representable instant is the one that agrees with itself. -/
theorem Instant.wrap_eq {t : Int} (representable : Representable t) : wrap t = t := by
  obtain ⟨low, high⟩ := representable
  unfold wrap beginningOfTime endOfTime at *
  rw [Int.bmod_def]
  omega

/-- A wrapped difference leads back to a representable instant. -/
theorem Instant.wrap_add_wrap {base t : Int} (representable : Representable t)
    : wrap (base + wrap (t - base)) = t := by
  unfold wrap
  rw [Int.add_bmod_bmod, show base + (t - base) = t by omega]
  exact wrap_eq representable

/-- A wrapped instant is representable. -/
theorem Instant.representable_wrap (t : Int) : Representable (wrap t) := by
  have low := Int.le_bmod (x := t) (m := 18446744073709551616) (by decide)
  have high := Int.bmod_lt (x := t) (m := 18446744073709551616) (by decide)
  unfold Representable wrap beginningOfTime endOfTime
  omega

namespace Artifact

variable {n groups value : Nat}

/-- A number takes at least one byte. -/
theorem writeVarint_length_pos (n : Nat) : 0 < (writeVarint n).length := by
  unfold writeVarint
  split <;> simp

/-- A group takes seven bits. -/
theorem two_pow_groups_succ (groups : Nat)
    : 2 ^ (7 * (groups + 1)) = 128 * 2 ^ (7 * groups) := by
  rw [show 7 * (groups + 1) = 7 * groups + 7 from rfl, Nat.pow_add, Nat.mul_comm]

/-- What is left of a number of sixty-four bits behind a group that is not the last one fits behind
the group. The tenth group is always the last one. -/
theorem next_group_fits (le : groups ≤ 9) (fits : n * 2 ^ (7 * groups) < 2 ^ 64)
    (more : ¬ n < 128)
    : groups + 1 ≤ 9 ∧ n / 128 * 2 ^ (7 * (groups + 1)) < 2 ^ 64 := by
  have shift := two_pow_groups_succ groups
  have smaller : n / 128 * (128 * 2 ^ (7 * groups)) ≤ n * 2 ^ (7 * groups) := by
    rw [← Nat.mul_assoc]
    exact Nat.mul_le_mul_right _ (Nat.div_mul_le_self n 128)
  refine ⟨?_, by rw [shift]; omega⟩
  rcases Nat.lt_or_ge groups 9 with lt | ge
  · exact lt
  · obtain rfl : groups = 9 := by omega
    have large : 128 * 2 ^ (7 * 9) ≤ n * 2 ^ (7 * 9) :=
      Nat.mul_le_mul_right _ (Nat.not_lt.mp more)
    omega

/-- The groups of a number are read behind earlier ones, by induction on the number. -/
theorem readGroups_writeVarint (le : groups ≤ 9) (fits : n * 2 ^ (7 * groups) < 2 ^ 64)
    (rest : List UInt8)
    : readGroups groups value (writeVarint n ++ rest)
      = .number (value + n * 2 ^ (7 * groups)) (groups + (writeVarint n).length) rest := by
  induction n using Nat.strongRecOn generalizing groups value with
  | ind n ih =>
      have in_tenth : ¬ (9 < groups ∨ (groups = 9 ∧ 1 < n % 128)) := by
        rintro (above | ⟨rfl, above⟩)
        · omega
        · have bound : n < 2 := by omega
          omega
      unfold writeVarint
      split
      case isTrue last =>
        have byte : n.toUInt8.toNat = n := by
          rw [Nat.toUInt8, UInt8.toNat_ofNat']
          omega
        have bits : n % 128 = n := Nat.mod_eq_of_lt last
        rw [bits] at in_tenth
        rw [List.singleton_append, readGroups]
        simp only [byte, in_tenth, if_false, last, if_true, bits, Nat.shiftLeft_eq,
          List.length_singleton]
      case isFalse more =>
        have byte : (n % 128 + 128).toUInt8.toNat = n % 128 + 128 := by
          rw [Nat.toUInt8, UInt8.toNat_ofNat']
          omega
        have bits : (n % 128 + 128) % 128 = n % 128 := by omega
        have continued : ¬ n % 128 + 128 < 128 := by omega
        obtain ⟨next_le, next_fits⟩ := next_group_fits le fits more
        have shift := two_pow_groups_succ groups
        have digits : n % 128 * 2 ^ (7 * groups) + n / 128 * (128 * 2 ^ (7 * groups))
            = n * 2 ^ (7 * groups) := by
          rw [← Nat.mul_assoc, ← Nat.add_mul, Nat.mod_add_div']
        rw [List.cons_append, readGroups]
        simp only [byte, bits, in_tenth, if_false, continued, Nat.shiftLeft_eq, List.length_cons]
        rw [ih (n / 128) (by omega) next_le next_fits, shift, Nat.add_assoc value, digits]
        congr 1
        omega

/-- A number of sixty-four bits is read as it is written. -/
theorem readVarint_writeVarint (fits : n < 2 ^ 64) (rest : List UInt8)
    : readVarint (writeVarint n ++ rest) = .number n (writeVarint n).length rest := by
  rw [readVarint, readGroups_writeVarint (Nat.zero_le 9) (by simpa using fits)]
  simp

/-- A number that is read takes the bytes up to its last group. It is read whatever follows them,
and does not end in front of the last one. The induction is on the bytes. -/
theorem readGroups_number {bytes rest : List UInt8} {size : Nat}
    (read : readGroups groups value bytes = .number n size rest)
    : ∃ front,
        bytes = front ++ rest
        ∧ size = groups + front.length
        ∧ (∀ suffix, readGroups groups value (front ++ suffix) = .number n size suffix)
        ∧ ∀ part, part <+: front → part ≠ front → readGroups groups value part = .ended := by
  induction bytes generalizing groups value with
  | nil => cases read
  | cons b bytes ih =>
      rw [readGroups] at read
      split at read
      case isTrue => cases read
      case isFalse fits =>
        split at read
        case isTrue last =>
          obtain ⟨rfl, rfl, rfl⟩ := VarintResult.number.inj read
          refine ⟨[b], rfl, rfl, fun suffix => ?_, fun part begins shorter => ?_⟩
          · rw [List.singleton_append, readGroups, if_neg fits, if_pos last]
          · obtain rfl : part = [] := by
              rcases List.prefix_cons_iff.mp begins with none_left | ⟨others, rfl, nothing⟩
              · exact none_left
              · exact absurd (congrArg _ (List.prefix_nil.mp nothing)) shorter
            rfl
        case isFalse more =>
          obtain ⟨front, rfl, rfl, onward, ended⟩ := ih read
          refine ⟨b :: front, rfl, ?_, fun suffix => ?_, fun part begins shorter => ?_⟩
          · rw [List.length_cons]
            omega
          · rw [List.cons_append, readGroups, if_neg fits, if_neg more, onward]
          · rcases List.prefix_cons_iff.mp begins with rfl | ⟨others, rfl, later⟩
            · rfl
            · rw [readGroups, if_neg fits, if_neg more]
              exact ended others later fun same => shorter (congrArg _ same)

/-- A number stays below the bound of its groups when a group is added to it. -/
theorem add_group_lt (below : value < 2 ^ (7 * groups)) (bits : n < 128)
    : value + n * 2 ^ (7 * groups) < 2 ^ (7 * (groups + 1)) := by
  have shift := two_pow_groups_succ groups
  have grown : (n + 1) * 2 ^ (7 * groups) ≤ 128 * 2 ^ (7 * groups) := Nat.mul_le_mul_right _ bits
  rw [Nat.add_mul] at grown
  omega

/-- What is read of groups behind earlier ones has at most sixty-four bits. The induction is on the
bytes, and the groups so far bound the number. -/
theorem readGroups_lt {bytes rest : List UInt8} {size : Nat} (below : value < 2 ^ (7 * groups))
    (read : readGroups groups value bytes = .number n size rest)
    : n < 2 ^ 64 := by
  induction bytes generalizing groups value with
  | nil => cases read
  | cons b bytes ih =>
      have next_below := add_group_lt below (Nat.mod_lt b.toNat (by decide))
      rw [readGroups] at read
      split at read
      case isTrue => cases read
      case isFalse fits =>
        rw [Nat.shiftLeft_eq] at read
        split at read
        case isFalse => exact ih next_below read
        case isTrue =>
          obtain rfl := (VarintResult.number.inj read).1
          rcases Nat.lt_or_ge groups 9 with lt | ge
          · have bits : 2 ^ (7 * (groups + 1)) ≤ 2 ^ 63 :=
              Nat.pow_le_pow_right (by decide) (by omega)
            omega
          · obtain rfl : groups = 9 := by omega
            omega

/-- Every number that is read has at most sixty-four bits. -/
theorem readVarint_lt {bytes rest : List UInt8} {size : Nat}
    (read : readVarint bytes = .number n size rest)
    : n < 2 ^ 64 :=
  readGroups_lt (by decide) read

/-- The signed number that one of sixty-four bits stands for has as many bits. -/
theorem representable_unfoldSign (fits : n < 2 ^ 64) : Instant.Representable (unfoldSign n) := by
  unfold Instant.Representable unfoldSign beginningOfTime endOfTime
  split <;> omega

/-- The natural number that stands for a signed one of sixty-four bits has as many bits. -/
theorem foldSign_lt {n : Int} (representable : Instant.Representable n) : foldSign n < 2 ^ 64 := by
  unfold Instant.Representable beginningOfTime endOfTime at representable
  unfold foldSign
  split <;> omega

/-- A signed number is what the number that stands for it stands for. -/
theorem unfoldSign_foldSign (n : Int) : unfoldSign (foldSign n) = n := by
  unfold unfoldSign foldSign
  split <;> split <;> omega

end Artifact

end CivilTime
