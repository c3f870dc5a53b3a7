import CivilTime.Proofs.Artifact.Decoder

/-! Which bytes write a number, and what becomes of the others.
A number is at most nine bytes that continue it and a last one, as long as its groups sum up to
sixty four bits. Other bytes end while they could still go on to such a number, or have left that
behind, at the eleventh byte at the latest.
-/

namespace CivilTime.Artifact

variable {b : UInt8} {bytes rest : List UInt8} {n groups value size : Nat}

-----------------------------------------------------------------------------------------
-- Numbers in groups
-----------------------------------------------------------------------------------------

/-- A byte behind which the number goes on. -/
def Continues (b : UInt8) : Prop := 128 ≤ b.toNat

instance (b : UInt8) : Decidable (Continues b) := inferInstanceAs (Decidable (_ ≤ _))

/-- The sum of groups of seven bits, the least significant one first. -/
def groupSum : List UInt8 → Nat
  | [] => 0
  | b :: rest => b.toNat % 128 + 128 * groupSum rest

/-- Bytes that write a number of sixty-four bits. -/
structure Grouped (bytes : List UInt8) (n : Nat) : Prop where
  continued
    : ∃ front last,
        bytes = front ++ [last]
        ∧ front.length ≤ 9
        ∧ (∀ b ∈ front, Continues b)
        ∧ ¬ Continues last
  sum : groupSum bytes = n
  fits : n < 2 ^ 64

/-- Bytes that end inside a number, which could still go on to sixty-four bits at most. -/
structure EndsInside (bytes : List UInt8) : Prop where
  continued : ∀ b ∈ bytes, Continues b
  length : bytes.length ≤ 10
  fits : groupSum bytes < 2 ^ 64

/-- The first of further groups is added to the ones in front of it. -/
theorem add_groupSum_cons (b : UInt8) (rest : List UInt8) (groups value : Nat)
    : value + groupSum (b :: rest) * 2 ^ (7 * groups)
      = value + b.toNat % 128 * 2 ^ (7 * groups) + groupSum rest * 2 ^ (7 * (groups + 1)) := by
  have shift := two_pow_groups_succ groups
  have moved
      : 128 * groupSum rest * 2 ^ (7 * groups) = groupSum rest * (128 * 2 ^ (7 * groups)) := by
    rw [Nat.mul_comm 128, Nat.mul_assoc]
  rw [groupSum, Nat.add_mul, shift, moved, Nat.add_assoc]

/-- Only the tenth group can leave sixty-four bits behind, and there is no eleventh one. -/
theorem overflows_iff (below : value < 2 ^ (7 * groups)) (group : n < 128)
    : (9 < groups ∨ (groups = 9 ∧ 1 < n))
      ↔ ¬ (groups ≤ 9 ∧ value + n * 2 ^ (7 * groups) < 2 ^ 64) := by
  rcases Nat.lt_trichotomy groups 9 with early | rfl | late
  · have next_below := add_group_lt below group
    have bits : 2 ^ (7 * (groups + 1)) ≤ 2 ^ 63 := Nat.pow_le_pow_right (by decide) (by omega)
    omega
  · omega
  · omega

/-- One byte is read: where its group fits, it is added, and the number goes on behind it or not. -/
theorem readGroups_cons (below : value < 2 ^ (7 * groups))
    : readGroups groups value (b :: rest)
      = if groups ≤ 9 ∧ value + b.toNat % 128 * 2 ^ (7 * groups) < 2 ^ 64 then
          if Continues b then
            readGroups (groups + 1) (value + b.toNat % 128 * 2 ^ (7 * groups)) rest
          else .number (value + b.toNat % 128 * 2 ^ (7 * groups)) (groups + 1) rest
        else .overflow := by
  have overflows := overflows_iff below (Nat.mod_lt b.toNat (by decide))
  have lasts : b.toNat < 128 ↔ ¬ Continues b := Nat.not_le.symm
  rw [readGroups]
  simp only [overflows, lasts, Nat.shiftLeft_eq, ite_not]

/-- What is read as a number behind earlier groups. The induction is on the bytes. -/
theorem readGroups_eq_number_iff (below : value < 2 ^ (7 * groups))
    : readGroups groups value bytes = .number n size rest
      ↔ ∃ front last,
          bytes = front ++ last :: rest
          ∧ groups + front.length ≤ 9
          ∧ (∀ b ∈ front, Continues b)
          ∧ ¬ Continues last
          ∧ value + groupSum (front ++ [last]) * 2 ^ (7 * groups) = n
          ∧ n < 2 ^ 64
          ∧ size = groups + front.length + 1 := by
  induction bytes generalizing groups value with
  | nil =>
      constructor
      · intro read
        cases read
      · rintro ⟨front, last, split, _⟩
        exact absurd split (by simp)
  | cons b bytes ih =>
      have next_below := add_group_lt below (Nat.mod_lt b.toNat (by decide))
      have sum_ge (others : List UInt8)
          : value + b.toNat % 128 * 2 ^ (7 * groups)
            ≤ value + groupSum (b :: others) * 2 ^ (7 * groups) := by
        rw [add_groupSum_cons]
        exact Nat.le_add_right _ _
      rw [readGroups_cons below]
      constructor
      · intro read
        split at read
        case isFalse => cases read
        case isTrue fits =>
          split at read
          case isTrue more =>
            obtain ⟨front, last, rfl, short, continued, stops, sum, small, size_eq⟩ :=
              (ih next_below).mp read
            refine ⟨b :: front, last, rfl, ?_, ?_, stops, ?_, small, ?_⟩
            · rw [List.length_cons]
              omega
            · exact List.forall_mem_cons.mpr ⟨more, continued⟩
            · rw [List.cons_append, add_groupSum_cons, sum]
            · rw [List.length_cons]
              omega
          case isFalse stops =>
            obtain ⟨rfl, rfl, rfl⟩ := VarintResult.number.inj read
            refine ⟨[], b, rfl, fits.1, by simp, stops, ?_, fits.2, rfl⟩
            rw [List.nil_append, add_groupSum_cons, groupSum, Nat.zero_mul, Nat.add_zero]
      · rintro ⟨front, last, split, short, continued, stops, rfl, small, rfl⟩
        cases front with
        | nil =>
            obtain ⟨rfl, rfl⟩ := List.cons.inj split
            have fits := Nat.lt_of_le_of_lt (sum_ge []) small
            rw [if_pos ⟨short, fits⟩, if_neg stops, List.nil_append, add_groupSum_cons, groupSum,
              Nat.zero_mul, Nat.add_zero]
            rfl
        | cons c front =>
            obtain ⟨rfl, rfl⟩ := List.cons.inj split
            obtain ⟨more, continued⟩ := List.forall_mem_cons.mp continued
            have fits := Nat.lt_of_le_of_lt (sum_ge (front ++ [last])) small
            rw [List.length_cons] at short
            rw [if_pos ⟨by omega, fits⟩, if_pos more]
            apply (ih next_below).mpr
            refine ⟨front, last, rfl, by omega, continued, stops, ?_, small, ?_⟩
            · rw [List.cons_append, add_groupSum_cons]
            · rw [List.length_cons]
              omega

/-- Where the bytes end inside a number behind earlier groups. The induction is on the bytes. -/
theorem readGroups_eq_ended_iff (below : value < 2 ^ (7 * groups)) (le : groups ≤ 10)
    (small : value < 2 ^ 64)
    : readGroups groups value bytes = .ended
      ↔ (∀ b ∈ bytes, Continues b)
        ∧ groups + bytes.length ≤ 10
        ∧ value + groupSum bytes * 2 ^ (7 * groups) < 2 ^ 64 := by
  induction bytes generalizing groups value with
  | nil => simpa [readGroups, groupSum] using ⟨le, small⟩
  | cons b bytes ih =>
      have next_below := add_group_lt below (Nat.mod_lt b.toNat (by decide))
      rw [readGroups_cons below, add_groupSum_cons, List.forall_mem_cons, List.length_cons]
      split
      case isTrue fits =>
        split
        case isTrue more =>
          rw [ih next_below (by omega) fits.2]
          have length_eq : groups + 1 + bytes.length = groups + (bytes.length + 1) := by omega
          rw [length_eq]
          simp only [more, true_and]
        case isFalse stops => simp [stops]
      case isFalse overflows =>
        refine iff_of_false (by simp) ?_
        rintro ⟨_, short, sum⟩
        exact overflows ⟨by omega, by omega⟩

theorem readVarint_eq_number_iff
    : readVarint bytes = .number n size rest
      ↔ ∃ front, Grouped front n ∧ bytes = front ++ rest ∧ size = front.length := by
  rw [readVarint, readGroups_eq_number_iff (by decide)]
  constructor
  · rintro ⟨front, last, rfl, short, continued, stops, sum, fits, rfl⟩
    refine ⟨front ++ [last], ⟨⟨front, last, rfl, by omega, continued, stops⟩, ?_, fits⟩, ?_, ?_⟩
    · simpa using sum
    · simp
    · simp
  · rintro ⟨_, ⟨⟨front, last, rfl, short, continued, stops⟩, sum, fits⟩, rfl, rfl⟩
    refine ⟨front, last, ?_, by omega, continued, stops, ?_, fits, ?_⟩
    · simp
    · simpa using sum
    · simp

theorem readVarint_eq_ended_iff : readVarint bytes = .ended ↔ EndsInside bytes := by
  rw [readVarint, readGroups_eq_ended_iff (by decide) (by decide) (by decide)]
  constructor
  · rintro ⟨continued, length, fits⟩
    exact ⟨continued, by omega, by simpa using fits⟩
  · rintro ⟨continued, length, fits⟩
    exact ⟨continued, by omega, by simpa using fits⟩

theorem readVarint_eq_overflow_iff
    : readVarint bytes = .overflow
      ↔ (∀ front n, front <+: bytes → ¬ Grouped front n) ∧ ¬ EndsInside bytes := by
  rw [← readVarint_eq_ended_iff]
  constructor
  · intro read
    refine ⟨?_, by simp [read]⟩
    rintro front n ⟨rest, rfl⟩ grouped
    have number : readVarint (front ++ rest) = .number n front.length rest :=
      readVarint_eq_number_iff.mpr ⟨front, grouped, rfl, rfl⟩
    rw [read] at number
    cases number
  · rintro ⟨nothing, inside⟩
    cases read : readVarint bytes with
    | overflow => rfl
    | ended => exact absurd read inside
    | number n size rest =>
        obtain ⟨front, grouped, rfl, _⟩ := readVarint_eq_number_iff.mp read
        exact absurd grouped (nothing front n (List.prefix_append _ _))

-----------------------------------------------------------------------------------------
-- The first eleven bytes
-----------------------------------------------------------------------------------------

/-- Bytes that write a number are at most ten. -/
theorem Grouped.length_le (grouped : Grouped bytes n) : bytes.length ≤ 10 := by
  obtain ⟨front, last, rfl, short, _⟩ := grouped.continued
  rw [List.length_append, List.length_singleton]
  omega

/-- What bytes begin with is decided by their first ones. -/
theorem prefix_of_take_eq {front others : List UInt8} {count : Nat}
    (begins : front <+: bytes) (short : front.length ≤ count)
    (same : others.take count = bytes.take count)
    : front <+: others := by
  have inside : front <+: bytes.take count := List.prefix_take_iff.mpr ⟨begins, short⟩
  rw [← same] at inside
  exact inside.trans (List.take_prefix _ _)

/-- Bytes that are fewer than their first ones can be are told by those. -/
theorem eq_of_take_eq {others : List UInt8} {count : Nat} (short : bytes.length < count)
    (same : others.take count = bytes.take count)
    : others = bytes := by
  have lengths := congrArg List.length same
  rw [List.length_take, List.length_take] at lengths
  rwa [List.take_of_length_le (by omega), List.take_of_length_le (by omega)] at same

/-- The value that is read, with the number of its bytes, depends on the first eleven bytes. -/
theorem readVarint_eq_of_take_eq {others : List UInt8} (same : others.take 11 = bytes.take 11)
    : (readVarint bytes = .ended → others = bytes)
      ∧ (readVarint bytes = .overflow → readVarint others = .overflow)
      ∧ ∀ n size rest,
          readVarint bytes = .number n size rest
          → readVarint others = .number n size (others.drop size) := by
  refine ⟨?_, ?_, ?_⟩
  · intro read
    have inside := readVarint_eq_ended_iff.mp read
    exact eq_of_take_eq (Nat.lt_succ_of_le inside.length) same
  · intro read
    obtain ⟨nothing, inside⟩ := readVarint_eq_overflow_iff.mp read
    apply readVarint_eq_overflow_iff.mpr
    constructor
    · intro front n begins grouped
      have back := prefix_of_take_eq begins (Nat.le_succ_of_le grouped.length_le) same.symm
      exact nothing front n back grouped
    · intro other_inside
      have back := eq_of_take_eq (Nat.lt_succ_of_le other_inside.length) same.symm
      exact inside (back ▸ other_inside)
  · intro n size rest read
    obtain ⟨front, grouped, rfl, rfl⟩ := readVarint_eq_number_iff.mp read
    have begins := prefix_of_take_eq (List.prefix_append front rest)
      (Nat.le_succ_of_le grouped.length_le) same
    obtain ⟨others, rfl⟩ := begins
    apply readVarint_eq_number_iff.mpr
    exact ⟨front, grouped, by rw [List.drop_left], rfl⟩

-----------------------------------------------------------------------------------------
-- Signs
-----------------------------------------------------------------------------------------

/-- The sign of a word, in all of its bits. -/
theorem signBits_eq (word : BitVec 64)
    : word.sshiftRight 63 = if word.msb then BitVec.allOnes 64 else 0 := by
  have wide := word.isLt
  have msb_iff := BitVec.msb_eq_decide word
  split
  case isTrue negative =>
    have high : 2 ^ 63 ≤ word.toNat := by simpa [msb_iff] using negative
    have gone : (~~~word) >>> 63 = 0 := by
      apply BitVec.eq_of_toNat_eq
      rw [BitVec.toNat_ushiftRight, BitVec.toNat_not, Nat.shiftRight_eq_div_pow]
      simp
      omega
    rw [BitVec.sshiftRight_eq_of_msb_true negative, gone]
    rfl
  case isFalse positive =>
    have low : word.toNat < 2 ^ 63 := by simpa [msb_iff] using positive
    rw [BitVec.sshiftRight_eq_of_msb_false (by simpa using positive)]
    apply BitVec.eq_of_toNat_eq
    rw [BitVec.toNat_ushiftRight, Nat.shiftRight_eq_div_pow]
    simp
    omega

/-- A signed word is folded by a shift and its sign. -/
theorem foldSign_eq_xor (word : BitVec 64)
    : foldSign word.toInt = ((word <<< 1) ^^^ word.sshiftRight 63).toNat := by
  have wide := word.isLt
  have msb_iff := BitVec.msb_eq_decide word
  rw [signBits_eq, BitVec.toInt_eq_msb_cond, foldSign]
  cases negative : word.msb with
  | true =>
      have high : 2 ^ 63 ≤ word.toNat := by simpa [msb_iff] using negative
      rw [if_pos rfl, if_pos rfl, if_pos (by omega), BitVec.xor_allOnes, BitVec.toNat_not,
        BitVec.toNat_shiftLeft, Nat.shiftLeft_eq]
      omega
  | false =>
      have low : word.toNat < 2 ^ 63 := by simpa [msb_iff] using negative
      rw [if_neg Bool.false_ne_true, if_neg Bool.false_ne_true, if_neg (by omega),
        BitVec.ofNat_eq_ofNat, BitVec.xor_zero, BitVec.toNat_shiftLeft, Nat.shiftLeft_eq]
      omega

/-- A word is unfolded by a shift and its lowest bit. -/
theorem unfoldSign_eq_xor (word : BitVec 64)
    : unfoldSign word.toNat = ((word >>> 1) ^^^ -(word &&& 1)).toInt := by
  have wide := word.isLt
  have low_bit : (word &&& 1).toNat = word.toNat % 2 := by
    rw [BitVec.toNat_and]
    exact Nat.and_one_is_mod _
  have half : (word >>> 1).toNat = word.toNat / 2 := by
    rw [BitVec.toNat_ushiftRight, Nat.shiftRight_eq_div_pow]
  rw [unfoldSign]
  split
  case isTrue even =>
    have clear : word &&& 1 = 0 := BitVec.eq_of_toNat_eq (low_bit.trans even)
    have mask : -(0 : BitVec 64) = 0#64 := by decide
    rw [clear, mask, BitVec.xor_zero, BitVec.toInt_eq_toNat_cond, half, if_pos (by omega)]
  case isFalse odd =>
    have set : word &&& 1 = 1 := BitVec.eq_of_toNat_eq (low_bit.trans (by simp; omega))
    have mask : -(1 : BitVec 64) = BitVec.allOnes 64 := by decide
    rw [set, mask, BitVec.xor_allOnes, BitVec.toInt_eq_toNat_cond, BitVec.toNat_not, half]
    omega

-----------------------------------------------------------------------------------------
-- The decoders
-----------------------------------------------------------------------------------------

namespace Decoder

variable {c left : Cursor}

theorem run_varint (c : Cursor)
    : varint.run c
      = match readVarint c.rest with
        | .ended => .error (.unexpectedEnd c.size)
        | .overflow => .error (.varintOverflow c.position)
        | .number value size rest =>
          .ok (value, { c with rest, position := c.position + size }) := by
  rw [varint, StateT.run_bind, StateT.run_get, pure_bind]
  dsimp only
  cases readVarint c.rest <;> rfl

theorem varint_eq_ok_iff
    : varint.run c = .ok (n, left)
      ↔ ∃ bytes rest, Grouped bytes n ∧ c.rest = bytes ++ rest ∧ left = c.behind bytes rest := by
  rw [run_varint]
  constructor
  · intro taken
    split at taken
    case h_1 => cases taken
    case h_2 => cases taken
    case h_3 value size rest read =>
      obtain ⟨rfl, rfl⟩ := Prod.mk.inj (Except.ok.inj taken)
      obtain ⟨bytes, grouped, rest_eq, rfl⟩ := readVarint_eq_number_iff.mp read
      exact ⟨bytes, rest, grouped, rest_eq, rfl⟩
  · rintro ⟨bytes, rest, grouped, rest_eq, rfl⟩
    have read := readVarint_eq_number_iff.mpr ⟨bytes, grouped, rest_eq, rfl⟩
    rw [read]
    rfl

theorem varint_eq_end_iff
    : varint.run c = .error (.unexpectedEnd c.size) ↔ EndsInside c.rest := by
  rw [run_varint, ← readVarint_eq_ended_iff]
  cases readVarint c.rest <;> simp

theorem varint_eq_overflow_iff
    : varint.run c = .error (.varintOverflow c.position)
      ↔ (∀ bytes n, bytes <+: c.rest → ¬ Grouped bytes n) ∧ ¬ EndsInside c.rest := by
  rw [run_varint, ← readVarint_eq_overflow_iff]
  cases readVarint c.rest <;> simp

/-- At the same place, what is taken and how many bytes it takes depends on eleven bytes. -/
theorem varint_congr {other : Cursor} (consistent : c.Consistent)
    (other_consistent : other.Consistent)
    (place : other.position = c.position) (same : other.rest.take 11 = c.rest.take 11)
    : (varint.run other).map (fun (n, left) => (n, left.position))
      = (varint.run c).map (fun (n, left) => (n, left.position)) := by
  obtain ⟨at_end, overflowing, number⟩ := readVarint_eq_of_take_eq same
  rw [run_varint, run_varint, place]
  cases read : readVarint c.rest with
  | ended =>
      have rest_eq := at_end read
      have size_eq : other.size = c.size := by
        unfold Cursor.Consistent at consistent other_consistent
        rw [← consistent, ← other_consistent, rest_eq, place]
      rw [rest_eq, read, size_eq]
  | overflow => rw [overflowing read]
  | number n size rest =>
      rw [number n size rest read]
      rfl

/-- A number of sixty-four bits and a signed one are taken from the bytes that are written for them,
and a signed one is written by shifts in its own word. From any bytes, a number is taken if they
begin with one, its groups summed up. The bytes are found to end if they end inside of one, and in
all other cases they overflow. The first eleven bytes decide. -/
theorem varint_exact
    : (∀ n, n < 2 ^ 64 → Decodes varint (writeVarint n) n)
      ∧ (∀ n, Instant.Representable n → Decodes signed (writeSigned n) n)
      ∧ (∀ word : BitVec 64,
          foldSign word.toInt = ((word <<< 1) ^^^ word.sshiftRight 63).toNat
          ∧ unfoldSign word.toNat = ((word >>> 1) ^^^ -(word &&& 1)).toInt)
      ∧ ∀ c : Cursor,
          (∀ n left,
            varint.run c = .ok (n, left)
            ↔ ∃ bytes rest,
                Grouped bytes n ∧ c.rest = bytes ++ rest ∧ left = c.behind bytes rest)
          ∧ (varint.run c = .error (.unexpectedEnd c.size) ↔ EndsInside c.rest)
          ∧ (varint.run c = .error (.varintOverflow c.position)
            ↔ (∀ bytes n, bytes <+: c.rest → ¬ Grouped bytes n) ∧ ¬ EndsInside c.rest)
          ∧ ∀ other : Cursor,
              c.Consistent
              → other.Consistent
              → other.position = c.position
              → other.rest.take 11 = c.rest.take 11
              → (varint.run other).map (fun (n, left) => (n, left.position))
                = (varint.run c).map (fun (n, left) => (n, left.position)) := by
  refine ⟨?_, ?_, ?_, ?_⟩
  · intro n fits
    exact decodes_varint fits
  · intro n representable
    exact decodes_signed representable
  · intro word
    exact ⟨foldSign_eq_xor word, unfoldSign_eq_xor word⟩
  · intro c
    refine ⟨fun n left => varint_eq_ok_iff, varint_eq_end_iff, varint_eq_overflow_iff, ?_⟩
    intro other consistent other_consistent place same
    exact varint_congr consistent other_consistent place same

/-- Witness: the least signed number is taken from its ten bytes. A tenth group of two bits
overflows in front of whatever follows the eleventh byte. -/
theorem varint_exact_tenth
    : Decodes signed (writeSigned (-9223372036854775808)) (-9223372036854775808)
      ∧ Decodes varint (writeVarint 300) 300
      ∧ (∀ bytes n,
          bytes <+: List.replicate 9 0xff ++ [0x02, 0x00] → ¬ Grouped bytes n)
      ∧ (varint.run (.ofBytes (List.replicate 9 0xff ++ [0x02, 0x00, 0x07]))).map
            (fun (n, left) => (n, left.position))
        = .error (.varintOverflow 0) := by
  let c := Cursor.ofBytes (List.replicate 9 0xff ++ [0x02, 0x00])
  let longer := Cursor.ofBytes (List.replicate 9 0xff ++ [0x02, 0x00, 0x07])
  obtain ⟨unsigned, negative, _, taken⟩ := varint_exact
  obtain ⟨_, _, overflow_iff, ahead⟩ := taken c
  have overflows : varint.run c = .error (.varintOverflow c.position) := by decide
  obtain ⟨nothing, _⟩ := overflow_iff.mp overflows
  refine ⟨negative _ (by decide), unsigned _ (by decide), nothing, ?_⟩
  have same := ahead longer (Cursor.consistent_ofBytes _) (Cursor.consistent_ofBytes _) rfl
    (by decide)
  rw [overflows] at same
  exact same

end Decoder

end CivilTime.Artifact
