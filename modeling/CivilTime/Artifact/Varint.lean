/-! Integers of variable length.
A number is written in groups of seven bits, the least significant first, and every byte but the
last has its high bit set. A signed number is folded into a natural one, so that small magnitudes
of either sign stay short. Numbers have at most sixty-four bits.
-/

namespace CivilTime.Artifact

/-- The bytes of a number. -/
def writeVarint (n : Nat) : List UInt8 :=
  if n < 128 then [n.toUInt8] else (n % 128 + 128).toUInt8 :: writeVarint (n / 128)
termination_by n
decreasing_by omega

/-- The natural number that stands for a signed one. -/
def foldSign (n : Int) : Nat := if n < 0 then 2 * (-n).toNat - 1 else 2 * n.toNat

/-- The signed number that a natural one stands for. -/
def unfoldSign (n : Nat) : Int := if n % 2 = 0 then (n / 2 : Nat) else -(n / 2 : Nat) - 1

/-- The bytes of a signed number. -/
def writeSigned (n : Int) : List UInt8 := writeVarint (foldSign n)

/-- What reading a number comes to. -/
inductive VarintResult where
  /-- The number, the count of its bytes and the bytes behind it. -/
  | number (value size : Nat) (rest : List UInt8)
  /-- The bytes end inside the number. -/
  | ended
  /-- The number has more than sixty-four bits. -/
  | overflow
  deriving DecidableEq, Repr

/-- Reads the groups behind the first `groups` ones, whose sum is `value`. The tenth group has
room for one bit, and there is no eleventh one. -/
def readGroups (groups value : Nat) : List UInt8 → VarintResult
  | [] => .ended
  | b :: rest =>
    let bits := b.toNat % 128
    if 9 < groups ∨ (groups = 9 ∧ 1 < bits) then .overflow
    else
      let value := value + bits <<< (7 * groups)
      if b.toNat < 128 then .number value (groups + 1) rest
      else readGroups (groups + 1) value rest

/-- Reads a number from the front of the bytes. -/
def readVarint (bytes : List UInt8) : VarintResult := readGroups 0 0 bytes

end CivilTime.Artifact
