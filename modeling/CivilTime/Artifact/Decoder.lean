import CivilTime.Artifact.Error
import CivilTime.Artifact.Varint

/-! Decoders take values from the front of a sequence of bytes.
The cursor knows its position and the length of the whole sequence, which errors report.
-/

namespace CivilTime.Artifact

/-- The bytes that are left, their position and the length of the whole. -/
structure Cursor where
  rest : List UInt8
  position : Nat
  size : Nat
  deriving DecidableEq, Repr, Inhabited

/-- The start of a sequence of bytes. -/
def Cursor.ofBytes (bytes : List UInt8) : Cursor :=
  { rest := bytes, position := 0, size := bytes.length }

/-- A reader that moves the cursor or fails. -/
abbrev Decoder (α : Type) := StateT Cursor (Except DecodeError) α

namespace Decoder

/-- Stops with an error. -/
def fail (error : DecodeError) : Decoder α := throw error

/-- Takes a number of bytes. -/
def take (count : Nat) : Decoder (List UInt8) := do
  let c ← get
  if c.position + count ≤ c.size then
    set { c with rest := c.rest.drop count, position := c.position + count }
    pure (c.rest.take count)
  else fail (.unexpectedEnd c.size)

/-- Takes one byte. -/
def byte : Decoder Nat := do
  let c ← get
  match c.rest with
  | [] => fail (.unexpectedEnd c.size)
  | b :: rest => do
    set { c with rest, position := c.position + 1 }
    pure b.toNat

/-- Takes a number. -/
def varint : Decoder Nat := do
  let c ← get
  match readVarint c.rest with
  | .ended => fail (.unexpectedEnd c.size)
  | .overflow => fail (.varintOverflow c.position)
  | .number value size rest => do
    set { c with rest, position := c.position + size }
    pure value

/-- Takes a signed number. -/
def signed : Decoder Int := unfoldSign <$> varint

/-- Takes `count` values, in front of which the values of `taken` have been taken, the last one
first. -/
def takeMany (decoder : Decoder α) (taken : List α) : Nat → Decoder (List α)
  | 0 => pure taken.reverse
  | count + 1 => do
    let value ← decoder
    takeMany decoder (value :: taken) count

/-- Takes a number of values. -/
def many (count : Nat) (decoder : Decoder α) : Decoder (List α) := takeMany decoder [] count

/-- The first value that a decoder takes from the bytes. -/
def decode (decoder : Decoder α) (bytes : List UInt8) : Except DecodeError α :=
  (decoder.run (.ofBytes bytes)).map Prod.fst

end Decoder

end CivilTime.Artifact
