/-! Text from bytes that may be malformed.
Each longest beginning of a character that the next byte cannot continue is read as one
replacement character, as is each byte that begins no character.
-/

namespace CivilTime.Text

/-- The character shown where bytes do not encode one. -/
def replacementChar : Char := '\ufffd'

/-- The bytes that may follow the first byte of a character of several bytes: the bounds of the
second byte and how many more follow it. -/
def leadByte? (b : UInt8) : Option (UInt8 × UInt8 × Nat) :=
  if 0xc2 ≤ b && b ≤ 0xdf then some (0x80, 0xbf, 0)
  else if b == 0xe0 then some (0xa0, 0xbf, 1)
  else if b == 0xed then some (0x80, 0x9f, 1)
  else if 0xe1 ≤ b && b ≤ 0xef then some (0x80, 0xbf, 1)
  else if b == 0xf0 then some (0x90, 0xbf, 2)
  else if 0xf1 ≤ b && b ≤ 0xf3 then some (0x80, 0xbf, 2)
  else if b == 0xf4 then some (0x80, 0x8f, 2)
  else none

/-- The value bits of the first byte of a character with `more` bytes after the second. -/
def leadBits (b : UInt8) (more : Nat) : Nat := b.toNat % (32 >>> more)

/-- What is still missing of the character being read. -/
structure PendingChar where
  bits : Nat
  low : UInt8
  high : UInt8
  more : Nat

/-- Reads the rest of the bytes, given the character that has been begun. -/
def decodeLossyFrom (pending : Option PendingChar) : List UInt8 → List Char
  | [] => if pending.isSome then [replacementChar] else []
  | b :: rest =>
    let start (broken : List Char) : List Char :=
      if b < 0x80 then broken ++ Char.ofNat b.toNat :: decodeLossyFrom none rest
      else
        match leadByte? b with
        | some (low, high, more) =>
          broken ++ decodeLossyFrom (some ⟨leadBits b more, low, high, more⟩) rest
        | none => broken ++ replacementChar :: decodeLossyFrom none rest
    match pending with
    | none => start []
    | some p =>
      if p.low ≤ b && b ≤ p.high then
        let bits := p.bits * 64 + b.toNat % 64
        match p.more with
        | 0 => Char.ofNat bits :: decodeLossyFrom none rest
        | more + 1 => decodeLossyFrom (some ⟨bits, 0x80, 0xbf, more⟩) rest
      else start [replacementChar]

/-- The text of the bytes, with replacement characters for what is malformed. -/
def decodeLossy (bytes : List UInt8) : String := String.ofList (decodeLossyFrom none bytes)

/-- The text of well formed bytes. -/
def decode? (bytes : List UInt8) : Option String := String.fromUTF8? ⟨bytes.toArray⟩

/-- The bytes of a text. -/
def encode (text : String) : List UInt8 := text.toUTF8.toList

end CivilTime.Text
