import CivilTime.Table
import CivilTime.Text.Ascii
import CivilTime.Text.Utf8

/-! Lookups of names by the bytes that spell them.
The names of an atlas are looked up by keys in lower case. An atlas can be made with any lookup that
finds its keys without regard to the case of ASCII letters.
-/

namespace CivilTime

/-- Finds the position of the name that bytes spell. -/
abbrev NameLookup := List UInt8 → Option Nat

namespace NameLookup

/-- Makes a lookup of keys in order, each with the position of its name. It may refuse the keys. -/
abbrev Builder := Table Nat → Option NameLookup

/-- The keys of names, which are the names in lower case. The last one of the names with the same
key is the one that has it.
-/
def keysOf (names : List String) : Table Nat :=
  Table.sorted (names.zipIdx.map fun (name, position) => (Text.lowercase name, position))

/-- Whether every character of a name is ASCII. -/
def isAscii (name : String) : Bool := name.toList.all (·.toNat < 128)

/-- Tries one key of ASCII letters after the other. -/
def ascii : Builder := fun keys =>
  if keys.names.all isAscii then
    some fun bytes =>
      (keys.find? fun entry => Text.encode entry.1 == bytes.map Text.foldByte).map Prod.snd
  else none

end NameLookup

end CivilTime
