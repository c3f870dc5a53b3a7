/-! Comparison of texts that ignores the case of ASCII letters.
All other characters are compared exactly, since the identifiers and keywords that are matched
this way are ASCII.
-/

namespace CivilTime.Text

/-- The characters of a text with ASCII capitals made small. -/
def foldCase (text : List Char) : List Char := text.map Char.toLower

/-- A text with ASCII capitals made small. -/
def lowercase (text : String) : String := String.ofList (foldCase text.toList)

/-- A byte with an ASCII capital made small. -/
def foldByte (b : UInt8) : UInt8 := if 0x41 ≤ b && b ≤ 0x5a then b + 0x20 else b

/-- Equality that ignores the case of ASCII letters. -/
def sameIgnoringCase (a b : List Char) : Bool := foldCase a == foldCase b

/-- Whether `short` begins `long`, ignoring the case of ASCII letters. -/
def abbreviates (short long : List Char) : Bool := (foldCase short).isPrefixOf (foldCase long)

/-- An ASCII letter at the start of the text. -/
def startsWithLetter : List Char → Bool
  | c :: _ => c.isAlpha
  | [] => false

/-- An ASCII digit at the start of the text. -/
def startsWithDigit : List Char → Bool
  | c :: _ => c.isDigit
  | [] => false

end CivilTime.Text
