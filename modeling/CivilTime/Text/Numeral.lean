/-! Decimal numerals of bounded integers.
A numeral is an optional sign and at least one ASCII digit. Digits are taken from left to right
and the first failure is reported, so a numeral that leaves its range is refused before a bad
character further on is seen.
-/

namespace CivilTime.Text

/-- Why a text is no numeral of its range. -/
inductive NumeralError where
  | empty
  | invalidDigit
  | tooLarge
  | tooSmall
  deriving DecidableEq, Repr, Inhabited

/-- The wording of the failure. -/
def NumeralError.message : NumeralError → String
  | .empty => "cannot parse integer from empty string"
  | .invalidDigit => "invalid digit found in string"
  | .tooLarge => "number too large to fit in target type"
  | .tooSmall => "number too small to fit in target type"

/-- The integers from `least` to `greatest`. -/
structure NumeralRange where
  least : Int
  greatest : Int
  deriving DecidableEq, Repr

/-- Numbers of eight bits. -/
def NumeralRange.bits8 : NumeralRange := ⟨0, 255⟩

/-- Numbers of sixteen bits. -/
def NumeralRange.bits16 : NumeralRange := ⟨0, 65535⟩

/-- Signed numbers of thirty-two bits. -/
def NumeralRange.signed32 : NumeralRange := ⟨-2147483648, 2147483647⟩

/-- Signed numbers of sixty-four bits. -/
def NumeralRange.signed64 : NumeralRange := ⟨-9223372036854775808, 9223372036854775807⟩

/-- Appends the digits to `value`, downwards for a negative numeral. -/
def readDigits (range : NumeralRange) (negative : Bool) (value : Int)
    : List Char → Except NumeralError Int
  | [] => .ok value
  | c :: rest =>
    if c.isDigit then
      let digit : Int := c.toNat - '0'.toNat
      let next := if negative then value * 10 - digit else value * 10 + digit
      if next < range.least then .error .tooSmall
      else if range.greatest < next then .error .tooLarge
      else readDigits range negative next rest
    else .error .invalidDigit

/-- The number that a numeral of the range writes. A minus sign is no part of a numeral whose
range has no negative numbers. -/
def readNumeral (range : NumeralRange) : List Char → Except NumeralError Int
  | [] => .error .empty
  | ['+'] => .error .invalidDigit
  | ['-'] => .error .invalidDigit
  | '+' :: digits => readDigits range false 0 digits
  | '-' :: digits =>
    if range.least < 0 then readDigits range true 0 digits else .error .invalidDigit
  | digits => readDigits range false 0 digits

/-- The number that a numeral of the range writes, if it is one. -/
def numeral? (range : NumeralRange) (text : List Char) : Option Int :=
  (readNumeral range text).toOption

/-- A decimal numeral of at least two digits. -/
def twoDigits (n : Nat) : String :=
  if n < 10 then "0" ++ toString n else toString n

end CivilTime.Text
