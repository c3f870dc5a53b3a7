/-! Source text is read as lines of words.
A line ends at a line feed and a word ends at a blank, so a carriage return in front of a line
feed needs no rule of its own: it is a blank.
-/

namespace CivilTime.Text

/-- The characters of the Unicode property `White_Space`. -/
def isBlank (c : Char) : Bool :=
  let n := c.toNat
  (0x9 ≤ n && n ≤ 0xd) || n == 0x20 || n == 0x85 || n == 0xa0 || n == 0x1680 ||
    (0x2000 ≤ n && n ≤ 0x200a) || n == 0x2028 || n == 0x2029 || n == 0x202f || n == 0x205f ||
    n == 0x3000

/-- The maximal runs of characters that are not blank, in order. -/
def words (text : String) : List String :=
  ((text.toList.splitOnP isBlank).filter (fun word => !word.isEmpty)).map String.ofList

/-- The pieces of a text between its line feeds. -/
def lines (text : String) : List String :=
  (text.toList.splitOnP (· == '\n')).map String.ofList

/-- The part of a line in front of its first `#`. -/
def withoutComment (line : String) : String :=
  String.ofList (line.toList.takeWhile (· != '#'))

end CivilTime.Text
