import CivilTime.Text.Ascii

/-! Keywords may be shortened to any unambiguous beginning, in any case.
A keyword spelled out is accepted as soon as it is met, and a second keyword that the text
abbreviates makes the text ambiguous.
-/

namespace CivilTime.Text

/-- Searches the rest of a table, given the value of the one keyword abbreviated so far. -/
def matchKeyword (text : List Char) (found : Option α) : List (String × α) → Option α
  | [] => found
  | (keyword, value) :: rest =>
    if sameIgnoringCase keyword.toList text then some value
    else if abbreviates text keyword.toList then
      match found with
      | some _ => none
      | none => matchKeyword text (some value) rest
    else matchKeyword text found rest

/-- The value of the keyword that a text spells or abbreviates, the empty text standing for none. -/
def keyword? (table : List (String × α)) (text : String) : Option α :=
  if text.isEmpty then none else matchKeyword text.toList none table

end CivilTime.Text
