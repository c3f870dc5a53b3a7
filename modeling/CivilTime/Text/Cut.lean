/-! Texts are cut at their first separator.
A separator is one character or a mark of two different characters, such as `>=` or `%s`, so
occurrences of a mark never overlap.
-/

namespace CivilTime.Text

/-- The parts before and after the first character that satisfies `isSeparator`. -/
def cutAt? (isSeparator : Char → Bool) (text : List Char) : Option (List Char × List Char) :=
  match text.dropWhile (fun c => !isSeparator c) with
  | [] => none
  | _ :: after => some (text.takeWhile (fun c => !isSeparator c), after)

/-- The parts before and after the first occurrence of the mark `a b`. -/
def cutAtMark? (a b : Char) : List Char → Option (List Char × List Char)
  | x :: y :: rest =>
    if x = a ∧ y = b then some ([], rest)
    else (cutAtMark? a b (y :: rest)).map fun (before, after) => (x :: before, after)
  | _ => none

/-- Whether the mark `a b` occurs. -/
def hasMark (a b : Char) (text : List Char) : Bool := (cutAtMark? a b text).isSome

/-- The text with every occurrence of the mark `a b` replaced. -/
def replaceMark (a b : Char) (replacement : List Char) : List Char → List Char
  | x :: y :: rest =>
    if x = a ∧ y = b then replacement ++ replaceMark a b replacement rest
    else x :: replaceMark a b replacement (y :: rest)
  | rest => rest

/-- The text without a leading `mark`, and whether it had one. -/
def stripLeading (mark : Char) : List Char → Bool × List Char
  | c :: rest => if c = mark then (true, rest) else (false, c :: rest)
  | [] => (false, [])

end CivilTime.Text
