import CivilTime.Fault
import CivilTime.Text.Cut

/-! Formats of the abbreviations of a zone.
A format is a fixed name, a template for the letters of a rule or for the offset, or a pair of
names for standard and saved time. Templates are checked when they are applied.
-/

namespace CivilTime

inductive NameFormat where
  /-- A name used as it stands. -/
  | literal (name : String)
  /-- A template in which `%s` stands for the letters of the rule in effect. -/
  | letter (template : String)
  /-- A template in which `%z` stands for the offset from universal time. -/
  | offset (template : String)
  /-- A name for standard time and one for saved time. -/
  | pair (standard saved : String)
  deriving DecidableEq, Repr, Inhabited

namespace NameFormat

/-- The format that a source column writes. A slash at its start separates nothing. -/
def ofSource (source : String) : NameFormat :=
  let text := source.toList
  match Text.cutAt? (· == '/') text with
  | some (c :: standard, saved) => .pair (String.ofList (c :: standard)) (String.ofList saved)
  | _ =>
    if Text.hasMark '%' 's' text then .letter source
    else if Text.hasMark '%' 'z' text then .offset source
    else .literal source

/-- The source column that writes the format. -/
def source : NameFormat → String
  | literal s | letter s | offset s => s
  | pair standard saved => standard ++ "/" ++ saved

/-- Whether what follows each percent sign is the one allowed character. Where none is allowed, a
percent sign may only stand at the very end. -/
def escapesAllowed (allowed : Option Char) : List Char → Bool
  | [] => true
  | '%' :: c :: rest => some c == allowed && escapesAllowed allowed rest
  | ['%'] => allowed.isNone
  | _ :: rest => escapesAllowed allowed rest

/-- The text of an offset: a sign, the hours, and the minutes and seconds that are needed. -/
def offsetText (offset : Int) : String :=
  let amount := offset.natAbs
  let hour := Text.twoDigits (amount / 3600)
  let minute := amount % 3600 / 60
  let second := amount % 60
  (if offset < 0 then "-" else "+") ++ hour ++
    (if 0 < minute || 0 < second then Text.twoDigits minute else "") ++
    (if 0 < second then Text.twoDigits second else "")

/-- Whether the format can be applied. -/
def isApplicable : NameFormat → Bool
  | literal s => !s.isEmpty && escapesAllowed none s.toList
  | letter s => !s.isEmpty && escapesAllowed (some 's') s.toList
  | offset s => !s.isEmpty && escapesAllowed (some 'z') s.toList
  | pair standard saved => !standard.isEmpty && !saved.isEmpty

/-- The abbreviation without a check of the format. Offset and saved time are added as unbounded
numbers. -/
def fill (format : NameFormat) (stdOffset savings : Int) (letter : Option String) : String :=
  match format with
  | .literal s => s
  | .letter s => String.ofList (Text.replaceMark '%' 's' (letter.getD "").toList s.toList)
  | .offset s =>
    String.ofList (Text.replaceMark '%' 'z' (offsetText (stdOffset + savings)).toList s.toList)
  | .pair standard saved => if savings = 0 then standard else saved

/-- The abbreviation for a standard offset, the saved time and the letters in effect. -/
def apply (format : NameFormat) (stdOffset savings : Int) (letter : Option String)
    : Except Fault String :=
  if format.isApplicable then .ok (format.fill stdOffset savings letter)
  else .error (.badNameFormat format.source)

end NameFormat

end CivilTime
