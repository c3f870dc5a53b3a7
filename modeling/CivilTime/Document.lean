/-! Structured documents and their JSON text. -/

namespace CivilTime

inductive Document where
  | null
  | integer (n : Int)
  | text (s : String)
  | list (items : List Document)
  | record (fields : List (String × Document))
  deriving Repr, Inhabited

namespace Document

/-- The text of an optional value. -/
def ofOption (encode : α → Document) : Option α → Document
  | some value => encode value
  | none => null

/-- A record with one field, which names a variant. -/
def variant (name : String) (value : Document) : Document := record [(name, value)]

/-- A natural number. -/
def natural (n : Nat) : Document := integer n

/-- A digit of a hexadecimal number. -/
def hexDigit (n : Nat) : Char := if n < 10 then Char.ofNat (48 + n) else Char.ofNat (87 + n)

/-- A character in a quoted text. -/
def quoteChar (c : Char) : List Char :=
  match c with
  | '"' => ['\\', '"']
  | '\\' => ['\\', '\\']
  | '\n' => ['\\', 'n']
  | '\r' => ['\\', 'r']
  | '\t' => ['\\', 't']
  | '\x08' => ['\\', 'b']
  | '\x0c' => ['\\', 'f']
  | c =>
    if c.toNat < 32 then
      ['\\', 'u', '0', '0', hexDigit (c.toNat / 16), hexDigit (c.toNat % 16)]
    else [c]

/-- A quoted text. -/
def quote (s : String) : String := "\"" ++ String.ofList (s.toList.flatMap quoteChar) ++ "\""

/-- The start of a line at a depth of nesting. -/
def indent (depth : Nat) : String := "\n" ++ String.ofList (List.replicate (2 * depth) ' ')

mutual

/-- The JSON text of a document at a depth of nesting, with a line for each item and field. -/
def prettyAt (depth : Nat) : Document → String
  | null => "null"
  | integer n => toString n
  | text s => quote s
  | list [] => "[]"
  | list (item :: rest) =>
    "[" ++ indent (depth + 1) ++ prettyAt (depth + 1) item ++ prettyItems (depth + 1) rest ++
      indent depth ++ "]"
  | record [] => "\x7b\x7d"
  | record ((name, value) :: rest) =>
    "\x7b" ++ indent (depth + 1) ++ quote name ++ ": " ++ prettyAt (depth + 1) value ++
      prettyFields (depth + 1) rest ++ indent depth ++ "\x7d"

/-- The JSON text of the items behind the first one. -/
def prettyItems (depth : Nat) : List Document → String
  | [] => ""
  | item :: rest => "," ++ indent depth ++ prettyAt depth item ++ prettyItems depth rest

/-- The JSON text of the fields behind the first one. -/
def prettyFields (depth : Nat) : List (String × Document) → String
  | [] => ""
  | (name, value) :: rest =>
    "," ++ indent depth ++ quote name ++ ": " ++ prettyAt depth value ++ prettyFields depth rest

end

/-- The JSON text of a document. -/
def pretty (d : Document) : String := prettyAt 0 d

end Document

end CivilTime
