/-! Tables from names to values.
A table is a list of pairs whose order is part of its meaning: the order of definition for the
records of a source, the order of the names for an index.
-/

namespace CivilTime

/-- Named values in a fixed order. -/
abbrev Table (α : Type u) := List (String × α)

namespace Table

/-- The value of the first entry with the name. -/
def get? (table : Table α) (name : String) : Option α := List.lookup name table

/-- Whether an entry has the name. -/
def contains (table : Table α) (name : String) : Bool := (table.get? name).isSome

/-- The names in order. -/
def names (table : Table α) : List String := table.map Prod.fst

/-- Changes the value of a name in place, or appends the name with the value that `change` gives
for a missing one. -/
def alter (name : String) (change : Option α → α) : Table α → Table α
  | [] => [(name, change none)]
  | (other, value) :: rest =>
    if other = name then (other, change (some value)) :: rest
    else (other, value) :: alter name change rest

/-- Sets the value of a name in a table ordered by name, keeping the order. Names are ordered by
code point, which is the order of their UTF-8 bytes. -/
def insertSorted (name : String) (value : α) : Table α → Table α
  | [] => [(name, value)]
  | (other, old) :: rest =>
    if name < other then (name, value) :: (other, old) :: rest
    else if other = name then (name, value) :: rest
    else (other, old) :: insertSorted name value rest

/-- The entries in the order of their names, the last value of a name being kept. -/
def sorted (table : Table α) : Table α :=
  table.foldl (fun result (name, value) => insertSorted name value result) []

end Table

end CivilTime
