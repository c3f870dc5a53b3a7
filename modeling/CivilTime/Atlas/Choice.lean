/-! The words by which a query chooses among answers. -/

namespace CivilTime

/-- The side of an instant on which a boundary is looked for. -/
inductive Direction where
  | next
  | previous
  deriving DecidableEq, Repr, Inhabited

namespace Direction

/-- The word for a direction. -/
def text : Direction → String
  | next => "next"
  | previous => "previous"

/-- The direction of a word. -/
def parse? : String → Option Direction
  | "next" => some next
  | "previous" => some previous
  | _ => none

/-- What is said of a word that names no direction. -/
def parseMessage : String := "provided string was not a valid direction."

end Direction

/-- How a reading of the clock that is skipped or shown twice becomes one instant. -/
inductive Disambiguation where
  /-- The later side of a gap and the earlier one of an overlap. -/
  | compatible
  | earlier
  | later
  /-- Neither side, which is an error. -/
  | reject
  deriving DecidableEq, Repr

namespace Disambiguation

instance : Inhabited Disambiguation := ⟨compatible⟩

/-- The word for a choice. -/
def text : Disambiguation → String
  | compatible => "compatible"
  | earlier => "earlier"
  | later => "later"
  | reject => "reject"

/-- The choice of a word. -/
def parse? : String → Option Disambiguation
  | "compatible" => some compatible
  | "earlier" => some earlier
  | "later" => some later
  | "reject" => some reject
  | _ => none

/-- What is said of a word that names no choice. -/
def parseMessage : String := "provided string was not a valid disambiguation."

end Disambiguation

end CivilTime
