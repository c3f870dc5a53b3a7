import CivilTime.Fault
import CivilTime.Table

/-! Links give a zone further names.
A chain of links is followed as many times as there are links, which no chain without a cycle can
exceed.
-/

namespace CivilTime

structure Link where
  /-- The name that the link leads to. -/
  target : String
  /-- The further name. -/
  name : String
  line : Nat
  deriving DecidableEq, Repr, Inhabited

namespace Link

/-- Follows at most `limit` links from a name, up to a name that is no link. The failure holds the
name that was reached. -/
def follow (links : Table Link) : Nat → String → Except String String
  | 0, name => .error name
  | limit + 1, name =>
    match links.get? name with
    | some link => follow links limit link.target
    | none => .ok name

/-- The name of a zone that an alias leads to. -/
def resolveTarget (links : Table Link) (name : String) : Except Fault String :=
  match links.get? name with
  | none => .error (.unknownZone name name)
  | some link => (follow links links.length link.target).mapError (.unknownZone name)

/-- What `lookup` finds under the name of the zone that an alias leads to. -/
def resolve (links : Table Link) (lookup : String → Option α) (name : String)
    : Except Fault α := do
  let target ← resolveTarget links name
  match lookup target with
  | some value => pure value
  | none => throw (.unknownZone name target)

end Link

end CivilTime
