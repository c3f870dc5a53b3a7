import CivilTime.Table
import CivilTime.Zone.Compiled

/-! Zones that several names share.
A token tells whether two names share one zone or hold two equal ones.
-/

namespace CivilTime

structure SharedZone where
  token : Nat
  zone : CompiledZone
  deriving DecidableEq, Repr, Inhabited

/-- Names in order, each with the zone it stands for. -/
abbrev ZoneIndex := Table SharedZone

/-- Each name whose zone has been met under an earlier name, with the first such name. -/
def ZoneIndex.repeated (index : ZoneIndex) : List (String × String) :=
  (go [] index).reverse
where
  /-- Goes on behind names whose tokens are in `seen`. -/
  go (seen : List (Nat × String)) : ZoneIndex → List (String × String)
    | [] => []
    | (name, shared) :: rest =>
      match seen.lookup shared.token with
      | some first => go seen rest ++ [(name, first)]
      | none => go ((shared.token, name) :: seen) rest

end CivilTime
