/-! Options of a build. -/

namespace CivilTime.Build

structure Options where
  /-- Whether zones may be compiled at the same time. They do not depend on each other, so the
  outcome of a build is the same either way. -/
  parallel : Bool
  /-- The names to build, absent for all. An alias stands for the zone it leads to. -/
  requested : Option (List String)
  deriving DecidableEq, Repr

namespace Options

/-- All names, compiled at the same time. -/
def standard : Options := { parallel := true, requested := none }

instance : Inhabited Options := ⟨standard⟩

/-- Whether a name is requested, by itself or because every name is. -/
def selects (options : Options) (name : String) : Bool :=
  match options.requested with
  | none => true
  | some names => names.contains name

end Options

end CivilTime.Build
