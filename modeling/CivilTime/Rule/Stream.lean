import CivilTime.Instant
import CivilTime.Rule.RuleSet

/-! The stream of the changes of a rule set from an instant on.
Each change is computed with the saved time that the change before it has brought. A recurrence is
used at most once for a year, so a stream is finite and its length has a bound that depends on the
number of recurrences only.
-/

namespace CivilTime

/-- The state of a stream between two changes. -/
structure Stream where
  rules : RuleSet
  /-- The instant of the last change, or the start. -/
  cursor : Int
  /-- The exclusive end. -/
  stop : Int
  stdOffset : Int
  /-- The saved time in force at the cursor. -/
  savings : Int
  /-- The year in which each recurrence was last used. -/
  used : List (Option Int)
  finished : Bool
  deriving DecidableEq, Repr, Inhabited

namespace Stream

/-- The changes after `start` and before `stop`. -/
def between (rules : RuleSet) (start stop stdOffset savings : Int) : Stream :=
  { rules
    cursor := start
    stop
    stdOffset
    savings
    used := rules.recurrences.map fun _ => none
    finished := false }

/-- The changes after `start`. -/
def after (rules : RuleSet) (start stdOffset savings : Int) : Stream :=
  between rules start endOfTime stdOffset savings

/-- The stream after a change. -/
def advance (s : Stream) (t : Transition) : Stream :=
  { s with
    cursor := t.instant
    savings := t.savings
    used := s.used.set t.index (some t.year) }

/-- The stream at its end. -/
def finish (s : Stream) : Stream := { s with finished := true }

/-- The next change or the error that ends the stream, and the stream behind it. -/
def next? (s : Stream) : Option (Except Fault Transition) × Stream :=
  if s.finished then (none, s)
  else
    match s.rules.nextAfterYears s.cursor s.stdOffset s.savings s.used with
    | .ok (some t) => if t.instant < s.stop then (some (.ok t), s.advance t) else (none, s.finish)
    | .ok none => (none, s.finish)
    | .error fault => (some (.error fault), s.finish)

/-- More than the number of years that a recurrence can be used in. -/
def yearsPerRecurrence : Nat := 547600

/-- A bound on the changes of the stream, one for every recurrence and supported year. -/
def lengthBound (s : Stream) : Nat := s.rules.recurrences.length * yearsPerRecurrence + 1

/-- What a visit of the changes has come to: a state to go on from, or a result. -/
inductive Visit (σ : Type u) (ρ : Type v) where
  | running (state : σ)
  | done (result : ρ)

/-- Visits at most `limit` changes in order, until one of them yields a result. -/
def visitUpTo (visit : σ → Transition → Except Fault (Visit σ ρ))
    : Nat → Stream → σ → Except Fault (Visit σ ρ)
  | 0, _, state => .ok (.running state)
  | limit + 1, s, state =>
    match s.next? with
    | (none, _) => .ok (.running state)
    | (some (.error fault), _) => .error fault
    | (some (.ok t), rest) =>
      match visit state t with
      | .error fault => .error fault
      | .ok (.done result) => .ok (.done result)
      | .ok (.running state) => visitUpTo visit limit rest state

/-- Visits the changes in order, until one of them yields a result. -/
def visit (visitor : σ → Transition → Except Fault (Visit σ ρ)) (s : Stream) (state : σ)
    : Except Fault (Visit σ ρ) :=
  visitUpTo visitor s.lengthBound s state

/-- The first `limit` items of the stream. -/
def itemsUpTo : Nat → Stream → List (Except Fault Transition)
  | 0, _ => []
  | limit + 1, s =>
    match s.next? with
    | (none, _) => []
    | (some item, rest) => item :: itemsUpTo limit rest

/-- The changes of the stream in order, and the error that ended it, if one did. -/
def items (s : Stream) : List (Except Fault Transition) := itemsUpTo (s.lengthBound + 1) s

end Stream

end CivilTime
