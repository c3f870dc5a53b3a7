import CivilTime.Rule.Stream

/-! The state of a rule set where a line of a zone starts.
The changes are followed from the beginning of time. A change that the clocks of the previous line
put at the start has already happened, even where the new line's clocks put it later.
-/

namespace CivilTime

/-- The saved time and the letters in effect. -/
structure RuleState where
  savings : Int
  letter : Option String
  deriving DecidableEq, Repr, Inhabited

/-- The offsets in force at the end of a line. -/
structure LineOffsets where
  stdOffset : Int
  savings : Int
  deriving DecidableEq, Repr, Inhabited

/-- The state that a change leads to. -/
def Transition.state (t : Transition) : RuleState := { savings := t.savings, letter := t.letter }

namespace RuleSet

/-- The state before any change. -/
def initialState (rules : RuleSet) : RuleState :=
  { savings := 0, letter := rules.firstStandardLetter? }

/-- Goes on past a change at or before the instant and stops at the first later one. -/
def splitAtInstant (instant : Int) (last : Option Transition) (t : Transition)
    : Except Fault (Stream.Visit (Option Transition) (Option Transition × Transition)) :=
  .ok (if t.instant ≤ instant then .running (some t) else .done (last, t))

/-- The last change at or before an instant and the first one after it, counted from the beginning
of time. -/
def around (rules : RuleSet) (instant stdOffset : Int)
    : Except Fault (Option Transition × Option Transition) := do
  match ← (Stream.after rules beginningOfTime stdOffset 0).visit (splitAtInstant instant) none with
  | .running last => pure (last, none)
  | .done (last, following) => pure (last, some following)

/-- Whether the clocks of the previous line put the next change of a recurrence at the instant. -/
def happenedBefore (r : Recurrence) (instant : Int) (previous : LineOffsets)
    : Except Fault Bool := do
  let next ← r.next (Instant.saturate (instant - 1)) previous.stdOffset previous.savings
  pure (next.any (· ≤ instant))

/-- The state at the start of a line, given the offsets at the end of the line before. -/
def stateAt (rules : RuleSet) (instant stdOffset : Int) (previous : Option LineOffsets)
    : Except Fault RuleState := do
  if instant = beginningOfTime then return rules.initialState
  let (last, following) ← rules.around instant stdOffset
  let settled := (last.map Transition.state).getD rules.initialState
  match previous, following with
  | some offsets, some t =>
    match rules.recurrences[t.index]? with
    | some r => do
      let happened ← happenedBefore r instant offsets
      pure (if happened then t.state else settled)
    | none => pure settled
  | _, _ => pure settled

end RuleSet

end CivilTime
