import CivilTime.Rule.Recurrence

/-! A rule set merges the changes of its recurrences into one sequence.
The next change is the least candidate over all recurrences, and two recurrences that share the
least instant make the set malformed.
-/

namespace CivilTime

structure RuleSet where
  name : String
  recurrences : List Recurrence
  deriving DecidableEq, Repr, Inhabited

/-- A change of a rule set. -/
structure Transition where
  instant : Int
  /-- The year of the recurrence that the change belongs to. -/
  year : Int
  savings : Int
  letter : Option String
  /-- The position of the recurrence in its rule set. -/
  index : Nat
  deriving DecidableEq, Repr, Inhabited

/-- The abbreviation in effect after a change. -/
def Transition.name (t : Transition) (format : NameFormat) (stdOffset : Int)
    : Except Fault String :=
  format.apply stdOffset t.savings t.letter

namespace RuleSet

/-- A rule set without recurrences. -/
def empty (name : String) : RuleSet := { name, recurrences := [] }

/-- Adds a recurrence at the end. -/
def push (rules : RuleSet) (r : Recurrence) : RuleSet :=
  { rules with recurrences := rules.recurrences ++ [r] }

/-- Adds the recurrences of another set at the end. -/
def append (rules other : RuleSet) : RuleSet :=
  { rules with recurrences := rules.recurrences ++ other.recurrences }

/-- The recurrences that apply to a year. -/
def activeIn (rules : RuleSet) (year : Int) : List Recurrence :=
  rules.recurrences.filter (·.isActiveIn year)

/-- The recurrences that go on forever. -/
def unbounded (rules : RuleSet) : List Recurrence := rules.recurrences.filter (·.isUnbounded)

/-- The greatest year that bounds a recurrence on either side. -/
def lastBoundedYear? (rules : RuleSet) : Option Int :=
  (rules.recurrences.flatMap fun r => [r.first.year?, r.last.year?].reduceOption).max?

/-- Whether the recurrences that go on forever lead to more than one state. -/
def hasAlternatingTail (rules : RuleSet) : Bool :=
  match rules.unbounded with
  | [] => false
  | r :: rest => rest.any fun other => other.save != r.save || other.letter != r.letter

/-- The first recurrence of the list with the least first year. -/
def earliest? : List Recurrence → Option Recurrence
  | [] => none
  | r :: rest =>
    match earliest? rest with
    | none => some r
    | some other => if other.first.number < r.first.number then some other else some r

/-- The letters used before any change: those of the earliest recurrence of standard time. -/
def firstStandardLetter? (rules : RuleSet) : Option String :=
  (earliest? (rules.recurrences.filter (·.savings == 0))).bind (·.letter)

/-- The next change that one recurrence offers. -/
structure Candidate where
  instant : Int
  year : Int
  index : Nat
  recurrence : Recurrence
  deriving DecidableEq, Repr, Inhabited

/-- The change that a candidate stands for. -/
def Candidate.transition (c : Candidate) : Transition :=
  { instant := c.instant
    year := c.year
    savings := c.recurrence.savings
    letter := c.recurrence.letter
    index := c.index }

/-- The change that one recurrence offers after an instant. Years up to the one it has last been
used in are not offered again, and a recurrence that ended more than a year ago is not searched. -/
def candidate? (after stdOffset savings : Int) (index : Nat) (r : Recurrence) (used : Option Int)
    : Except Fault (Option Candidate) :=
  if r.endsBefore (Calendar.yearOf after - 1) then .ok none
  else
    let minYear :=
      match used with
      | some year => year + 1
      | none => r.firstYear
    (r.nextFromYear after stdOffset savings minYear).map
      (·.map fun (year, instant) => { instant, year, index, recurrence := r })

/-- The candidates of the recurrences from position `index` on, with the years last used. -/
def candidates (after stdOffset savings : Int)
    : Nat → List Recurrence → List (Option Int) → Except Fault (List Candidate)
  | _, [], _ => .ok []
  | index, r :: rest, used => do
    let candidate ← candidate? after stdOffset savings index r used.head?.join
    let others ← candidates after stdOffset savings (index + 1) rest used.tail
    pure (candidate.toList ++ others)

/-- The least instant of the candidates. -/
def leastInstant? (cs : List Candidate) : Option Int := (cs.map (·.instant)).min?

/-- The candidate with the least instant, which no other candidate may share. -/
def choose (name : String) (cs : List Candidate) : Except Fault (Option Candidate) :=
  match leastInstant? cs with
  | none => .ok none
  | some least =>
    match cs.filter (·.instant == least) with
    | [c] => .ok (some c)
    | _ => .error (.simultaneousTransitions name least)

/-- The first change after an instant, given the year in which each recurrence was last used. -/
def nextAfterYears (rules : RuleSet) (after stdOffset savings : Int) (used : List (Option Int))
    : Except Fault (Option Transition) := do
  let cs ← candidates after stdOffset savings 0 rules.recurrences used
  let chosen ← choose rules.name cs
  pure (chosen.map Candidate.transition)

/-- The first change after an instant. -/
def next (rules : RuleSet) (after stdOffset savings : Int) : Except Fault (Option Transition) :=
  rules.nextAfterYears after stdOffset savings []

end RuleSet

end CivilTime
