import CivilTime.Proofs.Rule.Enumeration
import Mathlib.Data.List.Nodup
import Mathlib.Data.List.Perm.Subperm

/-! Every stream of changes runs its course: it makes at most one change for each recurrence and
year that a search reaches, and then it ends or fails for good. A loop over the changes needs no
limit, so the one that a visit has is never noticed.
-/

namespace CivilTime

namespace Stream

variable {s last rest : Stream} {changes : List Transition}

-----------------------------------------------------------------------------------------
-- The end of a stream
-----------------------------------------------------------------------------------------

/-- A step that makes no change, because the stream has ended or fails, leaves a stream that makes
nothing and stays as it is. -/
theorem next?_stays {failure : Option Fault} (step : s.next? = (failure.map .error, rest))
    : rest.next? = (none, rest) := by
  have finish_stays : s.finish.next? = (none, s.finish) := by simp [next?, finish]
  cases failure with
  | some fault =>
      obtain ⟨_, _, rfl⟩ := next?_error step
      exact finish_stays
  | none =>
      cases finished : s.finished with
      | true =>
          simp only [next?, finished, if_true, Option.map_none, Prod.mk.injEq, true_and] at step
          subst step
          simp [next?, finished]
      | false =>
          have same : rest = s.finish := by
            simp only [next?, finished, Bool.false_eq_true, if_false, Option.map_none] at step
            grind
          rw [same]
          exact finish_stays

/-- A stream makes its changes one after another and then makes none, by induction on its items. -/
theorem Sized.runs (sized : s.Sized)
    : ∃ (failure : Option Fault) (last rest : Stream),
        Reaches s s.transitions last ∧ last.next? = (failure.map .error, rest) := by
  generalize items_eq : s.items = items
  induction items generalizing s with
  | nil =>
      match step : s.next? with
      | (none, rest) =>
          rw [transitions_nil step]
          exact ⟨none, s, rest, .stay s, step⟩
      | (some item, rest) =>
          rw [sized.items_cons step] at items_eq
          simp at items_eq
  | cons item others ih =>
      obtain ⟨next, step, same, again, _⟩ := sized.of_items_cons items_eq
      cases item with
      | error fault =>
          rw [(sized.transitions_error step).2]
          exact ⟨some fault, s, next, .stay s, step⟩
      | ok t =>
          obtain ⟨failure, last, rest, reaches, ends⟩ := ih again same
          rw [sized.transitions_cons step]
          exact ⟨failure, last, rest, .step step reaches, ends⟩

/-- Each change takes one of the steps that are left. -/
theorem Reaches.length_le (reaches : Reaches s changes last) (sized : s.Sized)
    : changes.length + last.stepsLeft ≤ s.stepsLeft := by
  induction reaches with
  | stay => simp
  | step makes _ ih =>
      obtain ⟨again, _, less⟩ := sized.next makes
      have := ih again
      simp only [List.length_cons]
      omega

/-- Changes do not finish a stream. -/
theorem Reaches.running (reaches : Reaches s changes last) (running : s.finished = false)
    : last.finished = false := by
  induction reaches with
  | stay => exact running
  | step makes _ ih =>
      obtain ⟨_, _, _, rfl⟩ := next?_ok makes
      exact ih running

/-- The years that a search reaches: the supported ones and the one in front of them. -/
def yearsReached : Nat := (Calendar.maxYear - (Calendar.minYear - 1) + 1).toNat

/-- A stream that has not ended makes at most one change for each recurrence and year. -/
theorem Reaches.few (reaches : Reaches s changes last) (sized : s.Sized)
    (running : s.finished = false)
    : changes.length ≤ s.rules.recurrences.length * yearsReached := by
  have taken := reaches.length_le sized
  have years := sum_yearsLeft_le sized.years
  rw [sized.length_eq] at years
  have same : yearsReached = 547583 := rfl
  simp only [stepsLeft, running, reaches.running running, Bool.false_eq_true, if_false] at taken
  rw [same]
  omega

-----------------------------------------------------------------------------------------
-- A loop over a stream
-----------------------------------------------------------------------------------------

/-- A loop over the changes of a stream comes to an outcome, without any limit on its rounds. -/
inductive Visits {σ ρ : Type} (visitor : σ → Transition → Except Fault (Visit σ ρ))
    : Stream → σ → Except Fault (Visit σ ρ) → Prop where
  | ended {s rest : Stream} {state : σ} (step : s.next? = (none, rest))
    : Visits visitor s state (.ok (.running state))
  | failed {s rest : Stream} {state : σ} {fault : Fault}
    (step : s.next? = (some (.error fault), rest))
    : Visits visitor s state (.error fault)
  | refused {s rest : Stream} {state : σ} {t : Transition} {fault : Fault}
    (step : s.next? = (some (.ok t), rest)) (visited : visitor state t = .error fault)
    : Visits visitor s state (.error fault)
  | done {s rest : Stream} {state : σ} {t : Transition} {result : ρ}
    (step : s.next? = (some (.ok t), rest)) (visited : visitor state t = .ok (.done result))
    : Visits visitor s state (.ok (.done result))
  | running {s rest : Stream} {state next : σ} {t : Transition}
    {outcome : Except Fault (Visit σ ρ)} (step : s.next? = (some (.ok t), rest))
    (visited : visitor state t = .ok (.running next)) (later : Visits visitor rest next outcome)
    : Visits visitor s state outcome

/-- A loop over the changes of a stream ends with what the visit of it comes to, by induction on
the items. -/
theorem Sized.visits {σ ρ : Type} (sized : s.Sized)
    (visitor : σ → Transition → Except Fault (Visit σ ρ)) (state : σ)
    : Visits visitor s state (s.visit visitor state) := by
  rw [sized.visit_eq]
  generalize items_eq : s.items = items
  induction items generalizing s state with
  | nil =>
      match step : s.next? with
      | (none, _) => exact .ended step
      | (some item, _) =>
          rw [sized.items_cons step] at items_eq
          simp at items_eq
  | cons item others ih =>
      obtain ⟨next, step, same, again, _⟩ := sized.of_items_cons items_eq
      cases item with
      | error fault => exact .failed step
      | ok t =>
          rw [visitItems]
          cases visited : visitor state t with
          | error fault => exact .refused step visited
          | ok outcome =>
              cases outcome with
              | done result => exact .done step visited
              | running later => exact .running step visited (ih again later same)

-----------------------------------------------------------------------------------------
-- The course of a stream
-----------------------------------------------------------------------------------------

/-- What the changes that a stream makes before it ends or fails are like. -/
structure Course (s : Stream) (changes : List Transition) : Prop where
  inside : ∀ t ∈ changes, s.cursor < t.instant ∧ t.instant < s.stop
  ordered : changes.Pairwise fun t u => t.instant < u.instant
  applies : ∀ t ∈ changes, ∃ r, s.rules.recurrences[t.index]? = some r ∧ r.AppliesTo t.year
  increasing : changes.Pairwise fun t u => t.index = u.index → t.year < u.year
  computed : s.rules.Computed s.stdOffset s.savings changes
  few : changes.length ≤ s.rules.recurrences.length * yearsReached

/-- The changes of a stream that has not ended are well formed. -/
theorem Sized.course (sized : s.Sized) (running : s.finished = false)
    (reaches : Reaches s s.transitions last)
    : s.Course s.transitions where
  inside := sized.transitions_ordered.1
  ordered := sized.transitions_ordered.2
  applies _ member := by
    obtain ⟨_, r, change⟩ := reaches.isChange_of_mem member
    exact ⟨r, change.at_index, change.applies⟩
  increasing := (reaches.years_increase sized).2
  computed := reaches.computed
  few := reaches.few sized running

end Stream

/-- Every stream of a rule set makes some well formed changes and then ends or fails, after which
it makes nothing anymore. Every loop over it ends, whatever is done with the changes. Sums of
offsets are taken in unbounded numbers here, which agree with those of sixty-four bits unless one of
these overflows. -/
theorem RuleSet.runs_its_course (rules : RuleSet) (start stop stdOffset savings : Int)
    : ∃ (changes : List Transition) (failure : Option Fault) (last rest : Stream),
        Stream.Reaches (Stream.between rules start stop stdOffset savings) changes last
        ∧ last.next? = (failure.map .error, rest)
        ∧ rest.next? = (none, rest)
        ∧ (Stream.between rules start stop stdOffset savings).Course changes
        ∧ ∀ (σ ρ : Type) (visitor : σ → Transition → Except Fault (Stream.Visit σ ρ)) (state : σ),
            Stream.Visits visitor (Stream.between rules start stop stdOffset savings) state
              ((Stream.between rules start stop stdOffset savings).visit visitor state) := by
  have sized := Stream.sized_between rules start stop stdOffset savings
  obtain ⟨failure, last, rest, reaches, ends⟩ := sized.runs
  exact ⟨_, failure, last, rest, reaches, ends, Stream.next?_stays ends,
    sized.course rfl reaches, fun _ _ visitor state => sized.visits visitor state⟩

/-- Where the changes of a rule set keep their order, the stream from the beginning of time makes
every change of a year that a search reaches. -/
theorem RuleSet.Steady.mem_of_appliesTo {rules : RuleSet} {stdOffset savings : Int}
    {amounts : Int → Prop} (steady : rules.Steady stdOffset amounts) (amount : amounts savings)
    {r : Recurrence} (member : r ∈ rules.recurrences) {year : Int} (applies : r.AppliesTo year)
    : ∃ t ∈ (Stream.after rules beginningOfTime stdOffset savings).transitions, t.year = year := by
  have day := steady.day r member
  have behind := Recurrence.beginningOfTime_lt_instantIn day (steady.near r member savings amount)
    applies
  have pending := (Stream.pending_between rules beginningOfTime endOfTime stdOffset savings r
    year).mpr ⟨member, applies, behind⟩
  obtain ⟨t, made, _, _, _, year_eq, _⟩ :=
    (Stream.steady_between steady amount beginningOfTime endOfTime).mem_of_pending pending
      fun other other_amount =>
        Recurrence.instantIn_lt_endOfTime day (steady.near r member other other_amount).2 applies
  exact ⟨t, made, year_eq⟩

/-- A list that holds some consecutive numbers has at least as many entries. -/
theorem le_length_of_consecutive {xs : List Int} {first : Int} {count : Nat}
    (members : ∀ n : Nat, n < count → first + n ∈ xs)
    : count ≤ xs.length := by
  have distinct : ((List.range count).map fun n : Nat => first + n).Nodup :=
    List.Nodup.map_on (fun m _ n _ same => by omega) List.nodup_range
  have subset : ((List.range count).map fun n : Nat => first + n) ⊆ xs := by
    intro x member
    obtain ⟨n, inside, rfl⟩ := List.mem_map.mp member
    exact members n (List.mem_range.mp inside)
  have counted := (distinct.subperm subset).length_le
  rwa [List.length_map, List.length_range] at counted

/-- A recurrence that changes the clock in March of every year from long ago on. -/
def yearlyRecurrence : Recurrence :=
  { name := "Y"
    first := .year (-300000)
    last := .latest
    month := .mar
    day := .fixed 1
    time := { mode := .universal, time := .zero }
    save := .zero
    letter := none }

/-- The rule set of the yearly change. -/
def yearlyRules : RuleSet := { name := "Y", recurrences := [yearlyRecurrence] }

/-- The yearly change keeps to its season. -/
theorem yearlyRules_seasonal : yearlyRules.Seasonal 0 [0] where
  day := by decide +kernel
  near := by decide +kernel
  closed := by decide +kernel
  apart := by decide +kernel
  yearly := by decide +kernel

/-- The yearly change is made in every year that a search reaches. -/
theorem yearlyRules_makes (n : Nat) (inside : n < Stream.yearsReached)
    : Calendar.minYear - 1 + n
      ∈ (Stream.after yearlyRules beginningOfTime 0 0).transitions.map (·.year) := by
  have reached : n < 547583 := inside
  have applies : yearlyRecurrence.AppliesTo (Calendar.minYear - 1 + n) := by
    refine ⟨?_, by omega, rfl, ?_⟩
    · change -300000 ≤ (-271821 : Int) - 1 + n
      omega
    · change (-271821 : Int) - 1 + n ≤ 275760
      omega
  exact List.mem_map.mpr (yearlyRules_seasonal.steady.mem_of_appliesTo (by simp)
    (List.mem_singleton_self _) applies)

/-- A search starts a year early, so the yearly change is made in the year in front of the first
supported one, and it comes more often than there are supported years. -/
theorem yearlyRules_starts_early
    : (Stream.between yearlyRules beginningOfTime (Calendar.yearStartSeconds Calendar.minYear) 0
          0).transitions.map (·.year)
        = [Calendar.minYear - 1]
      ∧ yearlyRules.recurrences.length * (Calendar.maxYear - Calendar.minYear + 1).toNat
        < (Stream.after yearlyRules beginningOfTime 0 0).transitions.length := by
  refine ⟨by decide +kernel, ?_⟩
  have made := le_length_of_consecutive yearlyRules_makes
  rw [List.length_map] at made
  exact Nat.lt_of_lt_of_le (by decide) made

end CivilTime
