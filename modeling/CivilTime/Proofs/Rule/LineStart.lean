import CivilTime.Proofs.Rule.Enumeration
import CivilTime.Proofs.Rule.State

/-! The state at the start of a line may be the one behind a change that the new clocks put later.
It is so where the clocks of the line before put a change of the same recurrence on the start,
whatever its year. A change that they put in front of the start does not count.
-/

namespace CivilTime

namespace Recurrence

/-- The instant of a change in a year under the clocks of the line before. -/
def instantUnder (r : Recurrence) (offsets : LineOffsets) (year : Int) : Int :=
  r.instantIn year offsets.stdOffset offsets.savings

/-- The clocks of the line before put a change of a recurrence on an instant, in a year that a
search from just in front of the instant looks at. -/
def FallsOn (r : Recurrence) (instant : Int) (offsets : LineOffsets) : Prop :=
  ∃ year,
    Calendar.yearOf (instant - 1) - 1 ≤ year
    ∧ r.RunsIn year
    ∧ r.instantUnder offsets year = instant

end Recurrence

namespace RuleSet

variable {rules : RuleSet} {instant stdOffset : Int}

/-- A change is searched from just in front of an instant on before it is compared with the instant,
so only one on the instant passes. -/
theorem happenedBefore_iff {r : Recurrence} {offsets : LineOffsets}
    (low : beginningOfTime < instant) (high : instant ≤ endOfTime) {happened : Bool}
    (decided : happenedBefore r instant offsets = .ok happened)
    : happened = true ↔ r.FallsOn instant offsets := by
  obtain ⟨next, found, decided⟩ := bind_eq_ok.mp decided
  obtain rfl := pure_eq_ok.mp decided
  obtain ⟨place, searched, rfl⟩ := map_eq_ok.mp found
  have in_time : Instant.saturate (instant - 1) = instant - 1 := by
    rw [Instant.saturate, if_neg (by omega), if_neg (by omega)]
  rw [in_time] at searched
  cases place with
  | none =>
      refine ⟨by simp, ?_⟩
      rintro ⟨year, reached, ⟨first, runs, supported⟩, on⟩
      have passed := Recurrence.searchForward_none searched (by omega) runs supported
      simp only [Recurrence.instantUnder] at on
      omega
  | some place =>
      obtain ⟨year, at_year⟩ := place
      have spec := Recurrence.searchForward_some searched
      have from_start := spec.from_start
      have behind := spec.behind
      have at_year_eq := spec.instant_eq
      simp only [Option.map_some, Option.any_some, decide_eq_true_eq]
      constructor
      · intro le
        exact ⟨year, by omega, ⟨by omega, spec.runs, spec.supported⟩,
          by simp only [Recurrence.instantUnder]; omega⟩
      · rintro ⟨other, reached, ⟨first, _, _⟩, on⟩
        simp only [Recurrence.instantUnder] at on
        rcases Int.lt_trichotomy other year with lt | rfl | gt
        · have := spec.first other (by omega) lt
          omega
        · omega
        · have := r.instantIn_lt offsets.stdOffset offsets.savings gt
          omega

/-- The first change behind an instant, counted from the beginning of time. -/
def firstBehind? (rules : RuleSet) (instant stdOffset : Int) : Option Transition :=
  (Stream.after rules beginningOfTime stdOffset 0).transitions.find? (instant < ·.instant)

/-- The state that the changes up to an instant have left, counted from the beginning of time. -/
def settledAt (rules : RuleSet) (instant stdOffset : Int) : RuleState :=
  Stream.stateAfter rules.initialState instant
    (Stream.after rules beginningOfTime stdOffset 0).transitions

/-- A change is the first one behind an instant, and a recurrence makes it. -/
structure MakesFirst (rules : RuleSet) (instant stdOffset : Int) (r : Recurrence) (t : Transition)
    : Prop where
  first : rules.firstBehind? instant stdOffset = some t
  at_index : rules.recurrences[t.index]? = some r

/-- There is one first change, and one recurrence makes it. -/
theorem MakesFirst.unique {r q : Recurrence} {t u : Transition}
    (makes : rules.MakesFirst instant stdOffset r t)
    (makes' : rules.MakesFirst instant stdOffset q u)
    : q = r ∧ u = t := by
  obtain rfl := Option.some.inj (makes.first.symm.trans makes'.first)
  exact ⟨Option.some.inj (makes'.at_index.symm.trans makes.at_index), rfl⟩

/-- A state is the one behind the first later change, where that counts as made, and the settled
one otherwise. -/
structure SettlesBy (rules : RuleSet) (instant stdOffset : Int)
    (counts : Recurrence → Transition → Prop) (state : RuleState)
    : Prop where
  early : ∀ r t, rules.MakesFirst instant stdOffset r t → counts r t → state = t.state
  settled
    : (∀ r t, rules.MakesFirst instant stdOffset r t → ¬ counts r t)
      → state = rules.settledAt instant stdOffset

/-- A visit that stops behind an instant has come to the first change there, past the state that the
changes in front of it have left. The induction is on the items. -/
theorem splitAtInstant_stops {items : List (Except Fault Transition)} {last : Option Transition}
    {outcome : Stream.Visit (Option Transition) (Option Transition × Transition)}
    (ordered : (items.filterMap Except.toOption).Pairwise fun t u => t.instant < u.instant)
    (visited : Stream.visitItems (splitAtInstant instant) items last = .ok outcome)
    (initial : RuleState)
    : ∃ found following,
        (outcome = .running found ∧ following = none
          ∨ ∃ t, outcome = .done (found, t) ∧ following = some t)
        ∧ (items.filterMap Except.toOption).find? (instant < ·.instant) = following
        ∧ Stream.stateAfter ((last.map Transition.state).getD initial) instant
            (items.filterMap Except.toOption)
          = (found.map Transition.state).getD initial := by
  induction items generalizing last with
  | nil =>
      simp only [Stream.visitItems, Except.ok.injEq] at visited
      exact ⟨last, none, .inl ⟨visited.symm, rfl⟩, rfl, rfl⟩
  | cons item others ih =>
      cases item with
      | error fault => simp [Stream.visitItems] at visited
      | ok t =>
          have changes_eq
              : (Except.ok t :: others : List (Except Fault Transition)).filterMap Except.toOption
                = t :: others.filterMap Except.toOption := rfl
          rw [changes_eq] at ordered ⊢
          obtain ⟨later, ordered⟩ := List.pairwise_cons.mp ordered
          rw [Stream.stateAfter_cons]
          by_cases le : t.instant ≤ instant
          · simp only [Stream.visitItems, splitAtInstant, le, if_true] at visited
            rw [List.find?_cons_of_neg (by simpa using le), if_pos le]
            exact ih ordered visited
          · simp only [Stream.visitItems, splitAtInstant, le, if_false, Except.ok.injEq] at visited
            refine ⟨last, some t, .inr ⟨t, visited.symm, rfl⟩, ?_, ?_⟩
            · rw [List.find?_cons_of_pos (by simpa using le)]
            · rw [if_neg le]
              exact Stream.stateAfter_of_behind fun u member => by
                have := later u member
                omega

/-- The changes around an instant are the first one behind it and the one that has left the settled
state. -/
theorem around_ok {last following : Option Transition}
    (found : rules.around instant stdOffset = .ok (last, following))
    : following = rules.firstBehind? instant stdOffset
      ∧ (last.map Transition.state).getD rules.initialState
        = rules.settledAt instant stdOffset := by
  have sized := Stream.sized_between rules beginningOfTime endOfTime stdOffset 0
  obtain ⟨outcome, visited, found⟩ := bind_eq_ok.mp found
  rw [Stream.after, sized.visit_eq] at visited
  obtain ⟨passed, next, stops, first, state⟩ :=
    splitAtInstant_stops sized.transitions_ordered.2 visited rules.initialState
  rcases stops with ⟨rfl, rfl⟩ | ⟨t, rfl, rfl⟩ <;>
  · obtain ⟨rfl, rfl⟩ := Prod.ext_iff.mp (pure_eq_ok.mp found)
    exact ⟨first.symm, state.symm⟩

/-- The clocks of the line before put the first change behind the start, or another change of its
recurrence, on the start. -/
def CountsOn (instant : Int) (previous : Option LineOffsets) (r : Recurrence) (_ : Transition)
    : Prop :=
  ∃ offsets ∈ previous, r.FallsOn instant offsets

/-- The clocks of the line before put the first change behind the start at the start or in front of
it. -/
def CountsUpTo (instant : Int) (previous : Option LineOffsets) (r : Recurrence) (t : Transition)
    : Prop :=
  ∃ offsets ∈ previous, r.instantUnder offsets t.year ≤ instant

/-- The state at the start of a line is the one behind the first later change, where a change of its
recurrence falls on the start under the clocks of the line before. -/
theorem settlesBy_countsOn {previous : Option LineOffsets} {state : RuleState}
    (low : beginningOfTime < instant) (high : instant ≤ endOfTime)
    (stated : rules.stateAt instant stdOffset previous = .ok state)
    : rules.SettlesBy instant stdOffset (CountsOn instant previous) state := by
  unfold stateAt at stated
  rw [if_neg (by omega)] at stated
  obtain ⟨⟨last, following⟩, found, stated⟩ := bind_eq_ok.mp stated
  obtain ⟨rfl, settled⟩ := around_ok found
  simp only [settled] at stated
  cases previous with
  | none =>
      obtain rfl := pure_eq_ok.mp stated
      exact ⟨fun _ _ _ counts => by simp [CountsOn] at counts, fun _ => rfl⟩
  | some offsets =>
      cases first : rules.firstBehind? instant stdOffset with
      | none =>
          rw [first] at stated
          obtain rfl := pure_eq_ok.mp stated
          exact ⟨fun _ _ makes => absurd (first.symm.trans makes.first) (by simp), fun _ => rfl⟩
      | some t =>
          simp only [first] at stated
          cases at_index : rules.recurrences[t.index]? with
          | none =>
              simp only [at_index] at stated
              obtain rfl := pure_eq_ok.mp stated
              refine ⟨fun r u makes => ?_, fun _ => rfl⟩
              obtain rfl := Option.some.inj (first.symm.trans makes.first)
              exact absurd (at_index.symm.trans makes.at_index) (by simp)
          | some r =>
              simp only [at_index] at stated
              obtain ⟨happened, decided, stated⟩ := bind_eq_ok.mp stated
              obtain rfl := pure_eq_ok.mp stated
              have counts_iff : happened = true ↔ CountsOn instant (some offsets) r t := by
                simpa [CountsOn] using happenedBefore_iff low high decided
              have makes : rules.MakesFirst instant stdOffset r t := ⟨first, at_index⟩
              refine ⟨fun q u makes' counts => ?_, fun never => ?_⟩
              · obtain ⟨rfl, rfl⟩ := makes.unique makes'
                rw [if_pos (counts_iff.mpr counts)]
              · rw [if_neg fun counted => never r t makes (counts_iff.mp counted)]

/-- A state that settles by one way to count the first later change is the one behind that change
or the settled one. -/
theorem SettlesBy.cases {counts : Recurrence → Transition → Prop} {state : RuleState}
    (settles : rules.SettlesBy instant stdOffset counts state)
    : (∃ r t, rules.MakesFirst instant stdOffset r t ∧ counts r t ∧ state = t.state)
      ∨ (∀ r t, rules.MakesFirst instant stdOffset r t → ¬ counts r t)
        ∧ state = rules.settledAt instant stdOffset := by
  by_cases counted : ∃ r t, rules.MakesFirst instant stdOffset r t ∧ counts r t
  · obtain ⟨r, t, makes, counts⟩ := counted
    exact .inl ⟨r, t, makes, counts, settles.early r t makes counts⟩
  · have never := fun r t makes counts => counted ⟨r, t, makes, counts⟩
    exact .inr ⟨never, settles.settled never⟩

/-- Two ways to count the first later change lead to one state where they agree on the change or it
changes nothing. -/
theorem SettlesBy.settlesBy_iff {counts others : Recurrence → Transition → Prop} {state : RuleState}
    (settles : rules.SettlesBy instant stdOffset counts state)
    : rules.SettlesBy instant stdOffset others state
      ↔ ∀ r t,
          rules.MakesFirst instant stdOffset r t
          → t.state = rules.settledAt instant stdOffset ∨ (counts r t ↔ others r t) := by
  constructor
  · intro settles' r t makes
    rcases settles.cases with ⟨q, u, makes_u, counts, same⟩ | ⟨never, same⟩ <;>
      rcases settles'.cases with ⟨q', u', makes_u', counts', same'⟩ | ⟨never', same'⟩
    · obtain ⟨rfl, rfl⟩ := makes.unique makes_u
      obtain ⟨rfl, rfl⟩ := makes.unique makes_u'
      exact .inr ⟨fun _ => counts', fun _ => counts⟩
    · obtain ⟨rfl, rfl⟩ := makes.unique makes_u
      exact .inl (same.symm.trans same')
    · obtain ⟨rfl, rfl⟩ := makes.unique makes_u'
      exact .inl (same'.symm.trans same)
    · exact .inr ⟨fun counts => absurd counts (never r t makes),
        fun counts => absurd counts (never' r t makes)⟩
  · intro agree
    rcases settles.cases with ⟨r, t, makes, counts, same⟩ | ⟨never, same⟩
    · refine ⟨fun q u makes' _ => ?_, fun never' => ?_⟩
      · obtain ⟨rfl, rfl⟩ := makes.unique makes'
        exact same
      · rcases agree r t makes with unchanged | agreed
        · exact same.trans unchanged
        · exact absurd (agreed.mp counts) (never' r t makes)
    · refine ⟨fun q u makes counts' => ?_, fun _ => same⟩
      rcases agree q u makes with unchanged | agreed
      · exact same.trans unchanged.symm
      · exact absurd (agreed.mpr counts') (never q u makes)

/-- The state at the start of a line is the settled one or the one behind the first later change, as
the clocks of the line before put a change of its recurrence on the start. To count the change
itself instead, wherever they put it up to the start, comes to the same state unless the two differ
and the change alters the state. The sums of the offsets are unbounded, and those of sixty-four bits
are the same unless one overflows. -/
theorem stateAt_settles {previous : Option LineOffsets} {state : RuleState}
    (low : beginningOfTime < instant) (high : instant ≤ endOfTime)
    (stated : rules.stateAt instant stdOffset previous = .ok state)
    : rules.SettlesBy instant stdOffset (CountsOn instant previous) state
      ∧ (rules.SettlesBy instant stdOffset (CountsUpTo instant previous) state
        ↔ ∀ r t,
            rules.MakesFirst instant stdOffset r t
            → t.state = rules.settledAt instant stdOffset
              ∨ (CountsOn instant previous r t ↔ CountsUpTo instant previous r t)) := by
  have settles := settlesBy_countsOn low high stated
  exact ⟨settles, settles.settlesBy_iff⟩

end RuleSet

/-- Summer time of the year 1989. -/
def springRules : RuleSet :=
  { name := "R"
    recurrences :=
      [ { name := "R"
          first := .year 1989
          last := .year 1989
          month := .mar
          day := .last .sun
          time := { mode := .standard, time := .ofSeconds 7200 }
          save := .ofSeconds 3600
          letter := some "S" },
        { name := "R"
          first := .year 1989
          last := .year 1989
          month := .sep
          day := .last .sun
          time := { mode := .standard, time := .ofSeconds 7200 }
          save := .zero
          letter := none } ] }

/-- The change to summer time as a line that starts in front of it sees it, three hours ahead of
universal time. -/
def springChange : Transition :=
  { instant := 606870000, year := 1989, savings := 3600, letter := some "S", index := 0 }

/-- The clocks of a line that is four hours ahead of universal time. -/
def springOffsets : LineOffsets := { stdOffset := 14400, savings := 0 }

/-- A line that starts at two o'clock of the line before starts in summer time. -/
theorem springRules_settles
    : springRules.stateAt 606866400 10800 (some springOffsets) = .ok springChange.state
      ∧ springRules.SettlesBy 606866400 10800 (RuleSet.CountsOn 606866400 (some springOffsets))
        springChange.state :=
  have stated
      : springRules.stateAt 606866400 10800 (some springOffsets) = .ok springChange.state :=
    mem_toOption.mp (by decide +kernel)
  ⟨stated, (RuleSet.stateAt_settles (by decide) (by decide) stated).1⟩

/-- A change at the start of March of two years, and one to standard time half an hour behind the
first of them. -/
def marchRules : RuleSet :=
  { name := "R"
    recurrences :=
      [ { name := "R"
          first := .year 2000
          last := .year 2001
          month := .mar
          day := .fixed 1
          time := { mode := .wall, time := .zero }
          save := .ofSeconds 3600
          letter := some "D" },
        { name := "R"
          first := .year 2000
          last := .year 2000
          month := .mar
          day := .fixed 1
          time := { mode := .wall, time := .ofSeconds 5400 }
          save := .zero
          letter := some "S" } ] }

/-- The change of March 2001. -/
def marchChange : Transition :=
  { instant := 983404800, year := 2001, savings := 3600, letter := some "D", index := 0 }

/-- The clocks of a line that is an hour behind universal time. -/
def marchOffsets : LineOffsets := { stdOffset := -3600, savings := 0 }

/-- Half an hour behind two o'clock of the line before, the next line starts in winter, although the
clocks of the line before have made the change. A line that starts where the clocks of the line
before put the change of 2000 starts with that of 2001, although they put this one a year later. -/
theorem springRules_missed
    : (∃ state,
        springRules.stateAt 606868200 10800 (some springOffsets) = .ok state
        ∧ ¬ springRules.SettlesBy 606868200 10800
          (RuleSet.CountsUpTo 606868200 (some springOffsets)) state)
      ∧ ∃ state,
        marchRules.stateAt 951872400 0 (some marchOffsets) = .ok state
        ∧ ¬ marchRules.SettlesBy 951872400 0 (RuleSet.CountsUpTo 951872400 (some marchOffsets))
          state := by
  constructor
  · refine ⟨⟨0, none⟩, mem_toOption.mp (by decide +kernel), fun settles => ?_⟩
    have first : springRules.firstBehind? 606868200 10800 = some springChange := by decide +kernel
    have counted : RuleSet.CountsUpTo 606868200 (some springOffsets) springRules.recurrences[0]
        springChange := ⟨springOffsets, rfl, by decide +kernel⟩
    exact absurd (settles.early _ _ ⟨first, rfl⟩ counted) (by decide)
  · refine ⟨marchChange.state, mem_toOption.mp (by decide +kernel), fun settles => ?_⟩
    have first : marchRules.firstBehind? 951872400 0 = some marchChange := by decide +kernel
    have same : marchRules.settledAt 951872400 0 = { savings := 0, letter := some "S" } := by
      decide +kernel
    have settled := settles.settled fun r t makes counted => by
      obtain ⟨rfl, rfl⟩ := RuleSet.MakesFirst.unique ⟨first, rfl⟩ makes
      obtain ⟨offsets, member, le⟩ := counted
      obtain rfl := Option.some.inj member
      exact absurd le (by decide +kernel)
    rw [same] at settled
    exact absurd settled (by decide)

end CivilTime
