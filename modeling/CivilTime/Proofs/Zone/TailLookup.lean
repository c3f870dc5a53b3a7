import CivilTime.Proofs.Rule.Season
import CivilTime.Proofs.Zone.Anchor

/-! A lookup in a regular tail finds the run around its instant.
Every anchor that the lookup tries is in step with the changes from the start of the tail, so what
a walk finds is a run of them. A walk of three years meets a visible change, since each recurrence
changes the clock in between and two of them lead to different clocks.
-/

namespace CivilTime

open Recurrence (Precedes)

namespace Tail

variable {tail : Tail} {instant : Int}

/-- An interval is the longest run around an instant on which the changes from the start of a tail
leave the clock as it is. -/
structure RunAround (tail : Tail) (instant : Int) (i : Interval) : Prop where
  stdOffset_eq : i.stdOffset = tail.stdOffset
  from_start : tail.start ≤ i.start
  stretch : Stretch tail.clockAt i.start i.stop instant i.clock
  begins : i.start = tail.start ∨ tail.clockAt (i.start - 1) ≠ i.clock

/-- Two recurrences of a tail that have begun by its start lead to different clocks. -/
def Alternates (tail : Tail) : Prop :=
  ∃ r ∈ tail.rules.recurrences, ∃ q ∈ tail.rules.recurrences,
    Calendar.yearStartSeconds r.firstYear ≤ tail.start
    ∧ Calendar.yearStartSeconds q.firstYear ≤ tail.start
    ∧ tail.shows r.state ≠ tail.shows q.state

/-- In a tail that alternates some recurrence leads to another clock than the given one. -/
theorem Alternates.exists_ne (alternates : tail.Alternates) (clock : Int × String)
    : ∃ q ∈ tail.rules.recurrences,
        Calendar.yearStartSeconds q.firstYear ≤ tail.start ∧ tail.shows q.state ≠ clock := by
  obtain ⟨r, r_member, q, q_member, r_begun, q_begun, different⟩ := alternates
  by_cases same : tail.shows r.state = clock
  · exact ⟨q, q_member, q_begun, by rw [← same]; exact different.symm⟩
  · exact ⟨r, r_member, r_begun, same⟩

/-- An anchor of a tail is in step with the changes from the start of the tail. -/
structure InStep (tail : Tail) (anchor : Anchor) (state : RuleState) : Prop where
  from_start : tail.start ≤ anchor.cursor
  shown : anchor.clock tail.stdOffset = tail.shows state
  amount : tail.rules.SavesAmount anchor.savings
  boundary : anchor.atBoundary = true → anchor.cursor = tail.start
  follows
    : ∀ x,
        anchor.cursor ≤ x
        → tail.clockAfter state (tail.changesBehind anchor).transitions x = tail.clockAt x

/-- Every anchor of a regular tail up to an instant is in step. -/
theorem Regular.inStep (regular : tail.Regular) (after : tail.start ≤ instant) {year : Int}
    (front : year < Calendar.yearOf instant)
    : ∃ anchor state,
        tail.anchorAt year = .ok anchor
        ∧ tail.InStep anchor state
        ∧ anchor.cursor ≤ instant
        ∧ (anchor.atBoundary = false
          → tail.start < Calendar.yearStartSeconds year
            ∧ anchor.cursor = Calendar.yearStartSeconds year) := by
  have in_range := (Calendar.yearOf_range instant).2
  rcases Int.lt_or_le tail.start (Calendar.yearStartSeconds year) with behind | le
  · obtain ⟨r, member, anchor, anchored, cursor_eq, unknown, savings_eq, shown, follows⟩ :=
      regular.anchorAt_ok behind (by omega)
    have := Calendar.yearStartSeconds_gap (Int.le_of_lt front)
    have := Calendar.yearStartSeconds_yearOf_le (Int.le_trans regular.supported after)
    refine ⟨anchor, r.state, anchored, {
      from_start := by omega
      shown
      amount := .inr ⟨r, member, savings_eq⟩
      boundary := fun known => by simp [unknown] at known
      follows
    }, by omega, fun _ => ⟨behind, cursor_eq⟩⟩
  · have anchored := startAnchor_ok regular.applicable
    generalize anchor_eq
      : ({ cursor := tail.start
           savings := tail.initialSavings
           name := tail.format.fill tail.stdOffset tail.initialSavings tail.initialLetter
           atBoundary := true } : Anchor) = anchor at anchored
    refine ⟨anchor, tail.initialState, ?_, ?_, by rw [← anchor_eq]; exact after, ?_⟩
    · unfold anchorAt
      dsimp only
      rw [if_pos le]
      exact anchored
    · rw [← anchor_eq]
      exact {
        from_start := Int.le_refl _
        shown := rfl
        amount := regular.savesAmount
        boundary := fun _ => rfl
        follows := fun x _ => rfl
      }
    · intro unknown
      rw [← anchor_eq] at unknown
      simp at unknown

/-- A walk from an anchor that is in step never fails. -/
theorem InStep.walk_ne_error {anchor : Anchor} {state : RuleState}
    (in_step : tail.InStep anchor state) (regular : tail.Regular) {fault : Fault}
    : tail.walk anchor instant ≠ .error fault := by
  intro failed
  have member := walk_error regular.applicable failed
  have steady : (tail.changesBehind anchor).Steady tail.rules.SavesAmount :=
    regular.stream_steady anchor.cursor in_step.amount
  rw [steady.items_eq] at member
  simp at member

/-- What a walk from an anchor that is in step finds is the run around the instant. -/
theorem InStep.runAround {anchor : Anchor} {state : RuleState}
    (in_step : tail.InStep anchor state) (reached : anchor.cursor ≤ instant)
    (before : instant < endOfTime) {i : Interval}
    (walked : tail.walk anchor instant = .ok (some i))
    : tail.RunAround instant i := by
  rcases walk_ok in_step.shown reached before walked
    with ⟨j, found, stdOffset_eq, stretch, edge⟩ | ⟨found, _⟩
  · obtain rfl := Option.some.inj found
    have := in_step.from_start
    rcases edge with ⟨start_eq, known⟩ | ⟨moved, edge⟩
    · have := in_step.boundary known
      exact {
        stdOffset_eq
        from_start := by omega
        stretch := stretch.congr fun x le => in_step.follows x (by omega)
        begins := .inl (by omega)
      }
    · exact {
        stdOffset_eq
        from_start := by omega
        stretch := stretch.congr fun x le => in_step.follows x (by omega)
        begins := .inr (by
          rw [← in_step.follows _ (by omega)]
          exact edge)
      }
  · simp at found

/-- A walk from the start of a year three years in front of the instant meets a visible change: the
recurrence that leads to another clock than the one at the start changes the clock a year later. -/
theorem InStep.walk_ne_none {anchor : Anchor} {state : RuleState}
    (in_step : tail.InStep anchor state) (regular : tail.Regular)
    (alternates : tail.Alternates) (after : tail.start ≤ instant)
    (before : instant < endOfTime) {year : Int}
    (behind : tail.start < Calendar.yearStartSeconds year)
    (cursor_eq : anchor.cursor = Calendar.yearStartSeconds year)
    (front : year + 3 ≤ Calendar.yearOf instant)
    : tail.walk anchor instant ≠ .ok none := by
  intro walked
  have in_range := (Calendar.yearOf_range instant).2
  have here := Calendar.yearStartSeconds_yearOf_le (Int.le_trans regular.supported after)
  have room := Calendar.yearStartSeconds_gap front
  have near_year := Calendar.yearStartSeconds_gap (show year ≤ year + 3 by omega)
  rcases walk_ok in_step.shown (by omega) before walked with ⟨_, found, _⟩ | ⟨_, _, constant⟩
  · simp at found
  obtain ⟨q, member, begun, different⟩ := alternates.exists_ne (tail.shows state)
  have day := regular.steady.day q member
  have near := regular.steady.near q member
  have applies : q.AppliesTo (year + 1) :=
    Recurrence.appliesTo_of_begun (regular.unbounded q member) regular.supported begun behind
      (by omega) (by omega)
  have lt_instant (savings : Int) (amount : tail.rules.SavesAmount savings)
      : q.instantIn (year + 1) tail.stdOffset savings < instant := by
    have := Recurrence.instantIn_lt_yearStart day (near savings amount).2 (year + 1)
    have same : year + 1 + 2 = year + 3 := by omega
    rw [same] at this
    omega
  have pending : (tail.changesBehind anchor).Pending q (year + 1) := by
    refine (Stream.pending_between ..).mpr ⟨member, applies, ?_⟩
    have := Recurrence.yearStart_lt_instantIn day (near _ in_step.amount) (year + 1)
    rw [Int.add_sub_cancel] at this
    omega
  have steady : (tail.changesBehind anchor).Steady tail.rules.SavesAmount :=
    regular.stream_steady anchor.cursor in_step.amount
  obtain ⟨t, made, savings, amount, _, _, instant_eq, savings_eq, letter_eq⟩ :=
    steady.mem_of_pending pending fun savings amount =>
      Int.lt_trans (lt_instant savings amount) before
  have t_before : t.instant < instant := by
    rw [instant_eq]
    exact lt_instant savings amount
  have shown := shows_of_constant constant made (Int.le_of_lt t_before)
  rw [Transition.state, savings_eq, letter_eq] at shown
  exact different shown

/-- A lookup from the start of a regular tail that alternates on finds the run around its instant.
-/
theorem Regular.intervalAt_runAround (regular : tail.Regular) (alternates : tail.Alternates)
    (after : tail.start ≤ instant) (before : instant < endOfTime)
    : ∃ i, tail.intervalAt instant = .ok i ∧ tail.RunAround instant i := by
  cases outcome : tail.intervalAt instant with
  | ok i =>
      obtain ⟨year, anchor, le, anchored, walked⟩ := search_ok outcome
      obtain ⟨_, state, anchored', in_step, reached, _⟩ :=
        regular.inStep after (show year < Calendar.yearOf instant by omega)
      obtain rfl := Except.ok.inj (anchored.symm.trans anchored')
      exact ⟨i, rfl, in_step.runAround reached before walked⟩
  | error fault =>
      rcases search_error outcome with ⟨year, le, failed | ⟨anchor, anchored, failed⟩⟩
        | ⟨_, unknown⟩
      · obtain ⟨_, _, anchored, _⟩ :=
          regular.inStep after (show year < Calendar.yearOf instant by omega)
        rw [anchored] at failed
        simp at failed
      · obtain ⟨_, state, anchored', in_step, _⟩ :=
          regular.inStep after (show year < Calendar.yearOf instant by omega)
        obtain rfl := Except.ok.inj (anchored.symm.trans anchored')
        exact absurd failed (in_step.walk_ne_error regular)
      · obtain ⟨anchor, anchored, walked⟩ := unknown 2 (by decide)
        obtain ⟨_, state, anchored', in_step, reached, cursor_eq⟩ :=
          regular.inStep after
            (show Calendar.yearOf instant - 1 - (2 : Nat) < Calendar.yearOf instant by omega)
        obtain rfl := Except.ok.inj (anchored.symm.trans anchored')
        rcases walk_ok in_step.shown reached before walked with ⟨_, found, _⟩ | ⟨_, known, _⟩
        · simp at found
        · obtain ⟨behind, cursor_eq⟩ := cursor_eq known
          exact absurd walked (in_step.walk_ne_none regular alternates after before behind
            cursor_eq (by omega))

/-- A tail is regular if its rules go on forever and keep to seasons within their years, and if it
starts with one of their changes. -/
theorem Regular.of_seasonal (unbounded : ∀ r ∈ tail.rules.recurrences, r.isUnbounded = true)
    (supported : Calendar.yearStartSeconds Calendar.minYear ≤ tail.start)
    (starts
      : ∃ r ∈ tail.rules.recurrences, ∃ year savings,
          r.firstYear ≤ year
          ∧ tail.rules.SavesAmount savings
          ∧ tail.start = r.instantIn year tail.stdOffset savings
          ∧ tail.initialState = r.state)
    (seasonal : tail.rules.Seasonal tail.stdOffset tail.rules.savedAmounts)
    (within : tail.rules.WithinYear tail.stdOffset tail.rules.savedAmounts)
    (applicable : tail.format.isApplicable = true)
    : tail.Regular where
  unbounded
  supported
  starts
  steady := seasonal.steady_savesAmount
  sides year := by
    have sides := within.keepsSides year
    rwa [RuleSet.mem_savedAmounts] at sides
  applicable

-----------------------------------------------------------------------------------------
-- Orderly tails
-----------------------------------------------------------------------------------------

/-- A tail whose recurrences all go on forever, that starts with a change of one of them, and whose
changes keep their order, and do not pass the start of a year, whatever saved time they are computed
with. Two of its recurrences lead to different clocks. `first` gives the first year of each. -/
structure Orderly (tail : Tail) (first : Recurrence → Int) : Prop where
  unbounded : ∀ r ∈ tail.rules.recurrences, r.isUnbounded = true
  begun : ∀ r ∈ tail.rules.recurrences, Calendar.yearStartSeconds (first r) ≤ tail.start
  near
    : ∀ r ∈ tail.rules.recurrences, ∀ savings,
        tail.rules.SavesAmount savings → r.NearMidnight tail.stdOffset savings
  starts
    : ∃ r ∈ tail.rules.recurrences, ∃ year savings,
        first r ≤ year
        ∧ tail.rules.SavesAmount savings
        ∧ tail.start = r.instantIn year tail.stdOffset savings
        ∧ tail.initialState = r.state
  ordered
    : ∀ (i j : Nat) (r q : Recurrence) (a b : Int),
        tail.rules.recurrences[i]? = some r
        → tail.rules.recurrences[j]? = some q
        → first r ≤ a
        → first q ≤ b
        → (i = j → a ≠ b)
        → Precedes tail.rules.SavesAmount tail.stdOffset r a q b
          ∨ Precedes tail.rules.SavesAmount tail.stdOffset q b r a
  sides
    : ∀ r ∈ tail.rules.recurrences, ∀ a year savings other,
        first r ≤ a
        → tail.rules.SavesAmount savings
        → tail.rules.SavesAmount other
        → ¬ (r.instantIn a tail.stdOffset savings < Calendar.yearStartSeconds year
          ∧ Calendar.yearStartSeconds year < r.instantIn a tail.stdOffset other)
  differ
    : ∃ r ∈ tail.rules.recurrences, ∃ q ∈ tail.rules.recurrences, ∃ name other,
        tail.nameFor r.savings r.letter = .ok name
        ∧ tail.nameFor q.savings q.letter = .ok other
        ∧ (r.savings, name) ≠ (q.savings, other)

/-- Two recurrences of an orderly tail lead to different clocks. -/
theorem Orderly.alternates (orderly : tail.Orderly Recurrence.firstYear) : tail.Alternates := by
  obtain ⟨r, r_member, q, q_member, name, other, r_named, q_named, different⟩ := orderly.differ
  obtain ⟨_, rfl⟩ := NameFormat.apply_eq_ok.mp r_named
  obtain ⟨_, rfl⟩ := NameFormat.apply_eq_ok.mp q_named
  refine ⟨r, r_member, q, q_member, orderly.begun r r_member, orderly.begun q q_member, ?_⟩
  intro same
  obtain ⟨offset_eq, name_eq⟩ := Prod.mk.inj same
  simp only [Recurrence.state] at offset_eq name_eq
  exact different (Prod.ext (by omega) name_eq)

/-- The changes of an orderly tail are steady if they fall on days of their months. -/
theorem Orderly.steady (orderly : tail.Orderly Recurrence.firstYear)
    (day : ∀ r ∈ tail.rules.recurrences, r.DayInMonth)
    : tail.rules.Steady tail.stdOffset tail.rules.SavesAmount :=
  RuleSet.steady_of_total day orderly.near (fun r member => .inr ⟨r, member, rfl⟩)
    fun i j r q a b at_i at_j a_applies b_applies =>
      orderly.ordered i j r q a b at_i at_j a_applies.1 b_applies.1

/-- An orderly tail within the supported years is regular if its changes fall on days of their
months and keep their sides of the starts of years. -/
theorem Orderly.regular (orderly : tail.Orderly Recurrence.firstYear)
    (day : ∀ r ∈ tail.rules.recurrences, r.DayInMonth)
    (supported : Calendar.yearStartSeconds Calendar.minYear ≤ tail.start)
    (sides
      : ∀ year,
          tail.rules.KeepsSides tail.stdOffset tail.rules.SavesAmount
            (Calendar.yearStartSeconds year))
    : tail.Regular where
  unbounded := orderly.unbounded
  supported
  starts := orderly.starts
  steady := orderly.steady day
  sides
  applicable := by
    obtain ⟨_, _, _, _, _, _, named, _, _⟩ := orderly.differ
    exact (NameFormat.apply_eq_ok.mp named).1

/-- In an orderly tail within the supported years whose changes fall on days of their months and do
not go over from the start of a year to behind it, the stream from the start never fails, and every
lookup finds the run of its changes around the instant. -/
theorem Orderly.lookup_runAround (orderly : tail.Orderly Recurrence.firstYear)
    (day : ∀ r ∈ tail.rules.recurrences, r.DayInMonth)
    (supported : Calendar.yearStartSeconds Calendar.minYear ≤ tail.start)
    (sides
      : ∀ year,
          tail.rules.KeepsSides tail.stdOffset tail.rules.SavesAmount
            (Calendar.yearStartSeconds year))
    (after : tail.start ≤ instant) (before : instant < endOfTime)
    : (Stream.after tail.rules tail.start tail.stdOffset tail.initialSavings).items
        = tail.changes.map .ok
      ∧ ∃ i, tail.intervalAt instant = .ok i ∧ tail.RunAround instant i := by
  have regular := orderly.regular day supported sides
  exact ⟨(regular.stream_steady tail.start regular.savesAmount).items_eq,
    regular.intervalAt_runAround orderly.alternates after before⟩

end Tail

/-- The tail of a zone five hours behind universal time from the summer of 2007 on. -/
def summerTail : Tail :=
  { start := 1173596400
    stdOffset := -18000
    format := .letter "E%sT"
    initialSavings := 3600
    initialLetter := some "D"
    rules := summerRules }

/-- Summer time stays within its years. -/
theorem summerRules_withinYear
    : summerRules.WithinYear (-18000) summerRules.savedAmounts := by
  decide +kernel

/-- Witness: the tail with summer time is orderly, and a lookup in it finds its run. -/
theorem Tail.Orderly.lookup_runAround_summer
    : summerTail.Orderly Recurrence.firstYear
      ∧ (Stream.after summerTail.rules summerTail.start summerTail.stdOffset
            summerTail.initialSavings).items
        = summerTail.changes.map .ok
      ∧ ∃ i, summerTail.intervalAt 4000000000 = .ok i ∧ summerTail.RunAround 4000000000 i := by
  have amounts (savings : Int) : savings ∈ summerRules.savedAmounts ↔ _ :=
    RuleSet.mem_savedAmounts_iff savings
  have orderly : summerTail.Orderly Recurrence.firstYear := {
    unbounded := by decide +kernel
    begun := by decide +kernel
    near := fun r member savings amount =>
      summerRules_seasonal.near r member savings ((amounts savings).mpr amount)
    starts := ⟨_, .head _, 2007, 0, by decide +kernel, .inl rfl, by decide +kernel, rfl⟩
    ordered := fun i j r q a b at_i at_j _ _ different => by
      have := summerRules_seasonal.total at_i at_j different
      rwa [RuleSet.mem_savedAmounts] at this
    sides := fun r member a year savings other _ amount other_amount across => by
      have := summerRules_withinYear.le_of_le member ((amounts savings).mpr amount)
        ((amounts other).mpr other_amount) (Int.le_of_lt across.1)
      exact absurd across.2 (Int.not_lt.mpr this)
    differ := ⟨_, .head _, _, .tail _ (.head _), "EDT", "EST", rfl, rfl, by decide⟩
  }
  refine ⟨orderly, orderly.lookup_runAround summerRules_seasonal.day (by decide +kernel)
    (fun year => ?_) (by decide +kernel) (by decide +kernel)⟩
  have sides := summerRules_withinYear.keepsSides year
  rwa [RuleSet.mem_savedAmounts] at sides

-----------------------------------------------------------------------------------------
-- Lookups that miss the run
-----------------------------------------------------------------------------------------

namespace Tail

variable {tail : Tail} {instant : Int}

/-- An interval that starts behind the start of a tail, where the clock goes on as it was in front
of it, is no run. -/
theorem not_runAround (i : Interval) (limit : Nat) (front : List Transition) (next : Transition)
    (reached
      : Stream.itemsUpTo limit
          (Stream.after tail.rules tail.start tail.stdOffset tail.initialSavings)
        = (front ++ [next]).map .ok)
    (late : i.start ≠ tail.start) (lt : i.start - 1 < next.instant)
    (unchanged : tail.clockAfter tail.initialState front (i.start - 1) = i.clock)
    : ¬ tail.RunAround instant i := by
  intro run
  have sized : (Stream.after tail.rules tail.start tail.stdOffset tail.initialSavings).Sized :=
    Stream.sized_between ..
  have state_eq : tail.stateAt (i.start - 1)
      = Stream.stateAfter tail.initialState (i.start - 1) front :=
    sized.stateAfter_of_lt _ reached lt
  rcases run.begins with begins | begins
  · exact late begins
  · rw [clockAt, state_eq] at begins
    exact begins unchanged

/-- A tail is orderly where its changes are punctual. -/
theorem orderly_of_punctual {first : Recurrence → Int}
    (punctual : tail.rules.Punctual tail.stdOffset tail.rules.savedAmounts)
    (unbounded : ∀ r ∈ tail.rules.recurrences, r.isUnbounded = true)
    (begun : ∀ r ∈ tail.rules.recurrences, Calendar.yearStartSeconds (first r) ≤ tail.start)
    (near
      : ∀ r ∈ tail.rules.recurrences, ∀ savings ∈ tail.rules.savedAmounts,
          -25920000 ≤ r.time.universalSeconds tail.stdOffset savings
          ∧ r.time.universalSeconds tail.stdOffset savings ≤ 25920000)
    (starts
      : ∃ r ∈ tail.rules.recurrences, ∃ year,
          first r ≤ year
          ∧ tail.start = r.instantIn year tail.stdOffset 0
          ∧ tail.initialState = r.state)
    (differ
      : ∃ r ∈ tail.rules.recurrences, ∃ q ∈ tail.rules.recurrences, ∃ name other,
          tail.nameFor r.savings r.letter = .ok name
          ∧ tail.nameFor q.savings q.letter = .ok other
          ∧ (r.savings, name) ≠ (q.savings, other))
    : tail.Orderly first where
  unbounded
  begun
  near r member savings amount :=
    near r member savings ((RuleSet.mem_savedAmounts_iff savings).mpr amount)
  starts := by
    obtain ⟨r, member, year, from_first, start_eq, state_eq⟩ := starts
    exact ⟨r, member, year, 0, from_first, .inl rfl, start_eq, state_eq⟩
  ordered i j r q a b at_i at_j _ _ different := by
    have := punctual.total at_i at_j different
    rwa [RuleSet.mem_savedAmounts] at this
  sides r member a year savings other _ amount other_amount :=
    punctual.not_across member ((RuleSet.mem_savedAmounts_iff savings).mpr amount)
      ((RuleSet.mem_savedAmounts_iff other).mpr other_amount) a year
  differ

/-- A lookup in an orderly tail does not find the run around an instant, where the years of a rule
are taken as they are written. -/
def MissesRun (tail : Tail) (instant : Int) : Prop :=
  tail.Orderly (·.first.number)
  ∧ tail.start ≤ instant
  ∧ instant < endOfTime
  ∧ ¬ ∃ i, tail.intervalAt instant = .ok i ∧ tail.RunAround instant i

/-- A lookup that finds an interval that is no run misses the run. -/
theorem missesRun (i : Interval) (orderly : tail.Orderly (·.first.number))
    (after : tail.start ≤ instant) (before : instant < endOfTime)
    (found : tail.intervalAt instant = .ok i) (no_run : ¬ tail.RunAround instant i)
    : tail.MissesRun instant := by
  refine ⟨orderly, after, before, fun ⟨j, found', run⟩ => no_run ?_⟩
  obtain rfl := Except.ok.inj (found.symm.trans found')
  exact run

end Tail

/-- A recurrence that goes on forever. -/
def lasting (first : YearBound) (month : Month) (day : DayRule) (time : TimeOfDay)
    (saved : Int) (letter : String)
    : Recurrence :=
  { name := "R"
    first
    last := .latest
    month
    day
    time
    save := .ofSeconds saved
    letter := some letter }

/-- A time of day in universal time. -/
def atHour (hour : Int) : TimeOfDay :=
  { mode := .universal, time := .ofSeconds (hour * 3600) }

/-- The tail on the prime meridian that starts with a change of a recurrence. -/
def tailBehind (r : Recurrence) (year : Int) (recurrences : List Recurrence) : Tail :=
  { start := r.instantIn year 0 0
    stdOffset := 0
    format := .letter "%sT"
    initialSavings := r.savings
    initialLetter := r.letter
    rules := { name := "R", recurrences } }

/-- Saved time that begins at noon of the first Sunday from 29 December on. -/
def yearEndChange (first : YearBound) : Recurrence :=
  lasting first .dec (.onOrAfter .sun 29) (atHour 12) 3600 "D"

/-- What a tail of that kind shows between two instants. -/
def spanBetween (start stop saved : Int) (name : String) : Interval :=
  { start, stop, stdOffset := 0, savings := saved, name }

/-- A tail whose saved time ends at one o'clock of its own clock on 1 January, which is midnight in
universal time. -/
def newYearTail : Tail :=
  tailBehind (yearEndChange (.year 2013)) 2013
    [ lasting (.year 2013) .jan (.fixed 1) { mode := .wall, time := .ofSeconds 3600 } 0 "S",
      yearEndChange (.year 2013) ]

/-- The anchor at the start of 2014 does not see the change that comes exactly there. -/
theorem newYearTail_missesRun : newYearTail.MissesRun 1420156800 := by
  refine Tail.missesRun (spanBetween 1420070400 1420372800 0 "ST") ?_ (by decide +kernel)
    (by decide +kernel) (by decide +kernel) ?_
  · exact Tail.orderly_of_punctual ⟨by decide +kernel, by decide +kernel⟩ (by decide +kernel)
      (by decide +kernel) (by decide +kernel)
      ⟨_, .tail _ (.head _), 2013, by decide +kernel, rfl, rfl⟩
      ⟨_, .head _, _, .tail _ (.head _), "ST", "DT", rfl, rfl, by decide⟩
  · exact Tail.not_runAround _ 2
      [{ instant := 1388534400, year := 2014, savings := 0, letter := some "S", index := 0 }]
      { instant := 1420074000, year := 2015, savings := 0, letter := some "S", index := 0 }
      (by decide +kernel) (by decide +kernel) (by decide +kernel) (by decide +kernel)

/-- A tail that starts in front of the supported years. -/
def ancientTail : Tail :=
  let change := lasting (.year (-300000)) .mar (.fixed 1) (atHour 0) 3600 "D"
  tailBehind change (-300000)
    [change, lasting (.year (-300000)) .nov (.fixed 1) (atHour 12) 0 "S"]

/-- The anchor takes changes into account that lie in front of the supported years. -/
theorem ancientTail_missesRun : ancientTail.MissesRun (-8640035856000) := by
  refine Tail.missesRun (spanBetween (-8640035856000) (-8640014644800) 3600 "DT") ?_
    (by decide +kernel) (by decide +kernel) (by decide +kernel) ?_
  · exact Tail.orderly_of_punctual ⟨by decide +kernel, by decide +kernel⟩ (by decide +kernel)
      (by decide +kernel) (by decide +kernel)
      ⟨_, .head _, -300000, by decide +kernel, rfl, rfl⟩
      ⟨_, .head _, _, .tail _ (.head _), "DT", "ST", rfl, rfl, by decide⟩
  · exact Tail.not_runAround _ 1 []
      { instant := -8640035856000
        year := -271822
        savings := 3600
        letter := some "D"
        index := 0 }
      (by decide +kernel) (by decide +kernel) (by decide +kernel) (by decide +kernel)

/-- A tail with a recurrence from the earliest year on that starts with a change of it in front of
the years that such a recurrence is enumerated in. -/
def earliestTail : Tail :=
  let change := lasting .earliest .dec (.fixed 30) (atHour 0) 0 "S"
  tailBehind change 1613
    [yearEndChange (.year 1613), lasting (.year 1613) .jun (.fixed 1) (atHour 1) 0 "S", change]

/-- The anchor does not see the change that the tail starts with. -/
theorem earliestTail_missesRun : earliestTail.MissesRun (-11202624000) := by
  refine Tail.missesRun (spanBetween (-11221196400) (-11202408000) 0 "ST") ?_ (by decide +kernel)
    (by decide +kernel) (by decide +kernel) ?_
  · exact Tail.orderly_of_punctual ⟨by decide +kernel, by decide +kernel⟩ (by decide +kernel)
      (by decide +kernel) (by decide +kernel)
      ⟨_, .tail _ (.tail _ (.head _)), 1613, by decide +kernel, rfl, rfl⟩
      ⟨_, .head _, _, .tail _ (.head _), "DT", "ST", rfl, rfl, by decide⟩
  · exact Tail.not_runAround _ 1 []
      { instant := -11221196400, year := 1614, savings := 0, letter := some "S", index := 1 }
      (by decide +kernel) (by decide +kernel) (by decide +kernel) (by decide +kernel)

/-- A tail with a recurrence on the 255th day of December, whose changes come two years late. -/
def lateDayTail : Tail :=
  let change := lasting (.year 275750) .jan (.fixed 10) (atHour 0) 3600 "D"
  tailBehind change 275752
    [change, lasting (.year 275750) .dec (.fixed 255) (atHour 4153) 0 "S"]

/-- The anchor takes a late change into account that the stream never comes to. -/
theorem lateDayTail_missesRun : lateDayTail.MissesRun 8639833161600 := by
  refine Tail.missesRun (spanBetween 8639789356800 8640012099600 3600 "DT") ?_ (by decide +kernel)
    (by decide +kernel) (by decide +kernel) ?_
  · exact Tail.orderly_of_punctual ⟨by decide +kernel, by decide +kernel⟩ (by decide +kernel)
      (by decide +kernel) (by decide +kernel)
      ⟨_, .head _, 275752, by decide +kernel, rfl, rfl⟩
      ⟨_, .head _, _, .tail _ (.head _), "DT", "ST", rfl, rfl, by decide⟩
  · exact Tail.not_runAround _ 2
      [ { instant := 8639757820800
          year := 275753
          savings := 3600
          letter := some "D"
          index := 0 } ]
      { instant := 8639789356800, year := 275754, savings := 3600, letter := some "D", index := 0 }
      (by decide +kernel) (by decide +kernel) (by decide +kernel) (by decide +kernel)

/-- In an orderly tail a lookup may miss the run where a change comes exactly at the start of a
year, where the tail starts in front of the supported years or of those in which its recurrences are
enumerated, and where changes come two years late. -/
theorem Tail.Orderly.lookup_missesRun
    : newYearTail.MissesRun 1420156800
      ∧ ancientTail.MissesRun (-8640035856000)
      ∧ earliestTail.MissesRun (-11202624000)
      ∧ lateDayTail.MissesRun 8639833161600 :=
  ⟨newYearTail_missesRun, ancientTail_missesRun, earliestTail_missesRun, lateDayTail_missesRun⟩

end CivilTime
