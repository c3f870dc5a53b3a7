import CivilTime.Proofs.Rule.Reach
import CivilTime.Proofs.Source.Tables
import CivilTime.Proofs.Zone.Completion
import CivilTime.Proofs.Zone.Lookup
import CivilTime.Proofs.Zone.TailLookup

/-! A lookup in a compiled zone succeeds wherever the rules behind it allow it to.
In front of the tail it always does. In the tail it fails in two ways only: two recurrences
coincide, or the changes never lead to another clock.
-/

namespace CivilTime

namespace Tail

variable {tail : Tail} {instant : Int}

/-- The amounts of saved time that the changes of a tail are computed with. -/
def SavesAmount (tail : Tail) (savings : Int) : Prop :=
  savings = tail.initialSavings ∨ ∃ r ∈ tail.rules.recurrences, savings = r.savings

/-- A tail whose recurrences go on forever on days of their months, whose offsets are times of the
clock, whose format can be applied, and which starts in the supported years. -/
structure Sound (tail : Tail) : Prop where
  unbounded : ∀ r ∈ tail.rules.recurrences, r.isUnbounded = true
  day : ∀ r ∈ tail.rules.recurrences, r.DayInMonth
  offset : -235941555 ≤ tail.stdOffset ∧ tail.stdOffset ≤ 235941555
  initial : -235941555 ≤ tail.initialSavings ∧ tail.initialSavings ≤ 235941555
  applicable : tail.format.isApplicable = true
  supported : Calendar.yearStartSeconds Calendar.minYear ≤ tail.start

/-- Two recurrences that have begun by the start of a tail, and whose changes come at most 300 days
late, lead to different clocks. -/
def Contrasts (tail : Tail) : Prop :=
  ∃ r ∈ tail.rules.recurrences, ∃ q ∈ tail.rules.recurrences,
    (Calendar.yearStartSeconds r.firstYear ≤ tail.start
      ∧ Calendar.yearStartSeconds q.firstYear ≤ tail.start)
    ∧ (∀ savings,
      tail.SavesAmount savings
      → r.Prompt tail.stdOffset savings ∧ q.Prompt tail.stdOffset savings)
    ∧ tail.shows r.state ≠ tail.shows q.state

/-- Whatever the clock shows, a recurrence of a tail that contrasts leads to another one. -/
theorem Contrasts.exists_ne (contrasts : tail.Contrasts) (clock : Int × String)
    : ∃ q ∈ tail.rules.recurrences,
        Calendar.yearStartSeconds q.firstYear ≤ tail.start
        ∧ (∀ savings, tail.SavesAmount savings → q.Prompt tail.stdOffset savings)
        ∧ tail.shows q.state ≠ clock := by
  obtain ⟨r, r_member, q, q_member, ⟨r_begun, q_begun⟩, prompt, different⟩ := contrasts
  by_cases same : tail.shows r.state = clock
  · refine ⟨q, q_member, q_begun, fun savings amount => (prompt savings amount).2, ?_⟩
    rw [← same]
    exact different.symm
  · exact ⟨r, r_member, r_begun, fun savings amount => (prompt savings amount).1, same⟩

/-- The rules of a sound tail can be searched. -/
theorem Sound.searchable (sound : tail.Sound)
    : tail.rules.Searchable tail.stdOffset tail.SavesAmount where
  day := sound.day
  reach r _ savings amount := by
    refine r.time.universalSeconds_bounds sound.offset ?_
    rcases amount with rfl | ⟨q, _, rfl⟩
    · exact sound.initial
    · exact q.save.seconds_bounds
  closed r member := .inr ⟨r, member, rfl⟩

/-- An anchor up to an instant shows a state, with an amount of saved time of the tail. -/
theorem anchor_shows (after : tail.start ≤ instant) (sound : tail.Sound) {year : Int}
    (front : year < Calendar.yearOf instant) {anchor : Anchor}
    (anchored : tail.anchorAt year = .ok anchor)
    : ∃ state,
        anchor.clock tail.stdOffset = tail.shows state
        ∧ anchor.savings = state.savings
        ∧ tail.SavesAmount anchor.savings
        ∧ anchor.cursor ≤ instant
        ∧ (anchor.atBoundary = false
          → anchor.cursor = Calendar.yearStartSeconds year
            ∧ tail.start < Calendar.yearStartSeconds year) := by
  rcases anchorAt_ok anchored with ⟨cursor_eq, boundary, savings_eq, shown⟩
    | ⟨v, r, member, behind, _, cursor_eq, _, savings_eq, shown⟩
  · refine ⟨tail.initialState, shown, savings_eq, .inl savings_eq, by omega, fun unknown => ?_⟩
    simp [boundary] at unknown
  · have := Calendar.yearStartSeconds_gap (Int.le_of_lt front)
    have := Calendar.yearStartSeconds_yearOf_le (Int.le_trans sound.supported after)
    exact ⟨r.state, shown, savings_eq, .inr ⟨r, member, savings_eq⟩, by omega,
      fun _ => ⟨cursor_eq, behind⟩⟩

/-- The anchors of a sound tail are always found. -/
theorem Sound.anchorAt_ne_error (sound : tail.Sound) {year : Int}
    (in_range : year ≤ Calendar.maxYear) {fault : Fault}
    : tail.anchorAt year ≠ .error fault := by
  intro failed
  obtain ⟨behind, r, member, failed⟩ := anchorAt_error sound.applicable failed
  have first : Calendar.minYear < year :=
    Calendar.lt_of_yearStartSeconds_lt (Int.lt_of_le_of_lt sound.supported behind)
  have none_saved : -235941555 ≤ (0 : Int) ∧ (0 : Int) ≤ 235941555 := by decide
  have reach := r.time.universalSeconds_bounds sound.offset none_saved
  have supported := Calendar.yearStartSeconds_gap (Int.le_of_lt first)
  obtain ⟨found, outcome⟩ := Recurrence.previous_ok (sound.day r member) reach.2
    (show Calendar.yearStartSeconds Calendar.minYear ≤ Calendar.yearStartSeconds year + 1 by omega)
  rw [lastChange, Recurrence.saturate_yearStart (Int.le_of_lt first) in_range, outcome] at failed
  simp at failed

/-- A change that comes in time in the year two years in front of the instant lies behind the start
of a year 24 years earlier, and is due at the instant. -/
theorem Sound.due_on_the_way (sound : tail.Sound) (after : tail.start ≤ instant) {q : Recurrence}
    (member : q ∈ tail.rules.recurrences) {savings : Int} (amount : tail.SavesAmount savings)
    (prompt : q.Prompt tail.stdOffset savings)
    : Calendar.yearStartSeconds (Calendar.yearOf instant - 26)
        < q.instantIn (Calendar.yearOf instant - 2) tail.stdOffset savings
      ∧ q.instantIn (Calendar.yearOf instant - 2) tail.stdOffset savings ≤ instant := by
  have day := sound.day q member
  have late := Recurrence.instantIn_lt_yearStart day prompt (Calendar.yearOf instant - 2)
  have early := Recurrence.instantIn_ge tail.stdOffset savings day (Calendar.yearOf instant - 2)
  have reach := (sound.searchable.reach q member _ amount).1
  have here := Calendar.yearStartSeconds_yearOf_le (Int.le_trans sound.supported after)
  have room := Calendar.yearStartSeconds_gap
    (show Calendar.yearOf instant - 26 ≤ Calendar.yearOf instant - 2 by omega)
  rw [Int.sub_add_cancel] at late
  omega

/-- As long as the saved time of an anchor is kept, a recurrence that is due behind it has made a
change, which leads to the state of the recurrence. -/
theorem Sound.exists_change (sound : tail.Sound) {anchor : Anchor} {found : Option Interval}
    (walked : tail.walk anchor instant = .ok found) (before : instant < endOfTime)
    (constant
      : ∀ t ∈ (tail.changesBehind anchor).transitions,
          t.instant ≤ instant → t.savings = anchor.savings)
    {q : Recurrence} (member : q ∈ tail.rules.recurrences)
    (prompt : q.Prompt tail.stdOffset anchor.savings) {year : Int} (applies : q.AppliesTo year)
    (behind : anchor.cursor < q.instantIn year tail.stdOffset anchor.savings)
    (due : q.instantIn year tail.stdOffset anchor.savings ≤ instant)
    : ∃ t ∈ (tail.changesBehind anchor).transitions, t.instant ≤ instant ∧ t.state = q.state := by
  obtain ⟨index, at_index⟩ := List.getElem?_of_mem member
  have sized : (tail.changesBehind anchor).Sized := Stream.sized_between ..
  have fresh : RuleSet.Fresh (RuleSet.usedIn (tail.changesBehind anchor).used index) year := by
    intro last used
    rw [changesBehind, Stream.after, Stream.usedIn_between] at used
    cases used
  obtain ⟨_, visited, _⟩ := visited_of_walk walked
  obtain ⟨t, made, t_le, t_index⟩ := sized.mem_of_constant rfl (items_of_visitItems visited) before
    constant at_index (sound.day q member) prompt applies fresh behind due
  obtain ⟨r, at_t, t_savings, t_letter⟩ := sized.mem_transitions made
  rw [t_index] at at_t
  obtain rfl := Option.some.inj (at_index.symm.trans at_t)
  refine ⟨t, made, t_le, ?_⟩
  rw [Transition.state, t_savings, t_letter]
  rfl

/-- A walk of 25 years in a tail that contrasts meets a visible change. As long as none is met the
saved time stays the same, so every change that is due is made, and one of them can be seen. -/
theorem Sound.walk_ne_none (sound : tail.Sound) (contrasts : tail.Contrasts)
    (after : tail.start ≤ instant) (before : instant < endOfTime) {anchor : Anchor}
    (anchored : tail.anchorAt (Calendar.yearOf instant - 26) = .ok anchor)
    : tail.walk anchor instant ≠ .ok none := by
  intro walked
  obtain ⟨state, shown, savings_eq, amount, reached, cursor_eq⟩ :=
    anchor_shows after sound (by omega) anchored
  rcases walk_ok shown reached before walked with ⟨_, found, _⟩ | ⟨_, unknown, constant⟩
  · simp at found
  obtain ⟨cursor_eq, behind⟩ := cursor_eq unknown
  obtain ⟨q, member, begun, prompt, different⟩ := contrasts.exists_ne (tail.shows state)
  have saves (t : Transition) (made : t ∈ (tail.changesBehind anchor).transitions)
      (le : t.instant ≤ instant)
      : t.savings = anchor.savings :=
    (savings_of_shows (shows_of_constant constant made le)).trans savings_eq.symm
  have applies : q.AppliesTo (Calendar.yearOf instant - 2) :=
    Recurrence.appliesTo_of_begun (sound.unbounded q member) sound.supported begun behind (by omega)
      (by have := (Calendar.yearOf_range instant).2; omega)
  obtain ⟨on_the_way, due⟩ := sound.due_on_the_way after member amount (prompt _ amount)
  rw [← cursor_eq] at on_the_way
  obtain ⟨t, made, t_le, state_eq⟩ :=
    sound.exists_change walked before saves member (prompt _ amount) applies on_the_way due
  refine different ?_
  rw [← state_eq]
  exact shows_of_constant constant made t_le

/-- A lookup in a sound tail finds an interval that contains its instant, unless two recurrences
coincide or the tail does not contrast. -/
theorem Sound.intervalAt_cases (sound : tail.Sound) (after : tail.start ≤ instant)
    (before : instant < endOfTime)
    : (∃ i, tail.intervalAt instant = .ok i ∧ i.start ≤ instant ∧ instant < i.stop)
      ∨ (∃ tie,
          tail.intervalAt instant = .error (.simultaneousTransitions tail.rules.name tie)
          ∧ tail.rules.Coincide tail.stdOffset tail.SavesAmount tie)
      ∨ ∃ year,
          tail.intervalAt instant = .error (.searchExhausted tail.rules.name year)
          ∧ ¬ tail.Contrasts := by
  have in_range := (Calendar.yearOf_range instant).2
  cases outcome : tail.intervalAt instant with
  | ok i =>
      obtain ⟨year, anchor, le, anchored, walked⟩ := search_ok outcome
      obtain ⟨state, shown, _, _, reached, _⟩ := anchor_shows after sound (by omega) anchored
      rcases walk_ok shown reached before walked with ⟨j, found, _, stretch, _⟩ | ⟨found, _⟩
      · obtain rfl := Option.some.inj found
        exact .inl ⟨i, rfl, stretch.start_le, stretch.lt_stop⟩
      · simp at found
  | error fault =>
      rcases search_error outcome with ⟨year, le, failed | ⟨anchor, anchored, failed⟩⟩
        | ⟨rfl, unknown⟩
      · exact absurd failed (sound.anchorAt_ne_error (by omega))
      · obtain ⟨_, _, _, amount, _, _⟩ := anchor_shows after sound (by omega) anchored
        have sized : (tail.changesBehind anchor).Sized := Stream.sized_between ..
        obtain ⟨tie, rfl, coincide⟩ := sized.coincide_of_error sound.searchable amount
          (walk_error sound.applicable failed)
        exact .inr (.inl ⟨tie, rfl, coincide⟩)
      · refine .inr (.inr ⟨_, rfl, fun contrasts => ?_⟩)
        obtain ⟨anchor, anchored, walked⟩ := unknown 25 (by decide)
        have same : Calendar.yearOf instant - 1 - (25 : Nat) = Calendar.yearOf instant - 26 := by
          omega
        rw [same] at anchored
        exact sound.walk_ne_none contrasts after before anchored walked

/-- A tail that a line starts under checked rules is sound. -/
theorem sound_of_startsTail {line : ZoneLine} {rules : RuleSet} {start : Int}
    (starts : Compilation.StartsTail line rules start tail) (checked : rules.Checked)
    : tail.Sound := by
  obtain ⟨applicable, _, savings, t, made, later, rfl⟩ := starts
  have sized : (Stream.after rules start line.stdOffset.seconds savings).Sized :=
    Stream.sized_between ..
  obtain ⟨r, at_index, savings_eq, _⟩ := sized.mem_transitions made
  have saved : t.savings = r.save.seconds := savings_eq
  have first := (Calendar.yearOf_range start).1
  have last := (Calendar.yearOf_range t.instant).2
  have second := (Calendar.le_yearOf_iff (t := t.instant)
    (show Calendar.minYear < Calendar.minYear + 1 by omega) (by omega)).mp (by omega)
  have := Calendar.yearStartSeconds_gap (show Calendar.minYear ≤ Calendar.minYear + 1 by omega)
  exact
    { unbounded := fun q member => (List.mem_filter.mp member).2
      day := fun q member => (checked.recurrences q (List.mem_filter.mp member).1).day
      offset := line.stdOffset.seconds_bounds
      initial := by
        rw [Compilation.tailFrom, saved]
        exact r.save.seconds_bounds
      applicable
      supported := by
        simp only [Compilation.tailFrom]
        omega }

end Tail

/-- In front of its tail, a compiled zone finds the interval of every instant that it covers. -/
theorem ZoneRecord.intervalAt_before_tail {record : ZoneRecord} {name : String}
    {table : Table RuleSet} {zone : CompiledZone} (compiled : record.compile name table = .ok zone)
    {instant : Int} (after : beginningOfTime ≤ instant) (before : instant < zone.coverageEnd)
    (front : ∀ tail, zone.tail = some tail → instant < tail.start)
    : ∃ i, zone.intervalAt instant = .ok (some i) ∧ i.start ≤ instant ∧ instant < i.stop := by
  have contiguous := contiguous_of_compile compiled
  have covered
      : ∃ stop, zone.intervals.getLast?.map (·.stop) = some stop ∧ instant < stop := by
    unfold CompiledZone.coverageEnd at before
    cases tail_eq : zone.tail with
    | some tail =>
        exact ⟨tail.start, (tail_of_compile compiled tail_eq).1, front tail tail_eq⟩
    | none =>
        simp only [tail_eq, Option.isSome_none, Bool.false_eq_true, if_false] at before
        cases last_eq : zone.intervals.getLast? with
        | some last => exact ⟨last.stop, rfl, by simpa [last_eq] using before⟩
        | none =>
            simp only [last_eq] at before
            omega
  obtain ⟨stop, stop_eq, inside⟩ := covered
  obtain ⟨i, member, from_start, in_front⟩ :=
    exists_interval_of_chain contiguous.touching contiguous.start_eq stop_eq after inside
  exact ⟨i, CompiledZone.intervalAt_of_mem contiguous member from_start in_front front, from_start,
    in_front⟩

/-- A lookup in a zone of a source text finds an interval that contains its instant. In the tail it
may fail instead, either where two recurrences coincide, or if the tail does not contrast and its
changes lead to no other clock. -/
theorem Tables.lookup_found_or_refused {text name : String} {zone : CompiledZone}
    (compiled : (Tables.ofText text).compileZone? name = some (.ok zone)) {instant : Int}
    (after : beginningOfTime ≤ instant) (before : instant < zone.coverageEnd)
    : (∃ i, zone.intervalAt instant = .ok (some i) ∧ i.start ≤ instant ∧ instant < i.stop)
      ∨ ∃ tail,
          zone.tail = some tail
          ∧ tail.start ≤ instant
          ∧ ((∃ tie,
                zone.intervalAt instant = .error (.simultaneousTransitions tail.rules.name tie)
                ∧ tail.rules.Coincide tail.stdOffset tail.SavesAmount tie)
              ∨ ∃ year,
                  zone.intervalAt instant = .error (.searchExhausted tail.rules.name year)
                  ∧ ¬ tail.Contrasts) := by
  have checked := checked_ofText text
  obtain ⟨record, _, compiled⟩ := Option.map_eq_some_iff.mp compiled
  cases tail_eq : zone.tailAt instant with
  | none =>
      refine .inl (ZoneRecord.intervalAt_before_tail compiled after before fun tail some_tail => ?_)
      rw [CompiledZone.tailAt, Option.filter_eq_none_iff] at tail_eq
      simpa using tail_eq tail some_tail
  | some tail =>
      have lookup_eq : zone.intervalAt instant = (tail.intervalAt instant).map some := by
        rw [CompiledZone.intervalAt, tail_eq]
      obtain ⟨some_tail, started⟩ := Option.filter_eq_some_iff.mp tail_eq
      have started : tail.start ≤ instant := by simpa using started
      obtain ⟨_, line, _, key, rules, start, found, starts⟩ :=
        ZoneRecord.tail_of_compile compiled some_tail
      have sound := Tail.sound_of_startsTail starts (checked.rules _ (Table.mem_of_get? found)).2
      have in_time : instant < endOfTime := by
        simpa [CompiledZone.coverageEnd, some_tail] using before
      rw [lookup_eq]
      rcases sound.intervalAt_cases started in_time with ⟨i, outcome, inside⟩
        | ⟨tie, outcome, coincide⟩ | ⟨year, outcome, no_contrast⟩
      · exact .inl ⟨i, by rw [outcome]; rfl, inside⟩
      · exact .inr ⟨tail, some_tail, started, .inl ⟨tie, by rw [outcome]; rfl, coincide⟩⟩
      · exact .inr ⟨tail, some_tail, started, .inr ⟨year, by rw [outcome]; rfl, no_contrast⟩⟩

/-- A source with a zone of summer time. -/
def summerText : String :=
  "R S 2000 ma - Mar Su>=8 2 1 D\nR S 2000 ma - N Su>=1 2 0 S\nZ E -5 S E%sT\n"

/-- The zone of the source with summer time. -/
def summerTextZone : CompiledZone :=
  { intervals :=
      [ { start := beginningOfTime
          stop := 952844400
          stdOffset := -18000
          savings := 0
          name := "EST" },
        { start := 952844400
          stop := 973404000
          stdOffset := -18000
          savings := 3600
          name := "EDT" },
        { start := 973404000
          stop := 984294000
          stdOffset := -18000
          savings := 0
          name := "EST" } ]
    tail
      := some
        { start := 984294000
          stdOffset := -18000
          format := .letter "E%sT"
          initialSavings := 3600
          initialLetter := some "D"
          rules := summerRules } }

/-- Witness: in the source with summer time, the lookup of an instant of the tail finds an interval
that contains it. -/
theorem Tables.lookup_found_or_refused_summer
    : (Tables.ofText summerText).compileZone? "E" = some (.ok summerTextZone)
      ∧ ∃ i,
          summerTextZone.intervalAt 1900000000 = .ok (some i)
          ∧ i.start ≤ 1900000000
          ∧ 1900000000 < i.stop := by
  have compiled : (Tables.ofText summerText).compileZone? "E" = some (.ok summerTextZone) := by
    decide +kernel
  have never_fails : (summerTextZone.intervalAt 1900000000).isOk = true := by decide +kernel
  refine ⟨compiled, ?_⟩
  rcases Tables.lookup_found_or_refused compiled
    (show beginningOfTime ≤ 1900000000 by decide) (by decide) with
    found | ⟨_, _, _, ⟨_, refused, _⟩ | ⟨_, refused, _⟩⟩
  · exact found
  · simp [refused, Except.isOk, Except.toBool] at never_fails
  · simp [refused, Except.isOk, Except.toBool] at never_fails

/-- A source with rules for the second Sunday of March and for its fourteenth day. -/
def clashText : String :=
  "R A 2022 ma - Mar Su>=8 2u 1 D\nR A 2022 ma - Mar 14 2u 1 D\n"
    ++ "R A 2022 ma - N Su>=1 2u 0 S\nZ X 0 A X%sT\n"

/-- The recurrences of the source in which two rules can meet. -/
def clashRules : RuleSet :=
  { name := "A"
    recurrences :=
      [ { name := "A"
          first := .year 2022
          last := .latest
          month := .mar
          day := .onOrAfter .sun 8
          time := { mode := .universal, time := .ofSeconds 7200 }
          save := .ofSeconds 3600
          letter := some "D" },
        { name := "A"
          first := .year 2022
          last := .latest
          month := .mar
          day := .fixed 14
          time := { mode := .universal, time := .ofSeconds 7200 }
          save := .ofSeconds 3600
          letter := some "D" },
        { name := "A"
          first := .year 2022
          last := .latest
          month := .nov
          day := .onOrAfter .sun 1
          time := { mode := .universal, time := .ofSeconds 7200 }
          save := .zero
          letter := some "S" } ] }

/-- The zone of that source. -/
def clashZone : CompiledZone :=
  { intervals :=
      [ { start := beginningOfTime
          stop := 1647136800
          stdOffset := 0
          savings := 0
          name := "XST" },
        { start := 1647136800
          stop := 1667700000
          stdOffset := 0
          savings := 3600
          name := "XDT" },
        { start := 1667700000
          stop := 1678586400
          stdOffset := 0
          savings := 0
          name := "XST" } ]
    tail
      := some
        { start := 1678586400
          stdOffset := 0
          format := .letter "X%sT"
          initialSavings := 3600
          initialLetter := some "D"
          rules := clashRules } }

/-- Both rules change the clock on 14 March 2027. The zone compiles, and its lookups from that year
on fail. -/
theorem Tables.lookup_refused_clash
    : (Tables.ofText clashText).compileZone? "X" = some (.ok clashZone)
      ∧ 1816041600 < clashZone.coverageEnd
      ∧ clashZone.intervalAt 1816041600
        = .error (.simultaneousTransitions "A" 1804989600) := by
  refine ⟨?_, ?_, ?_⟩ <;> decide +kernel

end CivilTime
