import CivilTime.Proofs.Atlas.Names
import CivilTime.Proofs.Rule.Course
import CivilTime.Proofs.Zone.Spacing

/-! A local time is resolved to an instant whose offset is the one that the zone has there.
In a gap the offset of one side is applied and that of the other side is given. Where the intervals
last at least as long as the clock is moved at their ends, the instant lies on the other side.
-/

namespace CivilTime

/-- The month, the day and the time of day are numbers of eight bits. -/
structure LocalDateTime.Small (d : LocalDateTime) : Prop where
  month : d.month ≤ 255
  day : d.day ≤ 255
  hour : d.hour ≤ 255
  minute : d.minute ≤ 255
  second : d.second ≤ 255

/-- The seconds of a supported year lie far from the ends of time. -/
theorem LocalDateTime.Small.seconds_bounds {d : LocalDateTime} (small : d.Small)
    (supported : d.isSupported = true)
    : beginningOfTime + 345600 < d.seconds ∧ d.seconds < endOfTime - 345600 := by
  obtain ⟨month, day, hour, minute, second⟩ := small
  simp only [isSupported, Bool.and_eq_true, decide_eq_true_eq] at supported
  simp only [Calendar.minYear, Calendar.maxYear] at supported
  simp only [LocalDateTime.seconds, Calendar.secondsOfDay, Calendar.dayNumber,
    Calendar.secondsPerDay, Calendar.epochOffset, beginningOfTime, endOfTime]
  split <;> omega

/-- How the intervals of a list answer a reading. -/
inductive Answers (is : List Interval) (reading : Int) : LocalIntervals → Prop where
  | once {i : Interval} (member : i ∈ is) (shown : i.containsLocal reading = true)
    : Answers is reading (.once i)
  | twice {i j : Interval} (left_mem : i ∈ is) (right_mem : j ∈ is)
    (left_shown : i.containsLocal reading = true) (right_shown : j.containsLocal reading = true)
    (before : i.ReadsBefore j)
    : Answers is reading (.twice i j)
  | skipped {i j : Interval} (jumps : Jumps is reading i j) (spaced : i.Spaced j)
    : Answers is reading
        (.skipped { before := i.wallOffset, after := j.wallOffset, instant := j.start })

namespace CompiledZone

variable {zone : CompiledZone} {is : List Interval} {reading : Int} {choice : Disambiguation}
  {i j : Interval} {e : Resolved}

/-- A resolved instant has the offset that the zone has there. It shows the reading unless the clock
is set forward over it, and lies on the chosen side then. -/
structure Places (zone : CompiledZone) (reading : Int) (choice : Disambiguation) (e : Resolved)
    : Prop where
  found : ∃ i, zone.Finds e.instant i ∧ i.wallOffset = e.offset
  shown
    : (∀ gap before after, ¬ zone.Skips reading gap before after)
      → e.instant + e.offset = reading
  behind
    : ∀ gap before after,
        zone.Skips reading gap before after
        → choice = .compatible ∨ choice = .later
        → gap.instant ≤ e.instant
  inFront
    : ∀ gap before after,
        zone.Skips reading gap before after → choice = .earlier → e.instant < gap.instant

/-- What is found for a reading is an answer of the listed intervals. -/
theorem Surrounds.answers (surrounds : zone.Surrounds reading is) {answer : LocalIntervals}
    (found : localIntervals? reading is = some answer)
    : Answers is reading answer := by
  have matching {k : Interval} (member : k ∈ is.filter (·.containsLocal reading))
      : k ∈ is ∧ k.containsLocal reading = true := List.mem_filter.mp member
  have ordered := (surrounds.reads_before surrounds.roomy).filter (·.containsLocal reading)
  unfold localIntervals? at found
  cases matching_eq : is.filter (·.containsLocal reading) with
  | nil =>
      rw [matching_eq] at found
      obtain ⟨gap, gap_found, rfl⟩ := Option.map_eq_some_iff.mp found
      obtain ⟨i, j, jumps, spaced, rfl⟩ := surrounds.jumps_of_gapIn? gap_found
      exact .skipped jumps spaced
  | cons i others =>
      rw [matching_eq] at found matching ordered
      obtain ⟨left_mem, left_shown⟩ := matching (List.mem_cons_self ..)
      cases others with
      | nil =>
          obtain rfl := Option.some.inj found
          exact .once left_mem left_shown
      | cons j rest =>
          obtain rfl := Option.some.inj found
          obtain ⟨right_mem, right_shown⟩ := matching (by simp : j ∈ i :: j :: rest)
          exact .twice left_mem right_mem left_shown right_shown
            ((List.pairwise_cons.mp ordered).1 j (by simp))

/-- The instant at which an interval shows a reading is placed right, whatever the choice. -/
theorem Surrounds.places_inInterval (surrounds : zone.Surrounds reading is) (member : i ∈ is)
    (shown : i.containsLocal reading = true) (choice : Disambiguation)
    : zone.Places reading choice (Candidates.inInterval reading i) := by
  obtain ⟨after, before, finds⟩ := surrounds.finds member shown
  have unskipped (gap : LocalGap) (left right : Interval)
      (skips : zone.Skips reading gap left right)
      : False :=
    surrounds.not_shown surrounds.roomy (surrounds.jumps_of_skips skips).1 member ⟨after, before⟩
  exact {
    found := ⟨i, finds, rfl⟩
    shown := fun _ => Int.sub_add_cancel ..
    behind := fun gap left right skips => (unskipped gap left right skips).elim
    inFront := fun gap left right skips => (unskipped gap left right skips).elim
  }

/-- Two listed neighbours with a gap between them are a gap of the zone. -/
theorem Surrounds.skips_of_jumps (surrounds : zone.Surrounds reading is)
    (jumps : Jumps is reading i j) (spaced : i.Spaced j)
    : zone.Skips reading ⟨i.wallOffset, j.wallOffset, j.start⟩ i j := by
  have first := surrounds.first
  have in_time := surrounds.in_time
  obtain ⟨left_mem, right_mem, touching, passed, not_reached⟩ := jumps
  unfold Interval.Spaced at spaced
  have left_short := surrounds.short left_mem (by omega)
  have right_short := surrounds.short right_mem (by omega)
  exact {
    found_before := surrounds.found i left_mem (j.start - 1) (by omega) (by omega) (by omega)
      (by omega)
    found_after := surrounds.found j right_mem j.start (by omega) (by omega) (by omega) (by omega)
    stop_eq := touching
    start_eq := rfl
    before_eq := rfl
    after_eq := rfl
    passed := by dsimp only; omega
    not_reached
  }

/-- A reading falls into one gap of the zone. -/
theorem Surrounds.instant_eq (surrounds : zone.Surrounds reading is) (jumps : Jumps is reading i j)
    {gap : LocalGap} {left right : Interval} (skips : zone.Skips reading gap left right)
    : gap.instant = j.start := by
  obtain ⟨others, instant_eq⟩ := surrounds.jumps_of_skips skips
  rw [← instant_eq]
  exact surrounds.jumps_once surrounds.roomy others jumps

/-- In a gap the offset of the side in front of it leads behind it. -/
theorem Surrounds.places_behind (surrounds : zone.Surrounds reading is)
    (jumps : Jumps is reading i j) (spaced : i.Spaced j) (later : choice ≠ .earlier)
    : zone.Places reading choice ⟨reading - i.wallOffset, j.wallOffset⟩ := by
  have skips := surrounds.skips_of_jumps jumps spaced
  have first := surrounds.first
  have in_time := surrounds.in_time
  have left_short := surrounds.offsets _ i skips.found_before
  have ⟨_, right_mem, touching, passed, not_reached⟩ := jumps
  have room := spaced.2
  have finds : zone.Finds (reading - i.wallOffset) j :=
    surrounds.found j right_mem _ (by omega) (by omega) (by omega) (by omega)
  refine ⟨⟨j, finds, rfl⟩, fun never => absurd skips (never _ _ _), fun gap left right also _ => ?_,
    fun _ _ _ _ chosen => absurd chosen later⟩
  have instant_eq := surrounds.instant_eq jumps also
  dsimp only
  omega

/-- In a gap the offset of the side behind it leads in front of it. -/
theorem Surrounds.places_inFront (surrounds : zone.Surrounds reading is)
    (jumps : Jumps is reading i j) (spaced : i.Spaced j)
    : zone.Places reading .earlier ⟨reading - j.wallOffset, i.wallOffset⟩ := by
  have skips := surrounds.skips_of_jumps jumps spaced
  have first := surrounds.first
  have in_time := surrounds.in_time
  have right_short := surrounds.offsets _ j skips.found_after
  have ⟨left_mem, _, touching, passed, not_reached⟩ := jumps
  have room := spaced.1
  have finds : zone.Finds (reading - j.wallOffset) i :=
    surrounds.found i left_mem _ (by omega) (by omega) (by omega) (by omega)
  refine ⟨⟨i, finds, rfl⟩, fun never => absurd skips (never _ _ _),
    fun _ _ _ _ chosen => by simp at chosen, fun gap left right also _ => ?_⟩
  have instant_eq := surrounds.instant_eq jumps also
  dsimp only
  omega

/-- What is chosen for a reading is placed right. -/
theorem Surrounds.places (surrounds : zone.Surrounds reading is) {answer : LocalIntervals}
    (answers : Answers is reading answer)
    (chosen : (Candidates.ofIntervals reading answer).choose reading choice = .ok e)
    : zone.Places reading choice e := by
  cases answers with
  | once member shown =>
      obtain rfl := Except.ok.inj chosen
      exact surrounds.places_inInterval member shown choice
  | twice left_mem right_mem left_shown right_shown before =>
      cases choice with
      | reject => cases chosen
      | later =>
          obtain rfl := Except.ok.inj chosen
          exact surrounds.places_inInterval right_mem right_shown _
      | compatible | earlier =>
          obtain rfl := Except.ok.inj chosen
          exact surrounds.places_inInterval left_mem left_shown _
  | skipped jumps spaced =>
      cases choice with
      | reject => cases chosen
      | earlier =>
          obtain rfl := Except.ok.inj chosen
          exact surrounds.places_inFront jumps spaced
      | compatible | later =>
          obtain rfl := Except.ok.inj chosen
          exact surrounds.places_behind jumps spaced (by simp)

/-- The earlier choice does not come behind the compatible one, nor that behind the later one. -/
theorem Surrounds.chosen_le (surrounds : zone.Surrounds reading is) {answer : LocalIntervals}
    (answers : Answers is reading answer) {choice other : Disambiguation} {e f : Resolved}
    (order : choice = .earlier ∧ other = .compatible ∨ choice = .compatible ∧ other = .later)
    (chosen : (Candidates.ofIntervals reading answer).choose reading choice = .ok e)
    (also : (Candidates.ofIntervals reading answer).choose reading other = .ok f)
    : e.instant ≤ f.instant := by
  have first := surrounds.first
  have in_time := surrounds.in_time
  cases answers with
  | once member shown =>
      obtain rfl := Except.ok.inj chosen
      obtain rfl := Except.ok.inj also
      exact Int.le_refl _
  | @twice i j left_mem right_mem left_shown right_shown before =>
      rcases order with ⟨rfl, rfl⟩ | ⟨rfl, rfl⟩
      · obtain rfl := Except.ok.inj chosen
        obtain rfl := Except.ok.inj also
        exact Int.le_refl _
      · obtain rfl := Except.ok.inj chosen
        obtain rfl := Except.ok.inj also
        have left := surrounds.finds left_mem left_shown
        have right := surrounds.finds right_mem right_shown
        have := before.stop_le
        simp only [Candidates.inInterval]
        omega
  | @skipped i j jumps spaced =>
      obtain ⟨_, _, touching, passed, not_reached⟩ := jumps
      rcases order with ⟨rfl, rfl⟩ | ⟨rfl, rfl⟩
      · obtain rfl := Except.ok.inj chosen
        obtain rfl := Except.ok.inj also
        dsimp only
        omega
      · obtain rfl := Except.ok.inj chosen
        obtain rfl := Except.ok.inj also
        exact Int.le_refl _

end CompiledZone

namespace Atlas

variable {atlas : Atlas} {name : String} {zone : CompiledZone} {d : LocalDateTime}
  {choice : Disambiguation} {e : Resolved}

/-- A query that may be outside of a range answers what there is. -/
theorem inRange_eq_ok {α : Type} {fault : RangeFault} {found : Option α} {value : α}
    : inRange fault found = .ok value ↔ found = some value := by
  cases found <;> simp [inRange]

/-- A lookup answers a query with what it succeeds with. -/
theorem ofLookup_eq_ok {α : Type} {result : Except Fault α} {value : α}
    : ofLookup result = .ok value ↔ result = .ok value := by
  cases result <;> simp [ofLookup, Except.mapError]

/-- The offset at an instant is the one of the interval that is found there. -/
theorem offsetAt_of_finds (zone_eq : atlas.zone name = .ok zone) {t : Int} {i : Interval}
    (finds : zone.Finds t i)
    : atlas.offsetAt name t = .ok (.ofInterval i) := by
  refine bind_eq_ok.mpr ⟨zone, zone_eq, bind_eq_ok.mpr ⟨some i, ?_, ?_⟩⟩
  · exact ofLookup_eq_ok.mpr finds.found
  · exact inRange_eq_ok.mpr rfl

/-- A local time is resolved by choosing among what its zone finds for it. -/
theorem resolve_ok (zone_eq : atlas.zone name = .ok zone)
    (resolved : atlas.resolve name d choice = .ok e)
    : d.isSupported = true
      ∧ ∃ answer,
          zone.intervalsForLocal d.seconds = .ok (some answer)
          ∧ (Candidates.ofIntervals d.seconds answer).choose d.seconds choice = .ok e := by
  obtain ⟨candidates, found, resolved⟩ := bind_eq_ok.mp resolved
  obtain ⟨reading, read, chosen⟩ := bind_eq_ok.mp resolved
  obtain ⟨also, also_read, found⟩ := bind_eq_ok.mp found
  obtain ⟨other, other_eq, found⟩ := bind_eq_ok.mp found
  obtain ⟨intervals, looked_up, found⟩ := bind_eq_ok.mp found
  obtain rfl := Except.ok.inj (also_read.symm.trans read)
  obtain rfl := Except.ok.inj (other_eq.symm.trans zone_eq)
  obtain ⟨answer, rfl, rfl⟩ := Option.map_eq_some_iff.mp (inRange_eq_ok.mp found)
  have seconds_eq := inRange_eq_ok.mp read
  simp only [LocalDateTime.seconds?, Option.ite_none_right_eq_some, Option.some.injEq]
    at seconds_eq
  obtain ⟨supported, rfl⟩ := seconds_eq
  exact ⟨supported, answer, ofLookup_eq_ok.mp looked_up, chosen⟩

/-- A local time is resolved to an instant at which the zone has the given offset. It shows the
local time unless the clock is set forward over it. If it is, the compatible and the later choice
lie behind the gap and the earlier one in front of it. The three choices come in order. -/
theorem resolve_consistent (zone_eq : atlas.zone name = .ok zone) (seamless : zone.Seamless)
    (consistent : zone.Consistent) (offsets : zone.ShortOffsets) (roomy : zone.Roomy)
    (small : d.Small)
    : (∀ choice e,
        atlas.resolve name d choice = .ok e
        → (∃ info, atlas.offsetAt name e.instant = .ok info ∧ info.offset = e.offset)
          ∧ ((∀ gap before after, ¬ zone.Skips d.seconds gap before after)
            → e.instant + e.offset = d.seconds)
          ∧ ∀ gap before after,
              zone.Skips d.seconds gap before after
              → (choice = .compatible ∨ choice = .later → gap.instant ≤ e.instant)
                ∧ (choice = .earlier → e.instant < gap.instant))
      ∧ (∀ e f,
          atlas.resolve name d .earlier = .ok e
          → atlas.resolve name d .compatible = .ok f
          → e.instant ≤ f.instant)
      ∧ ∀ e f,
          atlas.resolve name d .compatible = .ok e
          → atlas.resolve name d .later = .ok f
          → e.instant ≤ f.instant := by
  have answered {choice : Disambiguation} {e : Resolved}
      (resolved : atlas.resolve name d choice = .ok e)
      : ∃ is answer,
          zone.intervalsForLocal d.seconds = .ok (some answer)
          ∧ zone.Surrounds d.seconds is
          ∧ Answers is d.seconds answer
          ∧ (Candidates.ofIntervals d.seconds answer).choose d.seconds choice = .ok e := by
    obtain ⟨supported, answer, looked_up, chosen⟩ := resolve_ok zone_eq resolved
    have bounds := small.seconds_bounds supported
    obtain ⟨is, found, surrounds⟩ :=
      seamless.intervalsForLocal_eq consistent roomy offsets bounds.1 bounds.2
    rw [found] at looked_up
    exact ⟨is, answer, by rw [found, looked_up], surrounds,
      surrounds.answers (Except.ok.inj looked_up), chosen⟩
  have chosen_le {first second : Disambiguation} {e f : Resolved}
      (order : first = .earlier ∧ second = .compatible ∨ first = .compatible ∧ second = .later)
      (resolved : atlas.resolve name d first = .ok e)
      (also : atlas.resolve name d second = .ok f)
      : e.instant ≤ f.instant := by
    obtain ⟨is, answer, found, surrounds, answers, chosen⟩ := answered resolved
    obtain ⟨_, other, other_found, _, _, other_chosen⟩ := answered also
    obtain rfl := Option.some.inj (Except.ok.inj (found.symm.trans other_found))
    exact surrounds.chosen_le answers order chosen other_chosen
  refine ⟨fun choice e resolved => ?_, fun e f => chosen_le (.inl ⟨rfl, rfl⟩),
    fun e f => chosen_le (.inr ⟨rfl, rfl⟩)⟩
  obtain ⟨is, answer, _, surrounds, answers, chosen⟩ := answered resolved
  obtain ⟨⟨i, finds, offset_eq⟩, shown, behind, inFront⟩ := surrounds.places answers chosen
  exact ⟨⟨_, offsetAt_of_finds zone_eq finds, offset_eq⟩, shown, fun gap before after skips =>
    ⟨behind gap before after skips, inFront gap before after skips⟩⟩

end Atlas

-----------------------------------------------------------------------------------------
-- A zone whose clock is moved at midnight
-----------------------------------------------------------------------------------------

/-- Instants with the same changes up to them have the same state, by induction on the changes. -/
theorem Stream.stateAfter_congr {initial : RuleState} {t u : Int} {changes : List Transition}
    (same : ∀ v ∈ changes, v.instant ≤ t ↔ v.instant ≤ u)
    : Stream.stateAfter initial t changes = Stream.stateAfter initial u changes := by
  induction changes generalizing initial with
  | nil => rfl
  | cons v rest ih =>
      obtain ⟨here, later⟩ := List.forall_mem_cons.mp same
      rw [Stream.stateAfter_cons, Stream.stateAfter_cons, ih later]
      simp only [here]

namespace Tail

variable {tail : Tail} {i : Interval} {t : Int}

/-- Where the clock of a tail shows something new, a change is made. -/
theorem exists_change (differs : tail.clockAt (t - 1) ≠ tail.clockAt t)
    : ∃ u ∈ tail.changes, u.instant = t := by
  by_contra never
  refine differs (congrArg tail.shows (Stream.stateAfter_congr fun u member => ?_))
  have : u.instant ≠ t := fun same => never ⟨u, member, same⟩
  omega

/-- A tail starts at midnight in universal time, and its clock is moved at midnight only. -/
structure AtMidnight (tail : Tail) : Prop where
  starts : tail.start % 86400 = 0
  changes
    : ∀ r ∈ tail.rules.recurrences, ∀ savings,
        r.time.universalSeconds tail.stdOffset savings % 86400 = 0

/-- The changes of such a tail are made at midnight. -/
theorem AtMidnight.instant_eq (midnight : tail.AtMidnight) {u : Transition}
    (member : u ∈ tail.changes)
    : u.instant % 86400 = 0 := by
  obtain ⟨_, _, _, reaches, _⟩ := (Stream.sized_between tail.rules tail.start endOfTime
    tail.stdOffset tail.initialSavings).runs
  obtain ⟨savings, r, change⟩ := reaches.isChange_of_mem member
  have at_midnight := midnight.changes r (List.mem_of_getElem? change.at_index) savings
  have instant_eq : u.instant = r.instantIn u.year tail.stdOffset savings := change.instant_eq
  simp only [Recurrence.instantIn, Calendar.secondsOfDay, Calendar.secondsPerDay] at instant_eq
  omega

/-- A run of such a tail lasts for hours. -/
theorem AtMidnight.run_lasts (midnight : tail.AtMidnight) (run : tail.RunAround t i)
    : 3600 ≤ i.stop - i.start := by
  have start_le := run.stretch.start_le
  have lt_stop := run.stretch.lt_stop
  have end_eq : endOfTime % 86400 = 55807 := rfl
  have start_midnight : i.start % 86400 = 0 := by
    rcases run.begins with start_eq | differs
    · rw [start_eq]
      exact midnight.starts
    · rw [← run.stretch.constant i.start (Int.le_refl _) (by omega)] at differs
      obtain ⟨u, member, instant_eq⟩ := exists_change differs
      rw [← instant_eq]
      exact midnight.instant_eq member
  rcases run.stretch.ends with stop_eq | differs
  · omega
  · rw [← run.stretch.constant (i.stop - 1) (by omega) (by omega)] at differs
    obtain ⟨u, member, instant_eq⟩ := exists_change differs.symm
    have := midnight.instant_eq member
    omega

end Tail

/-- A rule set that saves an hour from March to October in every year since 2000. -/
def midnightRules : RuleSet :=
  { name := "M"
    recurrences :=
      [ { name := "M"
          first := .year 2000
          last := .latest
          month := .mar
          day := .fixed 1
          time := { mode := .universal, time := .zero }
          save := .ofSeconds 3600
          letter := some "D" },
        { name := "M"
          first := .year 2000
          last := .latest
          month := .nov
          day := .fixed 1
          time := { mode := .universal, time := .zero }
          save := .zero
          letter := some "S" } ] }

/-- The tail of these rules from March 2000 on. -/
def midnightTail : Tail :=
  { start := 951868800
    stdOffset := 0
    format := .letter "W%sT"
    initialSavings := 3600
    initialLetter := some "D"
    rules := midnightRules }

/-- The zone of this tail. -/
def midnightZone : CompiledZone :=
  { intervals :=
      [ { start := beginningOfTime
          stop := 951868800
          stdOffset := 0
          savings := 0
          name := "WST" } ]
    tail := some midnightTail }

/-- The clock of the zone is moved at midnight. -/
theorem midnightTail_atMidnight : midnightTail.AtMidnight where
  starts := rfl
  changes r member savings := by
    rcases List.mem_pair.mp member with rfl | rfl <;> rfl

/-- The rules keep to their seasons. -/
theorem midnightRules_seasonal : midnightRules.Seasonal 0 midnightRules.savedAmounts where
  day := by decide +kernel
  near := by decide +kernel
  closed := by decide +kernel
  apart := by decide +kernel
  yearly := by decide +kernel

theorem midnightZone_findsRuns : midnightZone.FindsRuns := by
  refine CompiledZone.findsRuns_of_regular fun tail tail_eq => ?_
  obtain rfl := Option.some.inj tail_eq
  have within : midnightRules.WithinYear 0 midnightRules.savedAmounts := by decide +kernel
  constructor
  · exact .of_seasonal (by decide +kernel) (by decide +kernel)
      ⟨_, .head _, 2000, 0, by decide +kernel, .inl rfl, by decide +kernel, rfl⟩
      midnightRules_seasonal within rfl
  · exact ⟨_, .head _, _, .tail _ (.head _), by decide +kernel, by decide +kernel,
      by decide +kernel⟩

theorem midnightZone_laidOut : midnightZone.LaidOut := by decide +kernel

theorem midnightZone_consistent : midnightZone.Consistent :=
  midnightZone_laidOut.consistent midnightZone_findsRuns

/-- The intervals of the tail last for hours, and their clocks differ by an hour at most. -/
theorem midnightZone_tail {t : Int} {i : Interval} (after : midnightTail.start ≤ t)
    (finds : midnightZone.Finds t i)
    : 3600 ≤ i.stop - i.start ∧ 0 ≤ i.wallOffset ∧ i.wallOffset ≤ 3600 := by
  obtain ⟨j, found, run⟩ := midnightZone_findsRuns midnightTail rfl t after finds.covered
  have same := finds.found
  rw [CompiledZone.intervalAt_of_tail rfl after, found] at same
  obtain rfl := Option.some.inj (Except.ok.inj same)
  refine ⟨midnightTail_atMidnight.run_lasts run, ?_⟩
  rw [run.wallOffset_eq]
  rcases midnightTail.savings_stateAt t with saved | ⟨r, member, saved⟩
  · rw [saved]
    decide
  · rw [saved]
    exact (by decide
      : ∀ r ∈ midnightTail.rules.recurrences,
          0 ≤ midnightTail.stdOffset + r.savings ∧ midnightTail.stdOffset + r.savings ≤ 3600)
      r member

theorem midnightZone_roomy : midnightZone.Roomy := by
  intro i j neighbours
  unfold Interval.Spaced
  cases neighbours with
  | explicit intervals_eq =>
      have := congrArg List.length intervals_eq
      simp [midnightZone] at this
      omega
  | entering tail_eq last_eq finds =>
      obtain rfl := Option.some.inj tail_eq
      have first : 3600 ≤ i.stop - i.start ∧ i.wallOffset = 0 := by
        rw [← Option.some.inj last_eq]
        decide
      have second := midnightZone_tail (Int.le_refl _) finds
      omega
  | inTail tail_eq after finds later touching =>
      obtain rfl := Option.some.inj tail_eq
      have first := midnightZone_tail after finds
      have before := finds.contains midnightZone_consistent
      have behind := later.contains midnightZone_consistent
      have second := midnightZone_tail (by omega) later
      omega

namespace Atlas

/-- The local time half past midnight of the day on which the clock is set forward at midnight. -/
def skippedTime : LocalDateTime :=
  { year := 2010, month := 3, day := 1, hour := 0, minute := 30, second := 0 }

/-- Witness: a local time that is skipped is resolved to an instant behind the gap. -/
theorem resolve_consistent_midnight
    : ∃ atlas,
        ofIndexWith NameLookup.ascii [("M", { token := 0, zone := midnightZone })] = .ok atlas
        ∧ atlas.resolve "M" skippedTime .compatible = .ok { instant := 1267403400, offset := 3600 }
        ∧ ∃ info, atlas.offsetAt "M" 1267403400 = .ok info ∧ info.offset = 3600 := by
  obtain ⟨atlas, made, _⟩ := (ofIndexWith_of_takesAscii NameLookup.ascii_takesAscii
    [("M", { token := 0, zone := midnightZone })]).1 (by decide +kernel)
  have answered
      : (ofIndexWith NameLookup.ascii [("M", { token := 0, zone := midnightZone })]).bind
            (·.zone "M")
          = .ok midnightZone
        ∧ (ofIndexWith NameLookup.ascii [("M", { token := 0, zone := midnightZone })]).bind
            (·.resolve "M" skippedTime .compatible)
          = .ok { instant := 1267403400, offset := 3600 } := by
    constructor <;> decide +kernel
  rw [made] at answered
  obtain ⟨zone_eq, resolved⟩ := answered
  have offsets := midnightZone_laidOut.shortOffsets midnightZone_findsRuns (by decide) (by decide)
  have consistent := resolve_consistent zone_eq midnightZone_laidOut.seamless
    midnightZone_consistent offsets midnightZone_roomy
    (d := skippedTime) ⟨by decide, by decide, by decide, by decide, by decide⟩
  exact ⟨atlas, made, resolved, (consistent.1 _ _ resolved).1⟩

end Atlas

end CivilTime
