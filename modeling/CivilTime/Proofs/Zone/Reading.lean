import CivilTime.Proofs.Zone.Completion
import CivilTime.Proofs.Zone.Cutoff
import CivilTime.Proofs.Zone.Lookup

/-! A compiled zone shows what its lines say when they are read one after the other.
A line starts where the one in front of it ends, and ends at the first instant that its own end
falls on under the saved time in force there. In between it shows a fixed saving, or the state of
the last change of its rules.
-/

namespace CivilTime

-----------------------------------------------------------------------------------------
-- The reading of lines
-----------------------------------------------------------------------------------------

/-- What a line says from its start on. -/
structure LineReading where
  /-- The state at an instant. -/
  stateAt : Int → RuleState
  /-- The first change past the cutoff of a last line that never ends. -/
  cut : Option Transition

/-- The saved time at an instant. -/
def LineReading.savingsAt (reading : LineReading) (instant : Int) : Int :=
  (reading.stateAt instant).savings

namespace ZoneLine

/-- What a line says, given its start and the offsets at the end of the line in front of it. -/
def reading (line : ZoneLine) (table : Table RuleSet) (start : Int)
    (previous : Option LineOffsets)
    : Except Fault LineReading :=
  match line.savings with
  | .standard => .ok { stateAt := fun _ => { savings := 0, letter := none }, cut := none }
  | .fixed savings =>
      .ok { stateAt := fun _ => { savings := savings.seconds, letter := none }, cut := none }
  | .rules name =>
    match table.get? name with
    | none => .error (.malformedZone name (.unknownRuleSet name))
    | some set => do
      let state ← set.stateAt start line.stdOffset.seconds previous
      pure { stateAt := line.stateAt set start state, cut := line.cut? set start state }

/-- A line ends at the first instant that its end falls on under the saved time in force just in
front of it or, failing that, from it on. -/
structure EndsAt (line : ZoneLine) (savingsAt : Int → Int) (start stop savings : Int) : Prop where
  from_start : start ≤ stop
  first
    : ∀ x,
        start ≤ x
        → x < stop
        → line.stopInstant (savingsAt x) ≠ x
          ∧ (start < x → line.stopInstant (savingsAt (x - 1)) ≠ x)
  falls_on : line.stopInstant savings = stop
  in_force
    : (start < stop ∧ savings = savingsAt (stop - 1))
      ∨ (savings = savingsAt stop
        ∧ (start < stop → line.stopInstant (savingsAt (stop - 1)) ≠ stop))

/-- A line does not end at two instants, or under two amounts of saved time. -/
theorem EndsAt.unique {line : ZoneLine} {savingsAt : Int → Int}
    {start stop savings stop' savings' : Int}
    (ends : line.EndsAt savingsAt start stop savings)
    (ends' : line.EndsAt savingsAt start stop' savings')
    : stop = stop' ∧ savings = savings' := by
  have not_before {a s b u : Int} (first : line.EndsAt savingsAt start a s)
      (second : line.EndsAt savingsAt start b u)
      : ¬ a < b := by
    intro lt
    obtain ⟨not_from, not_in_front⟩ := second.first a first.from_start lt
    rcases first.in_force with ⟨moved, rfl⟩ | ⟨rfl, _⟩
    · exact not_in_front moved first.falls_on
    · exact not_from first.falls_on
  have stop_eq : stop = stop' := by
    have := not_before ends ends'
    have := not_before ends' ends
    omega
  subst stop_eq
  refine ⟨rfl, ?_⟩
  rcases ends.in_force with ⟨moved, rfl⟩ | ⟨rfl, not_in_front⟩ <;>
    rcases ends'.in_force with ⟨moved', rfl⟩ | ⟨rfl, not_in_front'⟩
  · rfl
  · exact absurd ends.falls_on (not_in_front' moved)
  · exact absurd ends'.falls_on (not_in_front moved')
  · rfl

/-- A line under the same saved time throughout ends where its end falls under it. -/
theorem endsAt_of_constant {line : ZoneLine} {start savings : Int}
    (le : start ≤ line.stopInstant savings)
    : line.EndsAt (fun _ => savings) start (line.stopInstant savings) savings where
  from_start := le
  first x _ lt := ⟨by omega, fun _ => by omega⟩
  falls_on := rfl
  in_force := by
    rcases Int.lt_or_eq_of_le le with lt | same
    · exact .inl ⟨lt, rfl⟩
    · exact .inr ⟨rfl, fun lt => absurd same (by omega)⟩

end ZoneLine

/-- The line behind the given lines starts at an instant, with the offsets in force at the end of
the last one of them. -/
inductive ZoneRecord.StartsAt (table : Table RuleSet)
    : List ZoneLine → Int → Option LineOffsets → Prop where
  | first : StartsAt table [] beginningOfTime none
  | behind {earlier : List ZoneLine} {line : ZoneLine} {start stop savings : Int}
      {previous : Option LineOffsets} {reading : LineReading}
      (starts : StartsAt table earlier start previous)
      (read : line.reading table start previous = .ok reading)
      (ends : line.EndsAt reading.savingsAt start stop savings)
      : StartsAt table (earlier ++ [line]) stop
          (some { stdOffset := line.stdOffset.seconds, savings })

namespace Compilation

variable {zone : String} {line : ZoneLine} {table : Table RuleSet}

-----------------------------------------------------------------------------------------
-- The end of one line
-----------------------------------------------------------------------------------------

/-- A span that is added does not end in front of its start. -/
theorem le_of_push {timeline next : Timeline} {span : Interval}
    (pushed : timeline.push span = .ok next)
    : span.start ≤ span.stop := by
  rcases Timeline.push_cases pushed with ⟨empty, _⟩ | ⟨forward, _⟩ | ⟨forward, _⟩ <;> omega

/-- Up to the start of the later span the end of the line lies more than a second ahead, under the
saved time in force. The proof is by induction on the changes. -/
theorem Follows.stop_ahead {segment last : Segment} {changes : List Transition}
    (follows : Follows zone line segment changes last)
    (ordered : changes.Pairwise fun t u => t.instant < u.instant) {state : RuleState}
    (savings_eq : segment.savings = state.savings) {x : Int} (after : segment.start ≤ x)
    (before : x < last.start)
    : x + 1 < line.stopInstant (Stream.stateAfter state x changes).savings := by
  induction follows generalizing state with
  | stay => omega
  | @change segment last t timeline name rest inside closed named later ih =>
      obtain ⟨rest_later, rest_ordered⟩ := List.pairwise_cons.mp ordered
      rcases Int.lt_or_le x t.instant with lt | ge
      · rw [Stream.stateAfter_of_behind (List.forall_mem_cons.mpr
          ⟨lt, fun u member => Int.lt_trans lt (rest_later u member)⟩), ← savings_eq]
        omega
      · rw [Stream.stateAfter_cons, if_pos ge]
        exact ih rest_ordered rfl ge before

namespace FollowsLine

variable {rules : RuleSet} {progress : Progress} {state : RuleState} {last : Segment}
  {changes others : List Transition}

/-- The last span that is followed starts in front of the changes that are not. -/
theorem last_start_lt
    (followed : FollowsLine zone line rules progress state changes others last)
    : ∀ t ∈ others, last.start < t.instant := by
  intro t member
  rcases List.eq_nil_or_concat' changes with rfl | ⟨earlier, cut, rfl⟩
  · cases followed.follows with
    | stay => exact (followed.inside t member).1
  · rw [followed.start_eq]
    exact followed.later t member

/-- In front of the last span the end of the line lies more than a second ahead. -/
theorem stop_ahead (followed : FollowsLine zone line rules progress state changes others last)
    {x : Int} (after : progress.start ≤ x) (before : x < last.start)
    : x + 1 < line.stopInstant (line.stateAt rules progress.start state x).savings := by
  rw [followed.stateAt_eq fun t member => Int.lt_trans before (followed.last_start_lt t member)]
  exact followed.follows.stop_ahead followed.front_ordered rfl after before

/-- The saved time of the last span is in force from its start up to the next change. -/
theorem savings_settled
    (followed : FollowsLine zone line rules progress state changes others last) {x : Int}
    (after : last.start ≤ x) (front : ∀ t ∈ others, x < t.instant)
    : (line.stateAt rules progress.start state x).savings = last.savings := by
  rw [followed.stateAt_eq front]
  exact (followed.last_shows.2 x after).1.symm

/-- A line whose changes are followed up to its end ends there. -/
theorem endsAt (followed : FollowsLine zone line rules progress state changes others last)
    (le : last.start ≤ line.stopInstant last.savings)
    (others_behind : ∀ t ∈ others, line.stopInstant last.savings ≤ t.instant)
    : line.EndsAt (fun x => (line.stateAt rules progress.start state x).savings) progress.start
        (line.stopInstant last.savings) last.savings := by
  have start_le := followed.last_shows.1
  have front {x : Int} (lt : x < line.stopInstant last.savings) (t : Transition)
      (member : t ∈ others)
      : x < t.instant :=
    Int.lt_of_lt_of_le lt (others_behind t member)
  have not_at {x : Int} (after : progress.start ≤ x) (lt : x < line.stopInstant last.savings)
      : x + 1 < line.stopInstant (line.stateAt rules progress.start state x).savings
        ∨ (line.stateAt rules progress.start state x).savings = last.savings := by
    rcases Int.lt_or_le x last.start with in_front | ge
    · exact .inl (followed.stop_ahead after in_front)
    · exact .inr (followed.savings_settled ge (front lt))
  refine ⟨by omega, fun x after lt => ⟨?_, fun moved => ?_⟩, rfl, ?_⟩
  · rcases not_at after lt with ahead | settled
    · omega
    · rw [settled]
      omega
  · rcases not_at (x := x - 1) (by omega) (by omega) with ahead | settled
    · omega
    · rw [settled]
      omega
  · rcases Int.lt_or_eq_of_le le with lt | same
    · exact .inl ⟨by omega, (followed.savings_settled (by omega) (front (by omega))).symm⟩
    · refine .inr ⟨?_, fun moved => ?_⟩
      · rw [← same]
        exact (followed.savings_settled (Int.le_refl _) followed.last_start_lt).symm
      · have := followed.stop_ahead (x := line.stopInstant last.savings - 1) (by omega) (by omega)
        omega

end FollowsLine

-----------------------------------------------------------------------------------------
-- What one line shows
-----------------------------------------------------------------------------------------

/-- A line that has been compiled keeps what the lines in front of it show, shows what it says and
ends where it says. -/
structure Reads (line : ZoneLine) (reading : LineReading) (progress : Progress)
    (lineEnd : LineEnd)
    : Prop where
  covers : Timeline.Covers lineEnd.timeline.newestFirst lineEnd.stop
  keeps
    : ∀ instant clock,
        ShowsAt progress.timeline.newestFirst instant clock
        → ShowsAt lineEnd.timeline.newestFirst instant clock
  shows
    : ∀ instant,
        progress.start ≤ instant
        → instant < lineEnd.stop
        → (∀ cut, reading.cut = some cut → instant < cut.instant)
        → ShowsAt lineEnd.timeline.newestFirst instant (line.shows (reading.stateAt instant))
  ends
    : line.isOpen = false
      → ∃ next savings,
          lineEnd = .next next
          ∧ next.previous = some { stdOffset := line.stdOffset.seconds, savings }
          ∧ line.EndsAt reading.savingsAt progress.start next.start savings
  never_ends : line.isOpen = true → ∀ next, lineEnd = .next next → next.start = endOfTime
  cut_eq
    : ∀ timeline tail,
        lineEnd = .tail timeline tail
        → ∃ cut, reading.cut = some cut ∧ cut.instant = tail.start

/-- A line with a fixed amount of saved time shows it. -/
theorem compileFixed_reads {progress : Progress} {savings : Int} {lineEnd : LineEnd}
    (compiled : compileFixed zone line progress savings = .ok lineEnd)
    (covers : Timeline.Covers progress.timeline.newestFirst progress.start)
    : Reads line { stateAt := fun _ => { savings, letter := none }, cut := none } progress
        lineEnd := by
  obtain ⟨name, named, compiled⟩ := bind_eq_ok.mp compiled
  obtain ⟨timeline, pushed, compiled⟩ := bind_eq_ok.mp compiled
  obtain rfl := pure_eq_ok.mp compiled
  have pushed := push_of_pushSpan pushed
  have shows_iff (instant : Int) (clock : Int × String) :=
    Timeline.Covers.showsAt_push covers pushed instant clock
  exact {
    covers := Timeline.Covers.push covers pushed
    keeps := fun instant clock shown => (shows_iff instant clock).mpr (.inl shown)
    shows := fun instant after before _ => by
      refine (shows_iff instant _).mpr (.inr ⟨after, before, ?_⟩)
      exact Prod.ext rfl (NameFormat.apply_eq_ok.mp named).2
    ends := fun _ => ⟨_, savings, rfl, rfl, ZoneLine.endsAt_of_constant (le_of_push pushed)⟩
    never_ends := fun opened next next_eq => by
      obtain rfl := LineEnd.next.inj next_eq
      exact ZoneLine.stopInstant_of_isOpen opened savings
    cut_eq := fun timeline tail tail_eq => by simp at tail_eq
  }

section Rules

variable {rules : RuleSet} {progress : Progress} {state : RuleState} {last : Segment}
  {changes others : List Transition} {lineEnd : LineEnd}

/-- A line that is finished behind its last span shows what its changes say up to its end, unless a
change that has not been followed comes in front of it. -/
theorem reads_of_finish {cut : Option Transition}
    (followed : FollowsLine zone line rules progress state changes others last)
    (finished : last.finish zone line = .ok lineEnd)
    (hidden
      : ∀ t ∈ others,
          line.stopInstant last.savings ≤ t.instant ∨ ∃ u, cut = some u ∧ u.instant ≤ t.instant)
    (settled : line.isOpen = false → ∀ t ∈ others, line.stopInstant last.savings ≤ t.instant)
    : Reads line { stateAt := line.stateAt rules progress.start state, cut } progress lineEnd := by
  obtain ⟨timeline, closed, rfl⟩ := finish_ok finished
  have last_shown := followed.last_shows.2 last.start (Int.le_refl _)
  exact {
    covers := covers_close followed.last_covers closed
    keeps := fun instant clock earlier => by
      refine (showsAt_close followed.last_covers closed last_shown instant clock).mpr (.inl ?_)
      exact (followed.showsAt_iff instant clock).mpr (.inl earlier)
    shows := fun instant after before before_cut => by
      refine followed.shows_closed closed after before fun t member => ?_
      rcases hidden t member with past_end | ⟨u, cut_eq, le⟩
      · exact Int.lt_of_lt_of_le before past_end
      · exact Int.lt_of_lt_of_le (before_cut u cut_eq) le
    ends := fun is_closed =>
      ⟨_, last.savings, rfl, rfl,
        followed.endsAt (le_of_push (push_of_pushSpan closed)) (settled is_closed)⟩
    never_ends := fun opened next next_eq => by
      obtain rfl := LineEnd.next.inj next_eq
      exact ZoneLine.stopInstant_of_isOpen opened last.savings
    cut_eq := fun timeline tail tail_eq => by simp at tail_eq
  }

/-- A line that leads into a tail shows what its changes say up to the start of the tail. -/
theorem reads_of_tail {cut : Transition} {earlier : List Transition}
    (followed : FollowsLine zone line rules progress state (earlier ++ [cut]) others last)
    (opened : line.isOpen = true)
    : Reads line { stateAt := line.stateAt rules progress.start state, cut := some cut } progress
        (.tail last.timeline (tailFrom line rules cut)) := by
  have last_covers := followed.last_covers
  rw [followed.start_eq] at last_covers
  exact {
    covers := last_covers
    keeps := fun instant clock shown_before =>
      (followed.showsAt_iff instant clock).mpr (.inl shown_before)
    shows := fun instant after before _ => by
      have front : instant < cut.instant := before
      refine followed.shows_front after (lt_of_lt_of_eq front followed.start_eq.symm)
        fun t member => ?_
      exact Int.lt_trans front (followed.later t member)
    ends := fun closed => by simp [opened] at closed
    never_ends := fun _ next next_eq => by simp at next_eq
    cut_eq := fun timeline tail tail_eq => by
      obtain ⟨_, rfl⟩ := LineEnd.tail.inj tail_eq
      exact ⟨cut, rfl, rfl⟩
  }

/-- A line under rules shows the state of the last change of its rules. The cases are the ways in
which a line ends. -/
theorem compileRules_reads {isLast : Bool}
    (compiled : compileRules zone line rules progress isLast = .ok lineEnd)
    (last_or_closed : isLast = true ∨ line.isOpen = false)
    (covers : Timeline.Covers progress.timeline.newestFirst progress.start)
    : ∃ state,
        rules.stateAt progress.start line.stdOffset.seconds progress.previous = .ok state
        ∧ Reads line
            { stateAt := line.stateAt rules progress.start state
              cut := line.cut? rules progress.start state }
            progress lineEnd := by
  obtain ⟨state, changes, last, rest, stated, _, followed, ends⟩ :=
    compileRules_follows compiled covers
  refine ⟨state, stated, ?_⟩
  have cutoff_eq
      : cutoffYear? line rules progress.start isLast
        = cutoffYear? line rules progress.start true := by
    rcases last_or_closed with rfl | closed
    · rfl
    · simp [cutoffYear?, closed]
  rw [cutoff_eq] at ends
  cases ends with
  | exhausted front finished => exact reads_of_finish followed finished (by simp) (by simp)
  | @ended _ _ t others _ front past_end finished =>
      have left_eq
          : (.ok t :: others).filterMap Except.toOption
            = t :: others.filterMap Except.toOption :=
        rfl
      rw [left_eq] at followed
      have later := (List.pairwise_cons.mp (List.pairwise_append.mp followed.ordered).2.1).1
      have all_over : ∀ u ∈ t :: others.filterMap Except.toOption,
          line.stopInstant last.savings ≤ u.instant :=
        List.forall_mem_cons.mpr
          ⟨past_end, fun u member => Int.le_of_lt (Int.lt_of_le_of_lt past_end (later u member))⟩
      exact reads_of_finish followed finished (fun u member => .inl (all_over u member))
        fun _ => all_over
  | @settled earlier cut _ others _ front past settled finished =>
      have opened := (isLast_of_pastCutoff past).2
      rw [followed.cut_eq front past]
      refine reads_of_finish followed finished (fun u member => .inr ⟨cut, rfl, ?_⟩)
        fun closed => by simp [opened] at closed
      exact Int.le_of_lt (followed.later u member)
  | @tail earlier cut _ others front past alternating =>
      rw [followed.cut_eq front past]
      exact reads_of_tail followed (isLast_of_pastCutoff past).2

end Rules

/-- A line that compiles shows what it says. -/
theorem compileLine_reads {progress : Progress} {isLast : Bool} {lineEnd : LineEnd}
    (compiled : compileLine zone table line progress isLast = .ok lineEnd)
    (covers : Timeline.Covers progress.timeline.newestFirst progress.start)
    : ∃ reading,
        line.reading table progress.start progress.previous = .ok reading
        ∧ Reads line reading progress lineEnd := by
  unfold compileLine at compiled
  split at compiled
  · simp at compiled
  · rename_i not_open
    have last_or_closed : isLast = true ∨ line.isOpen = false := by
      cases isLast <;> simp_all
    unfold ZoneLine.reading
    cases source : line.savings with
    | standard =>
        simp only [source] at compiled
        exact ⟨_, rfl, compileFixed_reads compiled covers⟩
    | fixed savings =>
        simp only [source] at compiled
        exact ⟨_, rfl, compileFixed_reads compiled covers⟩
    | rules name =>
        simp only [source] at compiled
        cases found : table.get? name with
        | none => simp [found] at compiled
        | some set =>
            simp only [found] at compiled
            obtain ⟨state, stated, reads⟩ := compileRules_reads compiled last_or_closed covers
            refine ⟨_, ?_, reads⟩
            simp only [found]
            exact bind_eq_ok.mpr ⟨state, stated, rfl⟩

-----------------------------------------------------------------------------------------
-- The lines of a record
-----------------------------------------------------------------------------------------

/-- What the intervals show when a line has been compiled they go on to show, and the tail starts
behind it. The proof is by induction on the lines that are left. -/
theorem compileLines_keeps {lines : List ZoneLine} {progress : Progress} {compiled : CompiledZone}
    (completed : compileLines zone table lines progress = .ok compiled)
    (covers : Timeline.Covers progress.timeline.newestFirst progress.start) {instant : Int}
    {clock : Int × String} (shown : ShowsAt progress.timeline.newestFirst instant clock)
    : ShowsAt compiled.intervals instant clock
      ∧ ∀ tail, compiled.tail = some tail → instant < tail.start := by
  induction lines generalizing progress with
  | nil =>
      obtain ⟨rfl, _⟩ := complete_ok completed
      exact ⟨by simpa [ShowsAt] using shown, fun tail tail_eq => by simp at tail_eq⟩
  | cons line rest ih =>
      obtain ⟨lineEnd, step, completed⟩ := bind_eq_ok.mp completed
      obtain ⟨reading, _, reads⟩ := compileLine_reads step covers
      have kept := reads.keeps instant clock shown
      cases lineEnd with
      | next next => exact ih completed reads.covers kept
      | tail timeline tail =>
          obtain ⟨rfl, _⟩ := complete_ok completed
          refine ⟨by simpa [ShowsAt, LineEnd.timeline] using kept, fun t tail_eq => ?_⟩
          obtain rfl := Option.some.inj tail_eq
          exact reads.covers.lt_of_showsAt kept

/-- A line that ends leaves no change to a tail. -/
theorem cut?_of_closed (closed : line.isOpen = false) (rules : RuleSet) (start : Int)
    (state : RuleState)
    : line.cut? rules start state = none := by
  have no_cutoff : cutoffYear? line rules start true = none := by simp [cutoffYear?, closed]
  rw [ZoneLine.cut?, no_cutoff, List.find?_eq_none]
  simp [pastCutoff]

/-- The reading of a line that ends leaves no change to a tail. -/
theorem cut_of_closed (closed : line.isOpen = false) {start : Int}
    {previous : Option LineOffsets} {reading : LineReading}
    (read : line.reading table start previous = .ok reading)
    : reading.cut = none := by
  unfold ZoneLine.reading at read
  cases source : line.savings with
  | standard =>
      simp only [source, Except.ok.injEq] at read
      rw [← read]
  | fixed savings =>
      simp only [source, Except.ok.injEq] at read
      rw [← read]
  | rules name =>
      simp only [source] at read
      cases found : table.get? name with
      | none => simp [found] at read
      | some set =>
          simp only [found] at read
          obtain ⟨state, _, read⟩ := bind_eq_ok.mp read
          rw [← pure_eq_ok.mp read]
          exact cut?_of_closed closed set start state

/-- Every line of a record starts where the lines in front of it say, and what it shows the zone
goes on to show. The proof is by induction on the lines in front of it. -/
theorem compileLines_reads {front earlier later : List ZoneLine} {progress : Progress}
    {compiled : CompiledZone}
    (completed : compileLines zone table (earlier ++ line :: later) progress = .ok compiled)
    (covers : Timeline.Covers progress.timeline.newestFirst progress.start)
    (starts : ZoneRecord.StartsAt table front progress.start progress.previous)
    : ∃ before lineEnd reading,
        ZoneRecord.StartsAt table (front ++ earlier) before.start before.previous
        ∧ line.reading table before.start before.previous = .ok reading
        ∧ Reads line reading before lineEnd
        ∧ (line.isOpen = true → later = [])
        ∧ (line.isOpen = true
          → compiled.tail = match lineEnd with | .next _ => none | .tail _ tail => some tail)
        ∧ ∀ instant clock,
            ShowsAt lineEnd.timeline.newestFirst instant clock
            → ShowsAt compiled.intervals instant clock
              ∧ ∀ tail, compiled.tail = some tail → instant < tail.start := by
  have closed_inside {l : ZoneLine} {rest : List ZoneLine} {progress : Progress}
      {lineEnd : LineEnd} (some_left : rest ≠ [])
      (step : compileLine zone table l progress rest.isEmpty = .ok lineEnd)
      : l.isOpen = false := by
    cases opened : l.isOpen with
    | false => rfl
    | true => simp [compileLine, opened, some_left] at step
  induction earlier generalizing front progress with
  | nil =>
      obtain ⟨lineEnd, step, completed⟩ := bind_eq_ok.mp completed
      obtain ⟨reading, read, reads⟩ := compileLine_reads step covers
      have last_of_open (opened : line.isOpen = true) : later = [] := by
        rcases List.eq_nil_or_concat later with rfl | ⟨_, _, some_left⟩
        · rfl
        · have := closed_inside (by rw [some_left]; simp) step
          simp [opened] at this
      refine ⟨progress, lineEnd, reading, by simpa using starts, read, reads, last_of_open, ?_, ?_⟩
      · intro opened
        obtain rfl := last_of_open opened
        cases lineEnd with
        | next next => rw [(complete_ok completed).1]
        | tail timeline tail => rw [(complete_ok completed).1]
      · intro instant clock shown
        cases lineEnd with
        | next next => exact compileLines_keeps completed reads.covers shown
        | tail timeline tail =>
            obtain ⟨rfl, _⟩ := complete_ok completed
            refine ⟨by simpa [ShowsAt, LineEnd.timeline] using shown, fun t tail_eq => ?_⟩
            obtain rfl := Option.some.inj tail_eq
            exact reads.covers.lt_of_showsAt shown
  | cons l rest ih =>
      obtain ⟨lineEnd, step, completed⟩ := bind_eq_ok.mp completed
      obtain ⟨reading, read, reads⟩ := compileLine_reads step covers
      obtain ⟨next, savings, rfl, previous_eq, ends⟩ :=
        reads.ends (closed_inside (by simp) step)
      have later_starts := starts.behind read ends
      rw [← previous_eq] at later_starts
      obtain ⟨before, lineEnd, reading, starts, rest⟩ := ih completed reads.covers later_starts
      exact ⟨before, lineEnd, reading, by simpa using starts, rest⟩

end Compilation

/-- A zone takes over what its last line says: up to the start of its tail, or up to the first
change past the cutoff where it has none. -/
def CompiledZone.TakesOver (zone : CompiledZone) (reading : LineReading) (instant : Int) : Prop :=
  match zone.tail with
  | some tail => instant < tail.start
  | none => ∀ cut, reading.cut = some cut → instant < cut.instant

/-- A lookup in a compiled zone shows what the lines say. Each line starts where the line in front
of it ends and, unless it never ends, ends at the first instant that its end falls on. In between
the zone shows what the line says, a last line that never ends being taken over up to the tail. -/
theorem ZoneRecord.compile_showsReading {record : ZoneRecord} {name : String}
    {table : Table RuleSet} {zone : CompiledZone} (compiled : record.compile name table = .ok zone)
    {earlier later : List ZoneLine} {line : ZoneLine}
    (lines_eq : record.lines = earlier ++ line :: later)
    : ∃ start previous reading stop,
        StartsAt table earlier start previous
        ∧ line.reading table start previous = .ok reading
        ∧ (line.isOpen = false → ∃ savings, line.EndsAt reading.savingsAt start stop savings)
        ∧ (line.isOpen = true → later = [] ∧ stop = endOfTime)
        ∧ ∀ instant,
            start ≤ instant
            → instant < stop
            → (line.isOpen = true → zone.TakesOver reading instant)
            → ∃ i,
                zone.intervalAt instant = .ok (some i)
                ∧ i.start ≤ instant
                ∧ instant < i.stop
                ∧ i.clock = line.shows (reading.stateAt instant) := by
  have contiguous := contiguous_of_compile compiled
  unfold compile at compiled
  split at compiled
  · simp at compiled
  rw [lines_eq] at compiled
  obtain ⟨before, lineEnd, reading, starts, read, reads, last_of_open, tail_eq, kept⟩ :=
    Compilation.compileLines_reads compiled .empty .first
  have found {instant : Int} (after : before.start ≤ instant) (inside : instant < lineEnd.stop)
      (before_cut : ∀ cut, reading.cut = some cut → instant < cut.instant)
      : ∃ i,
          zone.intervalAt instant = .ok (some i)
          ∧ i.start ≤ instant
          ∧ instant < i.stop
          ∧ i.clock = line.shows (reading.stateAt instant) := by
    obtain ⟨⟨i, member, from_start, in_front, clock_eq⟩, front⟩ :=
      kept instant _ (reads.shows instant after inside before_cut)
    exact ⟨i, CompiledZone.intervalAt_of_mem contiguous member from_start in_front front,
      from_start, in_front, clock_eq⟩
  cases opened : line.isOpen with
  | false =>
      obtain ⟨next, savings, rfl, _, ends⟩ := reads.ends opened
      refine ⟨before.start, before.previous, reading, next.start, starts, read,
        fun _ => ⟨savings, ends⟩, by simp, fun instant after inside _ => ?_⟩
      refine found after inside fun cut cut_eq => ?_
      rw [Compilation.cut_of_closed opened read] at cut_eq
      simp at cut_eq
  | true =>
      refine ⟨before.start, before.previous, reading, endOfTime, starts, read, by simp,
        fun _ => ⟨last_of_open opened, rfl⟩, fun instant after inside taken_over => ?_⟩
      have tail_eq := tail_eq opened
      have taken_over := taken_over rfl
      unfold CompiledZone.TakesOver at taken_over
      rw [tail_eq] at taken_over
      cases lineEnd with
      | next next =>
          refine found after ?_ taken_over
          rw [Compilation.LineEnd.stop, reads.never_ends opened next rfl]
          exact inside
      | tail timeline tail =>
          obtain ⟨cut, cut_eq, instant_eq⟩ := reads.cut_eq timeline tail rfl
          refine found after taken_over fun other other_eq => ?_
          obtain rfl := Option.some.inj (cut_eq.symm.trans other_eq)
          rw [instant_eq]
          exact taken_over

/-- Witness: the record with summer time shows what its first line says. -/
theorem ZoneRecord.compile_showsReading_summer
    : summerRecord.compile "E" [("S", summerRules)] = .ok summerZone
      ∧ ∃ start previous reading stop,
          StartsAt [("S", summerRules)] [fixedLine] start previous
          ∧ summerLine.reading [("S", summerRules)] start previous = .ok reading
          ∧ (summerLine.isOpen = false
            → ∃ savings, summerLine.EndsAt reading.savingsAt start stop savings)
          ∧ (summerLine.isOpen = true → ([] : List ZoneLine) = [] ∧ stop = endOfTime)
          ∧ ∀ instant,
              start ≤ instant
              → instant < stop
              → (summerLine.isOpen = true → summerZone.TakesOver reading instant)
              → ∃ i,
                  summerZone.intervalAt instant = .ok (some i)
                  ∧ i.start ≤ instant
                  ∧ instant < i.stop
                  ∧ i.clock = summerLine.shows (reading.stateAt instant) :=
  have compiled : summerRecord.compile "E" [("S", summerRules)] = .ok summerZone := by
    decide +kernel
  ⟨compiled, compile_showsReading compiled (show _ = [fixedLine] ++ [summerLine] from rfl)⟩

/-- Rules that save half an hour for ten minutes at the start of every year. -/
def shortRules : RuleSet :=
  { name := "A"
    recurrences :=
      [ { name := "A"
          first := .year 2000
          last := .latest
          month := .jan
          day := .fixed 1
          time := { mode := .universal, time := .ofSeconds 7200 }
          save := .ofSeconds 1800
          letter := some "D" },
        { name := "A"
          first := .year 2000
          last := .latest
          month := .jan
          day := .fixed 1
          time := { mode := .universal, time := .ofSeconds 7800 }
          save := .zero
          letter := some "S" } ] }

/-- A line under these rules up to half past two of its own clock. -/
def shortLine : ZoneLine :=
  { stdOffset := .zero
    savings := .rules "A"
    format := .letter "Z%sT"
    stop
      := some
        { year := 2000
          month := .jan
          day := .fixed 1
          time := { mode := .wall, time := .ofSeconds 9000 } }
    line := 3 }

/-- A record that goes over from the line to a fixed offset. -/
def shortRecord : ZoneRecord :=
  { line := 3
    lines :=
      [ shortLine,
        { stdOffset := .ofSeconds 3600
          savings := .standard
          format := .literal "FOO"
          stop := none
          line := 4 } ] }

/-- The zone of the record. -/
def shortZone : CompiledZone :=
  { intervals :=
      [ { start := beginningOfTime
          stop := 946692000
          stdOffset := 0
          savings := 0
          name := "ZST" },
        { start := 946692000
          stop := endOfTime
          stdOffset := 3600
          savings := 0
          name := "FOO" } ]
    tail := none }

/-- The state at an instant of the line. -/
def shortState (instant : Int) : RuleState :=
  shortLine.stateAt shortRules beginningOfTime { savings := 0, letter := some "S" } instant

/-- The changes of the line in 2000. -/
def shortChanges : List Transition :=
  [ { instant := 946692000, year := 2000, savings := 1800, letter := some "D", index := 0 },
    { instant := 946692600, year := 2000, savings := 0, letter := some "S", index := 1 } ]

/-- The first change of the line in 2001. -/
def shortNext : Transition :=
  { instant := 978314400, year := 2001, savings := 1800, letter := some "D", index := 0 }

/-- In front of the first change in 2001 the state of the line is that of the changes in 2000. -/
theorem shortState_eq {instant : Int} (before : instant < shortNext.instant)
    : shortState instant
      = Stream.stateAfter { savings := 0, letter := some "S" } instant shortChanges := by
  have sized := Stream.sized_between shortRules beginningOfTime endOfTime
    shortLine.stdOffset.seconds 0
  have reached
      : Stream.itemsUpTo 3
          (Stream.between shortRules beginningOfTime endOfTime shortLine.stdOffset.seconds 0)
        = (shortChanges ++ [shortNext]).map .ok := by
    decide +kernel
  have state_eq := sized.stateAfter_of_lt { savings := 0, letter := some "S" } reached before
  rw [shortState, ZoneLine.stateAt, ZoneLine.changes, Stream.after, state_eq]

/-- A line need not end where its end falls on under the saved time just in front of it. Where a
change brings the end of the line back to the change itself, the line ends there, even if a later
change would put it off again. -/
theorem ZoneRecord.compile_endsEarly
    : shortRecord.compile "X" [("A", shortRules)] = .ok shortZone
      ∧ shortRules.stateAt beginningOfTime 0 none = .ok (shortState beginningOfTime)
      ∧ shortLine.stopInstant (shortState (946693800 - 1)).savings = 946693800
      ∧ (∀ x, x < 946693800 → shortLine.stopInstant (shortState (x - 1)).savings ≠ x)
      ∧ ¬ ∃ i,
          shortZone.intervalAt 946692900 = .ok (some i)
          ∧ i.clock = shortLine.shows (shortState 946692900) := by
  refine ⟨by decide +kernel, ?_, ?_, ?_, ?_⟩
  · rw [shortState_eq (by decide)]
    decide +kernel
  · rw [shortState_eq (by decide)]
    decide +kernel
  · intro x before
    have next_eq : shortNext.instant = 978314400 := rfl
    have stops : shortLine.stopInstant 0 = 946693800 ∧ shortLine.stopInstant 1800 = 946692000 := by
      decide +kernel
    rw [shortState_eq (by omega), shortChanges, Stream.stateAfter_cons, Stream.stateAfter_cons,
      Stream.stateAfter, List.foldl_nil]
    dsimp only
    split
    · change shortLine.stopInstant 0 ≠ x
      omega
    · split
      · change shortLine.stopInstant 1800 ≠ x
        omega
      · change shortLine.stopInstant 0 ≠ x
        omega
  · rw [shortState_eq (by decide)]
    rintro ⟨i, found, same⟩
    have found'
        : shortZone.intervalAt 946692900
          = .ok
            (some
              { start := 946692000
                stop := endOfTime
                stdOffset := 3600
                savings := 0
                name := "FOO" }) := by
      decide +kernel
    obtain rfl := Option.some.inj (Except.ok.inj (found.symm.trans found'))
    revert same
    decide +kernel

end CivilTime
