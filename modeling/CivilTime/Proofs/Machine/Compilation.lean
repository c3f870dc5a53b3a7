import CivilTime.Proofs.Machine.NameFormat
import CivilTime.Proofs.Source.Tables
import CivilTime.Proofs.Zone.Lines

/-! Compilation in arithmetic of signed 64 bit numbers.
The lines of a record are compiled step by step, and the compilation is absent where a number on its
way leaves its range. What the reader accepts compiles to the same outcome, no search is given up,
and the bounds of all intervals are far from the two ends of time or stand for them.
-/

namespace CivilTime

open Compilation (LineEnd Progress Segment Halt tailFrom cutoffYear? complete malformed)

-----------------------------------------------------------------------------------------
-- Bounds of what is compiled
-----------------------------------------------------------------------------------------

/-- An interval with small amounts, whose bounds are far from the ends of time or stand for them. -/
structure Interval.Bounded (i : Interval) : Prop where
  start : i.start = beginningOfTime ∨ Instant.Clear i.start
  stop : i.stop = endOfTime ∨ Instant.Clear i.stop
  stdOffset : ClockTime.Small i.stdOffset
  savings : ClockTime.Small i.savings

/-- A tail with small amounts that starts far from the ends of time. -/
structure Tail.Bounded (tail : Tail) : Prop where
  start : Instant.Clear tail.start
  stdOffset : ClockTime.Small tail.stdOffset
  initialSavings : ClockTime.Small tail.initialSavings
  savings : ∀ r ∈ tail.rules.recurrences, ClockTime.Small r.savings

/-- A zone of bounded intervals with a bounded tail, if it has one. -/
structure CompiledZone.Bounded (zone : CompiledZone) : Prop where
  intervals : ∀ i ∈ zone.intervals, i.Bounded
  tail : ∀ tail ∈ zone.tail, tail.Bounded

/-- Intervals that are bounded so far. -/
def Timeline.Bounded (timeline : Timeline) : Prop := ∀ i ∈ timeline.newestFirst, i.Bounded

namespace Machine

variable {line : ZoneLine} {rules : RuleSet} {zone : String}

-----------------------------------------------------------------------------------------
-- Ends of lines, names and intervals
-----------------------------------------------------------------------------------------

/-- The end of a line as an instant, given the saved time in force at it. -/
def stopInstant (line : ZoneLine) (savings : Int) : Option Int :=
  match line.stop with
  | some u => do
    let stdOffset ← clockSeconds line.stdOffset
    instantOn u.day u.year u.month u.time stdOffset savings
  | none => some endOfTime

/-- Adds a span to the intervals of a zone. Its wall clock is compared to the one of the last
interval. -/
def pushSpan (zone : String) (timeline : Timeline) (span : Interval) : Machine Timeline := do
  let _ ← liftM (add span.stdOffset span.savings)
  match timeline.newestFirst with
  | [] => of (Compilation.pushSpan zone timeline span)
  | last :: _ => do
    let _ ← liftM (add last.stdOffset last.savings)
    of (Compilation.pushSpan zone timeline span)

/-- The sum of small amounts is a number of sixty-four bits. -/
theorem add_small {a b : Int} (first : ClockTime.Small a) (second : ClockTime.Small b)
    : add a b = some (a + b) := by
  unfold ClockTime.Small at first second
  exact word_eq (by omega) (by omega)

/-- The end of a line is computed as it is. -/
theorem stopInstant_eq (checked : line.Checked) {savings : Int} (saved : ClockTime.Lasts savings)
    : stopInstant line savings = some (line.stopInstant savings) := by
  unfold stopInstant ZoneLine.stopInstant
  cases stop : line.stop with
  | none => rfl
  | some u =>
      have u_checked := checked.stop u stop
      simp only [clockSeconds_eq, Option.bind_eq_bind, Option.bind_some]
      exact instantOn_eq u_checked.year.1 u_checked.year.2 u_checked.day u.time ⟨_, rfl⟩ saved

/-- The end of a line is far from the ends of time unless the line never ends. -/
theorem clear_stopInstant (checked : line.Checked) {savings : Int} (saved : ClockTime.Lasts savings)
    : line.isOpen = true ∧ line.stopInstant savings = endOfTime
      ∨ Instant.Clear (line.stopInstant savings) := by
  unfold ZoneLine.stopInstant ZoneLine.isOpen
  cases stop : line.stop with
  | none => exact .inl ⟨rfl, rfl⟩
  | some u =>
      have u_checked := checked.stop u stop
      exact .inr
        (clear_instantOn u_checked.year.1 u_checked.year.2 u_checked.day u.time ⟨_, rfl⟩ saved)

/-- A format is applied as it is, as the sum of small amounts has a text. -/
theorem applyFormat_sound (format : NameFormat) {stdOffset savings : Int}
    (offset : ClockTime.Small stdOffset) (saved : ClockTime.Small savings) (letter : Option String)
    : Sound (applyFormat format stdOffset savings letter) (format.apply stdOffset savings letter)
        fun _ => True := by
  have printable : NameFormat.Printable (stdOffset + savings) := by
    obtain ⟨offset_low, offset_high⟩ := offset
    obtain ⟨saved_low, saved_high⟩ := saved
    exact ⟨by omega, by omega⟩
  refine ⟨applyFormat_eq fun _ _ => printable, fun ruleSet year => ?_, fun _ _ => trivial⟩
  unfold NameFormat.apply
  split <;> simp

/-- Adding a bounded span keeps the intervals bounded. -/
theorem pushSpan_sound (zone : String) {timeline : Timeline} {span : Interval}
    (bounded : timeline.Bounded) (fitting : span.Bounded)
    : Sound (pushSpan zone timeline span) (Compilation.pushSpan zone timeline span)
        Timeline.Bounded := by
  have computed : pushSpan zone timeline span = of (Compilation.pushSpan zone timeline span) := by
    rw [pushSpan, lift_bind (add_small fitting.stdOffset fitting.savings)]
    cases shape : timeline.newestFirst with
    | nil => rfl
    | cons last earlier =>
        have last_bounded := bounded last (by simp [shape])
        exact lift_bind (add_small last_bounded.stdOffset last_bounded.savings) _
  refine ⟨computed, fun ruleSet year => ?_, fun next pushed => ?_⟩
  · unfold Compilation.pushSpan
    cases timeline.push span <;> simp [Except.mapError, malformed]
  · exact (Timeline.forall_push (Compilation.push_of_pushSpan pushed) bounded fitting
      fun i i_bounded => { i_bounded with stop := fitting.stop })

-----------------------------------------------------------------------------------------
-- Lines
-----------------------------------------------------------------------------------------

/-- Compiles a line with a fixed amount of saved time. -/
def compileFixed (zone : String) (line : ZoneLine) (progress : Progress) (savings : Int)
    : Machine LineEnd := do
  let stdOffset ← liftM (clockSeconds line.stdOffset)
  let name ← applyFormat line.format stdOffset savings none
  let stop ← liftM (stopInstant line savings)
  let timeline ←
    pushSpan zone progress.timeline { start := progress.start, stop, stdOffset, savings, name }
  pure (.next { timeline, start := stop, previous := some { stdOffset, savings } })

/-- Closes the span of a line at an instant. -/
def close (zone : String) (line : ZoneLine) (segment : Segment) (stop : Int)
    : Machine Timeline := do
  let stdOffset ← liftM (clockSeconds line.stdOffset)
  pushSpan zone segment.timeline
    { start := segment.start
      stop
      stdOffset
      savings := segment.savings
      name := segment.name }

/-- Follows one change of the rules of a line. -/
def followChange (zone : String) (line : ZoneLine) (rules : RuleSet) (cutoff : Option Int)
    (segment : Segment) (t : Transition) : Machine (Stream.Visit Segment Halt) := do
  let stop ← liftM (stopInstant line segment.savings)
  if stop ≤ t.instant then return .done (.settled segment)
  let timeline ← close zone line segment t.instant
  let stdOffset ← liftM (clockSeconds line.stdOffset)
  let name ← applyFormat line.format stdOffset t.savings t.letter
  let segment := { timeline, start := t.instant, savings := t.savings, name }
  if cutoff.any (· < Calendar.yearOf t.instant) then
    if rules.hasAlternatingTail then pure (.done (.tail timeline (tailFrom line rules t)))
    else pure (.done (.settled segment))
  else pure (.running segment)

/-- Ends a line at its own end. -/
def finish (zone : String) (line : ZoneLine) (segment : Segment) : Machine LineEnd := do
  let stop ← liftM (stopInstant line segment.savings)
  let timeline ← close zone line segment stop
  let stdOffset ← liftM (clockSeconds line.stdOffset)
  let previous := { stdOffset, savings := segment.savings }
  pure (.next { timeline, start := stop, previous := some previous })

/-- Compiles a line whose saved time is decided by rules. -/
def compileRules (zone : String) (line : ZoneLine) (rules : RuleSet) (progress : Progress)
    (isLast : Bool) : Machine LineEnd := do
  let stdOffset ← liftM (clockSeconds line.stdOffset)
  let state ← stateAt rules progress.start stdOffset progress.previous
  let name ← applyFormat line.format stdOffset state.savings state.letter
  let segment : Segment :=
    { timeline := progress.timeline, start := progress.start, savings := state.savings, name }
  let cutoff := cutoffYear? line rules progress.start isLast
  let changes := Stream.after rules progress.start stdOffset state.savings
  match ← visit (followChange zone line rules cutoff) changes segment with
  | .running segment => finish zone line segment
  | .done (.settled segment) => finish zone line segment
  | .done (.tail timeline tail) => pure (.tail timeline tail)

/-- A span that is being followed, small in its saved time, behind bounded intervals. -/
structure SegmentHolds (segment : Segment) : Prop where
  timeline : segment.timeline.Bounded
  start : segment.start = beginningOfTime ∨ Instant.Clear segment.start
  savings : ClockTime.Lasts segment.savings

/-- Why the changes of a line are followed no further, with what has been compiled by then. -/
def HaltHolds : Halt → Prop
  | .settled segment => SegmentHolds segment
  | .tail timeline tail => timeline.Bounded ∧ tail.Bounded

/-- What a line leads to. The next line starts far from the ends of time unless the line never
ends. -/
def LineEndHolds (line : ZoneLine) : LineEnd → Prop
  | .next progress =>
    progress.timeline.Bounded
    ∧ (line.isOpen = true ∨ Instant.Clear progress.start)
    ∧ ∀ offsets ∈ progress.previous, PlainOffsets offsets
  | .tail timeline tail => timeline.Bounded ∧ tail.Bounded

/-- The progress behind some lines. -/
structure ProgressHolds (progress : Progress) : Prop where
  timeline : progress.timeline.Bounded
  start : progress.start = beginningOfTime ∨ Instant.Clear progress.start
  previous : ∀ offsets ∈ progress.previous, PlainOffsets offsets

/-- A span of a line is bounded by where it starts and ends. -/
theorem bounded_span (line : ZoneLine) {start stop savings : Int} (name : String)
    (starts : start = beginningOfTime ∨ Instant.Clear start)
    (stops : stop = endOfTime ∨ Instant.Clear stop) (saved : ClockTime.Lasts savings)
    : Interval.Bounded { start, stop, stdOffset := line.stdOffset.seconds, savings, name } where
  start := starts
  stop := stops
  stdOffset := ClockTime.Lasts.small ⟨_, rfl⟩
  savings := saved.small

/-- A line with a fixed amount of saved time leads to what is bounded. -/
theorem compileFixed_sound (checked : line.Checked) {progress : Progress}
    (holds : ProgressHolds progress) {savings : Int} (saved : ClockTime.Lasts savings)
    : Sound (compileFixed zone line progress savings)
        (Compilation.compileFixed zone line progress savings) (LineEndHolds line) := by
  rw [compileFixed, lift_bind (clockSeconds_eq line.stdOffset)]
  have stop := clear_stopInstant checked saved
  refine (applyFormat_sound line.format (ClockTime.Lasts.small ⟨_, rfl⟩) saved.small none).bind
    fun name _ => ?_
  simp only [lift_bind (stopInstant_eq checked saved)]
  have span := bounded_span line name holds.start (stop.imp_left And.right) saved
  refine (pushSpan_sound zone holds.timeline span).bind fun timeline bounded => .pure ?_
  refine ⟨bounded, stop.imp_left And.left, fun offsets member => ?_⟩
  obtain rfl := Option.some.inj (Option.mem_def.mp member)
  exact ⟨⟨_, rfl⟩, saved⟩

/-- Closing the span of a line keeps the intervals bounded. -/
theorem close_sound {segment : Segment} (holds : SegmentHolds segment) {stop : Int}
    (stops : stop = endOfTime ∨ Instant.Clear stop)
    : Sound (close zone line segment stop) (segment.close zone line stop) Timeline.Bounded := by
  rw [close, lift_bind (clockSeconds_eq line.stdOffset)]
  have span := bounded_span line segment.name holds.start stops holds.savings
  exact pushSpan_sound zone holds.timeline span

/-- Ending a line leads to what is bounded. -/
theorem finish_sound (checked : line.Checked) {segment : Segment} (holds : SegmentHolds segment)
    : Sound (finish zone line segment) (segment.finish zone line) (LineEndHolds line) := by
  have stop := clear_stopInstant checked holds.savings
  rw [finish, lift_bind (stopInstant_eq checked holds.savings)]
  refine (close_sound holds (stop.imp_left And.right)).bind fun timeline bounded => ?_
  rw [lift_bind (clockSeconds_eq line.stdOffset)]
  refine .pure ⟨bounded, stop.imp_left And.left, fun offsets member => ?_⟩
  obtain rfl := Option.some.inj (Option.mem_def.mp member)
  exact ⟨⟨_, rfl⟩, holds.savings⟩

/-- The tail that starts with a plain change is bounded. -/
theorem bounded_tailFrom (line : ZoneLine) (rules : RuleSet) {t : Transition} (plain : Plain t)
    : (tailFrom line rules t).Bounded where
  start := plain.instant
  stdOffset := ClockTime.Lasts.small ⟨_, rfl⟩
  initialSavings := plain.savings.small
  savings r _ := ClockTime.Lasts.small ⟨r.save, rfl⟩

/-- Following a plain change keeps the span and the intervals bounded. -/
theorem followChange_sound (checked : line.Checked) (cutoff : Option Int) {segment : Segment}
    (holds : SegmentHolds segment) {t : Transition} (plain : Plain t)
    : Sound (followChange zone line rules cutoff segment t)
        (Compilation.followChange zone line rules cutoff segment t)
        (VisitHolds SegmentHolds HaltHolds) := by
  rw [followChange, lift_bind (stopInstant_eq checked holds.savings), Compilation.followChange]
  split
  · exact .pure holds
  · refine (close_sound holds (.inr plain.instant)).bind fun timeline bounded => ?_
    rw [lift_bind (clockSeconds_eq line.stdOffset)]
    refine (applyFormat_sound line.format (ClockTime.Lasts.small ⟨_, rfl⟩) plain.savings.small
      t.letter).bind fun name _ => ?_
    have next : SegmentHolds { timeline, start := t.instant, savings := t.savings, name } :=
      ⟨bounded, .inr plain.instant, plain.savings⟩
    dsimp only
    split
    · split
      · exact .pure ⟨bounded, bounded_tailFrom line rules plain⟩
      · exact .pure next
    · exact .pure next

/-- A line under rules leads to what is bounded. -/
theorem compileRules_sound (checked : line.Checked) (days : ∀ r ∈ rules.recurrences, r.DayInMonth)
    {progress : Progress} (holds : ProgressHolds progress) (isLast : Bool)
    : Sound (compileRules zone line rules progress isLast)
        (Compilation.compileRules zone line rules progress isLast) (LineEndHolds line) := by
  have offset : ClockTime.Lasts line.stdOffset.seconds := ⟨_, rfl⟩
  rw [compileRules, lift_bind (clockSeconds_eq line.stdOffset)]
  refine (stateAt_sound days offset progress.start holds.previous).bind fun state saved => ?_
  refine (applyFormat_sound line.format offset.small saved.small state.letter).bind fun name _ => ?_
  have clocked
      : Clocked (Stream.after rules progress.start line.stdOffset.seconds state.savings) :=
    ⟨days, offset, saved⟩
  have segment
      : SegmentHolds
          { timeline := progress.timeline
            start := progress.start
            savings := state.savings
            name } :=
    ⟨holds.timeline, holds.start, saved⟩
  refine (clocked.visit_sound (fun _ _ holds plain => followChange_sound checked _ holds plain)
    segment).bind fun visited held => ?_
  match visited with
  | .running last => exact finish_sound checked held
  | .done (.settled last) => exact finish_sound checked held
  | .done (.tail timeline tail) => exact .pure held

-----------------------------------------------------------------------------------------
-- Zones
-----------------------------------------------------------------------------------------

/-- Compiles a line. -/
def compileLine (zone : String) (table : Table RuleSet) (line : ZoneLine) (progress : Progress)
    (isLast : Bool) : Machine LineEnd :=
  if !isLast && line.isOpen then of (.error (malformed zone (.openLineInside line.line)))
  else
    match line.savings with
    | .standard => compileFixed zone line progress 0
    | .fixed savings => do
      let savings ← liftM (clockSeconds savings)
      compileFixed zone line progress savings
    | .rules name =>
      match table.get? name with
      | none => of (.error (malformed zone (.unknownRuleSet name)))
      | some set => compileRules zone line set progress isLast

/-- Compiles the lines that are left. -/
def compileLines (zone : String) (table : Table RuleSet)
    : List ZoneLine → Progress → Machine CompiledZone
  | [], progress => of (complete zone progress.timeline none)
  | line :: rest, progress => do
    match ← compileLine zone table line progress rest.isEmpty with
    | .next progress => compileLines zone table rest progress
    | .tail timeline tail => of (complete zone timeline (some tail))

/-- The zone that a record describes under the given rule sets. -/
def compile (record : ZoneRecord) (name : String) (table : Table RuleSet) : Machine CompiledZone :=
  if record.lines.isEmpty then of (.error (malformed name .noLines))
  else compileLines name table record.lines .initial

/-- The zone of a name, absent where the name is unknown. -/
def compileZone? (t : Tables) (name : String) : Option (Machine CompiledZone) :=
  (t.zones.get? name).map (compile · name t.rules)

variable {table : Table RuleSet}

/-- A line leads to what is bounded, wherever its saved time comes from. -/
theorem compileLine_sound (checked : line.Checked)
    (days : ∀ entry ∈ table, ∀ r ∈ entry.2.recurrences, r.DayInMonth) {progress : Progress}
    (holds : ProgressHolds progress) (isLast : Bool)
    : Sound (compileLine zone table line progress isLast)
        (Compilation.compileLine zone table line progress isLast)
        fun lineEnd => LineEndHolds line lineEnd ∧ (isLast = true ∨ line.isOpen = false) := by
  unfold compileLine Compilation.compileLine
  split
  · exact .of_error fun _ _ => by simp [malformed]
  · rename_i closed
    have ends : isLast = true ∨ line.isOpen = false := by
      cases isLast <;> simp_all
    refine Sound.imp (P := LineEndHolds line) ?_ fun lineEnd held => ⟨held, ends⟩
    cases line.savings with
    | standard => exact compileFixed_sound checked holds ClockTime.lasts_zero
    | fixed savings =>
        simp only [lift_bind (clockSeconds_eq savings)]
        exact compileFixed_sound checked holds ⟨savings, rfl⟩
    | rules name =>
        cases found : table.get? name with
        | none =>
            simp only [found]
            exact .of_error fun _ _ => by simp [malformed]
        | some set =>
            simp only [found]
            exact compileRules_sound checked (days _ (Table.mem_of_get? found)) holds isLast

/-- A zone is completed from bounded intervals and a bounded tail. -/
theorem complete_sound {timeline : Timeline} (bounded : timeline.Bounded) {tail : Option Tail}
    (tail_bounded : ∀ rest ∈ tail, rest.Bounded)
    : Sound (of (complete zone timeline tail)) (complete zone timeline tail)
        CompiledZone.Bounded := by
  refine ⟨rfl, fun ruleSet year => ?_, fun compiled completed => ?_⟩
  · unfold complete
    split <;> simp [malformed]
  · obtain ⟨rfl, _⟩ := Compilation.complete_ok completed
    exact ⟨fun i member => bounded i (List.mem_reverse.mp member), tail_bounded⟩

/-- Lines lead to a bounded zone, by induction on the lines. Only the last line may never end, so
the others end far from the ends of time. -/
theorem compileLines_sound {lines : List ZoneLine} (checked : ∀ line ∈ lines, line.Checked)
    (days : ∀ entry ∈ table, ∀ r ∈ entry.2.recurrences, r.DayInMonth) {progress : Progress}
    (timeline : progress.timeline.Bounded)
    (previous : ∀ offsets ∈ progress.previous, PlainOffsets offsets)
    (start : lines ≠ [] → progress.start = beginningOfTime ∨ Instant.Clear progress.start)
    : Sound (compileLines zone table lines progress)
        (Compilation.compileLines zone table lines progress) CompiledZone.Bounded := by
  induction lines generalizing progress with
  | nil => exact complete_sound timeline (by simp)
  | cons line rest ih =>
      obtain ⟨here, later⟩ := List.forall_mem_cons.mp checked
      refine (compileLine_sound here days ⟨timeline, start (by simp), previous⟩ rest.isEmpty).bind
        fun lineEnd ⟨held, ends⟩ => ?_
      match lineEnd with
      | .next next =>
          refine ih later held.1 held.2.2 fun some_line => .inr ?_
          have closed : line.isOpen = false := by simpa [some_line] using ends
          simpa [closed] using held.2.1
      | .tail timeline tail => exact complete_sound held.1 (by simpa using held.2)

/-- A record of checked lines compiles to a bounded zone. -/
theorem compile_sound {record : ZoneRecord} (name : String) (checked : record.Checked)
    (days : ∀ entry ∈ table, ∀ r ∈ entry.2.recurrences, r.DayInMonth)
    : Sound (compile record name table) (record.compile name table) CompiledZone.Bounded := by
  unfold compile ZoneRecord.compile
  split
  · exact .of_error fun _ _ => by simp [malformed]
  · exact compileLines_sound checked days (fun _ member => nomatch member)
      (fun _ member => nomatch member) fun _ => .inl rfl

end Machine

end CivilTime
