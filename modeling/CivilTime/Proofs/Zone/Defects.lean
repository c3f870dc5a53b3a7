import CivilTime.Proofs.Machine.Compilation
import CivilTime.Proofs.Source.Tables
import CivilTime.Proofs.Zone.Lines
import CivilTime.Proofs.Zone.Refusal

/-! The defects for which a zone record does not compile.
The intervals of a compilation always reach up to the start of the next span, so the lines of a zone
leave no gap and begin at the beginning of time. What is left are defects of single lines, each of
them found where the lines in front of it end.
-/

namespace CivilTime

-----------------------------------------------------------------------------------------
-- Defects of lines
-----------------------------------------------------------------------------------------

namespace ZoneLine

/-- The saved time at the start of a line and the changes of its rules behind the start. -/
def courseFrom (line : ZoneLine) (table : Table RuleSet) (start : Int)
    (previous : Option LineOffsets)
    : Except Fault (Int × List Transition) :=
  match line.savings with
  | .standard => .ok (0, [])
  | .fixed savings => .ok (savings.seconds, [])
  | .rules name =>
    match table.get? name with
    | none => .error (.malformedZone name (.unknownRuleSet name))
    | some set => do
      let state ← set.stateAt start line.stdOffset.seconds previous
      let changes := (Stream.after set start line.stdOffset.seconds state.savings).transitions
      pure (state.savings, changes)

/-- The start of the last span of a line: the last change in front of its end, or the start of the
line. -/
def lastSpanStart (line : ZoneLine) (start savings : Int) : List Transition → Int
  | [] => start
  | t :: rest =>
    if line.stopInstant savings ≤ t.instant then start
    else line.lastSpanStart t.instant t.savings rest

/-- The defects of a line, given its start and the offsets at the end of the line in front of it. -/
inductive HasDefect (line : ZoneLine) (table : Table RuleSet) (start : Int)
    (previous : Option LineOffsets) (isLast : Bool) : ZoneDefect → Prop where
  /-- The line never ends and another one follows. -/
  | openLineInside (followed : isLast = false) (opened : line.isOpen = true)
      : HasDefect line table start previous isLast (.openLineInside line.line)
  | unknownRuleSet {name : String} (refers : line.savings = .rules name)
      (unknown : table.get? name = none)
      : HasDefect line table start previous isLast (.unknownRuleSet name)
  /-- The last span of the line ends before it starts. -/
  | notChronological {savings : Int} {changes : List Transition}
      (course : line.courseFrom table start previous = .ok (savings, changes))
      (backward
        : line.stopInstant (line.savingsAtEnd savings changes)
          < line.lastSpanStart start savings changes)
      : HasDefect line table start previous isLast .notChronological
  /-- The intervals of the zone are too many. -/
  | tooManyIntervals : HasDefect line table start previous isLast .tooManyIntervals

end ZoneLine

/-- The defects of lines that are laid end to end: those of the first one where it starts, and those
of the others behind its end. -/
inductive ZoneRecord.LinesHaveDefect (table : Table RuleSet)
    : List ZoneLine → Int → Option LineOffsets → ZoneDefect → Prop where
  | here {line : ZoneLine} {rest : List ZoneLine} {start : Int} {previous : Option LineOffsets}
      {defect : ZoneDefect} (defective : line.HasDefect table start previous rest.isEmpty defect)
      : LinesHaveDefect table (line :: rest) start previous defect
  | later {line : ZoneLine} {rest : List ZoneLine} {start : Int} {previous : Option LineOffsets}
      {offsets : LineOffsets} {defect : ZoneDefect}
      (offsets_eq : line.offsetsAtEnd table start previous = .ok offsets)
      (defective
        : LinesHaveDefect table rest (line.stopInstant offsets.savings) (some offsets) defect)
      : LinesHaveDefect table (line :: rest) start previous defect

/-- The defects of a record: it has no lines, or its lines have a defect from the beginning of time
on. -/
inductive ZoneRecord.HasDefect (record : ZoneRecord) (table : Table RuleSet)
    : ZoneDefect → Prop where
  | noLines (empty : record.lines = []) : HasDefect record table .noLines
  | lines {defect : ZoneDefect}
      (defective : LinesHaveDefect table record.lines beginningOfTime none defect)
      : HasDefect record table defect

-----------------------------------------------------------------------------------------
-- Spans
-----------------------------------------------------------------------------------------

namespace Timeline

/-- The covered time ends at the beginning of time or behind it, by induction on the intervals. -/
theorem Covers.beginning_le {intervals : List Interval} {stop : Int}
    (covers : Covers intervals stop)
    : beginningOfTime ≤ stop := by
  induction covers with
  | empty => exact Int.le_refl _
  | add forward _ _ ih => omega

/-- An interval is refused only where there are too many. -/
theorem add_error {timeline : Timeline} {span : Interval} {defect : ZoneDefect}
    (failed : timeline.add span = .error defect)
    : defect = .tooManyIntervals := by
  unfold add at failed
  split at failed
  · exact (Except.error.inj failed).symm
  · cases failed

/-- A span behind the covered time is refused only where it ends before it starts or where there are
too many intervals. -/
theorem push_error {timeline : Timeline} {span : Interval} {defect : ZoneDefect}
    (covers : Covers timeline.newestFirst span.start)
    (failed : timeline.push span = .error defect)
    : defect = .notChronological ∧ span.stop < span.start ∨ defect = .tooManyIntervals := by
  have start_eq := covers.stop_eq
  unfold push at failed
  split at failed
  case isTrue backward => exact .inl ⟨(Except.error.inj failed).symm, backward⟩
  split at failed
  case isTrue => cases failed
  split at failed
  case h_1 shape =>
    rw [shape] at start_eq
    split at failed
    case isTrue => exact .inr (add_error failed)
    case isFalse late => exact absurd start_eq late
  case h_2 last earlier shape =>
    rw [shape] at start_eq
    split at failed
    case isTrue gap => exact absurd start_eq.symm gap
    split at failed
    case isTrue => cases failed
    case isFalse => exact .inr (add_error failed)

end Timeline

namespace Compilation

variable {zone : String} {line : ZoneLine} {rules : RuleSet}

/-- The defects of a span. -/
def SpanDefect (start stop : Int) (defect : ZoneDefect) : Prop :=
  defect = .notChronological ∧ stop < start ∨ defect = .tooManyIntervals

/-- A step that fails for its rules or formats does not find a zone malformed. -/
theorem ne_malformed {α : Type} {outcome : Except Fault α} (fails : FailsBy Fault.isOfRules outcome)
    {name : String} {defect : ZoneDefect}
    : outcome ≠ .error (.malformedZone name defect) := by
  intro failed
  cases fails.isOfKind _ failed

/-- A span that is added behind the covered time is refused for a defect of its own. -/
theorem pushSpan_error {timeline : Timeline} {span : Interval} {name : String} {defect : ZoneDefect}
    (covers : Timeline.Covers timeline.newestFirst span.start)
    (failed : pushSpan zone timeline span = .error (.malformedZone name defect))
    : name = zone ∧ SpanDefect span.start span.stop defect := by
  unfold pushSpan at failed
  cases outcome : timeline.push span with
  | ok next => simp [outcome, Except.mapError] at failed
  | error other =>
      simp only [outcome, Except.mapError, malformed, Except.error.injEq, Fault.malformedZone.injEq]
        at failed
      obtain ⟨rfl, rfl⟩ := failed
      exact ⟨rfl, Timeline.push_error covers outcome⟩

/-- A line that is ended fails for a defect of its last span. -/
theorem finish_error {segment : Segment} {name : String} {defect : ZoneDefect}
    (covers : Timeline.Covers segment.timeline.newestFirst segment.start)
    (failed : segment.finish zone line = .error (.malformedZone name defect))
    : name = zone ∧ SpanDefect segment.start (line.stopInstant segment.savings) defect := by
  rcases bind_eq_error.mp failed with failed | ⟨timeline, _, failed⟩
  · exact pushSpan_error covers failed
  · exact absurd failed pure_ne_error

/-- A change behind the start of a span is refused only where there are too many intervals. -/
theorem followChange_error {cutoff : Option Int} {segment : Segment} {t : Transition}
    {name : String} {defect : ZoneDefect}
    (covers : Timeline.Covers segment.timeline.newestFirst segment.start)
    (behind : segment.start < t.instant)
    (failed : followChange zone line rules cutoff segment t = .error (.malformedZone name defect))
    : name = zone ∧ defect = .tooManyIntervals := by
  unfold followChange at failed
  split at failed
  · exact absurd failed pure_ne_error
  rcases bind_eq_error.mp failed with failed | ⟨timeline, _, failed⟩
  · obtain ⟨same, ⟨_, backward⟩ | too_many⟩ := pushSpan_error covers failed
    · exact absurd backward (by simp only; omega)
    · exact ⟨same, too_many⟩
  rcases bind_eq_error.mp failed with failed | ⟨shown, _, failed⟩
  · exact absurd failed (ne_malformed (NameFormat.apply_failsOfRules ..))
  · split at failed
    · split at failed <;> exact absurd failed pure_ne_error
    · exact absurd failed pure_ne_error

-----------------------------------------------------------------------------------------
-- One line
-----------------------------------------------------------------------------------------

/-- A line whose changes are followed fails for a defect of its last span. The spans in between go
forward, since each change comes behind the one before it. The induction is on the items. -/
theorem visitItems_error {start : Int} {isLast : Bool} {items : List (Except Fault Transition)}
    {segment : Segment} {name : String} {defect : ZoneDefect}
    (failed
      : (Stream.visitItems
            (followChange zone line rules (cutoffYear? line rules start isLast)) items segment
          >>= leadsTo zone line)
        = .error (.malformedZone name defect))
    (covers : Timeline.Covers segment.timeline.newestFirst segment.start)
    (behind
      : ∀ t ∈ items.filterMap Except.toOption,
          segment.start < t.instant ∧ t.instant < endOfTime)
    (ordered : (items.filterMap Except.toOption).Pairwise fun t u => t.instant < u.instant)
    (of_rules : ∀ fault, .error fault ∈ items → fault.isOfRules = true)
    : name = zone
      ∧ SpanDefect
          (line.lastSpanStart segment.start segment.savings (items.filterMap Except.toOption))
          (line.stopInstant
            (line.savingsAtEnd segment.savings (items.filterMap Except.toOption)))
          defect := by
  induction items generalizing segment with
  | nil => exact finish_error covers failed
  | cons item others ih =>
      cases item with
      | error fault =>
          exact absurd failed (ne_malformed (.error (of_rules fault (by simp))))
      | ok t =>
          have changes_eq
              : (Except.ok t :: others).filterMap Except.toOption
                = t :: others.filterMap Except.toOption :=
            rfl
          rw [changes_eq] at behind ordered ⊢
          obtain ⟨⟨front, in_time⟩, _⟩ := List.forall_mem_cons.mp behind
          obtain ⟨later, ordered⟩ := List.pairwise_cons.mp ordered
          cases step
            : followChange zone line rules (cutoffYear? line rules start isLast) segment t with
          | error fault =>
              simp only [Stream.visitItems, step] at failed
              rw [Except.error.inj failed] at step
              obtain ⟨same, too_many⟩ := followChange_error covers front step
              exact ⟨same, .inr too_many⟩
          | ok visited =>
              rcases followChange_ok step with ⟨ended, rfl⟩
                | ⟨timeline, shown, inside, closed, named, rfl⟩
              · simp only [Stream.visitItems, step] at failed
                rw [ZoneLine.lastSpanStart, ZoneLine.savingsAtEnd, if_pos ended, if_pos ended]
                exact finish_error covers failed
              have covered := covers_close covers closed
              have going_on : ¬ line.stopInstant segment.savings ≤ t.instant := by omega
              rw [ZoneLine.lastSpanStart, ZoneLine.savingsAtEnd, if_neg going_on, if_neg going_on]
              cases past : pastCutoff (cutoffYear? line rules start isLast) t with
              | false =>
                  simp only [Stream.visitItems, step, past, Bool.false_eq_true, if_false] at failed
                  exact ih failed covered
                    (fun u member => ⟨later u member, (behind u (by simp [member])).2⟩) ordered
                    fun fault member => of_rules fault (by simp [member])
              | true =>
                  cases alternating : rules.hasAlternatingTail with
                  | true =>
                      simp only [Stream.visitItems, step, past, alternating, if_true] at failed
                      cases failed
                  | false =>
                      -- A line with a cutoff never ends, so its last span goes forward.
                      simp only [Stream.visitItems, step, past, alternating, Bool.false_eq_true,
                        if_true, if_false] at failed
                      obtain ⟨same, ⟨_, backward⟩ | too_many⟩ := finish_error covered failed
                      · have opened := (isLast_of_pastCutoff past).2
                        rw [ZoneLine.stopInstant_of_isOpen opened] at backward
                        exact absurd backward (by simp only; omega)
                      · exact ⟨same, .inr too_many⟩

/-- A line under rules fails for a defect of its last span. -/
theorem compileRules_error {progress : Progress} {isLast : Bool} {name : String}
    {defect : ZoneDefect}
    (covers : Timeline.Covers progress.timeline.newestFirst progress.start)
    (failed
      : compileRules zone line rules progress isLast = .error (.malformedZone name defect))
    : name = zone
      ∧ ∃ state,
          rules.stateAt progress.start line.stdOffset.seconds progress.previous = .ok state
          ∧ let changes :=
              (Stream.after rules progress.start line.stdOffset.seconds state.savings).transitions
            SpanDefect (line.lastSpanStart progress.start state.savings changes)
              (line.stopInstant (line.savingsAtEnd state.savings changes)) defect := by
  rcases bind_eq_error.mp failed with failed | ⟨state, stated, failed⟩
  · exact absurd failed (ne_malformed (rules.stateAt_failsOfRules ..))
  rcases bind_eq_error.mp failed with failed | ⟨shown, _, failed⟩
  · exact absurd failed (ne_malformed (NameFormat.apply_failsOfRules ..))
  have sized := Stream.sized_between rules progress.start endOfTime line.stdOffset.seconds
    state.savings
  obtain ⟨inside, ordered⟩ := sized.transitions_ordered
  have visit_failed
      : (Stream.visitItems
            (followChange zone line rules (cutoffYear? line rules progress.start isLast))
            (Stream.after rules progress.start line.stdOffset.seconds state.savings).items
            { timeline := progress.timeline
              start := progress.start
              savings := state.savings
              name := shown }
          >>= leadsTo zone line)
        = .error (.malformedZone name defect) := by
    rw [Stream.after, ← sized.visit_eq, ← failed]
    refine congrArg _ (funext fun visited => ?_)
    cases visited with
    | running segment => rfl
    | done halt => cases halt <;> rfl
  obtain ⟨same, defective⟩ :=
    visitItems_error visit_failed covers inside ordered fun _ => Stream.isOfRules_of_mem_itemsUpTo
  exact ⟨same, state, stated, defective⟩

/-- A line with a fixed amount of saved time fails for a defect of its only span. -/
theorem compileFixed_error {progress : Progress} {savings : Int} {name : String}
    {defect : ZoneDefect}
    (covers : Timeline.Covers progress.timeline.newestFirst progress.start)
    (failed : compileFixed zone line progress savings = .error (.malformedZone name defect))
    : name = zone ∧ SpanDefect progress.start (line.stopInstant savings) defect := by
  rcases bind_eq_error.mp failed with failed | ⟨shown, _, failed⟩
  · exact absurd failed (ne_malformed (NameFormat.apply_failsOfRules ..))
  rcases bind_eq_error.mp failed with failed | ⟨timeline, _, failed⟩
  · exact pushSpan_error covers failed
  · exact absurd failed pure_ne_error

/-- A defect of the last span of a line is one of the line. -/
theorem SpanDefect.toLine {table : Table RuleSet} {start : Int} {previous : Option LineOffsets}
    {isLast : Bool} {savings : Int} {changes : List Transition} {defect : ZoneDefect}
    (course : line.courseFrom table start previous = .ok (savings, changes))
    (defective
      : SpanDefect (line.lastSpanStart start savings changes)
          (line.stopInstant (line.savingsAtEnd savings changes)) defect)
    : line.HasDefect table start previous isLast defect := by
  rcases defective with ⟨rfl, backward⟩ | rfl
  · exact .notChronological course backward
  · exact .tooManyIntervals

/-- A line that starts where the covered time ends fails for a defect of its own, by cases on where
its saved time comes from. -/
theorem compileLine_error {table : Table RuleSet} {progress : Progress} {isLast : Bool}
    {name : String} {defect : ZoneDefect}
    (covers : Timeline.Covers progress.timeline.newestFirst progress.start)
    (failed : compileLine zone table line progress isLast = .error (.malformedZone name defect))
    : name = zone ∧ line.HasDefect table progress.start progress.previous isLast defect := by
  unfold compileLine at failed
  split at failed
  case isTrue opened =>
    simp only [malformed, Except.error.injEq, Fault.malformedZone.injEq] at failed
    simp only [Bool.and_eq_true, Bool.not_eq_true'] at opened
    obtain ⟨rfl, rfl⟩ := failed
    exact ⟨rfl, .openLineInside opened.1 opened.2⟩
  cases source : line.savings with
  | standard =>
      simp only [source] at failed
      obtain ⟨same, defective⟩ := compileFixed_error covers failed
      have course : line.courseFrom table progress.start progress.previous = .ok (0, []) := by
        simp only [ZoneLine.courseFrom, source]
      exact ⟨same, SpanDefect.toLine course defective⟩
  | fixed savings =>
      simp only [source] at failed
      obtain ⟨same, defective⟩ := compileFixed_error covers failed
      have course
          : line.courseFrom table progress.start progress.previous = .ok (savings.seconds, []) := by
        simp only [ZoneLine.courseFrom, source]
      exact ⟨same, SpanDefect.toLine course defective⟩
  | rules id =>
      simp only [source] at failed
      cases found : table.get? id with
      | none =>
          simp only [found, malformed, Except.error.injEq, Fault.malformedZone.injEq] at failed
          obtain ⟨rfl, rfl⟩ := failed
          exact ⟨rfl, .unknownRuleSet source found⟩
      | some set =>
          simp only [found] at failed
          obtain ⟨same, state, stated, defective⟩ := compileRules_error covers failed
          refine ⟨same, SpanDefect.toLine ?_ defective⟩
          simp only [ZoneLine.courseFrom, source, found, stated, bind, Except.bind, pure,
            Except.pure]

-----------------------------------------------------------------------------------------
-- The start of a zone
-----------------------------------------------------------------------------------------

/-- A zone that covers some time begins at the beginning of time. -/
theorem complete_error {timeline : Timeline} {tail : Option Tail} {stop : Int} {fault : Fault}
    (covers : Timeline.Covers timeline.newestFirst stop)
    (failed : complete zone timeline tail = .error fault)
    : stop = beginningOfTime := by
  unfold complete at failed
  split at failed
  case isTrue => cases failed
  case isFalse late =>
    have stop_eq := covers.stop_eq
    cases shape : timeline.newestFirst with
    | nil => rw [stop_eq, shape]; rfl
    | cons last earlier =>
        have starts := covers.starts (by rw [shape]; simp)
        obtain ⟨first, first_eq, start_eq⟩ := Option.map_eq_some_iff.mp starts
        simp [Timeline.startsAtBeginning, first_eq, start_eq] at late

/-- What holds of the saved time at the start of a line and of the time that its changes save holds
of the saved time at its end, by induction on the changes. -/
theorem savingsAtEnd_holds {P : Int → Prop} {changes : List Transition} {savings : Int}
    (here : P savings) (brought : ∀ t ∈ changes, P t.savings)
    : P (line.savingsAtEnd savings changes) := by
  induction changes generalizing savings with
  | nil => exact here
  | cons t rest ih =>
      obtain ⟨first, later⟩ := List.forall_mem_cons.mp brought
      rw [ZoneLine.savingsAtEnd]
      split
      · exact here
      · exact ih first later

/-- The saved time at the end of a line is one that a time of the clock lasts. -/
theorem lasts_offsetsAtEnd {table : Table RuleSet} {start : Int} {previous : Option LineOffsets}
    {offsets : LineOffsets} (offsets_eq : line.offsetsAtEnd table start previous = .ok offsets)
    : ClockTime.Lasts offsets.savings := by
  unfold ZoneLine.offsetsAtEnd at offsets_eq
  cases source : line.savings with
  | standard =>
      simp only [source, Except.ok.injEq] at offsets_eq
      exact offsets_eq ▸ ClockTime.lasts_zero
  | fixed savings =>
      simp only [source, Except.ok.injEq] at offsets_eq
      exact offsets_eq ▸ ⟨savings, rfl⟩
  | rules id =>
      simp only [source] at offsets_eq
      cases found : table.get? id with
      | none => simp [found] at offsets_eq
      | some set =>
          simp only [found] at offsets_eq
          obtain ⟨state, stated, offsets_eq⟩ := bind_eq_ok.mp offsets_eq
          have sized := Stream.sized_between set start endOfTime line.stdOffset.seconds
            state.savings
          have amount : set.SavesAmount offsets.savings := by
            rw [← pure_eq_ok.mp offsets_eq]
            refine savingsAtEnd_holds (RuleSet.savesAmount_of_stateAt stated) fun t member => ?_
            obtain ⟨r, at_index, savings_eq, _⟩ := sized.mem_transitions member
            exact .inr ⟨r, List.mem_of_getElem? at_index, savings_eq⟩
          rcases amount with zero | ⟨r, _, saved⟩
          · rw [zero]
            exact ClockTime.lasts_zero
          · exact ⟨r.save, saved.symm⟩

/-- A line that passes its checks ends behind the beginning of time. -/
theorem beginning_lt_stopInstant (checked : line.Checked) {savings : Int}
    (lasts : ClockTime.Lasts savings)
    : beginningOfTime < line.stopInstant savings := by
  rcases Machine.clear_stopInstant checked lasts with ⟨_, never⟩ | clear
  · rw [never]
    decide
  · unfold Instant.Clear at clear
    unfold beginningOfTime
    omega

/-- A tail starts with a change of the rules of its line, and so behind the start of the line. -/
theorem lt_tail_start {table : Table RuleSet} {progress : Progress} {isLast : Bool}
    {timeline : Timeline} {tail : Tail}
    (compiled : compileLine zone table line progress isLast = .ok (.tail timeline tail))
    (covers : Timeline.Covers progress.timeline.newestFirst progress.start)
    : progress.start < tail.start := by
  obtain ⟨_, ⟨id, set, source, found, _⟩, _⟩ := compileLine_tail compiled covers
  unfold compileLine at compiled
  split at compiled
  case isTrue => cases compiled
  simp only [source, found] at compiled
  obtain ⟨state, _, changes, last, rest, _, _, items_eq, _, ends⟩ := compileRules_ok compiled
  have sized := Stream.sized_between set progress.start endOfTime line.stdOffset.seconds
    state.savings
  cases ends with
  | exhausted _ finished | ended _ _ finished | settled _ _ _ _ finished =>
      obtain ⟨_, _, same⟩ := finish_ok finished
      cases same
  | @tail earlier t _ others _ _ _ =>
      have member
          : t ∈ (Stream.after set progress.start line.stdOffset.seconds
              state.savings).transitions := by
        rw [Stream.transitions, items_eq, filterMap_toOption_append]
        simp
      exact (sized.transitions_ordered.1 t member).1

/-- Lines that are laid end to end behind the covered time fail for a defect of their own. Behind at
least one of them some time is covered, so the zone begins at the beginning of time. The induction
is on the lines. -/
theorem compileLines_error {table : Table RuleSet} {lines : List ZoneLine} {progress : Progress}
    {name : String} {defect : ZoneDefect} (checked : ∀ line ∈ lines, line.Checked)
    (covers : Timeline.Covers progress.timeline.newestFirst progress.start)
    (started : lines = [] → beginningOfTime < progress.start)
    (failed : compileLines zone table lines progress = .error (.malformedZone name defect))
    : name = zone
      ∧ ZoneRecord.LinesHaveDefect table lines progress.start progress.previous defect := by
  induction lines generalizing progress with
  | nil =>
      have := complete_error covers failed
      have := started rfl
      omega
  | cons line rest ih =>
      obtain ⟨line_checked, rest_checked⟩ := List.forall_mem_cons.mp checked
      rcases bind_eq_error.mp failed with failed | ⟨lineEnd, step, failed⟩
      · obtain ⟨same, defective⟩ := compileLine_error covers failed
        exact ⟨same, .here defective⟩
      cases lineEnd with
      | tail timeline tail =>
          have tail_covers := (compileLine_tail step covers).2.2
          have := complete_error tail_covers failed
          have := lt_tail_start step covers
          have := covers.beginning_le
          omega
      | next next =>
          obtain ⟨offsets, offsets_eq, start_eq, handed, covered⟩ := compileLine_next step covers
          have forward : beginningOfTime < next.start := by
            rw [start_eq]
            exact beginning_lt_stopInstant line_checked (lasts_offsetsAtEnd offsets_eq)
          obtain ⟨same, defective⟩ := ih rest_checked covered (fun _ => forward) failed
          refine ⟨same, .later offsets_eq ?_⟩
          cases rest with
          | nil => cases defective
          | cons following others =>
              rw [start_eq, handed rfl] at defective
              exact defective

end Compilation

-----------------------------------------------------------------------------------------
-- Defects of records
-----------------------------------------------------------------------------------------

namespace ZoneRecord

/-- Lines have no gap between them and none in front of them, by induction on the lines. -/
theorem LinesHaveDefect.laidOut {table : Table RuleSet} {lines : List ZoneLine} {start : Int}
    {previous : Option LineOffsets} {defect : ZoneDefect}
    (defective : LinesHaveDefect table lines start previous defect)
    : defect ≠ .gap ∧ defect ≠ .lateStart := by
  induction defective with
  | here defective => cases defective <;> exact ⟨nofun, nofun⟩
  | later _ _ ih => exact ih

/-- A record whose lines pass their checks is malformed for a defect that it has. -/
theorem compile_error {record : ZoneRecord} (checked : record.Checked) {table : Table RuleSet}
    {name zone : String} {defect : ZoneDefect}
    (failed : record.compile name table = .error (.malformedZone zone defect))
    : zone = name ∧ record.HasDefect table defect := by
  unfold compile at failed
  split at failed
  case isTrue empty =>
    simp only [Compilation.malformed, Except.error.injEq, Fault.malformedZone.injEq] at failed
    obtain ⟨rfl, rfl⟩ := failed
    exact ⟨rfl, .noLines (List.isEmpty_iff.mp empty)⟩
  case isFalse some_line =>
    obtain ⟨same, defective⟩ := Compilation.compileLines_error checked .empty
      (fun no_lines => absurd (List.isEmpty_iff.mpr no_lines) some_line) failed
    exact ⟨same, .lines defective⟩

/-- A record made of lines of an accepted zone, whichever of them are left out and in whatever
order, is malformed only for a defect that it has under the given rules: it has no lines, a line
that never ends is followed by another one, a rule set is unknown, the last span of a line ends
before it starts, or the intervals are too many. The lines never leave a gap, and the zone never
starts late. -/
theorem compile_malformed {text id : String} {record edited : ZoneRecord}
    (found : (Tables.ofText text).zones.get? id = some record)
    (kept : ∀ line ∈ edited.lines, line ∈ record.lines) {table : Table RuleSet}
    {name zone : String} {defect : ZoneDefect}
    (failed : edited.compile name table = .error (.malformedZone zone defect))
    : zone = name ∧ edited.HasDefect table defect ∧ defect ≠ .gap ∧ defect ≠ .lateStart := by
  have record_checked := (Tables.checked_ofText text).zones _ (Table.mem_of_get? found)
  have checked : edited.Checked := fun line member => record_checked line (kept line member)
  obtain ⟨same, defective⟩ := compile_error checked failed
  refine ⟨same, defective, ?_⟩
  cases defective with
  | noLines => decide
  | lines defective => exact defective.laidOut

/-- A source with a zone of two lines. -/
def twoLinesText : String := "Z E 1 - A 2000\n1 - B 2010\n"

/-- Witness: with its lines in the other order the zone is malformed, since the second line ends
before it starts. -/
theorem compile_malformed_reversed
    : ∃ record edited : ZoneRecord,
        (Tables.ofText twoLinesText).zones.get? "E" = some record
        ∧ edited.lines = record.lines.reverse
        ∧ edited.compile "E" [] = .error (.malformedZone "E" .notChronological)
        ∧ edited.HasDefect [] .notChronological := by
  have compiled
      : ((Tables.ofText twoLinesText).zones.get? "E").map (fun record =>
          ZoneRecord.compile { record with lines := record.lines.reverse } "E" [])
        = some (.error (.malformedZone "E" .notChronological)) := by
    decide +kernel
  obtain ⟨record, found, failed⟩ := Option.map_eq_some_iff.mp compiled
  have malformed := compile_malformed found (fun line member => List.mem_reverse.mp member) failed
  exact ⟨record, _, found, rfl, failed, malformed.2.1⟩

end ZoneRecord

end CivilTime
