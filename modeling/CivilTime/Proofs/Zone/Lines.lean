import CivilTime.Proofs.Outcome
import CivilTime.Proofs.Rule.Season
import CivilTime.Proofs.Zone.Walk
import CivilTime.Zone.Compilation

/-! A zone record compiles to intervals that follow its lines.
Each line starts where the line in front of it ends under the saved time in force there. The changes
of a line are followed one span at a time, until the line ends or what is left becomes the tail.
-/

namespace CivilTime

-----------------------------------------------------------------------------------------
-- The ends of the lines
-----------------------------------------------------------------------------------------

namespace ZoneLine

/-- The saved time in force where a line ends. A change that comes behind the end under the saved
time in front of it no longer belongs to the line. -/
def savingsAtEnd (line : ZoneLine) (savings : Int) : List Transition → Int
  | [] => savings
  | t :: rest =>
    if line.stopInstant savings ≤ t.instant then savings else line.savingsAtEnd t.savings rest

/-- The offsets in force where a line ends, given its start and the offsets at the end of the line
in front of it. -/
def offsetsAtEnd (line : ZoneLine) (rules : Table RuleSet) (start : Int)
    (previous : Option LineOffsets)
    : Except Fault LineOffsets :=
  let stdOffset := line.stdOffset.seconds
  match line.savings with
  | .standard => .ok { stdOffset, savings := 0 }
  | .fixed savings => .ok { stdOffset, savings := savings.seconds }
  | .rules name =>
    match rules.get? name with
    | none => .error (.malformedZone name (.unknownRuleSet name))
    | some set => do
      let state ← set.stateAt start stdOffset previous
      let changes := (Stream.after set start stdOffset state.savings).transitions
      pure { stdOffset, savings := line.savingsAtEnd state.savings changes }

/-- A line that never ends stops at the end of time whatever saved time is in force. -/
theorem stopInstant_of_isOpen {line : ZoneLine} (opened : line.isOpen = true) (savings : Int)
    : line.stopInstant savings = endOfTime := by
  simp only [isOpen, Option.isNone_iff_eq_none] at opened
  simp [stopInstant, opened]

/-- What the clock shows under a line: the offset of the wall clock and the name. -/
def shows (line : ZoneLine) (state : RuleState) : Int × String :=
  (line.stdOffset.seconds + state.savings,
    line.format.fill line.stdOffset.seconds state.savings state.letter)

end ZoneLine

/-- The start of the line behind the given ones and the offsets in force there. -/
def ZoneRecord.boundaryBehind (rules : Table RuleSet)
    : List ZoneLine → Int → Option LineOffsets → Except Fault (Int × Option LineOffsets)
  | [], start, previous => .ok (start, previous)
  | line :: rest, start, previous => do
    let offsets ← line.offsetsAtEnd rules start previous
    boundaryBehind rules rest (line.stopInstant offsets.savings) (some offsets)

namespace Compilation

-----------------------------------------------------------------------------------------
-- The spans of a line
-----------------------------------------------------------------------------------------

/-- Adding a span to a zone adds it to its timeline. -/
theorem push_of_pushSpan {zone : String} {timeline next : Timeline} {span : Interval}
    (pushed : pushSpan zone timeline span = .ok next)
    : timeline.push span = .ok next := by
  cases outcome : timeline.push span with
  | error defect => simp [pushSpan, outcome, Except.mapError] at pushed
  | ok result =>
      simp only [pushSpan, outcome, Except.mapError, Except.ok.injEq] at pushed
      rw [pushed]

/-- Whether a change lies behind the year up to which changes are followed. -/
def pastCutoff (cutoff : Option Int) (t : Transition) : Bool :=
  cutoff.any (· < Calendar.yearOf t.instant)

variable {zone : String} {line : ZoneLine} {rules : RuleSet} {cutoff : Option Int}

/-- Following changes in front of the end of a line leads from one span of it to a later one. -/
inductive Follows (zone : String) (line : ZoneLine)
    : Segment → List Transition → Segment → Prop where
  | stay (segment : Segment) : Follows zone line segment [] segment
  | change {segment last : Segment} {t : Transition} {timeline : Timeline} {name : String}
      {rest : List Transition}
      (inside : t.instant < line.stopInstant segment.savings)
      (closed : segment.close zone line t.instant = .ok timeline)
      (named : t.name line.format line.stdOffset.seconds = .ok name)
      (later
        : Follows zone line { timeline, start := t.instant, savings := t.savings, name } rest last)
      : Follows zone line segment (t :: rest) last

/-- Why a line is followed no further behind the given changes, and where it leads. -/
inductive Ends (zone : String) (line : ZoneLine) (rules : RuleSet) (cutoff : Option Int)
    : List Transition → Segment → List (Except Fault Transition) → LineEnd → Prop where
  /-- No change is left. -/
  | exhausted {changes : List Transition} {last : Segment} {lineEnd : LineEnd}
      (followed : ∀ t ∈ changes, pastCutoff cutoff t = false)
      (finished : last.finish zone line = .ok lineEnd)
      : Ends zone line rules cutoff changes last [] lineEnd
  /-- The next change belongs to a later line. -/
  | ended {changes : List Transition} {last : Segment} {t : Transition}
      {others : List (Except Fault Transition)} {lineEnd : LineEnd}
      (followed : ∀ t ∈ changes, pastCutoff cutoff t = false)
      (behind : line.stopInstant last.savings ≤ t.instant)
      (finished : last.finish zone line = .ok lineEnd)
      : Ends zone line rules cutoff changes last (.ok t :: others) lineEnd
  /-- The last change lies past the cutoff, and the rules that go on have one state only. -/
  | settled (earlier : List Transition) {t : Transition} {last : Segment}
      {others : List (Except Fault Transition)} {lineEnd : LineEnd}
      (followed : ∀ u ∈ earlier, pastCutoff cutoff u = false)
      (past : pastCutoff cutoff t = true)
      (settled : rules.hasAlternatingTail = false)
      (finished : last.finish zone line = .ok lineEnd)
      : Ends zone line rules cutoff (earlier ++ [t]) last others lineEnd
  /-- The last change lies past the cutoff and starts the tail. -/
  | tail (earlier : List Transition) {t : Transition} {last : Segment}
      {others : List (Except Fault Transition)}
      (followed : ∀ u ∈ earlier, pastCutoff cutoff u = false)
      (past : pastCutoff cutoff t = true)
      (alternating : rules.hasAlternatingTail = true)
      : Ends zone line rules cutoff (earlier ++ [t]) last others
          (.tail last.timeline (tailFrom line rules t))

/-- A line that leads somewhere behind later changes leads there behind an earlier one as well. -/
theorem Ends.cons {t : Transition} {changes : List Transition} {last : Segment}
    {rest : List (Except Fault Transition)} {lineEnd : LineEnd}
    (ends : Ends zone line rules cutoff changes last rest lineEnd)
    (followed : pastCutoff cutoff t = false)
    : Ends zone line rules cutoff (t :: changes) last rest lineEnd := by
  cases ends with
  | exhausted all finished =>
      exact .exhausted (List.forall_mem_cons.mpr ⟨followed, all⟩) finished
  | ended all behind finished =>
      exact .ended (List.forall_mem_cons.mpr ⟨followed, all⟩) behind finished
  | settled earlier all past settled finished =>
      exact .settled (t :: earlier) (List.forall_mem_cons.mpr ⟨followed, all⟩) past
        settled finished
  | tail earlier all past alternating =>
      exact .tail (t :: earlier) (List.forall_mem_cons.mpr ⟨followed, all⟩) past
        alternating

/-- Where the visit of the changes of a line leads. -/
def leadsTo (zone : String) (line : ZoneLine) : Stream.Visit Segment Halt → Except Fault LineEnd
  | .running segment => segment.finish zone line
  | .done (.settled segment) => segment.finish zone line
  | .done (.tail timeline tail) => .ok (.tail timeline tail)

/-- The visit of one change ends in front of it, or takes it as the start of the next span. -/
theorem followChange_ok {segment : Segment} {t : Transition}
    {visited : Stream.Visit Segment Halt}
    (followed : followChange zone line rules cutoff segment t = .ok visited)
    : (line.stopInstant segment.savings ≤ t.instant ∧ visited = .done (.settled segment))
      ∨ ∃ timeline name,
          t.instant < line.stopInstant segment.savings
          ∧ segment.close zone line t.instant = .ok timeline
          ∧ t.name line.format line.stdOffset.seconds = .ok name
          ∧ visited
            = if pastCutoff cutoff t then
                if rules.hasAlternatingTail then .done (.tail timeline (tailFrom line rules t))
                else
                  .done
                    (.settled { timeline, start := t.instant, savings := t.savings, name })
              else .running { timeline, start := t.instant, savings := t.savings, name } := by
  by_cases behind : line.stopInstant segment.savings ≤ t.instant
  · simp only [followChange, behind, if_true, pure, Except.pure, Except.ok.injEq] at followed
    exact .inl ⟨behind, followed.symm⟩
  · rw [followChange, if_neg behind] at followed
    obtain ⟨timeline, closed, followed⟩ := bind_eq_ok.mp followed
    obtain ⟨name, named, followed⟩ := bind_eq_ok.mp followed
    refine .inr ⟨timeline, name, by omega, closed, named, ?_⟩
    simp only [pastCutoff]
    by_cases past : cutoff.any (· < Calendar.yearOf t.instant) = true <;>
      by_cases alternating : rules.hasAlternatingTail = true <;>
        simp only [past, alternating, Bool.false_eq_true, if_true, if_false, pure_eq_ok]
          at followed ⊢ <;>
        exact followed.symm

/-- A visit of the changes of a line follows them up to the point where it ends, by induction on
the items. -/
theorem follows_of_visitItems {items : List (Except Fault Transition)} {segment : Segment}
    {outcome : Stream.Visit Segment Halt} {lineEnd : LineEnd}
    (visited
      : Stream.visitItems (followChange zone line rules cutoff) items segment = .ok outcome)
    (leads : leadsTo zone line outcome = .ok lineEnd)
    : ∃ changes last rest,
        Follows zone line segment changes last
        ∧ items = changes.map .ok ++ rest
        ∧ Ends zone line rules cutoff changes last rest lineEnd := by
  induction items generalizing segment with
  | nil =>
      simp only [Stream.visitItems, Except.ok.injEq] at visited
      subst visited
      exact ⟨[], segment, [], .stay segment, rfl, .exhausted (by simp) leads⟩
  | cons item others ih =>
      cases item with
      | error fault => simp [Stream.visitItems] at visited
      | ok t =>
          cases step : followChange zone line rules cutoff segment t with
          | error fault => simp [Stream.visitItems, step] at visited
          | ok result =>
              rcases followChange_ok step with ⟨behind, rfl⟩ | ⟨timeline, name, inside, closed,
                named, rfl⟩
              · simp only [Stream.visitItems, step, Except.ok.injEq] at visited
                subst visited
                exact ⟨[], segment, .ok t :: others, .stay segment, rfl,
                  .ended (by simp) behind leads⟩
              · have change {last : Segment} {rest : List Transition}
                    (later
                      : Follows zone line
                          { timeline, start := t.instant, savings := t.savings, name } rest last)
                    : Follows zone line segment (t :: rest) last :=
                  .change inside closed named later
                cases past : pastCutoff cutoff t with
                | false =>
                    simp only [Stream.visitItems, step, past, Bool.false_eq_true, if_false]
                      at visited
                    obtain ⟨changes, last, rest, follows, items_eq, ends⟩ := ih visited
                    exact ⟨t :: changes, last, rest, change follows, by simp [items_eq],
                      ends.cons past⟩
                | true =>
                    cases alternating : rules.hasAlternatingTail with
                    | false =>
                        simp only [Stream.visitItems, step, past, alternating, Bool.false_eq_true,
                          if_true, if_false, Except.ok.injEq] at visited
                        subst visited
                        exact ⟨[t], _, others, change (.stay _), rfl,
                          .settled [] (by simp) past alternating leads⟩
                    | true =>
                        simp only [Stream.visitItems, step, past, alternating, if_true,
                          Except.ok.injEq] at visited
                        subst visited
                        simp only [leadsTo, Except.ok.injEq] at leads
                        subst leads
                        exact ⟨[t], _, others, change (.stay _), rfl,
                          .tail [] (by simp) past alternating⟩

/-- Closing the span of a line behind the covered time covers the time up to the end of the span. -/
theorem covers_close {segment : Segment} {stop : Int} {timeline : Timeline}
    (covers : Timeline.Covers segment.timeline.newestFirst segment.start)
    (closed : segment.close zone line stop = .ok timeline)
    : Timeline.Covers timeline.newestFirst stop := by
  refine Timeline.Covers.push ?_ (push_of_pushSpan closed)
  exact covers

/-- Following changes covers the time up to the start of the later span, by induction on the
changes. -/
theorem Follows.covers {segment last : Segment} {changes : List Transition}
    (follows : Follows zone line segment changes last)
    (covers : Timeline.Covers segment.timeline.newestFirst segment.start)
    : Timeline.Covers last.timeline.newestFirst last.start := by
  induction follows with
  | stay => exact covers
  | change _ closed _ _ ih => exact ih (covers_close covers closed)

/-- The changes that are followed lie in front of the end of the line, so the saved time at its end
is the same from the later span on. The proof is by induction on the changes. -/
theorem Follows.savingsAtEnd_eq {segment last : Segment} {changes : List Transition}
    (follows : Follows zone line segment changes last) (others : List Transition)
    : line.savingsAtEnd segment.savings (changes ++ others)
      = line.savingsAtEnd last.savings others := by
  induction follows with
  | stay => rfl
  | @change segment last t timeline name rest inside closed named later ih =>
      have front : ¬ line.stopInstant segment.savings ≤ t.instant := by omega
      simp only [List.cons_append, ZoneLine.savingsAtEnd, front, if_false]
      exact ih

/-- A span of a line shows what the line shows in a state. -/
def Segment.ShowsState (segment : Segment) (line : ZoneLine) (state : RuleState) : Prop :=
  segment.savings = state.savings
  ∧ segment.name = line.format.fill line.stdOffset.seconds state.savings state.letter

/-- Closing the span of a line shows its state where the span lies. -/
theorem showsAt_close {segment : Segment} {stop : Int} {timeline : Timeline} {state : RuleState}
    (covers : Timeline.Covers segment.timeline.newestFirst segment.start)
    (closed : segment.close zone line stop = .ok timeline) (shown : segment.ShowsState line state)
    (instant : Int) (clock : Int × String)
    : ShowsAt timeline.newestFirst instant clock
      ↔ ShowsAt segment.timeline.newestFirst instant clock
        ∨ (segment.start ≤ instant ∧ instant < stop ∧ line.shows state = clock) := by
  have pushed := push_of_pushSpan closed
  generalize span_eq
    : ({ start := segment.start
         stop
         stdOffset := line.stdOffset.seconds
         savings := segment.savings
         name := segment.name } : Interval)
      = span at pushed
  have start_eq : span.start = segment.start := by rw [← span_eq]
  have stop_eq : span.stop = stop := by rw [← span_eq]
  have clock_eq : span.clock = line.shows state := by
    simp only [← span_eq, Interval.clock, Interval.wallOffset, ZoneLine.shows, shown.1, shown.2]
  rw [← start_eq] at covers
  rw [covers.showsAt_push pushed, start_eq, stop_eq, clock_eq]

/-- The later span shows the state that the changes lead to, by induction on the changes. -/
theorem Follows.last_shows {segment last : Segment} {changes : List Transition}
    (follows : Follows zone line segment changes last)
    (ordered : changes.Pairwise fun t u => t.instant < u.instant)
    (behind : ∀ t ∈ changes, segment.start < t.instant) {state : RuleState}
    (shown : segment.ShowsState line state)
    : segment.start ≤ last.start
      ∧ ∀ instant,
          last.start ≤ instant
          → last.ShowsState line (Stream.stateAfter state instant changes) := by
  induction follows generalizing state with
  | stay => exact ⟨Int.le_refl _, fun _ _ => shown⟩
  | @change segment last t timeline name rest inside closed named later ih =>
      obtain ⟨rest_later, rest_ordered⟩ := List.pairwise_cons.mp ordered
      have front := behind t (by simp)
      have state_next
          : Segment.ShowsState { timeline, start := t.instant, savings := t.savings, name } line
              t.state :=
        ⟨rfl, (NameFormat.apply_eq_ok.mp named).2⟩
      obtain ⟨le, shows⟩ := ih rest_ordered rest_later state_next
      simp only at le
      refine ⟨by omega, fun instant ge => ?_⟩
      rw [Stream.stateAfter_cons, if_pos (by omega)]
      exact shows instant ge

/-- Between the starts of an earlier and a later span the intervals show the state that the changes
in between lead to, by induction on the changes. -/
theorem Follows.showsAt {segment last : Segment} {changes : List Transition}
    (follows : Follows zone line segment changes last)
    (covers : Timeline.Covers segment.timeline.newestFirst segment.start)
    (ordered : changes.Pairwise fun t u => t.instant < u.instant)
    (behind : ∀ t ∈ changes, segment.start < t.instant) {state : RuleState}
    (shown : segment.ShowsState line state)
    (instant : Int) (clock : Int × String)
    : ShowsAt last.timeline.newestFirst instant clock
      ↔ ShowsAt segment.timeline.newestFirst instant clock
        ∨ (segment.start ≤ instant
          ∧ instant < last.start
          ∧ line.shows (Stream.stateAfter state instant changes) = clock) := by
  induction follows generalizing state with
  | stay =>
      constructor
      · exact .inl
      · rintro (earlier | ⟨after, before, _⟩)
        · exact earlier
        · omega
  | @change segment last t timeline name rest inside closed named later ih =>
      obtain ⟨rest_later, rest_ordered⟩ := List.pairwise_cons.mp ordered
      have front := behind t (by simp)
      have state_next
          : Segment.ShowsState { timeline, start := t.instant, savings := t.savings, name } line
              t.state :=
        ⟨rfl, (NameFormat.apply_eq_ok.mp named).2⟩
      have le := (later.last_shows rest_ordered rest_later state_next).1
      rw [ih (covers_close covers closed) rest_ordered rest_later state_next,
        showsAt_close covers closed shown, or_assoc]
      refine or_congr_right ?_
      simp only at le ⊢
      rcases Int.lt_or_le instant t.instant with lt | ge
      · rw [Stream.stateAfter_of_behind (List.forall_mem_cons.mpr
          ⟨lt, fun u member => Int.lt_trans lt (rest_later u member)⟩)]
        constructor
        · rintro (⟨after, _, clock_eq⟩ | ⟨after, _⟩)
          · exact ⟨after, by omega, clock_eq⟩
          · omega
        · rintro ⟨after, _, clock_eq⟩
          exact .inl ⟨after, lt, clock_eq⟩
      · rw [Stream.stateAfter_cons, if_pos ge]
        constructor
        · rintro (⟨_, before, _⟩ | ⟨_, before, clock_eq⟩)
          · omega
          · exact ⟨by omega, before, clock_eq⟩
        · rintro ⟨_, before, clock_eq⟩
          exact .inr ⟨ge, before, clock_eq⟩

/-- The span behind the last of several changes starts with it. -/
theorem Follows.last_start {segment last : Segment} {changes : List Transition} {t : Transition}
    (follows : Follows zone line segment (changes ++ [t]) last)
    : last.start = t.instant ∧ last.savings = t.savings := by
  induction changes generalizing segment with
  | nil =>
      cases follows with
      | change _ _ _ later => cases later with
        | stay => exact ⟨rfl, rfl⟩
  | cons u rest ih =>
      cases follows with
      | change _ _ _ later => exact ih later

/-- A line is ended under the offsets of its last span. -/
theorem finish_ok {last : Segment} {lineEnd : LineEnd}
    (finished : last.finish zone line = .ok lineEnd)
    : ∃ timeline,
        last.close zone line (line.stopInstant last.savings) = .ok timeline
        ∧ lineEnd
          = .next
              { timeline
                start := line.stopInstant last.savings
                previous
                  := some { stdOffset := line.stdOffset.seconds, savings := last.savings } } := by
  obtain ⟨timeline, closed, finished⟩ := bind_eq_ok.mp finished
  exact ⟨timeline, closed, (pure_eq_ok.mp finished).symm⟩

/-- There is a cutoff only for a last line that never ends. -/
theorem isLast_of_pastCutoff {start : Int} {isLast : Bool} {t : Transition}
    (past : pastCutoff (cutoffYear? line rules start isLast) t = true)
    : isLast = true ∧ line.isOpen = true := by
  by_cases tailed : (isLast && line.isOpen && !rules.unbounded.isEmpty) = true
  · simp only [Bool.and_eq_true] at tailed
    exact tailed.1
  · simp [pastCutoff, cutoffYear?, tailed] at past

-----------------------------------------------------------------------------------------
-- One line
-----------------------------------------------------------------------------------------

/-- A line under rules follows the changes of its rules from the state at its start. -/
theorem compileRules_ok {progress : Progress} {isLast : Bool} {lineEnd : LineEnd}
    (compiled : compileRules zone line rules progress isLast = .ok lineEnd)
    : ∃ state name changes last rest,
        rules.stateAt progress.start line.stdOffset.seconds progress.previous = .ok state
        ∧ line.format.apply line.stdOffset.seconds state.savings state.letter = .ok name
        ∧ (Stream.after rules progress.start line.stdOffset.seconds state.savings).items
          = changes.map .ok ++ rest
        ∧ Follows zone line
            { timeline := progress.timeline
              start := progress.start
              savings := state.savings
              name }
            changes last
        ∧ Ends zone line rules (cutoffYear? line rules progress.start isLast) changes last rest
            lineEnd := by
  obtain ⟨state, stated, compiled⟩ := bind_eq_ok.mp compiled
  obtain ⟨name, named, compiled⟩ := bind_eq_ok.mp compiled
  obtain ⟨outcome, visited, compiled⟩ := bind_eq_ok.mp compiled
  have sized := Stream.sized_between rules progress.start endOfTime line.stdOffset.seconds
    state.savings
  rw [Stream.after, sized.visit_eq] at visited
  have leads : leadsTo zone line outcome = .ok lineEnd := by
    cases outcome with
    | running segment => exact compiled
    | done halt => cases halt with
      | settled segment => exact compiled
      | tail timeline tail => exact compiled
  obtain ⟨changes, last, rest, follows, items_eq, ends⟩ := follows_of_visitItems visited leads
  exact ⟨state, name, changes, last, rest, stated, named, items_eq, follows, ends⟩

/-- The changes of a list of items that begins with changes begin with them. -/
theorem filterMap_toOption_append (changes : List Transition)
    (rest : List (Except Fault Transition))
    : (changes.map Except.ok ++ rest).filterMap Except.toOption
      = changes ++ rest.filterMap Except.toOption := by
  rw [List.filterMap_append, List.filterMap_map]
  congr 1
  exact List.filterMap_some

/-- A line under rules that leads to the next line ends under the saved time at its end. -/
theorem compileRules_next {progress next : Progress} {isLast : Bool}
    (compiled : compileRules zone line rules progress isLast = .ok (.next next))
    (covers : Timeline.Covers progress.timeline.newestFirst progress.start)
    : ∃ state savings,
        rules.stateAt progress.start line.stdOffset.seconds progress.previous = .ok state
        ∧ savings
          = line.savingsAtEnd state.savings
              (Stream.after rules progress.start line.stdOffset.seconds state.savings).transitions
        ∧ next.start = line.stopInstant savings
        ∧ (isLast = false
          → next.previous = some { stdOffset := line.stdOffset.seconds, savings })
        ∧ Timeline.Covers next.timeline.newestFirst next.start := by
  obtain ⟨state, name, changes, last, rest, stated, _, items_eq, follows, ends⟩ :=
    compileRules_ok compiled
  have followed := follows.savingsAtEnd_eq (rest.filterMap Except.toOption)
  have last_covers := follows.covers covers
  refine ⟨state, _, stated, rfl, ?_⟩
  rw [Stream.transitions, items_eq, filterMap_toOption_append, followed]
  cases ends with
  | exhausted _ finished =>
      obtain ⟨timeline, closed, same⟩ := finish_ok finished
      simp only [LineEnd.next.injEq] at same
      subst same
      exact ⟨rfl, fun _ => rfl, covers_close last_covers closed⟩
  | @ended _ _ t others _ _ behind finished =>
      obtain ⟨timeline, closed, same⟩ := finish_ok finished
      simp only [LineEnd.next.injEq] at same
      subst same
      have stays
          : line.savingsAtEnd last.savings ((.ok t :: others).filterMap Except.toOption)
            = last.savings := by
        simp only [List.filterMap_cons, Except.toOption, ZoneLine.savingsAtEnd, behind, if_true]
      rw [stays]
      exact ⟨rfl, fun _ => rfl, covers_close last_covers closed⟩
  | settled _ _ past _ finished =>
      obtain ⟨timeline, closed, same⟩ := finish_ok finished
      simp only [LineEnd.next.injEq] at same
      subst same
      obtain ⟨is_last, opened⟩ := isLast_of_pastCutoff past
      rw [ZoneLine.stopInstant_of_isOpen opened, ZoneLine.stopInstant_of_isOpen opened]
      rw [ZoneLine.stopInstant_of_isOpen opened] at closed
      refine ⟨rfl, fun not_last => ?_, covers_close last_covers closed⟩
      rw [is_last] at not_last
      exact absurd not_last (by decide)

/-- A line under rules that leads into the tail is the last one and never ends. The tail starts
where the covered time ends. -/
theorem compileRules_tail {progress : Progress} {isLast : Bool} {timeline : Timeline}
    {tail : Tail}
    (compiled : compileRules zone line rules progress isLast = .ok (.tail timeline tail))
    (covers : Timeline.Covers progress.timeline.newestFirst progress.start)
    : isLast = true
      ∧ tail.rules = { name := rules.name, recurrences := rules.unbounded }
      ∧ Timeline.Covers timeline.newestFirst tail.start := by
  obtain ⟨state, name, changes, last, rest, _, _, _, follows, ends⟩ := compileRules_ok compiled
  have last_covers := follows.covers covers
  cases ends with
  | exhausted _ finished =>
      obtain ⟨_, _, same⟩ := finish_ok finished
      simp at same
  | ended _ _ finished =>
      obtain ⟨_, _, same⟩ := finish_ok finished
      simp at same
  | settled _ _ _ _ finished =>
      obtain ⟨_, _, same⟩ := finish_ok finished
      simp at same
  | tail _ _ past _ =>
      rw [follows.last_start.1] at last_covers
      exact ⟨(isLast_of_pastCutoff past).1, rfl, last_covers⟩

/-- A line with a fixed amount of saved time leads to the next line. -/
theorem compileFixed_ok {progress : Progress} {savings : Int} {lineEnd : LineEnd}
    (compiled : compileFixed zone line progress savings = .ok lineEnd)
    (covers : Timeline.Covers progress.timeline.newestFirst progress.start)
    : ∃ timeline,
        lineEnd
          = .next
              { timeline
                start := line.stopInstant savings
                previous := some { stdOffset := line.stdOffset.seconds, savings } }
        ∧ Timeline.Covers timeline.newestFirst (line.stopInstant savings) := by
  obtain ⟨name, _, compiled⟩ := bind_eq_ok.mp compiled
  obtain ⟨timeline, pushed, compiled⟩ := bind_eq_ok.mp compiled
  exact ⟨timeline, (pure_eq_ok.mp compiled).symm, covers.push (push_of_pushSpan pushed)⟩

section Table

variable {table : Table RuleSet}

/-- A line that leads to the next line hands on the offsets at its end and covers the time up to
it. -/
theorem compileLine_next {progress next : Progress} {isLast : Bool}
    (compiled : compileLine zone table line progress isLast = .ok (.next next))
    (covers : Timeline.Covers progress.timeline.newestFirst progress.start)
    : ∃ offsets,
        line.offsetsAtEnd table progress.start progress.previous = .ok offsets
        ∧ next.start = line.stopInstant offsets.savings
        ∧ (isLast = false → next.previous = some offsets)
        ∧ Timeline.Covers next.timeline.newestFirst next.start := by
  unfold compileLine at compiled
  split at compiled
  · simp at compiled
  · cases source : line.savings with
    | standard =>
        simp only [source] at compiled
        obtain ⟨timeline, same, covered⟩ := compileFixed_ok compiled covers
        simp only [LineEnd.next.injEq] at same
        subst same
        exact ⟨_, by simp only [ZoneLine.offsetsAtEnd, source], rfl, fun _ => rfl, covered⟩
    | fixed savings =>
        simp only [source] at compiled
        obtain ⟨timeline, same, covered⟩ := compileFixed_ok compiled covers
        simp only [LineEnd.next.injEq] at same
        subst same
        exact ⟨_, by simp only [ZoneLine.offsetsAtEnd, source], rfl, fun _ => rfl, covered⟩
    | rules name =>
        simp only [source] at compiled
        cases found : table.get? name with
        | none => simp [found] at compiled
        | some set =>
            simp only [found] at compiled
            obtain ⟨state, savings, stated, savings_eq, start_eq, handed, covered⟩ :=
              compileRules_next compiled covers
            refine ⟨{ stdOffset := line.stdOffset.seconds, savings }, ?_, start_eq, handed,
              covered⟩
            simp only [ZoneLine.offsetsAtEnd, source, found, stated, bind, Except.bind, pure,
              Except.pure, savings_eq]

/-- A line that leads into the tail is the last one, and the tail goes on with the recurrences of
its rules that go on forever. -/
theorem compileLine_tail {progress : Progress} {isLast : Bool} {timeline : Timeline} {tail : Tail}
    (compiled : compileLine zone table line progress isLast = .ok (.tail timeline tail))
    (covers : Timeline.Covers progress.timeline.newestFirst progress.start)
    : isLast = true
      ∧ (∃ name set,
          line.savings = .rules name
          ∧ table.get? name = some set
          ∧ tail.rules = { name := set.name, recurrences := set.unbounded })
      ∧ Timeline.Covers timeline.newestFirst tail.start := by
  unfold compileLine at compiled
  split at compiled
  · simp at compiled
  · cases source : line.savings with
    | standard =>
        simp only [source] at compiled
        obtain ⟨_, same, _⟩ := compileFixed_ok compiled covers
        simp at same
    | fixed savings =>
        simp only [source] at compiled
        obtain ⟨_, same, _⟩ := compileFixed_ok compiled covers
        simp at same
    | rules name =>
        simp only [source] at compiled
        cases found : table.get? name with
        | none => simp [found] at compiled
        | some set =>
            simp only [found] at compiled
            obtain ⟨is_last, rules_eq, covered⟩ := compileRules_tail compiled covers
            exact ⟨is_last, ⟨name, set, rfl, found, rules_eq⟩, covered⟩

-----------------------------------------------------------------------------------------
-- The lines of a record
-----------------------------------------------------------------------------------------

/-- A zone is completed from intervals that begin at the beginning of time. -/
theorem complete_ok {timeline : Timeline} {tail : Option Tail} {compiled : CompiledZone}
    (completed : complete zone timeline tail = .ok compiled)
    : compiled = { intervals := timeline.newestFirst.reverse, tail }
      ∧ timeline.newestFirst ≠ [] := by
  unfold complete at completed
  split at completed
  · rename_i starts
    simp only [Except.ok.injEq] at completed
    refine ⟨completed.symm, fun none_left => ?_⟩
    simp [Timeline.startsAtBeginning, none_left] at starts
  · simp at completed

/-- A zone is completed from where its last line leads. -/
def Completes (zone : String) (compiled : CompiledZone) : LineEnd → Prop
  | .next next => complete zone next.timeline none = .ok compiled
  | .tail timeline tail => complete zone timeline (some tail) = .ok compiled

/-- The lines of a record are laid end to end behind the covered time, up to the start of the last
line, and the zone is completed from where the last line leads. The proof is by induction on the
lines. -/
theorem compileLines_ok {lines : List ZoneLine} {progress : Progress} {compiled : CompiledZone}
    (completed : compileLines zone table lines progress = .ok compiled)
    (covers : Timeline.Covers progress.timeline.newestFirst progress.start)
    (some_line : lines ≠ [])
    : ∃ earlier last before lineEnd,
        lines = earlier ++ [last]
        ∧ ZoneRecord.boundaryBehind table earlier progress.start progress.previous
          = .ok (before.start, before.previous)
        ∧ Timeline.Covers before.timeline.newestFirst before.start
        ∧ compileLine zone table last before true = .ok lineEnd
        ∧ Completes zone compiled lineEnd := by
  induction lines generalizing progress with
  | nil => exact absurd rfl some_line
  | cons line rest ih =>
      obtain ⟨lineEnd, step, completed⟩ := bind_eq_ok.mp completed
      cases rest with
      | nil =>
          refine ⟨[], line, progress, lineEnd, rfl, rfl, covers, step, ?_⟩
          cases lineEnd with
          | next next => exact completed
          | tail timeline tail => exact completed
      | cons following others =>
          cases lineEnd with
          | next next =>
              obtain ⟨offsets, offsets_eq, start_eq, handed, covered⟩ :=
                compileLine_next step covers
              obtain ⟨earlier, last, before, lineEnd, lines_eq, boundary, rest⟩ :=
                ih completed covered (by simp)
              refine ⟨line :: earlier, last, before, lineEnd, by simp [lines_eq], ?_, rest⟩
              rw [start_eq, handed rfl] at boundary
              exact bind_eq_ok.mpr ⟨offsets, offsets_eq, boundary⟩
          | tail timeline tail =>
              have is_last := (compileLine_tail step covers).1
              simp at is_last

end Table

end Compilation

/-- Where the intervals of a zone end: where its tail starts, or where its last line ends. -/
def ZoneRecord.EndsBehind (table : Table RuleSet) (last : ZoneLine) (start : Int)
    (previous : Option LineOffsets) (stop : Int)
    : Option Tail → Prop
  | some tail =>
      stop = tail.start
      ∧ ∃ name set,
          last.savings = .rules name
          ∧ table.get? name = some set
          ∧ tail.rules = { name := set.name, recurrences := set.unbounded }
  | none =>
      ∃ offsets,
        last.offsetsAtEnd table start previous = .ok offsets
        ∧ stop = last.stopInstant offsets.savings

/-- A compiled zone covers all time up to its tail or to the end of its last line. Its intervals
begin at the beginning of time, each lasts for a while and ends where the next one starts, and
neighbours show different clocks. The tail goes on with the recurrences of the last line's rules
that go on forever, in their order. -/
theorem ZoneRecord.compile_laidOut {record : ZoneRecord} {name : String} {table : Table RuleSet}
    {zone : CompiledZone} (compiled : record.compile name table = .ok zone)
    : zone.intervals ≠ []
      ∧ Contiguous zone.intervals
      ∧ (zone.intervals.IsChain fun i j => i.Differs j)
      ∧ ∃ earlier last start previous stop,
          record.lines = earlier ++ [last]
          ∧ boundaryBehind table earlier beginningOfTime none = .ok (start, previous)
          ∧ zone.intervals.getLast?.map (·.stop) = some stop
          ∧ EndsBehind table last start previous stop zone.tail
          ∧ (zone.tail = none → last.isOpen = true → stop = endOfTime) := by
  unfold compile at compiled
  split at compiled
  · simp at compiled
  · rename_i some_line
    obtain ⟨earlier, last, before, lineEnd, lines_eq, boundary, covers, step, completes⟩ :=
      Compilation.compileLines_ok compiled .empty (by simpa using some_line)
    cases lineEnd with
    | next next =>
        obtain ⟨offsets, offsets_eq, start_eq, _, covered⟩ :=
          Compilation.compileLine_next step covers
        obtain ⟨rfl, some_interval⟩ := Compilation.complete_ok completes
        obtain ⟨contiguous, chain, stop_eq⟩ := covered.contiguous some_interval
        refine ⟨by simpa using some_interval, contiguous, chain, earlier, last, before.start,
          before.previous, next.start, lines_eq, boundary, stop_eq, ⟨offsets, offsets_eq, start_eq⟩,
          fun _ opened => ?_⟩
        rw [start_eq, ZoneLine.stopInstant_of_isOpen opened]
    | tail timeline tail =>
        obtain ⟨_, rules_eq, covered⟩ := Compilation.compileLine_tail step covers
        obtain ⟨rfl, some_interval⟩ := Compilation.complete_ok completes
        obtain ⟨contiguous, chain, stop_eq⟩ := covered.contiguous some_interval
        exact ⟨by simpa using some_interval, contiguous, chain, earlier, last, before.start,
          before.previous, tail.start, lines_eq, boundary, stop_eq, ⟨rfl, rules_eq⟩,
          fun no_tail => by simp at no_tail⟩

/-- A line of a fixed offset up to 1999. -/
def fixedLine : ZoneLine :=
  { stdOffset := .ofSeconds (-16200)
    savings := .standard
    format := .literal "LMT"
    stop
      := some
        { year := 1999
          month := .jan
          day := .fixed 1
          time := { mode := .wall, time := .zero } }
    line := 1 }

/-- A line with summer time. -/
def summerLine : ZoneLine :=
  { stdOffset := .ofSeconds (-18000)
    savings := .rules "S"
    format := .letter "E%sT"
    stop := none
    line := 2 }

/-- A record that goes over from a fixed offset to summer time. -/
def summerRecord : ZoneRecord := { line := 1, lines := [fixedLine, summerLine] }

/-- The zone of the record with summer time. -/
def summerZone : CompiledZone :=
  { intervals :=
      [ { start := beginningOfTime
          stop := 915165000
          stdOffset := -16200
          savings := 0
          name := "LMT" },
        { start := 915165000
          stop := 952844400
          stdOffset := -18000
          savings := 0
          name := "EST" },
        { start := 952844400
          stop := 973404000
          stdOffset := -18000
          savings := 3600
          name := "EDT" },
        { start := 973404000
          stop := 984294000
          stdOffset := -18000
          savings := 0
          name := "EST" } ]
    tail
      := some
        { start := 984294000
          stdOffset := -18000
          format := .letter "E%sT"
          initialSavings := 3600
          initialLetter := some "D"
          rules := summerRules } }

/-- Witness: the record with summer time compiles to four intervals and a tail. -/
theorem ZoneRecord.compile_laidOut_summer
    : summerRecord.compile "E" [("S", summerRules)] = .ok summerZone
      ∧ Contiguous summerZone.intervals :=
  have compiled : summerRecord.compile "E" [("S", summerRules)] = .ok summerZone := by
    decide +kernel
  ⟨compiled, (compile_laidOut compiled).2.1⟩

end CivilTime
