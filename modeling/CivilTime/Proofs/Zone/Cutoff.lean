import CivilTime.Proofs.Rule.Selection
import CivilTime.Proofs.Rule.State
import CivilTime.Proofs.Zone.Lines

/-! The changes of a last line are followed up to a cutoff only.
In front of the first change past the cutoff the zone shows what the changes say. Behind it the
changes of the recurrences that the zone leaves out are lost, so the zone goes on showing what the
changes say exactly if none of those can be seen.
-/

namespace CivilTime

/-- A zone says what the clock shows at an instant: by the interval around it, or by the last
change of the tail. -/
def CompiledZone.SaysAt (zone : CompiledZone) (instant : Int) (clock : Int × String) : Prop :=
  match zone.tailAt instant with
  | some tail => tail.shows (tail.stateAt instant) = clock
  | none => ShowsAt zone.intervals instant clock

namespace ZoneLine

/-- The changes of the rules of a line from its start on. -/
def changes (line : ZoneLine) (rules : RuleSet) (start : Int) (state : RuleState)
    : List Transition :=
  (Stream.after rules start line.stdOffset.seconds state.savings).transitions

/-- The state at an instant of a line. -/
def stateAt (line : ZoneLine) (rules : RuleSet) (start : Int) (state : RuleState) (instant : Int)
    : RuleState :=
  Stream.stateAfter state instant (line.changes rules start state)

/-- The first change of a last line past its cutoff. -/
def cut? (line : ZoneLine) (rules : RuleSet) (start : Int) (state : RuleState)
    : Option Transition :=
  (line.changes rules start state).find?
    (Compilation.pastCutoff (Compilation.cutoffYear? line rules start true))

end ZoneLine

/-- Without a tail a zone says what its intervals show. -/
theorem CompiledZone.saysAt_of_intervals {intervals : List Interval} {tail : Option Tail}
    {instant : Int} {clock : Int × String} (front : ∀ t, tail = some t → instant < t.start)
    : CompiledZone.SaysAt { intervals := intervals.reverse, tail } instant clock
      ↔ ShowsAt intervals instant clock := by
  have no_tail : CompiledZone.tailAt { intervals := intervals.reverse, tail } instant = none := by
    cases tail with
    | none => rfl
    | some t =>
        have := front t rfl
        simp only [tailAt, Option.filter]
        rw [if_neg (by simpa using this)]
  rw [SaysAt, no_tail]
  simp [ShowsAt]

/-- From the start of its tail on a zone says what the tail shows. -/
theorem CompiledZone.saysAt_of_tail {intervals : List Interval} {tail : Tail} {instant : Int}
    {clock : Int × String} (behind : tail.start ≤ instant)
    : CompiledZone.SaysAt { intervals, tail := some tail } instant clock
      ↔ tail.shows (tail.stateAt instant) = clock := by
  have has_tail : CompiledZone.tailAt { intervals, tail := some tail } instant = some tail := by
    simp [tailAt, Option.filter, behind]
  rw [SaysAt, has_tail]

/-- Changes that are all left out cannot be seen exactly if the clock stays as it is. The proof is
by induction on the changes. -/
theorem Stream.constant_iff_unseen {β : Type} {shows : RuleState → β} {stop : Int}
    {leftOut : Transition → Prop} (all_left_out : ∀ t, leftOut t) {state : RuleState}
    {changes : List Transition} (ordered : changes.Pairwise fun t u => t.instant < u.instant)
    (inside : ∀ t ∈ changes, t.instant < stop)
    : (∀ instant, instant < stop → shows state = shows (stateAfter state instant changes))
      ↔ Unseen shows leftOut state changes := by
  induction changes generalizing state with
  | nil => simp [Unseen, stateAfter]
  | cons t rest ih =>
      obtain ⟨later, rest_ordered⟩ := List.pairwise_cons.mp ordered
      obtain ⟨here, rest_inside⟩ := List.forall_mem_cons.mp inside
      rw [Unseen, ← ih rest_ordered rest_inside]
      constructor
      · intro constant
        have same : shows t.state = shows state := by
          have := constant t.instant here
          rw [stateAfter_cons, if_pos (Int.le_refl _), stateAfter_of_behind later] at this
          exact this.symm
        refine ⟨fun _ => same, fun instant before => ?_⟩
        rcases Int.lt_or_le instant t.instant with front | behind
        · rw [stateAfter_of_behind fun u member => Int.lt_trans front (later u member)]
        · have := constant instant before
          rw [stateAfter_cons, if_pos behind] at this
          rw [same, this]
      · rintro ⟨same, constant⟩ instant before
        have same := same (all_left_out t)
        rw [stateAfter_cons]
        split
        · rw [← same]
          exact constant instant before
        · rw [stateAfter_of_behind fun u member => by have := later u member; omega]

namespace Compilation

variable {zone : String} {line : ZoneLine} {rules : RuleSet}

/-- The span in front of any changes that are followed. -/
def firstSegment (progress : Progress) (savings : Int) (name : String) : Segment :=
  { timeline := progress.timeline, start := progress.start, savings, name }

/-- A line under rules is followed behind the covered time, over some of its changes up to a last
span. The other changes come behind those. -/
structure FollowsLine (zone : String) (line : ZoneLine) (rules : RuleSet) (progress : Progress)
    (state : RuleState) (changes others : List Transition) (last : Segment)
    : Prop where
  covers : Timeline.Covers progress.timeline.newestFirst progress.start
  follows
    : Follows zone line
        (firstSegment progress state.savings
          (line.format.fill line.stdOffset.seconds state.savings state.letter))
        changes last
  changes_eq : line.changes rules progress.start state = changes ++ others

/-- A line under rules that compiles has been followed. -/
theorem compileRules_follows {progress : Progress} {isLast : Bool} {lineEnd : LineEnd}
    (compiled : compileRules zone line rules progress isLast = .ok lineEnd)
    (covers : Timeline.Covers progress.timeline.newestFirst progress.start)
    : ∃ state changes last rest,
        rules.stateAt progress.start line.stdOffset.seconds progress.previous = .ok state
        ∧ (Stream.after rules progress.start line.stdOffset.seconds state.savings).items
          = changes.map .ok ++ rest
        ∧ FollowsLine zone line rules progress state changes (rest.filterMap Except.toOption) last
        ∧ Ends zone line rules (cutoffYear? line rules progress.start isLast) changes last rest
            lineEnd := by
  obtain ⟨state, name, changes, last, rest, stated, named, items_eq, follows, ends⟩ :=
    compileRules_ok compiled
  rw [(NameFormat.apply_eq_ok.mp named).2] at follows
  refine ⟨state, changes, last, rest, stated, items_eq, ⟨covers, follows, ?_⟩, ends⟩
  rw [ZoneLine.changes, Stream.transitions, items_eq, filterMap_toOption_append]

namespace FollowsLine

variable {progress : Progress} {state : RuleState} {changes others earlier : List Transition}
  {last : Segment} {cut : Transition}

/-- All changes lie behind the start of the line and in front of the end of time. -/
theorem inside (followed : FollowsLine zone line rules progress state changes others last)
    : ∀ t ∈ changes ++ others, progress.start < t.instant ∧ t.instant < endOfTime := by
  rw [← followed.changes_eq]
  exact (Stream.sized_between rules progress.start endOfTime line.stdOffset.seconds
    state.savings).transitions_ordered.1

/-- The changes come in order. -/
theorem ordered (followed : FollowsLine zone line rules progress state changes others last)
    : (changes ++ others).Pairwise fun t u => t.instant < u.instant := by
  rw [← followed.changes_eq]
  exact (Stream.sized_between rules progress.start endOfTime line.stdOffset.seconds
    state.savings).transitions_ordered.2

/-- The changes that are followed come in order. -/
theorem front_ordered
    (followed : FollowsLine zone line rules progress state changes others last)
    : changes.Pairwise fun t u => t.instant < u.instant :=
  (List.pairwise_append.mp followed.ordered).1

/-- The changes that are followed lie behind the start of the line. -/
theorem front_behind (followed : FollowsLine zone line rules progress state changes others last)
    : ∀ t ∈ changes, progress.start < t.instant :=
  fun t member => (followed.inside t (List.mem_append_left _ member)).1

/-- The time up to the start of the last span is covered. -/
theorem last_covers (followed : FollowsLine zone line rules progress state changes others last)
    : Timeline.Covers last.timeline.newestFirst last.start :=
  followed.follows.covers followed.covers

/-- The state at an instant in front of the changes that are not followed is the one that the
others lead to. -/
theorem stateAt_eq (followed : FollowsLine zone line rules progress state changes others last)
    {instant : Int} (front : ∀ t ∈ others, instant < t.instant)
    : line.stateAt rules progress.start state instant
      = Stream.stateAfter state instant changes := by
  rw [ZoneLine.stateAt, followed.changes_eq, Stream.stateAfter_append_of_behind front]

/-- The last span shows the state that the changes lead to. -/
theorem last_shows (followed : FollowsLine zone line rules progress state changes others last)
    : progress.start ≤ last.start
      ∧ ∀ instant,
          last.start ≤ instant
          → last.ShowsState line (Stream.stateAfter state instant changes) :=
  followed.follows.last_shows followed.front_ordered followed.front_behind ⟨rfl, rfl⟩

/-- What is shown in front of the last span is what has been shown in front of the line, and what
its changes say. -/
theorem showsAt_iff (followed : FollowsLine zone line rules progress state changes others last)
    (instant : Int) (clock : Int × String)
    : ShowsAt last.timeline.newestFirst instant clock
      ↔ ShowsAt progress.timeline.newestFirst instant clock
        ∨ (progress.start ≤ instant
          ∧ instant < last.start
          ∧ line.shows (Stream.stateAfter state instant changes) = clock) :=
  followed.follows.showsAt followed.covers followed.front_ordered followed.front_behind
    ⟨rfl, rfl⟩ instant clock

/-- In front of the last span the intervals show what the changes say. -/
theorem shows_front (followed : FollowsLine zone line rules progress state changes others last)
    {instant : Int} (after : progress.start ≤ instant) (before : instant < last.start)
    (front : ∀ t ∈ others, instant < t.instant)
    : ShowsAt last.timeline.newestFirst instant
        (line.shows (line.stateAt rules progress.start state instant)) := by
  rw [followed.stateAt_eq front]
  exact (followed.showsAt_iff instant _).mpr (.inr ⟨after, before, rfl⟩)

/-- Up to the end of the last span the intervals show what the changes say. -/
theorem shows_closed (followed : FollowsLine zone line rules progress state changes others last)
    {stop : Int} {timeline : Timeline} (closed : last.close zone line stop = .ok timeline)
    {instant : Int} (after : progress.start ≤ instant) (before : instant < stop)
    (front : ∀ t ∈ others, instant < t.instant)
    : ShowsAt timeline.newestFirst instant
        (line.shows (line.stateAt rules progress.start state instant)) := by
  rcases Int.lt_or_le instant last.start with earlier | later
  · have last_state := followed.last_shows.2 last.start (Int.le_refl _)
    refine (showsAt_close followed.last_covers closed last_state instant _).mpr (.inl ?_)
    exact followed.shows_front after earlier front
  · have last_state := followed.last_shows.2 instant later
    rw [followed.stateAt_eq front]
    exact (showsAt_close followed.last_covers closed last_state instant _).mpr
      (.inr ⟨later, before, rfl⟩)

section Cut

/-- The changes that are not followed come behind the last one that is. -/
theorem later (followed : FollowsLine zone line rules progress state (earlier ++ [cut]) others last)
    : ∀ t ∈ others, cut.instant < t.instant :=
  (List.pairwise_append.mp followed.ordered).2.2 cut (by simp)

/-- No change that is followed comes behind the last one. -/
theorem le_cut
    (followed : FollowsLine zone line rules progress state (earlier ++ [cut]) others last)
    : ∀ t ∈ earlier ++ [cut], t.instant ≤ cut.instant := by
  intro t member
  rcases List.mem_append.mp member with front | here
  · exact Int.le_of_lt ((List.pairwise_append.mp followed.front_ordered).2.2 t front cut (by simp))
  · obtain rfl := List.mem_singleton.mp here
    exact Int.le_refl _

/-- The last change that is followed begins the last span. -/
theorem start_eq
    (followed : FollowsLine zone line rules progress state (earlier ++ [cut]) others last)
    : last.start = cut.instant :=
  followed.follows.last_start.1

/-- The last span shows the state that the last change leads to. -/
theorem cut_shown
    (followed : FollowsLine zone line rules progress state (earlier ++ [cut]) others last)
    : last.ShowsState line cut.state := by
  have shown := followed.last_shows.2 last.start (Int.le_refl _)
  rwa [Stream.stateAfter_append_cons (Int.le_of_eq followed.start_eq.symm)] at shown

/-- The changes are those in front of the last one that is followed, that one and the others. -/
theorem cut_changes
    (followed : FollowsLine zone line rules progress state (earlier ++ [cut]) others last)
    : line.changes rules progress.start state = earlier ++ cut :: others := by
  rw [followed.changes_eq, List.append_assoc, List.singleton_append]

/-- From the last change that is followed on, the state is the one that it and the others lead
to. -/
theorem stateAt_cut
    (followed : FollowsLine zone line rules progress state (earlier ++ [cut]) others last)
    {instant : Int} (behind : cut.instant ≤ instant)
    : line.stateAt rules progress.start state instant
      = Stream.stateAfter cut.state instant others := by
  rw [ZoneLine.stateAt, followed.cut_changes, Stream.stateAfter_append_cons behind]

/-- A change past the cutoff that follows changes that are not past it is the first one past it. -/
theorem cut_eq
    (followed : FollowsLine zone line rules progress state (earlier ++ [cut]) others last)
    (front : ∀ t ∈ earlier, pastCutoff (cutoffYear? line rules progress.start true) t = false)
    (past : pastCutoff (cutoffYear? line rules progress.start true) cut = true)
    : line.cut? rules progress.start state = some cut := by
  rw [ZoneLine.cut?, followed.cut_changes, List.find?_append,
    List.find?_eq_none.mpr (by simpa using front), List.find?_cons, past]
  rfl

/-- The last span shows the state of its change up to its end. -/
theorem showsAt_closed_cut
    (followed : FollowsLine zone line rules progress state (earlier ++ [cut]) others last)
    {stop : Int} {timeline : Timeline} (closed : last.close zone line stop = .ok timeline)
    {instant : Int} (behind : cut.instant ≤ instant) (before : instant < stop)
    (clock : Int × String)
    : ShowsAt timeline.newestFirst instant clock ↔ line.shows cut.state = clock := by
  have from_start : last.start ≤ instant := Int.le_trans (Int.le_of_eq followed.start_eq) behind
  rw [showsAt_close followed.last_covers closed followed.cut_shown]
  constructor
  · rintro (front | ⟨_, _, same⟩)
    · exact absurd (followed.last_covers.lt_of_showsAt front) (Int.not_lt.mpr from_start)
    · exact same
  · exact fun same => .inr ⟨from_start, before, same⟩

/-- The changes that are not followed cannot be seen exactly if each of them shows what the state
just in front of it shows. -/
theorem unseen_iff
    (followed : FollowsLine zone line rules progress state (earlier ++ [cut]) others last)
    {leftOut : Transition → Prop}
    : Stream.Unseen line.shows leftOut cut.state others
      ↔ ∀ t ∈ line.changes rules progress.start state,
          cut.instant < t.instant
          → leftOut t
          → line.shows t.state
            = line.shows (line.stateAt rules progress.start state (t.instant - 1)) := by
  have others_ordered := (List.pairwise_append.mp followed.ordered).2.1
  rw [Stream.unseen_iff others_ordered, followed.changes_eq]
  constructor
  · intro unseen t member behind left_out
    rw [followed.stateAt_cut (by omega)]
    rcases List.mem_append.mp member with front | member
    · have := followed.le_cut t front
      omega
    · exact unseen t member left_out
  · intro unseen t member left_out
    have behind := followed.later t member
    rw [← followed.stateAt_cut (by omega)]
    exact unseen t (List.mem_append_right _ member) behind left_out

end Cut

end FollowsLine

/-- A last span that never ends shows the state of the change that it starts with, which is what
the changes say exactly if the later ones cannot be seen. -/
theorem FollowsLine.settled_iff {progress : Progress} {state : RuleState}
    {earlier others : List Transition} {cut : Transition} {last : Segment}
    (followed : FollowsLine zone line rules progress state (earlier ++ [cut]) others last)
    {timeline : Timeline} (closed : last.close zone line endOfTime = .ok timeline)
    {leftOut : Transition → Prop} (all_left_out : ∀ t, leftOut t)
    : (∀ instant,
        cut.instant ≤ instant
        → instant < endOfTime
        → ShowsAt timeline.newestFirst instant
            (line.shows (line.stateAt rules progress.start state instant)))
      ↔ Stream.Unseen line.shows leftOut cut.state others := by
  have others_ordered := (List.pairwise_append.mp followed.ordered).2.1
  have others_inside (t : Transition) (member : t ∈ others) : t.instant < endOfTime :=
    (followed.inside t (List.mem_append_right _ member)).2
  have no_change : ∀ t ∈ ([] : List Transition), cut.instant < t.instant := by simp
  rw [← Stream.constant_iff_unseen all_left_out others_ordered others_inside]
  refine .trans ?_ (Stream.agree_iff_from no_change followed.later rfl).symm
  refine forall_congr' fun instant => forall_congr' fun behind => forall_congr' fun before => ?_
  rw [followed.showsAt_closed_cut closed behind before, followed.stateAt_cut behind]
  rfl

/-- Behind a change the unbounded recurrences alone lead to the same states when they start anew at
the change and when they are selected from the stream that is left there. -/
theorem restart_unbounded {stdOffset : Int} (steady : rules.Steady stdOffset rules.SavesAmount)
    {start savings : Int} (amount : rules.SavesAmount savings) {cut : Transition}
    {earlier : List Transition} {rest : List (Except Fault Transition)}
    (items_eq
      : (Stream.after rules start stdOffset savings).items = (earlier ++ [cut]).map .ok ++ rest)
    : ∃ left selected : Stream,
        left.Steady rules.SavesAmount
        ∧ selected.Steady rules.SavesAmount
        ∧ Stream.Selects (·.isUnbounded) left selected
        ∧ left.rules = rules
        ∧ left.stop = endOfTime
        ∧ left.savings = cut.savings
        ∧ left.transitions = rest.filterMap Except.toOption
        ∧ ∀ instant,
            Stream.stateAfter cut.state instant
                (Stream.after { name := rules.name, recurrences := rules.unbounded } cut.instant
                  stdOffset cut.savings).transitions
              = Stream.stateAfter cut.state instant selected.transitions := by
  have full_steady := Stream.steady_between steady amount start endOfTime
  have full_upward := Stream.upward_between rules amount start endOfTime stdOffset
  obtain ⟨left, reaches, _, left_items⟩ := full_steady.toSized.reaches_of_items items_eq
  have left_steady := (reaches.steady full_steady full_upward).1
  obtain ⟨r, _, member, _, before_amount, applies, instant_eq, savings_eq, letter_eq, _,
    left_savings, behind⟩ := reaches.pendingBehind full_steady full_upward
  obtain ⟨rules_eq, stdOffset_eq, stop_eq⟩ := reaches.fixed
  simp only [Stream.between] at rules_eq stdOffset_eq stop_eq instant_eq member
  have state_eq : cut.state = { savings := r.savings, letter := r.letter } := by
    rw [Transition.state, savings_eq, letter_eq]
  have cut_amount : rules.SavesAmount cut.savings := .inr ⟨r, member, savings_eq⟩
  have inside : r.instantIn cut.year left.stdOffset left.savings < left.stop := by
    rw [stop_eq, stdOffset_eq, left_savings]
    exact Recurrence.instantIn_lt_endOfTime (steady.day r member)
      (steady.near r member cut.savings cut_amount).2 applies
  obtain ⟨selected, selected_steady, selects, same⟩ := left_steady.selects_restart before_amount
    (by rw [rules_eq]; exact member) applies (by rw [stdOffset_eq]; exact instant_eq) state_eq
    (left_savings.trans savings_eq) inside behind
    (Stream.steady_between (steady.filter rules.name (·.isUnbounded)) cut_amount cut.instant
      endOfTime)
    stdOffset_eq.symm stop_eq.symm left_savings.symm
    (fun q b => by
      rw [Stream.pending_between, List.mem_filter, rules_eq, stdOffset_eq, left_savings])
  refine ⟨left, selected, left_steady, selected_steady, selects, rules_eq, stop_eq, left_savings,
    ?_, same⟩
  rw [Stream.transitions, left_items]

/-- A tail that starts with a change shows what the changes say exactly if the changes of the
recurrences that it leaves out cannot be seen. -/
theorem FollowsLine.tail_iff {progress : Progress} {state : RuleState} {earlier : List Transition}
    {cut : Transition} {last : Segment} {rest : List (Except Fault Transition)}
    (followed
      : FollowsLine zone line rules progress state (earlier ++ [cut])
          (rest.filterMap Except.toOption) last)
    (steady : rules.Steady line.stdOffset.seconds rules.SavesAmount)
    (amount : rules.SavesAmount state.savings)
    (items_eq
      : (Stream.after rules progress.start line.stdOffset.seconds state.savings).items
        = (earlier ++ [cut]).map .ok ++ rest)
    : (∀ instant,
        cut.instant ≤ instant
        → instant < endOfTime
        → (tailFrom line rules cut).shows ((tailFrom line rules cut).stateAt instant)
          = line.shows (line.stateAt rules progress.start state instant))
      ↔ Stream.Unseen line.shows (rules.LeavesOut (·.isUnbounded)) cut.state
          (rest.filterMap Except.toOption) := by
  obtain ⟨left, selected, left_steady, selected_steady, selects, rules_eq, stop_eq, left_savings,
    left_transitions, same⟩ := restart_unbounded steady amount items_eq
  have shows_savings (a b : RuleState) (equal : line.shows a = line.shows b)
      : a.savings = b.savings := by
    have := congrArg Prod.fst equal
    simp only [ZoneLine.shows] at this
    omega
  have iff := selects.shows_iff left_steady selected_steady shows_savings left_savings.symm
    (rfl : line.shows cut.state = line.shows cut.state)
  have new_later := (Stream.sized_between { name := rules.name, recurrences := rules.unbounded }
    cut.instant endOfTime line.stdOffset.seconds cut.savings).transitions_ordered.1
  simp only [← same, rules_eq, stop_eq, left_transitions] at iff
  rw [← iff]
  refine .trans ?_
    (Stream.agree_iff_from followed.later (fun t member => (new_later t member).1) rfl).symm
  refine forall_congr' fun instant => forall_congr' fun behind => forall_congr' fun before => ?_
  rw [followed.stateAt_cut behind]
  exact eq_comm

/-- What a zone says from the start of its last line on: what the changes of the line say up to the
first change past the cutoff, and behind it exactly if the changes that the zone leaves out cannot
be seen. -/
structure SaysChanges (zone : CompiledZone) (line : ZoneLine) (rules : RuleSet) (start : Int)
    (state : RuleState)
    : Prop where
  up_to_cut
    : ∀ instant,
        start ≤ instant
        → instant < endOfTime
        → (∀ cut, line.cut? rules start state = some cut → instant < cut.instant)
        → zone.SaysAt instant (line.shows (line.stateAt rules start state instant))
  throughout_iff
    : (∀ instant,
        start ≤ instant
        → instant < endOfTime
        → zone.SaysAt instant (line.shows (line.stateAt rules start state instant)))
      ↔ ∀ cut,
          line.cut? rules start state = some cut
          → ∀ t ∈ line.changes rules start state,
              cut.instant < t.instant
              → (zone.tail = none ∨ rules.LeavesOut (·.isUnbounded) t)
              → line.shows t.state = line.shows (line.stateAt rules start state (t.instant - 1))

section SaysChanges

variable {progress : Progress} {state : RuleState} {changes earlier others : List Transition}
  {cut : Transition} {last : Segment}

/-- A zone that says what the changes say up to the first one past the cutoff says so throughout
exactly if it does from there on. -/
theorem SaysChanges.of_cut {compiled : CompiledZone}
    (followed : FollowsLine zone line rules progress state (earlier ++ [cut]) others last)
    (cut_eq : line.cut? rules progress.start state = some cut)
    (front
      : ∀ instant,
          progress.start ≤ instant
          → instant < cut.instant
          → compiled.SaysAt instant
              (line.shows (line.stateAt rules progress.start state instant)))
    (behind_iff
      : (∀ instant,
          cut.instant ≤ instant
          → instant < endOfTime
          → compiled.SaysAt instant
              (line.shows (line.stateAt rules progress.start state instant)))
        ↔ Stream.Unseen line.shows
            (fun t => compiled.tail = none ∨ rules.LeavesOut (·.isUnbounded) t) cut.state others)
    : SaysChanges compiled line rules progress.start state where
  up_to_cut instant after _ before_cut := front instant after (before_cut cut cut_eq)
  throughout_iff := by
    have start_lt := (followed.inside cut (by simp)).1
    rw [cut_eq]
    simp only [Option.some.injEq, forall_eq']
    rw [← followed.unseen_iff, ← behind_iff]
    constructor
    · exact fun said instant behind inside => said instant (by omega) inside
    · intro said instant after inside
      rcases Int.lt_or_le instant cut.instant with before_cut | behind
      · exact front instant after before_cut
      · exact said instant behind inside

/-- A line that never ends and whose changes are all followed says what they say. -/
theorem saysChanges_of_exhausted (opened : line.isOpen = true)
    (followed : FollowsLine zone line rules progress state changes [] last)
    (front : ∀ t ∈ changes, pastCutoff (cutoffYear? line rules progress.start true) t = false)
    {lineEnd : LineEnd} (finished : last.finish zone line = .ok lineEnd) {compiled : CompiledZone}
    (completes : Completes zone compiled lineEnd)
    : SaysChanges compiled line rules progress.start state := by
  obtain ⟨timeline, closed, rfl⟩ := finish_ok finished
  obtain ⟨rfl, _⟩ := complete_ok completes
  rw [ZoneLine.stopInstant_of_isOpen opened] at closed
  have no_cut : line.cut? rules progress.start state = none := by
    rw [ZoneLine.cut?, followed.changes_eq, List.find?_eq_none]
    simpa using front
  have said (instant : Int) (after : progress.start ≤ instant) (inside : instant < endOfTime)
      : CompiledZone.SaysAt { intervals := timeline.newestFirst.reverse, tail := none } instant
          (line.shows (line.stateAt rules progress.start state instant)) := by
    rw [CompiledZone.saysAt_of_intervals (by simp)]
    exact followed.shows_closed closed after inside (by simp)
  exact {
    up_to_cut := fun instant after inside _ => said instant after inside
    throughout_iff := by
      rw [no_cut]
      exact ⟨fun _ cut impossible => by simp at impossible, fun _ => said⟩
  }

/-- A line that never ends and stops at its first change past the cutoff says what its changes say
as far as the later ones cannot be seen. -/
theorem saysChanges_of_settled (opened : line.isOpen = true)
    (followed : FollowsLine zone line rules progress state (earlier ++ [cut]) others last)
    (front : ∀ t ∈ earlier, pastCutoff (cutoffYear? line rules progress.start true) t = false)
    (past : pastCutoff (cutoffYear? line rules progress.start true) cut = true)
    {lineEnd : LineEnd} (finished : last.finish zone line = .ok lineEnd) {compiled : CompiledZone}
    (completes : Completes zone compiled lineEnd)
    : SaysChanges compiled line rules progress.start state := by
  obtain ⟨timeline, closed, rfl⟩ := finish_ok finished
  obtain ⟨rfl, _⟩ := complete_ok completes
  rw [ZoneLine.stopInstant_of_isOpen opened] at closed
  refine .of_cut followed (followed.cut_eq front past) (fun instant after before_cut => ?_) ?_
  · have cut_inside := (followed.inside cut (by simp)).2
    rw [CompiledZone.saysAt_of_intervals (by simp)]
    refine followed.shows_closed closed after (by omega) fun t member => ?_
    exact Int.lt_trans before_cut (followed.later t member)
  · rw [← followed.settled_iff closed fun _ => .inl rfl]
    simp only [CompiledZone.saysAt_of_intervals (show ∀ t, none = some t → _ from nofun)]

/-- A line that leads into a tail says what its changes say as far as the changes of the recurrences
that the tail leaves out cannot be seen. -/
theorem saysChanges_of_tail (steady : rules.Steady line.stdOffset.seconds rules.SavesAmount)
    (amount : rules.SavesAmount state.savings) {rest : List (Except Fault Transition)}
    (items_eq
      : (Stream.after rules progress.start line.stdOffset.seconds state.savings).items
        = (earlier ++ [cut]).map .ok ++ rest)
    (followed
      : FollowsLine zone line rules progress state (earlier ++ [cut])
          (rest.filterMap Except.toOption) last)
    (front : ∀ t ∈ earlier, pastCutoff (cutoffYear? line rules progress.start true) t = false)
    (past : pastCutoff (cutoffYear? line rules progress.start true) cut = true)
    {compiled : CompiledZone}
    (completes : Completes zone compiled (.tail last.timeline (tailFrom line rules cut)))
    : SaysChanges compiled line rules progress.start state := by
  obtain ⟨rfl, _⟩ := complete_ok completes
  refine .of_cut followed (followed.cut_eq front past) (fun instant after before_cut => ?_) ?_
  · rw [CompiledZone.saysAt_of_intervals]
    · refine followed.shows_front after (lt_of_lt_of_eq before_cut followed.start_eq.symm)
        fun t member => ?_
      exact Int.lt_trans before_cut (followed.later t member)
    · intro tail tail_eq
      obtain rfl := Option.some.inj tail_eq
      exact before_cut
  · simp only [reduceCtorEq, false_or]
    rw [← followed.tail_iff steady amount items_eq]
    refine forall_congr' fun instant => forall_congr' fun behind => forall_congr' fun _ => ?_
    rw [CompiledZone.saysAt_of_tail behind]

/-- A last line that never ends and has rules says what the changes of the rules say, as far as the
changes that it leaves out cannot be seen. The cases are the ways in which a line ends. -/
theorem compileRules_saysChanges {compiled : CompiledZone} {lineEnd : LineEnd}
    (opened : line.isOpen = true)
    (steady
      : rules.hasAlternatingTail = true
        → rules.Steady line.stdOffset.seconds rules.SavesAmount)
    (covers : Timeline.Covers progress.timeline.newestFirst progress.start)
    (step : compileRules zone line rules progress true = .ok lineEnd)
    (completes : Completes zone compiled lineEnd)
    : ∃ state,
        rules.stateAt progress.start line.stdOffset.seconds progress.previous = .ok state
        ∧ SaysChanges compiled line rules progress.start state := by
  obtain ⟨state, changes, last, rest, stated, items_eq, followed, ends⟩ :=
    compileRules_follows step covers
  refine ⟨state, stated, ?_⟩
  cases ends with
  | exhausted front finished =>
      exact saysChanges_of_exhausted opened followed front finished completes
  | @ended _ _ t others _ front past_end finished =>
      -- No change comes behind the end of a line that never ends.
      rw [ZoneLine.stopInstant_of_isOpen opened] at past_end
      have := (followed.inside t (by simp [Except.toOption])).2
      omega
  | settled earlier front past settled finished =>
      exact saysChanges_of_settled opened followed front past finished completes
  | tail earlier front past alternating =>
      exact saysChanges_of_tail (steady alternating) (RuleSet.savesAmount_of_stateAt stated)
        items_eq followed front past completes

end SaysChanges

end Compilation

/-- A zone whose last line never ends and has rules says what the changes of the rules say up to the
first change past the cutoff. It goes on to do so exactly if no change behind that one can be seen
among those that the zone leaves out: the changes of recurrences that end where there is a tail,
and all changes where there is none. -/
theorem ZoneRecord.compile_saysChanges {record : ZoneRecord} {name : String}
    {table : Table RuleSet} {zone : CompiledZone} (compiled : record.compile name table = .ok zone)
    {earlier : List ZoneLine} {line : ZoneLine} (lines_eq : record.lines = earlier ++ [line])
    (opened : line.isOpen = true) {ruleName : String} {rules : RuleSet}
    (source : line.savings = .rules ruleName) (found : table.get? ruleName = some rules)
    (steady
      : rules.hasAlternatingTail = true
        → rules.Steady line.stdOffset.seconds rules.SavesAmount)
    : ∃ start previous state,
        boundaryBehind table earlier beginningOfTime none = .ok (start, previous)
        ∧ rules.stateAt start line.stdOffset.seconds previous = .ok state
        ∧ Compilation.SaysChanges zone line rules start state := by
  unfold compile at compiled
  split at compiled
  · simp at compiled
  · rename_i some_line
    obtain ⟨earlier', last, before, lineEnd, lines_eq', boundary, covers, step, completes⟩ :=
      Compilation.compileLines_ok compiled .empty (by simpa using some_line)
    rw [lines_eq] at lines_eq'
    obtain ⟨rfl, same⟩ := List.append_inj' lines_eq' rfl
    obtain rfl := List.singleton_inj.mp same
    simp only [Compilation.compileLine, Bool.not_true, Bool.false_and, Bool.false_eq_true, if_false,
      source, found] at step
    obtain ⟨state, stated, said⟩ :=
      Compilation.compileRules_saysChanges opened steady covers step completes
    exact ⟨before.start, before.previous, state, boundary, stated, said⟩

/-- Witness: summer time keeps to its seasons, so its zone says what its changes say. -/
theorem ZoneRecord.compile_saysChanges_summer
    : summerRecord.compile "E" [("S", summerRules)] = .ok summerZone
      ∧ ∃ start previous state,
          boundaryBehind [("S", summerRules)] [fixedLine] beginningOfTime none
            = .ok (start, previous)
          ∧ summerRules.stateAt start summerLine.stdOffset.seconds previous = .ok state
          ∧ Compilation.SaysChanges summerZone summerLine summerRules start state :=
  have compiled : summerRecord.compile "E" [("S", summerRules)] = .ok summerZone := by
    decide +kernel
  have lines_eq : summerRecord.lines = [fixedLine] ++ [summerLine] := rfl
  ⟨compiled, compile_saysChanges compiled lines_eq rfl rfl rfl fun _ =>
    summerRules_seasonal.steady_savesAmount⟩

/-- Rules with a change on the last evening of their last bounded year, which falls into the next
year in universal time, and with one change that goes on forever. -/
def spillRules : RuleSet :=
  { name := "A"
    recurrences :=
      [ { name := "A"
          first := .year 2000
          last := .latest
          month := .jan
          day := .fixed 1
          time := { mode := .universal, time := .ofSeconds 43200 }
          save := .zero
          letter := some "S" },
        { name := "A"
          first := .year 2001
          last := .year 2001
          month := .dec
          day := .fixed 31
          time := { mode := .wall, time := .ofSeconds 82800 }
          save := .ofSeconds 3600
          letter := some "D" } ] }

/-- A line under the rules. -/
def spillLine : ZoneLine :=
  { stdOffset := .ofSeconds (-18000)
    savings := .rules "A"
    format := .letter "Z%sT"
    stop := none
    line := 3 }

/-- The zone of the line. -/
def spillZone : CompiledZone :=
  { intervals :=
      [ { start := beginningOfTime
          stop := 1009857600
          stdOffset := -18000
          savings := 0
          name := "ZST" },
        { start := 1009857600
          stop := endOfTime
          stdOffset := -18000
          savings := 3600
          name := "ZDT" } ]
    tail := none }

/-- The changes of the rules up to the one past the cutoff. -/
def spillChanges : List Transition :=
  [ { instant := 946728000, year := 2000, savings := 0, letter := some "S", index := 0 },
    { instant := 978350400, year := 2001, savings := 0, letter := some "S", index := 0 },
    { instant := 1009857600, year := 2001, savings := 3600, letter := some "D", index := 1 } ]

/-- The change behind them, which ends the saved time half a day later. -/
def spillReturn : Transition :=
  { instant := 1009886400, year := 2002, savings := 0, letter := some "S", index := 0 }

/-- A change past the cutoff that belongs to a bounded year is taken for the only state that is
left, and the change back from it is lost. -/
theorem ZoneRecord.compile_loses_change
    : (ZoneRecord.ofHeader spillLine).compile "X" [("A", spillRules)] = .ok spillZone
      ∧ spillRules.stateAt beginningOfTime spillLine.stdOffset.seconds none
        = .ok { savings := 0, letter := some "S" }
      ∧ ¬ spillZone.SaysAt 1009886400
          (spillLine.shows
            (spillLine.stateAt spillRules beginningOfTime { savings := 0, letter := some "S" }
              1009886400)) := by
  refine ⟨by decide +kernel, by decide +kernel, ?_⟩
  have sized := Stream.sized_between spillRules beginningOfTime endOfTime
    spillLine.stdOffset.seconds 0
  have reached
      : Stream.itemsUpTo 4
          (Stream.between spillRules beginningOfTime endOfTime spillLine.stdOffset.seconds 0)
        = (spillChanges ++ [spillReturn]).map .ok := by
    decide +kernel
  have state_eq := sized.stateAfter_of_itemsUpTo { savings := 0, letter := some "S" } reached
  have instant_eq : (1009886400 : Int) = spillReturn.instant := rfl
  rw [instant_eq, ZoneLine.stateAt, ZoneLine.changes, Stream.after, state_eq]
  change ¬ ShowsAt spillZone.intervals spillReturn.instant (spillLine.shows spillReturn.state)
  decide +kernel

end CivilTime
