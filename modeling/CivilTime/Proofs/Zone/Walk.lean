import CivilTime.Proofs.Outcome
import CivilTime.Proofs.Rule.Stream
import CivilTime.Proofs.Zone.NameFormat
import CivilTime.Proofs.Zone.Timeline
import CivilTime.Zone.Tail

/-! A walk along the changes of a tail finds the stretch around an instant on which the clock shows
the same. The stretch begins with a visible change, or where the walk began if there is none. A
search tries one walk after another until one of them knows where its stretch begins.
-/

namespace CivilTime

/-- Around an instant the clock shows the same from one instant up to another one, where time ends
or the clock shows something else. -/
structure Stretch (clockAt : Int → Int × String) (start stop instant : Int)
    (clock : Int × String)
    : Prop where
  start_le : start ≤ instant
  lt_stop : instant < stop
  stop_le : stop ≤ endOfTime
  constant : ∀ x, start ≤ x → x < stop → clockAt x = clock
  ends : stop = endOfTime ∨ clockAt stop ≠ clock

/-- What is shown in front of a stretch does not matter to it. -/
theorem Stretch.congr {clockAt clockAt' : Int → Int × String} {start stop instant : Int}
    {clock : Int × String} (stretch : Stretch clockAt start stop instant clock)
    (same : ∀ x, start ≤ x → clockAt x = clockAt' x)
    : Stretch clockAt' start stop instant clock where
  start_le := stretch.start_le
  lt_stop := stretch.lt_stop
  stop_le := stretch.stop_le
  constant x after before := by
    rw [← same x after]
    exact stretch.constant x after before
  ends := by
    have := stretch.start_le
    have := stretch.lt_stop
    rw [← same stop (by omega)]
    exact stretch.ends

namespace Tail

-----------------------------------------------------------------------------------------
-- What a tail shows
-----------------------------------------------------------------------------------------

/-- What the clock shows in a tail: the offset of the wall clock and the name. -/
def shows (tail : Tail) (state : RuleState) : Int × String :=
  (tail.stdOffset + state.savings,
    tail.format.fill tail.stdOffset state.savings state.letter)

/-- The state at the start of a tail. -/
def initialState (tail : Tail) : RuleState :=
  { savings := tail.initialSavings, letter := tail.initialLetter }

/-- The changes of the recurrences of a tail from its start on. -/
def changes (tail : Tail) : List Transition :=
  (Stream.after tail.rules tail.start tail.stdOffset tail.initialSavings).transitions

/-- The state at an instant of a tail. -/
def stateAt (tail : Tail) (instant : Int) : RuleState :=
  Stream.stateAfter tail.initialState instant tail.changes

/-- What the clock shows at an instant, given the state in front of the changes. -/
def clockAfter (tail : Tail) (state : RuleState) (changes : List Transition) (instant : Int)
    : Int × String :=
  tail.shows (Stream.stateAfter state instant changes)

/-- What the clock shows at an instant of a tail. -/
def clockAt (tail : Tail) (instant : Int) : Int × String := tail.shows (tail.stateAt instant)

/-- What the clock of a run shows. -/
def Run.clock (run : Run) (stdOffset : Int) : Int × String := (stdOffset + run.savings, run.name)

variable {tail : Tail} {instant : Int}

/-- States that show the same clock save the same time. -/
theorem savings_of_shows {state other : RuleState} (same : tail.shows state = tail.shows other)
    : state.savings = other.savings := by
  have := congrArg Prod.fst same
  simp only [shows] at this
  omega

section Changes

variable {state : RuleState} {t : Transition} {changes : List Transition}

/-- In front of all changes the clock shows the state in front of them. -/
theorem clockAfter_of_behind (behind : ∀ u ∈ changes, instant < u.instant)
    : tail.clockAfter state changes instant = tail.shows state := by
  rw [clockAfter, Stream.stateAfter_of_behind behind]

/-- In front of the first change the clock shows the state in front of it. -/
theorem clockAfter_of_lt (later : ∀ u ∈ changes, t.instant < u.instant)
    (lt : instant < t.instant)
    : tail.clockAfter state (t :: changes) instant = tail.shows state :=
  clockAfter_of_behind
    (List.forall_mem_cons.mpr ⟨lt, fun u member => Int.lt_trans lt (later u member)⟩)

/-- From the first change on its state takes the place of the one in front of it. -/
theorem clockAfter_of_le (le : t.instant ≤ instant)
    : tail.clockAfter state (t :: changes) instant = tail.clockAfter t.state changes instant := by
  rw [clockAfter, clockAfter, Stream.stateAfter_cons, if_pos le]

/-- A change that shows what was shown in front of it does not matter to the clock. -/
theorem clockAfter_unseen (later : ∀ u ∈ changes, t.instant < u.instant)
    (unseen : tail.shows t.state = tail.shows state)
    : tail.clockAfter t.state changes = tail.clockAfter state (t :: changes) := by
  funext x
  rcases Int.lt_or_le x t.instant with before | after
  · rw [clockAfter_of_lt later before, ← unseen]
    exact clockAfter_of_behind fun u member => Int.lt_trans before (later u member)
  · rw [clockAfter_of_le after]

end Changes

-----------------------------------------------------------------------------------------
-- One change of a walk
-----------------------------------------------------------------------------------------

/-- A visit of a change ends the walk in front of a visible change behind the instant, and goes on
with what the change shows otherwise. -/
theorem followChange_ok {run : Run} {t : Transition}
    {visited : Stream.Visit Run (Run × Int)}
    (followed : tail.followChange instant run t = .ok visited)
    : (instant < t.instant
        ∧ tail.shows t.state ≠ run.clock tail.stdOffset
        ∧ visited = .done (run, t.instant))
      ∨ ∃ next : Run,
          visited = .running next
          ∧ next.clock tail.stdOffset = tail.shows t.state
          ∧ ((tail.shows t.state = run.clock tail.stdOffset ∧ next.start = run.start)
            ∨ (t.instant ≤ instant
              ∧ tail.shows t.state ≠ run.clock tail.stdOffset
              ∧ next.start = some t.instant)) := by
  obtain ⟨name, named, followed⟩ := bind_eq_ok.mp followed
  obtain ⟨_, rfl⟩ := NameFormat.apply_eq_ok.mp named
  generalize name_eq : tail.format.fill tail.stdOffset t.savings t.letter = name at followed
  have shown : tail.shows t.state = (tail.stdOffset + t.savings, name) := by
    rw [shows, ← name_eq]
    rfl
  have changed_iff
      : (t.savings != run.savings || name != run.name) = true
        ↔ tail.shows t.state ≠ run.clock tail.stdOffset := by
    simp only [shown, Run.clock, ne_eq, Prod.mk.injEq, Bool.or_eq_true, bne_iff_ne,
      Int.add_right_inj]
    exact Decidable.not_and_iff_or_not.symm
  generalize (t.savings != run.savings || name != run.name) = changed at followed changed_iff
  cases changed with
  | false =>
      have same : tail.shows t.state = run.clock tail.stdOffset := by simpa using changed_iff
      simp only [Bool.false_and, Bool.false_eq_true, if_false, pure_eq_ok] at followed
      exact .inr ⟨_, followed.symm, shown.symm, .inl ⟨same, rfl⟩⟩
  | true =>
      have different := changed_iff.mp rfl
      rcases Int.lt_or_le instant t.instant with behind | reached
      · simp only [behind, decide_true, Bool.and_self, if_true, pure_eq_ok] at followed
        exact .inl ⟨behind, different, followed.symm⟩
      · have : ¬ instant < t.instant := by omega
        simp only [this, decide_false, Bool.and_false, Bool.false_eq_true, if_false, if_true,
          pure_eq_ok] at followed
        exact .inr ⟨_, followed.symm, shown.symm, .inr ⟨reached, different, rfl⟩⟩

/-- A visit of a change fails only where the format cannot be applied. -/
theorem followChange_error {run : Run} {t : Transition} {fault : Fault}
    (failed : tail.followChange instant run t = .error fault)
    : tail.format.isApplicable = false := by
  rcases bind_eq_error.mp failed with failed | ⟨name, _, failed⟩
  · unfold Transition.name NameFormat.apply at failed
    split at failed
    · simp at failed
    · rename_i applicable
      simpa using applicable
  · dsimp only at failed
    split at failed <;> exact absurd failed pure_ne_error

-----------------------------------------------------------------------------------------
-- All changes of a walk
-----------------------------------------------------------------------------------------

/-- The run that a walk ends with and the instant up to which it lasts. -/
def spanOf : Stream.Visit Run (Run × Int) → Run × Int
  | .running run => (run, endOfTime)
  | .done found => found

/-- A walk from a cursor has found the stretch around the instant: from the last visible change up
to the instant on, or from the cursor on if there is none. -/
def Walked (tail : Tail) (clockAt : Int → Int × String) (cursor instant : Int)
    (origin : Option Int) (run : Run) (stop : Int)
    : Prop :=
  ∃ start,
    cursor ≤ start
    ∧ Stretch clockAt start stop instant (run.clock tail.stdOffset)
    ∧ ((start = cursor ∧ run.start = origin)
      ∨ (cursor < start
        ∧ run.start = some start
        ∧ clockAt (start - 1) ≠ run.clock tail.stdOffset))

/-- A walk from a visible change up to the instant is a walk from the cursor in front of it. -/
theorem Walked.of_seen {state : RuleState} {t : Transition} {changes : List Transition}
    {cursor : Int} {origin : Option Int} {run : Run} {stop : Int}
    (later : ∀ u ∈ changes, t.instant < u.instant) (here : cursor < t.instant)
    (different : tail.shows t.state ≠ tail.shows state)
    (walked
      : tail.Walked (tail.clockAfter t.state changes) t.instant instant (some t.instant) run stop)
    : tail.Walked (tail.clockAfter state (t :: changes)) cursor instant origin run stop := by
  obtain ⟨start, from_change, stretch, origin⟩ := walked
  refine ⟨start, by omega, stretch.congr fun x after => (clockAfter_of_le (by omega)).symm, .inr ?_⟩
  rcases origin with ⟨rfl, origin⟩ | ⟨moved_on, origin, edge⟩
  · refine ⟨here, origin, ?_⟩
    have first := stretch.constant t.instant (Int.le_refl _)
      (Int.lt_of_le_of_lt stretch.start_le stretch.lt_stop)
    rw [clockAfter_of_behind later] at first
    rw [clockAfter_of_lt later (by omega), ← first]
    exact different.symm
  · refine ⟨by omega, origin, ?_⟩
    rw [clockAfter_of_le (by omega)]
    exact edge

/-- A visit of changes behind a cursor walks to the stretch around the instant, by induction on the
items. A visible change up to the instant becomes the new cursor. -/
theorem walked_of_visitItems {items : List (Except Fault Transition)} {run : Run}
    {state : RuleState} {cursor : Int} {outcome : Stream.Visit Run (Run × Int)}
    (visited : Stream.visitItems (tail.followChange instant) items run = .ok outcome)
    (shown : run.clock tail.stdOffset = tail.shows state) (le : cursor ≤ instant)
    (lt : instant < endOfTime)
    (ordered : (items.filterMap Except.toOption).Pairwise fun t u => t.instant < u.instant)
    (inside
      : ∀ t ∈ items.filterMap Except.toOption, cursor < t.instant ∧ t.instant < endOfTime)
    : tail.Walked (tail.clockAfter state (items.filterMap Except.toOption)) cursor instant
        run.start (spanOf outcome).1 (spanOf outcome).2 := by
  induction items generalizing run state cursor with
  | nil =>
      simp only [Stream.visitItems, Except.ok.injEq] at visited
      subst visited
      refine ⟨cursor, Int.le_refl _, ⟨le, lt, Int.le_refl _, ?_, .inl rfl⟩, .inl ⟨rfl, rfl⟩⟩
      exact fun x _ _ => shown.symm
  | cons item rest ih =>
      cases item with
      | error fault => simp [Stream.visitItems] at visited
      | ok t =>
          have changes_eq
              : (Except.ok t :: rest).filterMap Except.toOption
                = t :: rest.filterMap Except.toOption := rfl
          rw [changes_eq] at ordered inside ⊢
          obtain ⟨later, rest_ordered⟩ := List.pairwise_cons.mp ordered
          obtain ⟨here, rest_inside⟩ := List.forall_mem_cons.mp inside
          cases followed : tail.followChange instant run t with
          | error fault => simp [Stream.visitItems, followed] at visited
          | ok step =>
              rcases followChange_ok followed with ⟨beyond, different, rfl⟩
                | ⟨next, rfl, next_shown, ⟨unseen, origin_eq⟩ | ⟨reached, different, origin_eq⟩⟩
              · simp only [Stream.visitItems, followed, Except.ok.injEq] at visited
                subst visited
                refine ⟨cursor, Int.le_refl _, ⟨le, beyond, Int.le_of_lt here.2, ?_, .inr ?_⟩,
                  .inl ⟨rfl, rfl⟩⟩
                · intro x _ before
                  rw [clockAfter_of_lt later before]
                  exact shown.symm
                · simp only [spanOf]
                  rw [clockAfter_of_le (Int.le_refl _), clockAfter_of_behind later]
                  exact different
              · simp only [Stream.visitItems, followed] at visited
                have walked := ih visited next_shown le rest_ordered fun u member =>
                  ⟨Int.lt_trans here.1 (later u member), (rest_inside u member).2⟩
                rw [origin_eq, clockAfter_unseen later (unseen.trans shown)] at walked
                exact walked
              · simp only [Stream.visitItems, followed] at visited
                have walked := ih visited next_shown reached rest_ordered fun u member =>
                  ⟨later u member, (rest_inside u member).2⟩
                rw [origin_eq] at walked
                rw [shown] at different
                exact walked.of_seen later here.1 different

/-- A visit that comes to an end has met no failure up to the first visible change behind the
instant, by induction on the items. -/
theorem items_of_visitItems {items : List (Except Fault Transition)} {run : Run}
    {outcome : Stream.Visit Run (Run × Int)}
    (visited : Stream.visitItems (tail.followChange instant) items run = .ok outcome)
    : ∃ (seen : List Transition) (rest : List (Except Fault Transition)),
        items = seen.map .ok ++ rest
        ∧ (rest = [] ∨ ∃ t others, rest = .ok t :: others ∧ instant < t.instant) := by
  induction items generalizing run with
  | nil => exact ⟨[], [], rfl, .inl rfl⟩
  | cons item others ih =>
      cases item with
      | error fault => simp [Stream.visitItems] at visited
      | ok t =>
          cases followed : tail.followChange instant run t with
          | error fault => simp [Stream.visitItems, followed] at visited
          | ok step =>
              rcases followChange_ok followed with ⟨beyond, _⟩ | ⟨next, rfl, _⟩
              · exact ⟨[], .ok t :: others, rfl, .inr ⟨t, others, rfl, beyond⟩⟩
              · simp only [Stream.visitItems, followed] at visited
                obtain ⟨seen, rest, rfl, edge⟩ := ih visited
                exact ⟨t :: seen, rest, rfl, edge⟩

/-- A visit of changes fails only where the format cannot be applied or the stream has failed, by
induction on the items. -/
theorem visitItems_followChange_error {items : List (Except Fault Transition)} {run : Run}
    {fault : Fault}
    (applicable : tail.format.isApplicable = true)
    (failed : Stream.visitItems (tail.followChange instant) items run = .error fault)
    : .error fault ∈ items := by
  induction items generalizing run with
  | nil => simp [Stream.visitItems] at failed
  | cons item others ih =>
      cases item with
      | error other =>
          simp only [Stream.visitItems, Except.error.injEq] at failed
          simp [failed]
      | ok t =>
          cases followed : tail.followChange instant run t with
          | error other =>
              have := followChange_error followed
              rw [applicable] at this
              exact absurd this (by decide)
          | ok step =>
              cases step with
              | done result => simp [Stream.visitItems, followed] at failed
              | running next =>
                  simp only [Stream.visitItems, followed] at failed
                  exact List.mem_cons_of_mem _ (ih failed)

-----------------------------------------------------------------------------------------
-- The walk from an anchor
-----------------------------------------------------------------------------------------

/-- What the clock of an anchor shows. -/
def Anchor.clock (anchor : Anchor) (stdOffset : Int) : Int × String :=
  (stdOffset + anchor.savings, anchor.name)

/-- The start that a walk from an anchor begins with. -/
def Anchor.origin (anchor : Anchor) : Option Int :=
  if anchor.atBoundary then some anchor.cursor else none

/-- The changes behind an anchor. -/
def changesBehind (tail : Tail) (anchor : Anchor) : Stream :=
  Stream.after tail.rules anchor.cursor tail.stdOffset anchor.savings

variable {anchor : Anchor}

/-- A walk that comes to an end has visited the changes behind its anchor. -/
theorem visited_of_walk {found : Option Interval} (walked : tail.walk anchor instant = .ok found)
    : ∃ outcome,
        Stream.visitItems (tail.followChange instant) (tail.changesBehind anchor).items
            { start := anchor.origin, savings := anchor.savings, name := anchor.name }
          = .ok outcome
        ∧ found = (spanOf outcome).1.interval? tail.stdOffset (spanOf outcome).2 := by
  have sized := Stream.sized_between tail.rules anchor.cursor endOfTime tail.stdOffset
    anchor.savings
  obtain ⟨outcome, visited, walked⟩ := bind_eq_ok.mp walked
  rw [Stream.after, sized.visit_eq] at visited
  refine ⟨outcome, visited, ?_⟩
  cases outcome with
  | running run => exact (pure_eq_ok.mp walked).symm
  | done result => exact (pure_eq_ok.mp walked).symm

/-- A walk fails only where the stream behind its anchor fails. -/
theorem walk_error {fault : Fault} (applicable : tail.format.isApplicable = true)
    (failed : tail.walk anchor instant = .error fault)
    : .error fault ∈ (tail.changesBehind anchor).items := by
  have sized := Stream.sized_between tail.rules anchor.cursor endOfTime tail.stdOffset
    anchor.savings
  rcases bind_eq_error.mp failed with failed | ⟨outcome, _, failed⟩
  · rw [Stream.after, sized.visit_eq] at failed
    exact visitItems_followChange_error applicable failed
  · cases outcome <;> exact absurd failed pure_ne_error

/-- A walk finds the stretch around the instant, or has seen no visible change up to the instant
and does not know where the stretch starts. -/
theorem walk_ok {state : RuleState} {found : Option Interval}
    (shown : anchor.clock tail.stdOffset = tail.shows state) (le : anchor.cursor ≤ instant)
    (lt : instant < endOfTime) (walked : tail.walk anchor instant = .ok found)
    : (∃ i : Interval,
        found = some i
        ∧ i.stdOffset = tail.stdOffset
        ∧ Stretch (tail.clockAfter state (tail.changesBehind anchor).transitions) i.start i.stop
            instant i.clock
        ∧ ((i.start = anchor.cursor ∧ anchor.atBoundary = true)
          ∨ (anchor.cursor < i.start
            ∧ tail.clockAfter state (tail.changesBehind anchor).transitions (i.start - 1)
              ≠ i.clock)))
      ∨ (found = none
        ∧ anchor.atBoundary = false
        ∧ ∀ x,
            anchor.cursor ≤ x
            → x ≤ instant
            → tail.clockAfter state (tail.changesBehind anchor).transitions x
              = tail.shows state) := by
  obtain ⟨outcome, visited, rfl⟩ := visited_of_walk walked
  have sized : (tail.changesBehind anchor).Sized := Stream.sized_between ..
  obtain ⟨inside, ordered⟩ := sized.transitions_ordered
  obtain ⟨start, from_cursor, stretch, origin⟩ :=
    walked_of_visitItems visited shown le lt ordered inside
  change Stretch (tail.clockAfter state (tail.changesBehind anchor).transitions) _ _ _ _
    at stretch
  change _ ∨ (_ ∧ _ ∧ tail.clockAfter state (tail.changesBehind anchor).transitions _ ≠ _)
    at origin
  generalize spanOf outcome = span at stretch origin
  obtain ⟨run, stop⟩ := span
  simp only at stretch origin ⊢
  rcases origin with ⟨rfl, origin⟩ | ⟨moved, origin, edge⟩
  · cases boundary : anchor.atBoundary with
    | true =>
        simp only [Anchor.origin, boundary, if_true] at origin
        exact .inl ⟨_, by rw [Run.interval?, origin, Option.map_some], rfl, stretch,
          .inl ⟨rfl, rfl⟩⟩
    | false =>
        simp only [Anchor.origin, boundary, Bool.false_eq_true, if_false] at origin
        refine .inr ⟨by rw [Run.interval?, origin, Option.map_none], rfl, fun x after before => ?_⟩
        have behind : instant < stop := stretch.lt_stop
        have at_cursor := stretch.constant anchor.cursor (Int.le_refl _) (by omega)
        have behind_cursor (u : Transition)
            (member : u ∈ (tail.changesBehind anchor).transitions)
            : anchor.cursor < u.instant :=
          (inside u member).1
        rw [clockAfter_of_behind behind_cursor] at at_cursor
        rw [at_cursor]
        exact stretch.constant x after (by omega)
  · exact .inl ⟨_, by rw [Run.interval?, origin, Option.map_some], rfl, stretch,
      .inr ⟨moved, edge⟩⟩

/-- Where the clock stays as it is behind an anchor, no change up to the instant can be seen. -/
theorem shows_of_constant {state : RuleState}
    (constant
      : ∀ x,
          anchor.cursor ≤ x
          → x ≤ instant
          → tail.clockAfter state (tail.changesBehind anchor).transitions x = tail.shows state)
    {t : Transition} (made : t ∈ (tail.changesBehind anchor).transitions) (le : t.instant ≤ instant)
    : tail.shows t.state = tail.shows state := by
  have sized : (tail.changesBehind anchor).Sized := Stream.sized_between ..
  obtain ⟨inside, ordered⟩ := sized.transitions_ordered
  have here := constant t.instant (Int.le_of_lt (inside t made).1) le
  rwa [clockAfter, Stream.stateAfter_of_mem ordered made] at here

-----------------------------------------------------------------------------------------
-- The search for an anchor
-----------------------------------------------------------------------------------------

/-- A successful search returns what the walk from one of its anchors has found, by induction on
its limit. -/
theorem search_ok {limit : Nat} {top : Int} {i : Interval}
    (found : tail.search instant limit top = .ok i)
    : ∃ year anchor,
        year ≤ top
        ∧ tail.anchorAt year = .ok anchor
        ∧ tail.walk anchor instant = .ok (some i) := by
  induction limit generalizing top with
  | zero => simp [search] at found
  | succ limit ih =>
      obtain ⟨anchor, anchored, found⟩ := bind_eq_ok.mp found
      obtain ⟨outcome, walked, found⟩ := bind_eq_ok.mp found
      cases outcome with
      | some j =>
          obtain rfl := pure_eq_ok.mp found
          exact ⟨top, anchor, Int.le_refl _, anchored, walked⟩
      | none =>
          obtain ⟨year, anchor, le, rest⟩ := ih found
          exact ⟨year, anchor, by omega, rest⟩

/-- A search fails where an anchor or the walk from it fails, or at its limit if no walk knows where
its stretch starts. The proof is by induction on the limit. -/
theorem search_error {limit : Nat} {top : Int} {fault : Fault}
    (failed : tail.search instant limit top = .error fault)
    : (∃ year,
        year ≤ top
        ∧ (tail.anchorAt year = .error fault
          ∨ ∃ anchor, tail.anchorAt year = .ok anchor ∧ tail.walk anchor instant = .error fault))
      ∨ (fault = .searchExhausted tail.rules.name (top - limit)
        ∧ ∀ n : Nat,
            n < limit
            → ∃ anchor,
                tail.anchorAt (top - n) = .ok anchor ∧ tail.walk anchor instant = .ok none) := by
  induction limit generalizing top with
  | zero =>
      simp only [search, Except.error.injEq] at failed
      exact .inr ⟨by simp [← failed], fun n lt => absurd lt (Nat.not_lt_zero n)⟩
  | succ limit ih =>
      rcases bind_eq_error.mp failed with failed | ⟨anchor, anchored, failed⟩
      · exact .inl ⟨top, Int.le_refl _, .inl failed⟩
      rcases bind_eq_error.mp failed with failed | ⟨outcome, walked, failed⟩
      · exact .inl ⟨top, Int.le_refl _, .inr ⟨anchor, anchored, failed⟩⟩
      cases outcome with
      | some j => exact absurd failed pure_ne_error
      | none =>
          rcases ih failed with ⟨year, le, rest⟩ | ⟨same, unknown⟩
          · exact .inl ⟨year, by omega, rest⟩
          · refine .inr ⟨?_, fun n lt => ?_⟩
            · rw [same]
              congr 1
              omega
            · cases n with
              | zero => exact ⟨anchor, by simpa using anchored, walked⟩
              | succ n =>
                  have next : top - (n + 1 : Nat) = top - 1 - n := by omega
                  rw [next]
                  exact unknown n (by omega)

end Tail

end CivilTime
