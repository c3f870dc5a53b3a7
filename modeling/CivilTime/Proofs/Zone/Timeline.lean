import CivilTime.Zone.Timeline
import Mathlib.Data.List.Chain

/-! The intervals of a timeline cover all time up to the end of the last span, without gaps.
Neighbours differ in what the clock shows, and at every instant the intervals show what the span
around it has brought.
-/

namespace CivilTime

/-- The wall clock shows another offset or another name in one interval than in the other. -/
def Interval.Differs (i j : Interval) : Prop := i.wallOffset ≠ j.wallOffset ∨ i.name ≠ j.name

/-- The intervals begin at the beginning of time and leave no gaps. -/
structure Contiguous (intervals : List Interval) : Prop where
  start_eq : intervals.head?.map (·.start) = some beginningOfTime
  forward : ∀ i ∈ intervals, i.start < i.stop
  touching : intervals.IsChain fun i j => i.stop = j.start

instance (intervals : List Interval) : Decidable (Contiguous intervals) :=
  decidable_of_iff
    (intervals.head?.map (·.start) = some beginningOfTime
      ∧ (∀ i ∈ intervals, i.start < i.stop)
      ∧ intervals.IsChain fun i j => i.stop = j.start)
    ⟨fun ⟨start_eq, forward, touching⟩ => ⟨start_eq, forward, touching⟩,
      fun ⟨start_eq, forward, touching⟩ => ⟨start_eq, forward, touching⟩⟩

/-- What the clock shows in an interval: the offset of the wall clock and the name. -/
def Interval.clock (i : Interval) : Int × String := (i.wallOffset, i.name)

/-- Around an instant one of the intervals shows the given clock. -/
def ShowsAt (intervals : List Interval) (instant : Int) (clock : Int × String) : Prop :=
  ∃ i ∈ intervals, i.start ≤ instant ∧ instant < i.stop ∧ i.clock = clock

instance (intervals : List Interval) (instant : Int) (clock : Int × String)
    : Decidable (ShowsAt intervals instant clock) :=
  inferInstanceAs
    (Decidable (∃ i ∈ intervals, i.start ≤ instant ∧ instant < i.stop ∧ i.clock = clock))

namespace Timeline

/-- Intervals, from the last to the first, that cover all time up to an instant and change what the
clock shows wherever they meet. -/
inductive Covers : List Interval → Int → Prop where
  | empty : Covers [] beginningOfTime
  | add {last : Interval} {earlier : List Interval}
      (forward : last.start < last.stop)
      (covered : Covers earlier last.start)
      (differs : ∀ before, earlier.head? = some before → before.Differs last)
      : Covers (last :: earlier) last.stop

/-- Adding an interval puts it behind all others. -/
theorem add_ok {timeline next : Timeline} {span : Interval} (added : timeline.add span = .ok next)
    : next.newestFirst = span :: timeline.newestFirst := by
  unfold add at added
  split at added
  · simp at added
  · simp only [Except.ok.injEq] at added
    rw [← added]

/-- A span that is added behind the covered time is empty, prolongs the last interval or becomes an
interval of its own. -/
theorem push_cases {timeline next : Timeline} {span : Interval}
    (pushed : timeline.push span = .ok next)
    : (span.stop = span.start ∧ next = timeline)
      ∨ (span.start < span.stop
        ∧ ∃ last earlier,
            timeline.newestFirst = last :: earlier
            ∧ ¬ last.Differs span
            ∧ next.newestFirst = { last with stop := span.stop } :: earlier)
      ∨ (span.start < span.stop
        ∧ (∀ last, timeline.newestFirst.head? = some last → last.Differs span)
        ∧ next.newestFirst = span :: timeline.newestFirst) := by
  unfold push at pushed
  by_cases backward : span.stop < span.start
  · simp [backward] at pushed
  by_cases empty : span.stop = span.start
  · simp only [empty, if_false, if_true, Except.ok.injEq, Int.lt_irrefl] at pushed
    exact .inl ⟨empty, pushed.symm⟩
  simp only [backward, empty, if_false] at pushed
  have forward : span.start < span.stop := by omega
  refine .inr ?_
  cases shape : timeline.newestFirst with
  | nil =>
      simp only [shape] at pushed
      split at pushed
      · have := add_ok pushed
        rw [shape] at this
        exact .inr ⟨forward, by simp, this⟩
      · simp at pushed
  | cons last earlier =>
      simp only [shape] at pushed
      split at pushed
      · simp at pushed
      · split at pushed
        · rename_i same
          simp only [Except.ok.injEq] at pushed
          refine .inl ⟨forward, last, earlier, rfl, ?_, by rw [← pushed]⟩
          rintro (other | other)
          · exact other same.1
          · exact other same.2
        · rename_i other
          have := add_ok pushed
          rw [shape] at this
          refine .inr ⟨forward, ?_, this⟩
          intro before head
          simp only [List.head?_cons, Option.some.injEq] at head
          subst head
          by_cases offset : last.wallOffset = span.wallOffset
          · exact .inr fun name => other ⟨offset, name⟩
          · exact .inl offset

/-- Adding a span keeps what holds of all intervals and of the span, if a later end does not change
it. -/
theorem forall_push {P : Interval → Prop} {timeline next : Timeline} {span : Interval}
    (pushed : timeline.push span = .ok next) (all : ∀ i ∈ timeline.newestFirst, P i) (here : P span)
    (prolonged : ∀ i, P i → P { i with stop := span.stop })
    : ∀ i ∈ next.newestFirst, P i := by
  rcases push_cases pushed with ⟨_, rfl⟩ | ⟨_, last, earlier, shape, _, grown⟩ | ⟨_, _, grown⟩
  · exact all
  · rw [shape] at all
    obtain ⟨last_holds, earlier_hold⟩ := List.forall_mem_cons.mp all
    rw [grown]
    exact List.forall_mem_cons.mpr ⟨prolonged last last_holds, earlier_hold⟩
  · rw [grown]
    exact List.forall_mem_cons.mpr ⟨here, all⟩

/-- Adding a span behind the covered time covers the time up to its end. -/
theorem Covers.push {timeline next : Timeline} {span : Interval}
    (covers : Covers timeline.newestFirst span.start) (pushed : timeline.push span = .ok next)
    : Covers next.newestFirst span.stop := by
  rcases push_cases pushed with ⟨empty, rfl⟩ | ⟨forward, last, earlier, shape, same, grown⟩
    | ⟨forward, differs, grown⟩
  · rw [empty]
    exact covers
  · rw [grown]
    rw [shape] at covers
    generalize end_eq : span.start = stop at covers forward
    cases covers with
    | add last_forward covered last_differs =>
        have prolonged : Covers ({ last with stop := span.stop } :: earlier) span.stop :=
          .add (Int.lt_trans last_forward forward) covered last_differs
        exact prolonged
  · rw [grown]
    exact .add forward covers differs

/-- Adding a span behind the covered time shows the span where it lies and changes nothing in front
of it. -/
theorem Covers.showsAt_push {timeline next : Timeline} {span : Interval}
    (covers : Covers timeline.newestFirst span.start) (pushed : timeline.push span = .ok next)
    (instant : Int) (clock : Int × String)
    : ShowsAt next.newestFirst instant clock
      ↔ ShowsAt timeline.newestFirst instant clock
        ∨ (span.start ≤ instant ∧ instant < span.stop ∧ span.clock = clock) := by
  rcases push_cases pushed with ⟨empty, rfl⟩ | ⟨forward, last, earlier, shape, same, grown⟩
    | ⟨forward, differs, grown⟩
  · constructor
    · exact .inl
    · rintro (shown | ⟨after, before, _⟩)
      · exact shown
      · omega
  · have clock_eq : last.clock = span.clock := by
      simp only [Interval.Differs, not_or, not_not] at same
      exact Prod.ext same.1 same.2
    have prolonged : Interval.clock { last with stop := span.stop } = span.clock := clock_eq
    have meets : last.start < last.stop ∧ last.stop = span.start := by
      rw [shape] at covers
      generalize end_eq : span.start = stop at covers
      cases covers with
      | add last_forward _ _ => exact ⟨last_forward, rfl⟩
    simp only [ShowsAt, grown, shape, List.mem_cons, exists_eq_or_imp, clock_eq, prolonged]
    constructor
    · rintro (⟨after, before, shown⟩ | earlier_shown)
      · rcases Int.lt_or_le instant span.start with front | behind
        · exact .inl (.inl ⟨after, by omega, shown⟩)
        · exact .inr ⟨behind, before, shown⟩
      · exact .inl (.inr earlier_shown)
    · rintro ((⟨after, before, shown⟩ | earlier_shown) | ⟨after, before, shown⟩)
      · exact .inl ⟨after, by omega, shown⟩
      · exact .inr earlier_shown
      · exact .inl ⟨by omega, before, shown⟩
  · simp only [ShowsAt, grown, List.mem_cons, exists_eq_or_imp]
    exact or_comm

/-- Intervals that cover time show nothing behind it, by induction on the intervals. -/
theorem Covers.lt_of_showsAt {intervals : List Interval} {stop instant : Int}
    {clock : Int × String} (covers : Covers intervals stop)
    (shown : ShowsAt intervals instant clock)
    : instant < stop := by
  induction covers with
  | empty =>
      obtain ⟨i, member, _⟩ := shown
      simp at member
  | @add last earlier forward covered differs ih =>
      obtain ⟨i, member, after, before, clock_eq⟩ := shown
      rcases List.mem_cons.mp member with rfl | inside
      · exact before
      · exact Int.lt_trans (ih ⟨i, inside, after, before, clock_eq⟩) forward

/-- The covered time ends where the last interval ends, and begins if there is none. -/
theorem Covers.stop_eq {intervals : List Interval} {stop : Int} (covers : Covers intervals stop)
    : stop = (intervals.head?.map (·.stop)).getD beginningOfTime := by
  cases covers <;> rfl

/-- Intervals that cover time begin at its beginning, by induction on the intervals. -/
theorem Covers.starts {intervals : List Interval} {stop : Int} (covers : Covers intervals stop)
    (some_interval : intervals ≠ [])
    : intervals.getLast?.map (·.start) = some beginningOfTime := by
  induction covers with
  | empty => exact absurd rfl some_interval
  | @add last earlier forward covered differs ih =>
      cases earlier with
      | nil =>
          have := covered.stop_eq
          simpa using this
      | cons before rest =>
          rw [List.getLast?_cons_cons]
          exact ih (by simp)

/-- Intervals that cover time all last for a while, by induction on the intervals. -/
theorem Covers.forward {intervals : List Interval} {stop : Int} (covers : Covers intervals stop)
    : ∀ i ∈ intervals, i.start < i.stop := by
  induction covers with
  | empty => simp
  | add forward _ _ ih => exact List.forall_mem_cons.mpr ⟨forward, ih⟩

/-- Intervals that cover time meet without a gap and differ where they meet, by induction on the
intervals. -/
theorem Covers.chain {intervals : List Interval} {stop : Int} (covers : Covers intervals stop)
    : intervals.IsChain
        fun later earlier => earlier.stop = later.start ∧ earlier.Differs later := by
  induction covers with
  | empty => exact .nil
  | @add last earlier forward covered differs ih =>
      refine List.isChain_cons.mpr ⟨fun before head => ?_, ih⟩
      refine ⟨?_, differs before head⟩
      have := covered.stop_eq
      rw [Option.mem_def.mp head] at this
      exact this.symm

/-- Intervals that cover time are contiguous in their order, differ where they meet and end where
the covered time ends. -/
theorem Covers.contiguous {intervals : List Interval} {stop : Int} (covers : Covers intervals stop)
    (some_interval : intervals ≠ [])
    : Contiguous intervals.reverse
      ∧ (intervals.reverse.IsChain fun i j => i.Differs j)
      ∧ intervals.reverse.getLast?.map (·.stop) = some stop := by
  have chain := List.isChain_reverse.mpr covers.chain
  refine ⟨⟨?_, ?_, chain.imp fun _ _ meets => meets.1⟩, chain.imp fun _ _ meets => meets.2, ?_⟩
  · rw [List.head?_reverse]
    exact covers.starts some_interval
  · intro i member
    exact covers.forward i (List.mem_reverse.mp member)
  · rw [List.getLast?_reverse]
    cases covers with
    | empty => exact absurd rfl some_interval
    | add => rfl

end Timeline

end CivilTime
