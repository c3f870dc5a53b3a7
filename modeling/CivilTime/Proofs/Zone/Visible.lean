import CivilTime.Proofs.Zone.Boundaries
import CivilTime.Proofs.Zone.Totality

/-! A transition of a compiled zone changes what the clock shows.
Among the explicit intervals equal neighbours have been collapsed, and in the tail a run ends only
where the clock changes. Where the tail starts nothing compares the two sides, so a change that
nobody sees may stand there.
-/

namespace CivilTime

instance (i j : Interval) : Decidable (i.Differs j) := inferInstanceAs (Decidable (_ ∨ _))

theorem Interval.differs_iff {i j : Interval} : i.Differs j ↔ i.clock ≠ j.clock := by
  simp only [Differs, clock, ne_eq, Prod.mk.injEq, not_and_or]

namespace Tail

variable {tail : Tail} {t : Int} {i j : Interval}

/-- Every lookup that the tail answers shows a run of the clock. -/
def ShowsRuns (tail : Tail) : Prop :=
  ∀ t i,
    tail.start ≤ t → t < endOfTime → tail.intervalAt t = .ok i → tail.RunAround t i

/-- Behind the end of a run the clock shows something else. -/
theorem RunAround.differs (run : tail.RunAround t i) (ends : i.stop ≠ endOfTime)
    (behind : tail.RunAround i.stop j)
    : i.Differs j := by
  have clock_eq := behind.stretch.constant i.stop behind.stretch.start_le behind.stretch.lt_stop
  rw [Interval.differs_iff, ← clock_eq]
  exact (run.stretch.ends.resolve_left ends).symm

/-- At its start a tail shows its initial state. -/
theorem RunAround.clock_at_start (run : tail.RunAround tail.start i)
    : i.clock = tail.shows tail.initialState := by
  have sized : (Stream.after tail.rules tail.start tail.stdOffset tail.initialSavings).Sized :=
    Stream.sized_between ..
  have behind : ∀ u ∈ tail.changes, tail.start < u.instant :=
    fun u member => (sized.transitions_ordered.1 u member).1
  rw [← run.stretch.constant tail.start run.stretch.start_le run.stretch.lt_stop]
  exact clockAfter_of_behind behind

end Tail

namespace CompiledZone

variable {zone : CompiledZone} {t n : Int} {i j : Interval}

/-- The tail starts at the instant with what the last explicit interval shows already. -/
def StartsUnseen (zone : CompiledZone) (n : Int) : Prop :=
  ∃ tail ∈ zone.tail, ∃ last ∈ zone.intervals.getLast?,
    tail.start = n ∧ last.clock = tail.shows tail.initialState

instance (zone : CompiledZone) (n : Int) : Decidable (zone.StartsUnseen n) :=
  inferInstanceAs (Decidable (∃ tail ∈ zone.tail, ∃ last ∈ zone.intervals.getLast?, _ ∧ _))

/-- The intervals leave no gaps and equal neighbours have been collapsed. The lookups in the tail,
which starts in time, show runs of the clock. -/
structure Collapsed (zone : CompiledZone) : Prop where
  laidOut : zone.LaidOut
  differing : zone.intervals.IsChain Interval.Differs
  inTime : ∀ tail ∈ zone.tail, tail.start < endOfTime
  runs : ∀ tail ∈ zone.tail, tail.ShowsRuns

/-- A tail whose lookups always find runs shows nothing else. -/
theorem FindsRuns.showsRuns (finds : zone.FindsRuns)
    : ∀ tail ∈ zone.tail, tail.ShowsRuns := by
  intro tail tail_eq t i after in_time answered
  obtain ⟨found, also_answered, run⟩ := finds tail tail_eq t after in_time
  rwa [Except.ok.inj (answered.symm.trans also_answered)]

/-- A transition is the end of the interval that is found, which does end. -/
theorem nextTransition_ok (next : zone.nextTransition t = .ok (some n))
    : ∃ i, zone.intervalAt t = .ok (some i) ∧ i.stop = n ∧ n ≠ endOfTime := by
  obtain ⟨found, found_eq, next⟩ := bind_eq_ok.mp next
  cases found with
  | none => cases next
  | some i =>
      refine ⟨i, found_eq, ?_⟩
      cases opened : i.isOpen with
      | true => simp [opened, pure, Except.pure] at next
      | false =>
          simp only [opened, Bool.false_eq_true, if_false, pure_eq_ok, Option.some.injEq] at next
          subst next
          exact ⟨rfl, by simpa [Interval.isOpen] using opened⟩

/-- What is found in front of the tail is explicit. -/
theorem mem_of_intervalAt (front : ∀ tail ∈ zone.tail, t < tail.start)
    (found : zone.intervalAt t = .ok (some i))
    : i ∈ zone.intervals ∧ i.start ≤ t ∧ t < i.stop := by
  have no_tail : zone.tailAt t = none := by
    rw [tailAt, Option.filter_eq_none_iff]
    intro tail tail_eq
    have := front tail tail_eq
    simpa using this
  rw [intervalAt, no_tail] at found
  have found := Except.ok.inj found
  unfold explicitAt at found
  split at found
  · cases found
  · obtain ⟨at_position, contains⟩ := Option.filter_eq_some_iff.mp found
    simp only [Interval.contains, Bool.and_eq_true, decide_eq_true_eq] at contains
    exact ⟨List.mem_of_getElem? at_position, contains⟩

/-- An explicit interval is the last one, or is followed by one that starts where it ends and shows
something else. -/
theorem Collapsed.last_or_next (collapsed : zone.Collapsed) (member : i ∈ zone.intervals)
    : zone.intervals.getLast? = some i
      ∨ ∃ k ∈ zone.intervals, k.start = i.stop ∧ i.Differs k := by
  obtain ⟨front, back, intervals_eq⟩ := List.append_of_mem member
  cases back with
  | nil => exact .inl (by rw [intervals_eq, List.getLast?_concat])
  | cons k rest =>
      refine .inr ⟨k, by simp [intervals_eq], ?_, ?_⟩
      · have touching := collapsed.laidOut.contiguous.touching
        rw [List.isChain_iff_forall_rel_of_append_cons_cons] at touching
        exact (touching intervals_eq).symm
      · have differing := collapsed.differing
        rw [List.isChain_iff_forall_rel_of_append_cons_cons] at differing
        exact differing intervals_eq

/-- In front of the tail a transition changes the clock, unless the tail starts there unseen. -/
theorem Collapsed.differs_in_front (collapsed : zone.Collapsed)
    (front : ∀ tail ∈ zone.tail, t < tail.start) (next : zone.nextTransition t = .ok (some n))
    (covered : n < zone.coverageEnd) (before : zone.intervalAt (n - 1) = .ok (some i))
    (behind : zone.intervalAt n = .ok (some j))
    : i.Differs j ↔ ¬ zone.StartsUnseen n := by
  have laidOut := collapsed.laidOut
  obtain ⟨h, found, rfl, ends⟩ := nextTransition_ok next
  obtain ⟨member, contains⟩ := mem_of_intervalAt front found
  have same : zone.intervalAt (h.stop - 1) = .ok (some h) :=
    laidOut.intervalAt_of_mem member (by omega) (by omega)
  obtain rfl := Option.some.inj (Except.ok.inj (before.symm.trans same))
  rcases collapsed.last_or_next member with is_last | ⟨k, k_member, start_eq, differs⟩
  · have last_eq : zone.intervals.getLast?.map (·.stop) = some i.stop := by rw [is_last]; rfl
    cases tail_eq : zone.tail with
    | none =>
        rw [coverageEnd_of_none tail_eq last_eq] at covered
        exact absurd covered (Int.lt_irrefl _)
    | some tail =>
        obtain stop_eq : i.stop = tail.start :=
          Option.some.inj (last_eq.symm.trans (laidOut.adjoining tail tail_eq))
        rw [coverageEnd_of_tail tail_eq] at covered
        rw [stop_eq] at behind covered
        rw [intervalAt_of_tail tail_eq (Int.le_refl _)] at behind
        obtain ⟨shown, answered, same⟩ := map_eq_ok.mp behind
        obtain rfl := Option.some.inj same
        have run := collapsed.runs tail tail_eq tail.start shown (Int.le_refl _) covered answered
        rw [Interval.differs_iff, run.clock_at_start, ne_eq, not_iff_not]
        constructor
        · exact fun unseen => ⟨tail, tail_eq, i, is_last, stop_eq.symm, unseen⟩
        · intro ⟨other, other_eq, last, also_last, _, unseen⟩
          obtain rfl := Option.some.inj (tail_eq.symm.trans other_eq)
          obtain rfl := Option.some.inj (is_last.symm.trans also_last)
          exact unseen
  · have forward := laidOut.contiguous.forward k k_member
    have found_next : zone.intervalAt i.stop = .ok (some k) :=
      laidOut.intervalAt_of_mem k_member (by omega) (by omega)
    obtain rfl := Option.some.inj (Except.ok.inj (behind.symm.trans found_next))
    refine iff_of_true differs ?_
    intro ⟨tail, tail_eq, _, _, starts, _⟩
    have := laidOut.contiguous.stop_le (laidOut.adjoining tail tail_eq) k_member
    omega

/-- In the tail a transition changes the clock. -/
theorem Collapsed.differs_in_tail (collapsed : zone.Collapsed) {tail : Tail}
    (tail_eq : zone.tail = some tail) (after : tail.start ≤ t) (in_time : t ≤ endOfTime)
    (next : zone.nextTransition t = .ok (some n)) (covered : n < zone.coverageEnd)
    (before : zone.intervalAt (n - 1) = .ok (some i)) (behind : zone.intervalAt n = .ok (some j))
    : i.Differs j ∧ tail.start < n := by
  have runs := collapsed.runs tail tail_eq
  obtain ⟨h, found, rfl, ends⟩ := nextTransition_ok next
  rw [coverageEnd_of_tail tail_eq] at covered
  have answers {u : Int} {k : Interval} (from_start : tail.start ≤ u)
      (found : zone.intervalAt u = .ok (some k))
      : tail.intervalAt u = .ok k := by
    rw [intervalAt_of_tail tail_eq from_start] at found
    obtain ⟨_, answered, same⟩ := map_eq_ok.mp found
    rwa [Option.some.inj same] at answered
  have answered := answers after found
  -- At the last instant the tail answers what it does in front of it, an interval without an end.
  have earlier : t < endOfTime := by
    refine Int.lt_iff_le_and_ne.mpr ⟨in_time, fun at_end => ends ?_⟩
    have room := collapsed.inTime tail tail_eq
    rw [at_end, Tail.intervalAt_endOfTime] at answered
    have run := runs (endOfTime - 1) h (by omega) (by omega) answered
    have lt_stop := run.stretch.lt_stop
    have stop_le := run.stretch.stop_le
    omega
  have run := runs t h after earlier answered
  have start_le := run.stretch.start_le
  have lt_stop := run.stretch.lt_stop
  have run_before := runs _ i (by omega) (by omega) (answers (by omega) before)
  have run_behind := runs _ j (by omega) covered (answers (by omega) behind)
  obtain rfl := run_before.unique (run.moved (by omega) (by omega))
  exact ⟨run_before.differs ends run_behind, by omega⟩

/-- A transition changes the offset or the name of the clock, with the one exception of a tail that
starts unseen. -/
theorem Collapsed.differs_iff (collapsed : zone.Collapsed) (in_time : t ≤ endOfTime)
    (next : zone.nextTransition t = .ok (some n)) (covered : n < zone.coverageEnd)
    (before : zone.intervalAt (n - 1) = .ok (some i)) (behind : zone.intervalAt n = .ok (some j))
    : i.Differs j ↔ ¬ zone.StartsUnseen n := by
  by_cases front : ∀ tail ∈ zone.tail, t < tail.start
  · exact collapsed.differs_in_front front next covered before behind
  · obtain ⟨tail, tail_eq, after⟩ : ∃ tail ∈ zone.tail, tail.start ≤ t := by
      simpa only [not_forall, exists_prop, Int.not_lt] using front
    obtain ⟨differs, later⟩ :=
      collapsed.differs_in_tail tail_eq after in_time next covered before behind
    refine iff_of_true differs ?_
    intro ⟨other, other_eq, _, _, starts, _⟩
    obtain rfl := Option.some.inj (tail_eq.symm.trans other_eq)
    omega

end CompiledZone

/-- A zone that has been compiled has its equal neighbours collapsed. -/
theorem ZoneRecord.collapsed_of_compile {record : ZoneRecord} {name : String}
    {table : Table RuleSet} {zone : CompiledZone} (compiled : record.compile name table = .ok zone)
    (runs : ∀ tail ∈ zone.tail, tail.ShowsRuns)
    : zone.Collapsed where
  laidOut :=
    { contiguous := contiguous_of_compile compiled
      adjoining := fun _ tail_eq => (tail_of_compile compiled tail_eq).1 }
  differing := by
    obtain ⟨_, _, _, _, _, covered, some_interval, rfl⟩ := compile_completes compiled
    exact (covered.contiguous some_interval).2.1
  inTime tail tail_eq := by
    obtain ⟨_, line, _, _, rules, start, _, starts⟩ := tail_of_compile compiled tail_eq
    obtain ⟨savings, u, made, _, rfl⟩ := starts.starts
    have sized : (Stream.after rules start line.stdOffset.seconds savings).Sized :=
      Stream.sized_between ..
    exact (sized.transitions_ordered.1 u made).2
  runs := runs

/-- In a compiled zone whose tail shows runs of the clock, a transition with lookups on both sides
changes the offset or the name, unless the tail starts there with what the clock has shown before.
-/
theorem ZoneRecord.compile_transition_differs {record : ZoneRecord} {name : String}
    {table : Table RuleSet} {zone : CompiledZone} {t n : Int} {i j : Interval}
    (compiled : record.compile name table = .ok zone)
    (runs : ∀ tail ∈ zone.tail, tail.ShowsRuns) (in_time : t ≤ endOfTime)
    (next : zone.nextTransition t = .ok (some n)) (covered : n < zone.coverageEnd)
    (before : zone.intervalAt (n - 1) = .ok (some i)) (behind : zone.intervalAt n = .ok (some j))
    : i.Differs j ↔ ¬ zone.StartsUnseen n :=
  (collapsed_of_compile compiled runs).differs_iff in_time next covered before behind

/-- In a compiled zone whose tail is regular and alternates, a transition with lookups on
both sides changes the offset or the name, unless the tail starts there with what the clock has
shown before. -/
theorem ZoneRecord.compile_transition_differs_of_regular {record : ZoneRecord} {name : String}
    {table : Table RuleSet} {zone : CompiledZone} {t n : Int} {i j : Interval}
    (compiled : record.compile name table = .ok zone)
    (regular : ∀ tail ∈ zone.tail, tail.Regular ∧ tail.Alternates) (in_time : t ≤ endOfTime)
    (next : zone.nextTransition t = .ok (some n)) (covered : n < zone.coverageEnd)
    (before : zone.intervalAt (n - 1) = .ok (some i)) (behind : zone.intervalAt n = .ok (some j))
    : i.Differs j ↔ ¬ zone.StartsUnseen n := by
  have finds : zone.FindsRuns := CompiledZone.findsRuns_of_regular regular
  exact (collapsed_of_compile compiled finds.showsRuns).differs_iff in_time next covered before
    behind

/-- The tail of the zone with summer time is regular and alternates between two clocks. -/
theorem summerZone_regular : ∀ tail ∈ summerZone.tail, tail.Regular ∧ tail.Alternates := by
  intro tail tail_eq
  obtain rfl := Option.some.inj tail_eq
  constructor
  · exact .of_seasonal (by decide +kernel) (by decide +kernel)
      ⟨_, .head _, 2001, 0, by decide +kernel, .inl rfl, by decide +kernel, rfl⟩
      summerRules_seasonal summerRules_withinYear rfl
  · exact ⟨_, .head _, _, .tail _ (.head _), by decide +kernel, by decide +kernel,
      by decide +kernel⟩

/-- Witness: the clock goes forward where the tail of the zone with summer time starts. -/
theorem ZoneRecord.compile_transition_differs_summer
    : summerRecord.compile "E" [("S", summerRules)] = .ok summerZone
      ∧ (∀ tail ∈ summerZone.tail, tail.ShowsRuns)
      ∧ summerZone.nextTransition 973404000 = .ok (some 984294000)
      ∧ ¬ summerZone.StartsUnseen 984294000
      ∧ ∃ i j,
          summerZone.intervalAt 984293999 = .ok (some i)
          ∧ summerZone.intervalAt 984294000 = .ok (some j)
          ∧ i.Differs j := by
  have compiled : summerRecord.compile "E" [("S", summerRules)] = .ok summerZone := by
    decide +kernel
  have runs := (CompiledZone.findsRuns_of_regular summerZone_regular).showsRuns
  have next : summerZone.nextTransition 973404000 = .ok (some 984294000) := by decide +kernel
  have seen : ¬ summerZone.StartsUnseen 984294000 := by decide +kernel
  have some_before : (summerZone.intervalAt (984294000 - 1)).toOption.join.isSome = true := by
    decide +kernel
  have some_behind : (summerZone.intervalAt 984294000).toOption.join.isSome = true := by
    decide +kernel
  obtain ⟨i, before⟩ := Option.isSome_iff_exists.mp some_before
  obtain ⟨j, behind⟩ := Option.isSome_iff_exists.mp some_behind
  have before := mem_toOption.mp (Option.join_eq_some_iff.mp before)
  have behind := mem_toOption.mp (Option.join_eq_some_iff.mp behind)
  exact ⟨compiled, runs, next, seen, i, j, before, behind,
    (compile_transition_differs compiled runs (by decide) next (by decide) before behind).mpr seen⟩

/-- A source whose rules restore standard time in November, and once more on New Year's Day. -/
def seamText : String :=
  "R A 2000 ma - Jan 1 0 0 S\nR A 2000 ma - Mar 1 0 1 D\n"
    ++ "R A 2000 ma - N 1 0 0 S\nZ X 0 A Z%sT\n"

/-- The tail of its zone starts on New Year's Day and shows what the interval in front of it does.
This start is the next transition of an instant in front of it. -/
theorem Tables.transition_unseen
    : ∃ zone ∈ ((Tables.ofText seamText).compileZone? "X").bind Except.toOption,
        978307200 < zone.coverageEnd
        ∧ zone.nextTransition 977443199 = .ok (some 978307200)
        ∧ ∃ i ∈ (zone.intervalAt (978307200 - 1)).toOption.join,
          ∃ j ∈ (zone.intervalAt 978307200).toOption.join, ¬ i.Differs j := by
  decide +kernel

end CivilTime
