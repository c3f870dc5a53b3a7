import CivilTime.Proofs.Zone.Range
import CivilTime.Zone.LocalTime

/-! The lookup of a local time finds the instants at which the clock shows it.
The instants lie within two days of the reading, so the intervals of that window decide: those that
show the reading stand in the order of their instants, and where none does, the reading lies between
two neighbours or behind the last interval of the zone.
-/

namespace CivilTime

namespace Instant

variable {t reading : Int}

/-- A reading in front of the end of time is compared with an instant as with the saturated one. -/
theorem saturate_le_iff (first : beginningOfTime ≤ reading) (in_time : reading < endOfTime)
    : saturate t ≤ reading ↔ t ≤ reading := by
  unfold saturate
  split
  · omega
  · split <;> omega

end Instant

variable {reading : Int} {i : Interval}

theorem Interval.localStart_le_iff (first : beginningOfTime ≤ reading)
    (in_time : reading < endOfTime)
    : i.localStart ≤ reading ↔ i.start + i.wallOffset ≤ reading :=
  Instant.saturate_le_iff first in_time

theorem Interval.localStop_le_iff (first : beginningOfTime ≤ reading)
    (in_time : reading < endOfTime)
    : i.localStop ≤ reading ↔ i.stop + i.wallOffset ≤ reading :=
  Instant.saturate_le_iff first in_time

/-- An interval shows a reading if it contains the instant that its clock reads so. -/
theorem Interval.containsLocal_iff (first : beginningOfTime ≤ reading)
    (in_time : reading < endOfTime)
    : i.containsLocal reading = true
      ↔ i.start ≤ reading - i.wallOffset ∧ reading - i.wallOffset < i.stop := by
  rw [containsLocal, Bool.and_eq_true, decide_eq_true_eq, decide_eq_true_eq, ← Int.not_le,
    localStart_le_iff first in_time, localStop_le_iff first in_time]
  omega

/-- A gap is found between two neighbours. -/
theorem gapIn?_some {is : List Interval} {gap : LocalGap} (found : gapIn? reading is = some gap)
    : ∃ front before after back,
        is = front ++ before :: after :: back ∧ gapBetween? reading before after = some gap := by
  fun_induction gapIn? reading is with
  | case1 before after rest other between =>
      obtain rfl := Option.some.inj found
      exact ⟨[], before, after, rest, rfl, between⟩
  | case2 before after rest between ih =>
      obtain ⟨front, left, right, back, rest_eq, between⟩ := ih found
      exact ⟨before :: front, left, right, back, by rw [rest_eq]; rfl, between⟩
  | case3 is short => simp at found

theorem Interval.localStop_le_of_unmatched (unmatched : i.containsLocal reading = false)
    (begun : i.localStart ≤ reading)
    : i.localStop ≤ reading := by
  simp only [containsLocal, Bool.and_eq_false_iff, decide_eq_false_iff_not] at unmatched
  omega

/-- Where no gap is found and no interval shows the reading, the clocks of all intervals have passed
it, if the first one has come to it. The induction is on the intervals. -/
theorem passed_of_gapIn?_none {rest : List Interval}
    (none_found : gapIn? reading (i :: rest) = none)
    (unmatched : ∀ j ∈ i :: rest, j.containsLocal reading = false)
    (begun : i.localStart ≤ reading)
    : ∀ j ∈ i :: rest, j.localStop ≤ reading := by
  induction rest generalizing i with
  | nil =>
      rw [List.forall_mem_singleton] at unmatched ⊢
      exact i.localStop_le_of_unmatched unmatched begun
  | cons next rest ih =>
      obtain ⟨here, later⟩ := List.forall_mem_cons.mp unmatched
      have passed := i.localStop_le_of_unmatched here begun
      rw [gapIn?] at none_found
      split at none_found
      · simp at none_found
      · rename_i no_gap
        have reached : next.localStart ≤ reading := by
          simp only [gapBetween?, Bool.and_eq_true, decide_eq_true_eq] at no_gap
          split at no_gap
          · simp at no_gap
          · omega
        exact List.forall_mem_cons.mpr ⟨passed, ih none_found later reached⟩

namespace CompiledZone

variable {zone : CompiledZone}

/-- At an instant the clock of the interval that is found shows a reading. -/
structure ReadsAt (zone : CompiledZone) (reading instant : Int) (i : Interval) : Prop
    extends zone.Finds instant i where
  reads : instant + i.wallOffset = reading

/-- The clock is set forward over a reading at the boundary between two intervals. -/
structure Skips (zone : CompiledZone) (reading : Int) (gap : LocalGap) (before after : Interval)
    : Prop where
  found_before : zone.Finds (gap.instant - 1) before
  found_after : zone.Finds gap.instant after
  stop_eq : before.stop = gap.instant
  start_eq : after.start = gap.instant
  before_eq : gap.before = before.wallOffset
  after_eq : gap.after = after.wallOffset
  passed : gap.instant + gap.before ≤ reading
  not_reached : reading < gap.instant + gap.after

/-- A reading lies behind the end of the coverage on the last clock of the zone. -/
def LiesBeyond (zone : CompiledZone) (reading : Int) : Prop :=
  ∃ last, zone.Finds (zone.coverageEnd - 1) last ∧ zone.coverageEnd + last.wallOffset ≤ reading

/-- An answer gives the interval of the only instant with a reading, or those of the two earliest
ones, or the gap that the reading falls into unless it lies beyond the zone. -/
structure AnswersLocal (zone : CompiledZone) (reading : Int) (answer : Option LocalIntervals)
    : Prop where
  once
    : ∀ t i,
        zone.ReadsAt reading t i
        → (∀ u j, zone.ReadsAt reading u j → u = t)
        → answer = some (.once i)
  twice
    : ∀ t i u j,
        zone.ReadsAt reading t i
        → zone.ReadsAt reading u j
        → t ≠ u
        → ∃ first earlier second later,
            zone.ReadsAt reading first earlier
            ∧ zone.ReadsAt reading second later
            ∧ first < second
            ∧ (∀ v k, zone.ReadsAt reading v k → v = first ∨ second ≤ v)
            ∧ answer = some (.twice earlier later)
  never
    : (∀ t i, ¬ zone.ReadsAt reading t i)
      → (∃ gap before after,
          answer = some (.skipped gap) ∧ zone.Skips reading gap before after)
        ∨ (answer = none ∧ zone.LiesBeyond reading)

variable {is : List Interval} {t u : Int}

/-- An interval that is found does not reach behind the coverage within the supported time. -/
theorem Finds.moved (finds : zone.Finds t i) (consistent : zone.Consistent) (laidOut : zone.LaidOut)
    (first : beginningOfTime ≤ u) (in_time : u < endOfTime) (after : i.start ≤ u)
    (before : u < i.stop)
    : zone.Finds u i where
  after := first
  covered := by
    obtain ⟨last, last_eq⟩ := laidOut.exists_last
    cases tail_eq : zone.tail with
    | some tail => rwa [coverageEnd_of_tail tail_eq]
    | none =>
        have covered := finds.covered
        rw [coverageEnd_of_none tail_eq last_eq] at covered ⊢
        have member := (laidOut.mem_of_finds last_eq finds covered).1
        have := laidOut.contiguous.stop_le last_eq member
        omega
  found := finds.inside consistent after before

/-- The wall offsets of the zone lie strictly within two days of zero. -/
def ShortOffsets (zone : CompiledZone) : Prop :=
  ∀ t i, zone.Finds t i → -172800 < i.wallOffset ∧ i.wallOffset < 172800

/-- What is known of the intervals around a reading. -/
structure Around (zone : CompiledZone) (reading : Int) (is : List Interval) : Prop
    extends zone.Lists (reading - 172800) (reading + 172800) is where
  consistent : zone.Consistent
  laidOut : zone.LaidOut
  offsets : zone.ShortOffsets
  first : beginningOfTime + 345600 < reading
  in_time : reading < endOfTime - 345600

/-- A reading is shown at the instants that the matching intervals of the window give. -/
theorem Around.readsAt_iff (around : zone.Around reading is)
    : zone.ReadsAt reading t i
      ↔ i ∈ is.filter (·.containsLocal reading) ∧ t = reading - i.wallOffset := by
  have first := around.first
  have in_time := around.in_time
  rw [List.mem_filter, Interval.containsLocal_iff (by omega) (by omega)]
  constructor
  · intro reads
    have offset := around.offsets t i reads.toFinds
    have contains := reads.toFinds.contains around.consistent
    have sum := reads.reads
    exact ⟨⟨around.complete t i (by omega) (by omega) reads.toFinds, by omega⟩, by omega⟩
  · rintro ⟨⟨member, contains⟩, rfl⟩
    obtain ⟨u, _, _, finds⟩ := around.found i member
    have offset := around.offsets u i finds
    exact ⟨finds.moved around.consistent around.laidOut (by omega) (by omega) contains.1 contains.2,
      by omega⟩

/-- Of two intervals of a list that show a reading, the first one does so earlier. -/
theorem Around.lt_of_matching (around : zone.Around reading is) {j : Interval}
    (front : List Interval) {back : List Interval}
    (matching_eq : is.filter (·.containsLocal reading) = front ++ i :: back) (member : j ∈ back)
    : reading - i.wallOffset < reading - j.wallOffset := by
  have matching (k : Interval) (inside : k ∈ front ++ i :: back)
      : k.start ≤ reading - k.wallOffset ∧ reading - k.wallOffset < k.stop := by
    have first := around.first
    have in_time := around.in_time
    rw [← matching_eq] at inside
    exact (Interval.containsLocal_iff (by omega) (by omega)).mp (List.mem_filter.mp inside).2
  have ordered := around.ordered.filter (·.containsLocal reading)
  rw [matching_eq] at ordered
  have apart := (List.pairwise_cons.mp (List.pairwise_append.mp ordered).2.1).1 j member
  have first := matching i (by simp)
  have second := matching j (by simp [member])
  omega

/-- A gap that is found lies between two intervals of the zone. -/
theorem Around.skips (around : zone.Around reading is) {gap : LocalGap}
    (found : gapIn? reading is = some gap)
    : ∃ before after, zone.Skips reading gap before after := by
  obtain ⟨consistent, laidOut⟩ := And.intro around.consistent around.laidOut
  obtain ⟨first, in_time⟩ := And.intro around.first around.in_time
  obtain ⟨front, before, after, back, rfl, between⟩ := gapIn?_some found
  have touching := List.isChain_iff_forall_rel_of_append_cons_cons.mp
    (around.touching consistent) rfl
  obtain ⟨t, _, _, before_finds⟩ := around.found before (by simp)
  obtain ⟨u, _, _, after_finds⟩ := around.found after (by simp)
  have before_contains := before_finds.contains consistent
  have after_contains := after_finds.contains consistent
  have found_before : zone.Finds (after.start - 1) before :=
    before_finds.moved consistent laidOut (by omega) (by omega) (by omega) (by omega)
  have found_after : zone.Finds after.start after :=
    after_finds.moved consistent laidOut (by omega) (by omega) (by omega) (by omega)
  unfold gapBetween? at between
  split at between
  · rename_i skipped
    obtain rfl := Option.some.inj between
    simp only [Bool.and_eq_true, decide_eq_true_eq] at skipped
    have passed := (Interval.localStop_le_iff (by omega) (by omega)).mp skipped.1
    have not_reached : ¬ after.start + after.wallOffset ≤ reading := by
      rw [← Interval.localStart_le_iff (by omega) (by omega)]
      omega
    rw [touching] at passed
    exact ⟨before, after, found_before, found_after, touching, rfl, rfl, rfl, passed,
      Int.not_le.mp not_reached⟩
  · simp at between

/-- A zone covers some time. -/
theorem LaidOut.lt_coverageEnd (laidOut : zone.LaidOut)
    : beginningOfTime < zone.coverageEnd := by
  obtain ⟨last, last_eq⟩ := laidOut.exists_last
  refine CompiledZone.lt_coverageEnd last_eq ?_ (by decide)
  obtain ⟨i, i_eq, rfl⟩ := Option.map_eq_some_iff.mp last_eq
  have member := List.mem_of_getLast? i_eq
  have := laidOut.contiguous.start_ge member
  have := laidOut.contiguous.forward i member
  omega

/-- The window around a reading begins within the first of its intervals, if the zone covers it. -/
theorem Around.head_contains {rest : List Interval} (around : zone.Around reading (i :: rest))
    : i.start ≤ reading - 172800 := by
  have first := around.first
  obtain ⟨t, after, _, finds⟩ := around.found i (by simp)
  have covered := finds.covered
  obtain ⟨k, k_finds, k_contains⟩ := around.consistent.finds (t := reading - 172800) (by omega)
    (by omega)
  have member := around.complete (reading - 172800) k (Int.le_refl _) (by omega) k_finds
  rcases List.mem_cons.mp member with rfl | later
  · exact k_contains.1
  · have := (List.pairwise_cons.mp around.ordered).1 k later
    have := finds.contains around.consistent
    omega

/-- The coverage ends within the window, if the last interval does. -/
theorem Around.last_stop {front : List Interval} (around : zone.Around reading (front ++ [i]))
    (inside : i.stop < reading + 172800)
    : zone.coverageEnd ≤ i.stop := by
  have first := around.first
  obtain ⟨t, after, _, finds⟩ := around.found i (by simp)
  have contains := finds.contains around.consistent
  rcases Int.lt_or_le i.stop zone.coverageEnd with covered | ends
  · obtain ⟨k, k_finds, k_contains⟩ := around.consistent.finds (t := i.stop) (by omega) covered
    have member := around.complete i.stop k (by omega) inside k_finds
    rcases List.mem_append.mp member with earlier | same
    · have := (List.pairwise_append.mp around.ordered).2.2 k earlier i (by simp)
      omega
    · rw [List.mem_singleton.mp same] at k_contains
      omega
  · exact ends

/-- Where no interval shows the reading and no gap is found, the reading lies beyond the zone. -/
theorem Around.liesBeyond (around : zone.Around reading is)
    (unmatched : is.filter (·.containsLocal reading) = [])
    (none_found : gapIn? reading is = none)
    : zone.LiesBeyond reading := by
  obtain ⟨consistent, laidOut⟩ := And.intro around.consistent around.laidOut
  obtain ⟨first, in_time⟩ := And.intro around.first around.in_time
  have starts := laidOut.lt_coverageEnd
  cases is with
  | nil =>
      obtain ⟨last, finds, _⟩ := consistent.finds (t := zone.coverageEnd - 1) (by omega) (by omega)
      have offset := around.offsets _ last finds
      refine ⟨last, finds, ?_⟩
      rcases Int.lt_or_le (reading - 172800) zone.coverageEnd with covered | beyond
      · obtain ⟨k, k_finds, _⟩ := consistent.finds (t := reading - 172800) (by omega) covered
        have := around.complete (reading - 172800) k (Int.le_refl _) (by omega) k_finds
        simp at this
      · omega
  | cons i rest =>
      have begins := around.head_contains
      obtain ⟨t, _, _, finds⟩ := around.found i (by simp)
      have offset := around.offsets t i finds
      have begun : i.localStart ≤ reading := by
        rw [Interval.localStart_le_iff (by omega) (by omega)]
        omega
      have passed := passed_of_gapIn?_none none_found
        (fun j member => by simpa using List.filter_eq_nil_iff.mp unmatched j member) begun
      obtain ⟨front, last, is_eq⟩ := (List.eq_nil_or_concat (i :: rest)).resolve_left (by simp)
      rw [List.concat_eq_append] at is_eq
      rw [is_eq] at around passed
      obtain ⟨u, _, _, last_finds⟩ := around.found last (by simp)
      have last_offset := around.offsets u last last_finds
      have last_passed := passed last (by simp)
      rw [Interval.localStop_le_iff (by omega) (by omega)] at last_passed
      have ends := around.last_stop (by omega)
      have contains := last_finds.contains consistent
      have covered := last_finds.covered
      exact ⟨last, ⟨by omega, by omega, last_finds.inside consistent (by omega) (by omega)⟩,
        by omega⟩

/-- The intervals of the window around a reading decide the answer. -/
theorem Around.answers (around : zone.Around reading is)
    : zone.AnswersLocal reading (localIntervals? reading is) := by
  have reads_iff (t : Int) (i : Interval) := around.readsAt_iff (t := t) (i := i)
  unfold localIntervals?
  cases matching_eq : is.filter (·.containsLocal reading) with
  | nil =>
      simp only [matching_eq, List.not_mem_nil, false_and, iff_false] at reads_iff
      refine ⟨fun t i reads => absurd reads (reads_iff t i),
        fun t i _ _ reads => absurd reads (reads_iff t i), fun _ => ?_⟩
      cases found : gapIn? reading is with
      | none => exact .inr ⟨rfl, around.liesBeyond matching_eq found⟩
      | some gap =>
          obtain ⟨before, after, skips⟩ := around.skips found
          exact .inl ⟨gap, before, after, rfl, skips⟩
  | cons earlier others =>
      have earlier_reads := (reads_iff _ earlier).mpr ⟨by simp [matching_eq], rfl⟩
      cases others with
      | nil =>
          simp only [matching_eq, List.mem_singleton] at reads_iff
          refine ⟨fun t i reads _ => ?_, fun t i u j reads also different => ?_,
            fun unread => absurd earlier_reads (unread _ _)⟩
          · rw [((reads_iff t i).mp reads).1]
          · obtain ⟨rfl, rfl⟩ := (reads_iff t i).mp reads
            obtain ⟨rfl, rfl⟩ := (reads_iff u j).mp also
            exact absurd rfl different
      | cons later rest =>
          have later_reads := (reads_iff _ later).mpr ⟨by simp [matching_eq], rfl⟩
          have lt := around.lt_of_matching [] matching_eq (show later ∈ _ by simp)
          refine ⟨fun t i reads only => ?_, fun _ _ _ _ _ _ _ => ?_,
            fun unread => absurd earlier_reads (unread _ _)⟩
          · have := only _ earlier earlier_reads
            have := only _ later later_reads
            omega
          · refine ⟨_, earlier, _, later, earlier_reads, later_reads, lt, fun v k reads => ?_, rfl⟩
            obtain ⟨member, rfl⟩ := (reads_iff v k).mp reads
            rw [matching_eq] at member
            rcases List.mem_cons.mp member with rfl | member
            · exact .inl rfl
            · rcases List.mem_cons.mp member with rfl | member
              · exact .inr (Int.le_refl _)
              · exact .inr (Int.le_of_lt
                  (around.lt_of_matching [earlier] matching_eq member))

/-- The lookup of a local time succeeds and answers it, in every consistent zone without gaps whose
wall offsets are short. Without a tail such a zone is always consistent. -/
theorem LaidOut.intervalsForLocal_answers (laidOut : zone.LaidOut)
    : (zone.tail = none → zone.Consistent)
      ∧ (zone.Consistent
          → zone.ShortOffsets
          → ∀ reading,
              beginningOfTime + 345600 < reading
              → reading < endOfTime - 345600
              → ∃ answer,
                  zone.intervalsForLocal reading = .ok answer
                  ∧ zone.AnswersLocal reading answer) := by
  refine ⟨fun no_tail => laidOut.consistent fun tail is_tail => ?_,
    fun consistent offsets reading first in_time => ?_⟩
  · simp [no_tail] at is_tail
  have window_start : Instant.saturate (reading - localWindow) = reading - 172800 :=
    Instant.saturate_eq (show beginningOfTime ≤ reading - 172800 by omega)
      (show reading - 172800 ≤ endOfTime by omega)
  have window_stop : Instant.saturate (reading + localWindow) = reading + 172800 :=
    Instant.saturate_eq (show beginningOfTime ≤ reading + 172800 by omega)
      (show reading + 172800 ≤ endOfTime by omega)
  obtain ⟨is, listed, lists⟩ := consistent.intervalsIn_lists laidOut
    (show beginningOfTime ≤ reading - 172800 by omega)
    (show reading - 172800 < reading + 172800 by omega) (by omega)
  refine ⟨localIntervals? reading is, ?_, ?_⟩
  · rw [intervalsForLocal, window_start, window_stop, listed]
    rfl
  · exact Around.answers { lists with consistent, laidOut, offsets, first, in_time }

end CompiledZone

/-- The wall offsets of a zone are short if those of its explicit intervals and of its tail are. -/
theorem CompiledZone.LaidOut.shortOffsets {zone : CompiledZone} (laidOut : zone.LaidOut)
    (runs : zone.FindsRuns)
    (explicit : ∀ i ∈ zone.intervals, -172800 < i.wallOffset ∧ i.wallOffset < 172800)
    (amounts
      : ∀ tail ∈ zone.tail,
          (-172800 < tail.stdOffset + tail.initialSavings
            ∧ tail.stdOffset + tail.initialSavings < 172800)
          ∧ ∀ r ∈ tail.rules.recurrences,
              -172800 < tail.stdOffset + r.savings ∧ tail.stdOffset + r.savings < 172800)
    : zone.ShortOffsets := by
  intro t i finds
  have covered := finds.covered
  obtain ⟨last, last_eq⟩ := laidOut.exists_last
  rcases Int.lt_or_le t last with before | behind
  · exact explicit i (laidOut.mem_of_finds last_eq finds before).1
  · cases tail_eq : zone.tail with
    | none =>
        rw [coverageEnd_of_none tail_eq last_eq] at covered
        omega
    | some tail =>
        have start_eq := laidOut.adjoining tail tail_eq
        obtain rfl : last = tail.start := Option.some.inj (last_eq.symm.trans start_eq)
        rw [coverageEnd_of_tail tail_eq] at covered
        obtain ⟨j, found, run⟩ := runs tail tail_eq t behind covered
        have same := finds.found
        rw [intervalAt_of_tail tail_eq behind, found] at same
        obtain rfl := Option.some.inj (Except.ok.inj same)
        rw [run.wallOffset_eq]
        obtain ⟨initial, recurrences⟩ := amounts tail tail_eq
        rcases tail.savings_stateAt t with saved | ⟨r, member, saved⟩
        · rw [saved]
          exact initial
        · rw [saved]
          exact recurrences r member

/-- The zone with summer time answers a local time of the night in which the summer of 2007 ends.
Its explicit intervals alone are consistent. -/
theorem summerTailZone_answers
    : CompiledZone.Consistent { summerTailZone with tail := none }
      ∧ ∃ answer,
          summerTailZone.intervalsForLocal 1194139800 = .ok answer
          ∧ summerTailZone.AnswersLocal 1194139800 answer := by
  have consistent := summerTailZone_laidOut.consistent summerTailZone_findsRuns
  have offsets :=
    summerTailZone_laidOut.shortOffsets summerTailZone_findsRuns (by decide) (by decide)
  have explicit : CompiledZone.LaidOut { summerTailZone with tail := none } := by decide +kernel
  exact ⟨explicit.intervalsForLocal_answers.1 rfl,
    summerTailZone_laidOut.intervalsForLocal_answers.2 consistent offsets 1194139800 (by decide)
      (by decide)⟩

/-- A zone with an interval that no lookup finds, since another one starts at its start. -/
def hiddenZone : CompiledZone :=
  { intervals :=
      [ { start := beginningOfTime, stop := 0, stdOffset := 0, savings := 0, name := "A" },
        { start := 0, stop := 100, stdOffset := 0, savings := 0, name := "J" },
        { start := 0, stop := endOfTime, stdOffset := 0, savings := 0, name := "B" } ]
    tail := none }

/-- Lookups in the zone find its first interval in front of the epoch and its last one from there
on. -/
theorem hiddenZone_intervalAt {t : Int} (first : beginningOfTime ≤ t) (in_time : t < endOfTime)
    : hiddenZone.intervalAt t
      = .ok (if t < 0 then hiddenZone.intervals[0]? else hiddenZone.intervals[2]?) := by
  change Except.ok (hiddenZone.explicitAt t) = _
  split
  case isTrue before =>
    exact congrArg _ (CompiledZone.explicitAt_of_append [] (hiddenZone.intervals.drop 1) rfl
      (by simpa using first) (by simpa [hiddenZone] using before) before)
  case isFalse behind =>
    refine congrArg _ (CompiledZone.explicitAt_of_append (hiddenZone.intervals.take 2) [] rfl
      (fun j member => ?_) (by simp) in_time)
    have : j.start ≤ 0 := (by decide : ∀ j ∈ hiddenZone.intervals, j.start ≤ 0) j member
    omega

/-- The answer to a local time may show an interval that no lookup finds, if the intervals are not
contiguous. -/
theorem hiddenZone_not_answered
    : hiddenZone.Consistent
      ∧ hiddenZone.intervals.head?.map (·.start) = some beginningOfTime
      ∧ hiddenZone.ShortOffsets
      ∧ ¬ ∃ answer,
          hiddenZone.intervalsForLocal 50 = .ok answer ∧ hiddenZone.AnswersLocal 50 answer := by
  have universal {t : Int} {i : Interval} (finds : hiddenZone.Finds t i) : i.wallOffset = 0 := by
    have found := finds.found
    rw [hiddenZone_intervalAt finds.after finds.covered, Except.ok.injEq] at found
    have member : i ∈ hiddenZone.intervals := by
      split at found <;> exact List.mem_of_getElem? found
    exact (by decide : ∀ i ∈ hiddenZone.intervals, i.wallOffset = 0) i member
  refine ⟨fun t first covered => ?_, rfl, fun t i finds => ?_, ?_⟩
  · rw [hiddenZone_intervalAt first covered]
    split
    case isTrue before =>
      refine ⟨_, rfl, by simp [Interval.contains, first, before], fun u inside => ?_⟩
      simp only [Interval.contains, Bool.and_eq_true, decide_eq_true_eq] at inside
      rw [hiddenZone_intervalAt inside.1 (Int.lt_trans inside.2 (by decide)), if_pos inside.2]
      rfl
    case isFalse behind =>
      refine ⟨_, rfl, ?_, fun u inside => ?_⟩
      · have : 0 ≤ t := by omega
        simp [Interval.contains, this, show t < endOfTime from covered]
      · simp only [Interval.contains, Bool.and_eq_true, decide_eq_true_eq] at inside
        rw [hiddenZone_intervalAt (Int.le_trans (by decide) inside.1) inside.2,
          if_neg (Int.not_lt.mpr inside.1)]
        rfl
  · rw [universal finds]
    decide
  · rintro ⟨answer, found, answers⟩
    have finds : hiddenZone.Finds 50 _ :=
      ⟨by decide, by decide, hiddenZone_intervalAt (by decide) (by decide)⟩
    have answer_eq := answers.once 50 _ { finds with reads := rfl } fun u j reads => by
      have := reads.reads
      rw [universal reads.toFinds] at this
      omega
    rw [answer_eq] at found
    cases found

end CivilTime
