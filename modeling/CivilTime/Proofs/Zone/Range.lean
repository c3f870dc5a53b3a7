import CivilTime.Proofs.Zone.Consistency

/-! A range query lists what lookups in the range find.
In a consistent zone the explicit intervals of a range are found up to the end of the last one, and
from there on the tail is followed from the end of one interval to the next. An interval that takes
no time would be listed without being found.
-/

namespace CivilTime

namespace CompiledZone

-----------------------------------------------------------------------------------------
-- The intervals of a range
-----------------------------------------------------------------------------------------

/-- The list holds the intervals that lookups in a range find, in order. -/
structure Lists (zone : CompiledZone) (start stop : Int) (is : List Interval) : Prop where
  ordered : is.Pairwise fun i j => i.stop ≤ j.start
  found : ∀ i ∈ is, ∃ t, start ≤ t ∧ t < stop ∧ zone.Finds t i
  complete : ∀ t i, start ≤ t → t < stop → zone.Finds t i → i ∈ is

variable {zone : CompiledZone} {i j : Interval} {is js : List Interval}
  {t start middle stop : Int}

theorem lists_nil (zone : CompiledZone) (le : stop ≤ start) : zone.Lists start stop [] where
  ordered := .nil
  found := by simp
  complete t i after before := by omega

/-- The lists of neighbouring ranges make up the list of both, if the intervals of the first one do
not reach into the second one. -/
theorem Lists.append (first : zone.Lists start (min stop middle) is)
    (second : zone.Lists (max start middle) stop js) (consistent : zone.Consistent)
    (ends : ∀ i ∈ is, i.stop ≤ middle)
    : zone.Lists start stop (is ++ js) where
  ordered := by
    refine List.pairwise_append.mpr ⟨first.ordered, second.ordered, fun i i_member j j_member => ?_⟩
    obtain ⟨t, _, before, finds⟩ := first.found i i_member
    obtain ⟨u, after, _, later⟩ := second.found j j_member
    refine finds.stop_le later consistent (by omega) ?_
    rintro rfl
    have := ends i i_member
    have := later.contains consistent
    omega
  found i member := by
    rcases List.mem_append.mp member with member | member
    · obtain ⟨t, after, before, finds⟩ := first.found i member
      exact ⟨t, after, by omega, finds⟩
    · obtain ⟨t, after, before, finds⟩ := second.found i member
      exact ⟨t, by omega, before, finds⟩
  complete t i after before finds := by
    rcases Int.lt_or_le t middle with front | behind
    · exact List.mem_append_left js (first.complete t i after (by omega) finds)
    · exact List.mem_append_right is (second.complete t i (by omega) before finds)

/-- Neighbours of a list leave no gap. -/
theorem Lists.touching (lists : zone.Lists start stop is) (consistent : zone.Consistent)
    : is.IsChain fun i j => i.stop = j.start := by
  refine List.isChain_iff_forall_rel_of_append_cons_cons.mpr fun i j front back is_eq => ?_
  have ordered := lists.ordered
  rw [is_eq] at ordered
  obtain ⟨_, back_ordered, front_ordered⟩ := List.pairwise_append.mp ordered
  obtain ⟨i_first, back_ordered⟩ := List.pairwise_cons.mp back_ordered
  have j_first := (List.pairwise_cons.mp back_ordered).1
  have i_le := i_first j (by simp)
  obtain ⟨t, t_after, _, i_finds⟩ := lists.found i (by simp [is_eq])
  obtain ⟨u, _, u_before, j_finds⟩ := lists.found j (by simp [is_eq])
  have i_contains := i_finds.contains consistent
  have j_contains := j_finds.contains consistent
  rcases Int.lt_or_eq_of_le i_le with gap | touching
  · -- The interval at the end of the first one would stand between the two.
    obtain ⟨k, k_finds, k_contains⟩ := consistent.finds (t := i.stop)
      (by have := i_finds.after; omega) (by have := j_finds.covered; omega)
    have member := lists.complete i.stop k (by omega) (by omega) k_finds
    rw [is_eq] at member
    have : k.stop ≤ i.start ∨ k = i ∨ k = j ∨ j.stop ≤ k.start := by
      rcases List.mem_append.mp member with inside | inside
      · exact .inl (front_ordered k inside i (by simp))
      · rcases List.mem_cons.mp inside with rfl | inside
        · exact .inr (.inl rfl)
        · rcases List.mem_cons.mp inside with rfl | inside
          · exact .inr (.inr (.inl rfl))
          · exact .inr (.inr (.inr (j_first k inside)))
    rcases this with before | rfl | rfl | behind <;> omega
  · exact touching

-----------------------------------------------------------------------------------------
-- Explicit intervals and the tail
-----------------------------------------------------------------------------------------

/-- The explicit intervals that overlap a range are what lookups in it find in front of the end of
the last one. -/
theorem LaidOut.explicitIn_lists (laidOut : zone.LaidOut) {last : Int}
    (last_eq : zone.intervals.getLast?.map (·.stop) = some last) (lt : start < stop)
    (in_time : stop ≤ endOfTime)
    : zone.Lists start (min stop last) (zone.explicitIn start stop) where
  ordered := laidOut.contiguous.ordered.filter _
  found i member := by
    obtain ⟨member, overlaps⟩ := List.mem_filter.mp member
    simp only [Bool.and_eq_true, decide_eq_true_eq] at overlaps
    have forward := laidOut.contiguous.forward i member
    have first := laidOut.contiguous.start_ge member
    have ends := laidOut.contiguous.stop_le last_eq member
    refine ⟨max start i.start, by omega, by omega, by omega, ?_, ?_⟩
    · exact lt_coverageEnd last_eq (by omega) (by omega)
    · exact laidOut.intervalAt_of_mem member (by omega) (by omega)
  complete t i after before finds := by
    obtain ⟨member, contains⟩ := laidOut.mem_of_finds last_eq finds (by omega)
    refine List.mem_filter.mpr ⟨member, ?_⟩
    simp only [Bool.and_eq_true, decide_eq_true_eq]
    omega

/-- From its start on, a tail is what a consistent zone finds. -/
theorem Consistent.tail_finds (consistent : zone.Consistent) {tail : Tail}
    (tail_eq : zone.tail = some tail) (first : beginningOfTime ≤ t) (after : tail.start ≤ t)
    (in_time : t < endOfTime)
    : ∃ i, tail.intervalAt t = .ok i ∧ zone.Finds t i ∧ i.start ≤ t ∧ t < i.stop := by
  have covered := coverageEnd_of_tail tail_eq
  obtain ⟨i, finds, contains⟩ := consistent.finds first (by omega)
  have found := finds.found
  rw [intervalAt_of_tail tail_eq after] at found
  obtain ⟨_, found, some_eq⟩ := map_eq_ok.mp found
  exact ⟨i, found.trans (congrArg _ (Option.some.inj some_eq)), finds, contains⟩

/-- Following the tail from the end of one interval to the next finds what lookups find. -/
theorem Consistent.tailIn_lists (consistent : zone.Consistent) {tail : Tail}
    (tail_eq : zone.tail = some tail) (in_time : stop ≤ endOfTime) {cursor : Int}
    (first : beginningOfTime ≤ cursor) (after : tail.start ≤ cursor)
    : ∃ is, tailIn tail cursor stop = .ok is ∧ zone.Lists cursor stop is := by
  fun_induction tailIn tail cursor stop with
  | case1 cursor before fault failed =>
      obtain ⟨i, found, _⟩ := consistent.tail_finds tail_eq first after (by omega)
      rw [failed] at found
      cases found
  | case2 cursor before i looked_up forward ih =>
      obtain ⟨j, found, finds, _⟩ := consistent.tail_finds tail_eq first after (by omega)
      obtain rfl := Except.ok.inj (looked_up.symm.trans found)
      obtain ⟨is, followed, lists⟩ := ih (by omega) (by omega)
      have single : zone.Lists cursor (min stop i.stop) [i] := {
        ordered := List.pairwise_singleton _ _
        found := fun k member => by
          rw [List.mem_singleton.mp member]
          exact ⟨cursor, Int.le_refl _, by omega, finds⟩
        complete := fun t k after before also => by
          have contains := finds.contains consistent
          have inside := finds.inside consistent (u := t) (by omega) (by omega)
          rw [List.mem_singleton]
          exact (Finds.unique ⟨also.after, also.covered, inside⟩ also).symm
      }
      refine ⟨i :: is, by rw [followed]; rfl, single.append ?_ consistent (by simp)⟩
      rw [show max cursor i.stop = i.stop by omega]
      exact lists
  | case3 cursor before i looked_up stuck =>
      obtain ⟨j, found, _, contains⟩ := consistent.tail_finds tail_eq first after (by omega)
      obtain rfl := Except.ok.inj (looked_up.symm.trans found)
      exact absurd contains.2 stuck
  | case4 cursor beyond => exact ⟨[], rfl, lists_nil zone (by omega)⟩

/-- A range query succeeds and lists the intervals that lookups in the range find. -/
theorem Consistent.intervalsIn_lists (consistent : zone.Consistent) (laidOut : zone.LaidOut)
    (first : beginningOfTime ≤ start) (lt : start < stop) (in_time : stop ≤ endOfTime)
    : ∃ is, zone.intervalsIn start stop = .ok is ∧ zone.Lists start stop is := by
  obtain ⟨last, last_eq⟩ := laidOut.exists_last
  have explicit := laidOut.explicitIn_lists last_eq lt in_time
  cases tail_eq : zone.tail with
  | none =>
      have covered := coverageEnd_of_none tail_eq last_eq
      refine ⟨zone.explicitIn start stop, by simp only [intervalsIn, tail_eq], explicit.ordered, ?_,
        ?_⟩
      · intro i member
        obtain ⟨t, after, before, finds⟩ := explicit.found i member
        exact ⟨t, after, by omega, finds⟩
      · intro t i after before finds
        exact explicit.complete t i after (by have := finds.covered; omega) finds
  | some tail =>
      have start_eq := laidOut.adjoining tail tail_eq
      obtain rfl : last = tail.start := Option.some.inj (last_eq.symm.trans start_eq)
      obtain ⟨is, followed, lists⟩ := consistent.tailIn_lists tail_eq in_time
        (show beginningOfTime ≤ max start tail.start by omega) (by omega)
      refine ⟨zone.explicitIn start stop ++ is, ?_, ?_⟩
      · simp only [intervalsIn, tail_eq, followed]
        rfl
      · refine explicit.append lists consistent fun i member => ?_
        exact laidOut.contiguous.stop_le last_eq (List.mem_filter.mp member).1

/-- The list of a range starts its intervals in the order of time. -/
theorem Lists.starts_increase (lists : zone.Lists start stop is) (consistent : zone.Consistent)
    : is.Pairwise fun i j => i.start < j.start := by
  refine lists.ordered.imp_of_mem fun {i j} i_member j_member apart => ?_
  obtain ⟨t, _, _, finds⟩ := lists.found i i_member
  have contains := finds.contains consistent
  omega

/-- The explicit intervals and the tail come one behind the other from the beginning of time on.
There may be no explicit intervals. -/
def Joined (zone : CompiledZone) : Prop :=
  zone.LaidOut ∨ zone.intervals = [] ∧ ∀ tail ∈ zone.tail, tail.start = beginningOfTime

/-- Without explicit intervals a range query follows the tail, if there is one. -/
theorem Consistent.intervalsIn_lists_of_nil (consistent : zone.Consistent)
    (no_intervals : zone.intervals = [])
    (tail_first : ∀ tail ∈ zone.tail, tail.start = beginningOfTime)
    (first : beginningOfTime ≤ start) (in_time : stop ≤ endOfTime)
    : ∃ is, zone.intervalsIn start stop = .ok is ∧ zone.Lists start stop is := by
  have none_explicit : zone.explicitIn start stop = [] := by simp [explicitIn, no_intervals]
  cases tail_eq : zone.tail with
  | none =>
      refine ⟨[], by simp only [intervalsIn, tail_eq, none_explicit], .nil, by simp, ?_⟩
      intro t i after before finds
      have covered := finds.covered
      have : zone.coverageEnd = beginningOfTime := by simp [coverageEnd, tail_eq, no_intervals]
      omega
  | some tail =>
      have start_eq := tail_first tail tail_eq
      obtain ⟨is, followed, lists⟩ := consistent.tailIn_lists tail_eq in_time first (by omega)
      refine ⟨is, ?_, lists⟩
      rw [← show max start tail.start = start by omega] at followed
      simp only [intervalsIn, tail_eq, none_explicit, followed]
      rfl

/-- A range query succeeds, and its intervals are those that lookups in the range find, each of them
once, in the order of time and without gaps. -/
theorem Consistent.intervalsIn_points (consistent : zone.Consistent) (joined : zone.Joined)
    (first : beginningOfTime ≤ start) (lt : start < stop) (in_time : stop ≤ endOfTime)
    : ∃ is,
        zone.intervalsIn start stop = .ok is
        ∧ (is.Pairwise fun i j => i.start < j.start)
        ∧ (∀ i, i ∈ is ↔ ∃ t, start ≤ t ∧ t < stop ∧ zone.Finds t i)
        ∧ is.IsChain fun i j => i.stop = j.start := by
  have listed : ∃ is, zone.intervalsIn start stop = .ok is ∧ zone.Lists start stop is := by
    rcases joined with laidOut | ⟨no_intervals, tail_first⟩
    · exact consistent.intervalsIn_lists laidOut first lt in_time
    · exact consistent.intervalsIn_lists_of_nil no_intervals tail_first first in_time
  obtain ⟨is, listed, lists⟩ := listed
  refine ⟨is, listed, lists.starts_increase consistent, fun i => ⟨lists.found i, ?_⟩,
    lists.touching consistent⟩
  intro ⟨t, after, before, finds⟩
  exact lists.complete t i after before finds

end CompiledZone

/-- Witness: the range of a year that the start of a tail with summer time divides. -/
theorem summerTailZone_intervalsIn
    : summerTailZone.Consistent
      ∧ summerTailZone.Joined
      ∧ ∃ is,
          summerTailZone.intervalsIn 1167609600 1199145600 = .ok is
          ∧ (is.Pairwise fun i j => i.start < j.start)
          ∧ (∀ i,
              i ∈ is ↔ ∃ t, 1167609600 ≤ t ∧ t < 1199145600 ∧ summerTailZone.Finds t i)
          ∧ is.IsChain fun i j => i.stop = j.start := by
  have consistent := summerTailZone_laidOut.consistent summerTailZone_findsRuns
  have joined : summerTailZone.Joined := .inl summerTailZone_laidOut
  exact ⟨consistent, joined,
    consistent.intervalsIn_points joined (by decide) (by decide) (by decide)⟩

-----------------------------------------------------------------------------------------
-- An interval that takes no time
-----------------------------------------------------------------------------------------

namespace MomentZone

def front : Interval :=
  { start := beginningOfTime, stop := 0, stdOffset := 0, savings := 0, name := "A" }

def moment : Interval := { start := 0, stop := 0, stdOffset := 0, savings := 0, name := "B" }

def back : Interval := { start := 0, stop := endOfTime, stdOffset := 0, savings := 0, name := "C" }

/-- The second one of three intervals ends where it starts. -/
def zone : CompiledZone := { intervals := [front, moment, back], tail := none }

/-- In front of the second interval the first one is found. -/
theorem finds_front {t : Int} (after : beginningOfTime ≤ t) (before : t < 0)
    : zone.intervalAt t = .ok (some front) := by
  refine congrArg Except.ok (zone.explicitAt_of_append [] [moment, back] rfl ?_ ?_ before)
  · intro j member
    rwa [List.mem_singleton.mp member]
  · intro j member
    have : j.start = 0 := by
      rcases List.mem_pair.mp member with rfl | rfl <;> rfl
    omega

/-- From the second interval on the third one is found. -/
theorem finds_back {t : Int} (after : 0 ≤ t) (before : t < endOfTime)
    : zone.intervalAt t = .ok (some back) := by
  refine congrArg Except.ok (zone.explicitAt_of_append [front, moment] [] rfl ?_ (by simp) before)
  intro j member
  have : j.start ≤ 0 := by
    revert j
    decide
  omega

theorem consistent : zone.Consistent := by
  intro t after covered
  rcases Int.lt_or_le t 0 with before | behind
  · refine ⟨front, finds_front after before, ?_, fun u contains => ?_⟩
    · simp [Interval.contains, front, after, before]
    · simp only [Interval.contains, Bool.and_eq_true, decide_eq_true_eq] at contains
      exact finds_front contains.1 contains.2
  · refine ⟨back, finds_back behind covered, ?_, fun u contains => ?_⟩
    · simp only [Interval.contains, Bool.and_eq_true, decide_eq_true_eq]
      exact ⟨behind, covered⟩
    · simp only [Interval.contains, Bool.and_eq_true, decide_eq_true_eq] at contains
      exact finds_back contains.1 contains.2

/-- The intervals touch and the lookups agree with each other, but a range query around the second
interval lists it, which no lookup finds. -/
theorem lists_unfound
    : zone.Consistent
      ∧ zone.intervals.head?.map (·.start) = some beginningOfTime
      ∧ (zone.intervals.IsChain fun i j => i.stop = j.start)
      ∧ zone.intervalsIn (-5) 5 = .ok [front, moment, back]
      ∧ ∀ t, ¬ zone.Finds t moment := by
  refine ⟨consistent, rfl, by decide +kernel, by decide +kernel, fun t finds => ?_⟩
  have contains := finds.contains consistent
  have starts : moment.start = 0 := rfl
  have stops : moment.stop = 0 := rfl
  omega

end MomentZone

end CivilTime
