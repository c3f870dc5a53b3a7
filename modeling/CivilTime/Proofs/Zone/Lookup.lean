import CivilTime.Proofs.Outcome
import CivilTime.Proofs.Zone.Timeline
import CivilTime.Zone.Compiled

/-! A lookup in a zone finds the interval around its instant.
The starts of contiguous intervals grow, so the bisection for the last start up to an instant ends
at the interval that contains it.
-/

namespace CivilTime

namespace Bisection

variable {α : Type} {test : α → Bool} {front back : List α}

/-- The test holds in the front part of a list and nowhere else. -/
theorem holdsAt_append (passed : ∀ x ∈ front, test x = true)
    (failed : ∀ x ∈ back, test x = false) (position : Nat)
    : holdsAt test (front ++ back) position = decide (position < front.length) := by
  rcases Nat.lt_or_ge position front.length with lt | ge
  · rw [holdsAt, List.getElem?_append_left lt, List.getElem?_eq_getElem lt, Option.any_some,
      passed _ (List.getElem_mem lt), decide_eq_true lt]
  · rw [holdsAt, List.getElem?_append_right ge, decide_eq_false (Nat.not_lt.mpr ge)]
    cases found : back[position - front.length]? with
    | none => rfl
    | some x => exact failed x (List.mem_of_getElem? found)

/-- Bisection keeps the end of the front part in its range, by induction on the size of the range.
-/
theorem narrow_bounds (passed : ∀ x ∈ front, test x = true)
    (failed : ∀ x ∈ back, test x = false) (base size : Nat)
    (from_base : base = 0 ∨ base < front.length) (up_to : front.length ≤ base + size)
    : let position := narrow test (front ++ back) base size
      (position = 0 ∨ position < front.length) ∧ front.length ≤ position + 1 := by
  induction base, size using narrow.induct test (front ++ back) with
  | case1 base size le =>
      unfold narrow
      rw [if_pos le]
      exact ⟨from_base, by omega⟩
  | case2 base size gt half ih =>
      unfold narrow
      rw [if_neg gt]
      have half_eq : half = size / 2 := rfl
      simp only [holdsAt_append passed failed, decide_eq_true_eq] at ih ⊢
      refine ih ?_ ?_
      · split <;> omega
      · split <;> omega

/-- The front part that satisfies the test ends where bisection finds it to. -/
theorem partitionPoint_append (passed : ∀ x ∈ front, test x = true)
    (failed : ∀ x ∈ back, test x = false)
    : partitionPoint test (front ++ back) = front.length := by
  have bounds := narrow_bounds passed failed 0 (front ++ back).length (.inl rfl)
    (by rw [List.length_append]; omega)
  dsimp only at bounds
  simp only [partitionPoint, holdsAt_append passed failed, decide_eq_true_eq]
  split <;> omega

end Bisection

/-- Contiguous intervals come one behind the other, by induction on the intervals. -/
theorem Contiguous.ordered {intervals : List Interval} (contiguous : Contiguous intervals)
    : intervals.Pairwise fun i j => i.stop ≤ j.start := by
  obtain ⟨forward, touching⟩ := And.intro contiguous.forward contiguous.touching
  clear contiguous
  induction intervals with
  | nil => exact .nil
  | cons i rest ih =>
      obtain ⟨here, rest_forward⟩ := List.forall_mem_cons.mp forward
      obtain ⟨meets, rest_touching⟩ := List.isChain_cons.mp touching
      have rest_ordered := ih rest_forward rest_touching
      refine List.pairwise_cons.mpr ⟨fun j member => ?_, rest_ordered⟩
      cases rest with
      | nil => simp at member
      | cons next others =>
          have start_eq := meets next rfl
          have next_forward := rest_forward next (by simp)
          rcases List.mem_cons.mp member with rfl | inside
          · omega
          · have := (List.pairwise_cons.mp rest_ordered).1 j inside
            omega

/-- No one of contiguous intervals ends behind the last one. -/
theorem Contiguous.stop_le {intervals : List Interval} (contiguous : Contiguous intervals)
    {stop : Int} (stop_eq : intervals.getLast?.map (·.stop) = some stop) {i : Interval}
    (member : i ∈ intervals)
    : i.stop ≤ stop := by
  obtain ⟨last, last_eq, rfl⟩ := Option.map_eq_some_iff.mp stop_eq
  obtain ⟨front, rfl⟩ := List.getLast?_eq_some_iff.mp last_eq
  rcases List.mem_append.mp member with inside | inside
  · have := (List.pairwise_append.mp contiguous.ordered).2.2 i inside last (by simp)
    have := contiguous.forward last (by simp)
    omega
  · exact Int.le_of_eq (congrArg Interval.stop (List.mem_singleton.mp inside))

/-- Contiguous intervals begin at the beginning of time. -/
theorem Contiguous.start_ge {intervals : List Interval} (contiguous : Contiguous intervals)
    {i : Interval} (member : i ∈ intervals)
    : beginningOfTime ≤ i.start := by
  obtain ⟨first, first_eq, start_eq⟩ := Option.map_eq_some_iff.mp contiguous.start_eq
  obtain ⟨rest, rfl⟩ := List.head?_eq_some_iff.mp first_eq
  rcases List.mem_cons.mp member with rfl | inside
  · omega
  · have := (List.pairwise_cons.mp contiguous.ordered).1 i inside
    have := contiguous.forward first (by simp)
    omega

/-- Contiguous intervals contain every instant in front of the end of the last one, by induction on
the intervals. -/
theorem exists_interval_of_chain {intervals : List Interval} {start stop instant : Int}
    (touching : intervals.IsChain fun i j => i.stop = j.start)
    (start_eq : intervals.head?.map (·.start) = some start)
    (stop_eq : intervals.getLast?.map (·.stop) = some stop) (after : start ≤ instant)
    (before : instant < stop)
    : ∃ i ∈ intervals, i.start ≤ instant ∧ instant < i.stop := by
  induction intervals generalizing start with
  | nil => simp at start_eq
  | cons i rest ih =>
      obtain ⟨meets, rest_touching⟩ := List.isChain_cons.mp touching
      simp only [List.head?_cons, Option.map_some, Option.some.injEq] at start_eq
      rcases Int.lt_or_le instant i.stop with lt | ge
      · exact ⟨i, by simp, by omega, lt⟩
      cases rest with
      | nil =>
          simp only [List.getLast?_singleton, Option.map_some, Option.some.injEq] at stop_eq
          omega
      | cons next others =>
          rw [List.getLast?_cons_cons] at stop_eq
          have next_start : next.start ≤ instant := by
            have := meets next rfl
            omega
          obtain ⟨j, member, inside⟩ := ih rest_touching rfl stop_eq next_start
          exact ⟨j, List.mem_cons_of_mem _ member, inside⟩

namespace CompiledZone

variable {zone : CompiledZone} {instant : Int}

/-- The explicit lookup finds the last interval that has started, if it has not ended. -/
theorem explicitAt_of_append {i : Interval} (front back : List Interval)
    (intervals_eq : zone.intervals = front ++ i :: back)
    (passed : ∀ j ∈ front ++ [i], j.start ≤ instant) (ahead : ∀ j ∈ back, instant < j.start)
    (before : instant < i.stop)
    : zone.explicitAt instant = some i := by
  have started : ∀ j ∈ front ++ [i], decide (j.start ≤ instant) = true :=
    fun j inside => decide_eq_true (passed j inside)
  have not_started : ∀ j ∈ back, decide (j.start ≤ instant) = false :=
    fun j inside => decide_eq_false (Int.not_le.mpr (ahead j inside))
  have point := Bisection.partitionPoint_append started not_started
  rw [List.append_assoc, List.singleton_append, ← intervals_eq, List.length_append,
    List.length_singleton] at point
  have at_point : zone.intervals[front.length]? = some i := by
    rw [intervals_eq, List.getElem?_append_right (Nat.le_refl _), Nat.sub_self,
      List.getElem?_cons_zero]
  have after := passed i (by simp)
  rw [explicitAt, point]
  simp only [at_point]
  simp [Option.filter, Interval.contains, after, before]

/-- The explicit lookup finds the interval that contains the instant. -/
theorem explicitAt_of_mem (contiguous : Contiguous zone.intervals) {i : Interval}
    (member : i ∈ zone.intervals) (after : i.start ≤ instant) (before : instant < i.stop)
    : zone.explicitAt instant = some i := by
  obtain ⟨front, back, intervals_eq⟩ := List.append_of_mem member
  have ordered := contiguous.ordered
  rw [intervals_eq] at ordered
  obtain ⟨_, back_ordered, across⟩ := List.pairwise_append.mp ordered
  refine explicitAt_of_append front back intervals_eq (fun j inside => ?_) (fun j inside => ?_)
    before
  · rcases List.mem_append.mp inside with inside | inside
    · have forward := contiguous.forward j (by rw [intervals_eq]; simp [inside])
      have := across j inside i (by simp)
      omega
    · rw [List.mem_singleton.mp inside]
      exact after
  · have := (List.pairwise_cons.mp back_ordered).1 j inside
    omega

/-- In front of the tail a lookup finds the interval that contains the instant. -/
theorem intervalAt_of_mem (contiguous : Contiguous zone.intervals) {i : Interval}
    (member : i ∈ zone.intervals) (after : i.start ≤ instant) (before : instant < i.stop)
    (front : ∀ tail, zone.tail = some tail → instant < tail.start)
    : zone.intervalAt instant = .ok (some i) := by
  have no_tail : zone.tailAt instant = none := by
    rw [tailAt, Option.filter_eq_none_iff]
    intro tail tail_eq
    have := front tail tail_eq
    simpa using this
  rw [intervalAt, no_tail]
  exact congrArg Except.ok (explicitAt_of_mem contiguous member after before)

/-- The explicit intervals leave no gaps, and the tail starts where the last one ends. -/
structure LaidOut (zone : CompiledZone) : Prop where
  contiguous : Contiguous zone.intervals
  adjoining : ∀ tail ∈ zone.tail, zone.intervals.getLast?.map (·.stop) = some tail.start

instance (zone : CompiledZone) : Decidable zone.LaidOut :=
  decidable_of_iff
    (Contiguous zone.intervals
      ∧ ∀ tail ∈ zone.tail, zone.intervals.getLast?.map (·.stop) = some tail.start)
    ⟨fun ⟨contiguous, adjoining⟩ => ⟨contiguous, adjoining⟩,
      fun ⟨contiguous, adjoining⟩ => ⟨contiguous, adjoining⟩⟩

/-- The explicit intervals have a last one. -/
theorem LaidOut.exists_last (laidOut : zone.LaidOut)
    : ∃ stop, zone.intervals.getLast?.map (·.stop) = some stop := by
  cases last_eq : zone.intervals.getLast? with
  | some last => exact ⟨last.stop, rfl⟩
  | none =>
      have start_eq := laidOut.contiguous.start_eq
      rw [List.getLast?_eq_none_iff.mp last_eq] at start_eq
      simp at start_eq

/-- Every lookup inside an explicit interval finds it. -/
theorem LaidOut.intervalAt_of_mem (laidOut : zone.LaidOut) {i : Interval}
    (member : i ∈ zone.intervals) (after : i.start ≤ instant) (before : instant < i.stop)
    : zone.intervalAt instant = .ok (some i) := by
  refine CompiledZone.intervalAt_of_mem laidOut.contiguous member after before
    fun tail tail_eq => ?_
  have := laidOut.contiguous.stop_le (laidOut.adjoining tail tail_eq) member
  omega

end CompiledZone

end CivilTime
