import CivilTime.Proofs.Zone.Boundaries
import CivilTime.Proofs.Zone.LocalTime

/-! Zones whose intervals last at least as long as the clock is moved at their ends.
Explicit intervals may take no time then, if the clock is not moved there. A range query lists
neighbours one after another, and whatever takes time in its list is found by lookups.
-/

namespace CivilTime

-----------------------------------------------------------------------------------------
-- Connected parts of a list
-----------------------------------------------------------------------------------------

/-- What passes a test that fails for good is a front part of the list, by induction on it. -/
theorem filter_isPrefix {α : Type} {test : α → Bool} {xs : List α}
    (fails : xs.Pairwise fun x y => test y = true → test x = true)
    : xs.filter test <+: xs := by
  induction xs with
  | nil => exact List.prefix_refl _
  | cons x rest ih =>
      obtain ⟨here, later⟩ := List.pairwise_cons.mp fails
      by_cases passed : test x = true
      · rw [List.filter_cons_of_pos passed]
        exact List.cons_prefix_cons.mpr ⟨rfl, ih later⟩
      · have none_left : rest.filter test = [] :=
          List.filter_eq_nil_iff.mpr fun y member => mt (here y member) passed
        rw [List.filter_cons_of_neg passed, none_left]
        exact List.nil_prefix

/-- What passes a test that holds for good is a back part of the list, by induction on it. -/
theorem filter_isSuffix {α : Type} {test : α → Bool} {xs : List α}
    (holds : xs.Pairwise fun x y => test x = true → test y = true)
    : xs.filter test <:+ xs := by
  induction xs with
  | nil => exact List.suffix_refl _
  | cons x rest ih =>
      obtain ⟨here, later⟩ := List.pairwise_cons.mp holds
      by_cases passed : test x = true
      · have kept : (x :: rest).filter test = x :: rest :=
          List.filter_eq_self.mpr
            (List.forall_mem_cons.mpr ⟨passed, fun y member => here y member passed⟩)
        exact ⟨[], kept⟩
      · rw [List.filter_cons_of_neg passed]
        exact (ih later).trans (List.suffix_cons x rest)

/-- Two intervals last at least as long as the clock is moved from one to the other. -/
def Interval.Spaced (i j : Interval) : Prop :=
  ((j.wallOffset - i.wallOffset).natAbs : Int) ≤ i.stop - i.start
  ∧ ((j.wallOffset - i.wallOffset).natAbs : Int) ≤ j.stop - j.start

namespace CompiledZone

/-- The explicit intervals come one behind the other from the beginning of time on, and the tail
comes behind them. An interval may take no time. -/
structure Seamless (zone : CompiledZone) : Prop where
  forward : ∀ i ∈ zone.intervals, i.start ≤ i.stop
  first : ∀ i ∈ zone.intervals.head?, i.start = beginningOfTime
  touching : zone.intervals.IsChain fun i j => i.stop = j.start
  adjoining
    : ∀ tail ∈ zone.tail,
        tail.start = (zone.intervals.getLast?.map (·.stop)).getD beginningOfTime

/-- One interval of a zone comes directly behind another one. -/
inductive Neighbours (zone : CompiledZone) : Interval → Interval → Prop where
  | explicit {front back : List Interval} {i j : Interval}
    (intervals_eq : zone.intervals = front ++ i :: j :: back)
    : Neighbours zone i j
  | entering {tail : Tail} {i j : Interval} (tail_eq : zone.tail = some tail)
    (last_eq : zone.intervals.getLast? = some i) (finds : zone.Finds tail.start j)
    : Neighbours zone i j
  | inTail {tail : Tail} {t u : Int} {i j : Interval} (tail_eq : zone.tail = some tail)
    (after : tail.start ≤ t) (finds : zone.Finds t i) (later : zone.Finds u j)
    (touching : i.stop = j.start)
    : Neighbours zone i j

/-- Every interval of a zone lasts at least as long as the clock is moved at either of its ends. -/
def Roomy (zone : CompiledZone) : Prop := ∀ i j, zone.Neighbours i j → i.Spaced j

/-- What a range query lists: neighbours one after another, with all that lookups in the range find.
Whatever takes time is found. -/
structure Window (zone : CompiledZone) (start stop : Int) (is : List Interval) : Prop where
  linked : is.IsChain fun i j => i.stop = j.start ∧ zone.Neighbours i j
  forward : ∀ i ∈ is, i.start ≤ i.stop
  overlaps : ∀ i ∈ is, i.start < stop ∧ start < i.stop
  found
    : ∀ i ∈ is, ∀ t,
        beginningOfTime ≤ t → t < endOfTime → i.start ≤ t → t < i.stop → zone.Finds t i
  complete : ∀ t i, start ≤ t → t < stop → zone.Finds t i → i ∈ is

variable {zone : CompiledZone} {i j : Interval} {start stop t : Int}

-----------------------------------------------------------------------------------------
-- Explicit intervals
-----------------------------------------------------------------------------------------

/-- Intervals that leave no gaps and take time have no seams. -/
theorem LaidOut.seamless (laidOut : zone.LaidOut) : zone.Seamless where
  forward i member := Int.le_of_lt (laidOut.contiguous.forward i member)
  first i head := by
    have start_eq := laidOut.contiguous.start_eq
    rw [Option.mem_def.mp head] at start_eq
    exact Option.some.inj start_eq
  touching := laidOut.contiguous.touching
  adjoining tail tail_eq := by
    rw [laidOut.adjoining tail tail_eq]
    rfl

/-- Explicit intervals come in the order of time. -/
theorem Seamless.ordered (seamless : zone.Seamless)
    : zone.intervals.Pairwise fun i j => i.stop ≤ j.start := by
  have linked : zone.intervals.IsChain fun i j => i.start ≤ i.stop ∧ i.stop ≤ j.start :=
    seamless.touching.imp_of_mem_imp fun i j member _ touching =>
      ⟨seamless.forward i member, Int.le_of_eq touching⟩
  have : Trans (fun i j : Interval => i.start ≤ i.stop ∧ i.stop ≤ j.start)
      (fun i j : Interval => i.start ≤ i.stop ∧ i.stop ≤ j.start)
      (fun i j : Interval => i.start ≤ i.stop ∧ i.stop ≤ j.start) :=
    ⟨fun _ _ => by omega⟩
  exact (List.isChain_iff_pairwise.mp linked).imp And.right

/-- No explicit interval starts in front of the beginning of time. -/
theorem Seamless.start_ge (seamless : zone.Seamless) (member : i ∈ zone.intervals)
    : beginningOfTime ≤ i.start := by
  have ordered := seamless.ordered
  obtain ⟨forward, first⟩ := And.intro seamless.forward seamless.first
  cases intervals_eq : zone.intervals with
  | nil => simp [intervals_eq] at member
  | cons j rest =>
      rw [intervals_eq] at member ordered forward first
      have start_eq := first j rfl
      have := forward j (by simp)
      rcases List.mem_cons.mp member with rfl | inside
      · omega
      · have := (List.pairwise_cons.mp ordered).1 i inside
        omega

/-- No explicit interval ends behind the last one. -/
theorem Seamless.stop_le (seamless : zone.Seamless)
    (last_eq : zone.intervals.getLast? = some j) (member : i ∈ zone.intervals)
    : i.stop ≤ j.stop := by
  have ordered := seamless.ordered
  have forward := seamless.forward j (List.mem_of_getLast? last_eq)
  obtain ⟨front, intervals_eq⟩ := List.getLast?_eq_some_iff.mp last_eq
  rw [intervals_eq] at member ordered
  rcases List.mem_append.mp member with inside | inside
  · have := (List.pairwise_append.mp ordered).2.2 i inside j (by simp)
    omega
  · rw [List.mem_singleton.mp inside]

/-- The tail starts where the last explicit interval ends. -/
theorem Seamless.tail_start (seamless : zone.Seamless) {tail : Tail}
    (tail_eq : zone.tail = some tail) (last_eq : zone.intervals.getLast? = some j)
    : tail.start = j.stop := by
  rw [seamless.adjoining tail tail_eq, last_eq]
  rfl

/-- Every lookup inside an explicit interval finds it. -/
theorem Seamless.finds_of_mem (seamless : zone.Seamless) (member : i ∈ zone.intervals)
    (in_time : t < endOfTime) (after : i.start ≤ t) (before : t < i.stop)
    : zone.Finds t i := by
  have from_first := seamless.start_ge member
  obtain ⟨front, back, intervals_eq⟩ := List.append_of_mem member
  obtain ⟨last, last_eq⟩ : ∃ last, zone.intervals.getLast? = some last :=
    Option.isSome_iff_exists.mp (by simp [intervals_eq])
  have ends := seamless.stop_le last_eq member
  have ordered := seamless.ordered
  rw [intervals_eq] at ordered
  obtain ⟨_, behind, across⟩ := List.pairwise_append.mp ordered
  have found : zone.explicitAt t = some i := by
    refine explicitAt_of_append front back intervals_eq (fun j inside => ?_) (fun j inside => ?_)
      before
    · rcases List.mem_append.mp inside with inside | inside
      · have := seamless.forward j (by simp [intervals_eq, inside])
        have := across j inside i (by simp)
        omega
      · rwa [List.mem_singleton.mp inside]
    · have := (List.pairwise_cons.mp behind).1 j inside
      omega
  have no_tail : zone.tailAt t = none := by
    rw [tailAt, Option.filter_eq_none_iff]
    intro tail tail_eq
    have := seamless.tail_start tail_eq last_eq
    simp only [decide_eq_true_eq]
    omega
  have stops : zone.intervals.getLast?.map (·.stop) = some last.stop := by
    rw [last_eq]
    rfl
  refine ⟨by omega, lt_coverageEnd stops (by omega) in_time, ?_⟩
  rw [intervalAt, no_tail, found]

/-- What is found in front of the tail is explicit. -/
theorem Seamless.mem_of_finds (seamless : zone.Seamless) (finds : zone.Finds t i)
    (in_time : t < endOfTime) (front : ∀ tail ∈ zone.tail, t < tail.start)
    : i ∈ zone.intervals ∧ i.start ≤ t ∧ t < i.stop := by
  have first := finds.after
  have covered := finds.covered
  cases last_eq : zone.intervals.getLast? with
  | none =>
      cases tail_eq : zone.tail with
      | none =>
          rw [coverageEnd, tail_eq, last_eq] at covered
          simp at covered
          omega
      | some tail =>
          have := front tail tail_eq
          rw [seamless.adjoining tail tail_eq, last_eq] at this
          simp at this
          omega
  | some last =>
      have stop_eq : zone.intervals.getLast?.map (·.stop) = some last.stop := by rw [last_eq]; rfl
      have before : t < last.stop := by
        cases tail_eq : zone.tail with
        | none => rwa [coverageEnd_of_none tail_eq stop_eq] at covered
        | some tail =>
            rw [← seamless.tail_start tail_eq last_eq]
            exact front tail tail_eq
      obtain ⟨head, head_eq⟩ : ∃ head, zone.intervals.head? = some head := by
        cases intervals_eq : zone.intervals with
        | nil => simp [intervals_eq] at last_eq
        | cons head rest => exact ⟨head, rfl⟩
      have start_eq : zone.intervals.head?.map (·.start) = some beginningOfTime := by
        rw [head_eq, Option.map_some, seamless.first head head_eq]
      obtain ⟨k, member, contains⟩ :=
        exists_interval_of_chain seamless.touching start_eq stop_eq first before
      have also := seamless.finds_of_mem member in_time contains.1 contains.2
      rw [finds.unique also]
      exact ⟨member, contains⟩

/-- The explicit intervals of a range are a connected part of all of them, which reaches up to the
last one if the range does. -/
theorem Seamless.explicitIn_infix (seamless : zone.Seamless) (start stop : Int)
    : zone.explicitIn start stop <:+: zone.intervals
      ∧ ((∀ i ∈ zone.intervals, i.start < stop)
        → zone.explicitIn start stop <:+ zone.intervals) := by
  have reaching : zone.intervals.filter (start < ·.stop) <:+ zone.intervals := by
    refine filter_isSuffix (seamless.ordered.imp_of_mem fun {i j} _ member apart passed => ?_)
    have := seamless.forward j member
    simp only [decide_eq_true_eq] at passed ⊢
    omega
  have explicit_eq
      : zone.explicitIn start stop
        = (zone.intervals.filter (start < ·.stop)).filter (·.start < stop) := by
    rw [List.filter_filter]
    rfl
  rw [explicit_eq]
  constructor
  · have begun
        : (zone.intervals.filter (start < ·.stop)).filter (·.start < stop)
          <+: zone.intervals.filter (start < ·.stop) := by
      refine filter_isPrefix ((seamless.ordered.filter _).imp_of_mem
        fun {i j} member _ apart passed => ?_)
      have := seamless.forward i (List.mem_filter.mp member).1
      simp only [decide_eq_true_eq] at passed ⊢
      omega
    exact begun.isInfix.trans reaching.isInfix
  · intro all
    rw [List.filter_eq_self.mpr fun i member => by
      simpa using all i (List.mem_filter.mp member).1]
    exact reaching

/-- The explicit intervals of a range are neighbours one after another. -/
theorem Seamless.explicitIn_linked (seamless : zone.Seamless) (start stop : Int)
    : (zone.explicitIn start stop).IsChain fun i j => i.stop = j.start ∧ zone.Neighbours i j := by
  have linked : zone.intervals.IsChain fun i j => i.stop = j.start ∧ zone.Neighbours i j :=
    List.isChain_iff_forall_rel_of_append_cons_cons.mpr fun _ _ _ _ intervals_eq =>
      ⟨List.isChain_iff_forall_rel_of_append_cons_cons.mp seamless.touching intervals_eq,
        .explicit intervals_eq⟩
  exact linked.infix (seamless.explicitIn_infix start stop).1

-----------------------------------------------------------------------------------------
-- The intervals of a range
-----------------------------------------------------------------------------------------

/-- What a tail lists from a cursor on begins with what it shows there. -/
theorem tailIn_head {tail : Tail} {cursor : Int} {is : List Interval}
    (followed : tailIn tail cursor stop = .ok is) (head : i ∈ is.head?)
    : cursor < stop ∧ tail.intervalAt cursor = .ok i := by
  rw [tailIn] at followed
  split at followed
  · rename_i before
    refine ⟨before, ?_⟩
    split at followed
    · simp at followed
    · rename_i interval shown
      split at followed
      · obtain ⟨rest, _, rfl⟩ := map_eq_ok.mp followed
        rw [shown, Option.some.inj head]
      · obtain rfl := Except.ok.inj followed
        rw [shown, Option.some.inj head]
  · obtain rfl := Except.ok.inj followed
    simp at head

/-- The intervals that the tail lists are neighbours one after another. -/
theorem Lists.linked {tail : Tail} {is : List Interval} (lists : zone.Lists start stop is)
    (consistent : zone.Consistent) (tail_eq : zone.tail = some tail) (after : tail.start ≤ start)
    : is.IsChain fun i j => i.stop = j.start ∧ zone.Neighbours i j := by
  refine List.isChain_iff_forall_rel_of_append_cons_cons.mpr fun i j front back is_eq => ?_
  have touching := List.isChain_iff_forall_rel_of_append_cons_cons.mp (lists.touching consistent)
    is_eq
  obtain ⟨t, from_start, _, finds⟩ := lists.found i (by simp [is_eq])
  obtain ⟨u, _, _, later⟩ := lists.found j (by simp [is_eq])
  exact ⟨touching, .inTail tail_eq (by omega) finds later touching⟩

/-- Intervals that are found take time. -/
theorem Lists.forward {is : List Interval} (lists : zone.Lists start stop is)
    (consistent : zone.Consistent) (member : i ∈ is)
    : i.start < i.stop := by
  obtain ⟨t, _, _, finds⟩ := lists.found i member
  have := finds.contains consistent
  omega

/-- What a lookup in front of the tail finds is listed with the explicit intervals of its range. -/
theorem Seamless.mem_explicitIn (seamless : zone.Seamless) (finds : zone.Finds t i)
    (after : start ≤ t) (before : t < stop) (in_time : stop ≤ endOfTime)
    (front : ∀ tail ∈ zone.tail, t < tail.start)
    : i ∈ zone.explicitIn start stop := by
  obtain ⟨member, contains⟩ := seamless.mem_of_finds finds (by omega) front
  refine List.mem_filter.mpr ⟨member, ?_⟩
  simp only [Bool.and_eq_true, decide_eq_true_eq]
  omega

/-- The first interval of the tail comes behind the last explicit one of a range. -/
theorem Seamless.linked_entering (seamless : zone.Seamless) (consistent : zone.Consistent)
    {tail : Tail} (tail_eq : zone.tail = some tail) (first : beginningOfTime ≤ start)
    (in_time : stop ≤ endOfTime) {js : List Interval}
    (followed : tailIn tail (max start tail.start) stop = .ok js)
    (last : i ∈ (zone.explicitIn start stop).getLast?) (head : j ∈ js.head?)
    : i.stop = j.start ∧ zone.Neighbours i j := by
  obtain ⟨before, shown⟩ := tailIn_head followed head
  have member := List.mem_of_getLast? last
  have explicit := (List.mem_filter.mp member).2
  simp only [Bool.and_eq_true, decide_eq_true_eq] at explicit
  have last_eq : zone.intervals.getLast? = some i := by
    obtain ⟨end_interval, end_eq⟩ : ∃ k, zone.intervals.getLast? = some k :=
      Option.isSome_iff_exists.mp
        (by simpa using List.ne_nil_of_mem (List.mem_filter.mp member).1)
    have start_eq := seamless.tail_start tail_eq end_eq
    obtain ⟨front, intervals_eq⟩ := (seamless.explicitIn_infix start stop).2 fun k inside => by
      have := seamless.forward k inside
      have := seamless.stop_le end_eq inside
      omega
    rw [← intervals_eq, List.getLast?_append, Option.mem_def.mp last]
    rfl
  have start_eq := seamless.tail_start tail_eq last_eq
  rw [show max start tail.start = tail.start by omega] at before shown
  have finds : zone.Finds tail.start j := by
    refine ⟨by omega, by rw [coverageEnd_of_tail tail_eq]; omega, ?_⟩
    rw [intervalAt_of_tail tail_eq (Int.le_refl _), shown]
    rfl
  have contains := finds.contains consistent
  have bounds := Tail.bounds_of_intervalAt shown
  exact ⟨by omega, .entering tail_eq last_eq finds⟩

/-- A range query in a zone without seams succeeds and lists neighbours one after another. -/
theorem Seamless.intervalsIn_window (seamless : zone.Seamless) (consistent : zone.Consistent)
    (first : beginningOfTime ≤ start) (in_time : stop ≤ endOfTime)
    : ∃ is, zone.intervalsIn start stop = .ok is ∧ zone.Window start stop is := by
  have explicit_forward (i : Interval) (member : i ∈ zone.explicitIn start stop)
      : i.start ≤ i.stop :=
    seamless.forward i (List.mem_filter.mp member).1
  have explicit_overlaps (i : Interval) (member : i ∈ zone.explicitIn start stop)
      : i.start < stop ∧ start < i.stop := by
    simpa using (List.mem_filter.mp member).2
  have explicit_found (i : Interval) (member : i ∈ zone.explicitIn start stop) (t : Int)
      (_ : beginningOfTime ≤ t) (before : t < endOfTime) (after : i.start ≤ t) (inside : t < i.stop)
      : zone.Finds t i :=
    seamless.finds_of_mem (List.mem_filter.mp member).1 before after inside
  cases tail_eq : zone.tail with
  | none =>
      refine ⟨zone.explicitIn start stop, by simp only [intervalsIn, tail_eq],
        seamless.explicitIn_linked start stop, explicit_forward, explicit_overlaps, explicit_found,
        ?_⟩
      intro t i after before finds
      exact seamless.mem_explicitIn finds after before in_time (by simp [tail_eq])
  | some tail =>
      obtain ⟨js, followed, lists⟩ := consistent.tailIn_lists tail_eq in_time
        (show beginningOfTime ≤ max start tail.start by omega) (by omega)
      refine ⟨zone.explicitIn start stop ++ js, by simp only [intervalsIn, tail_eq, followed]; rfl,
        (seamless.explicitIn_linked start stop).append
          (lists.linked consistent tail_eq (by omega)) fun i last j head =>
            seamless.linked_entering consistent tail_eq first in_time followed last head,
        fun i member => ?_, fun i member => ?_, fun i member t early late after inside => ?_,
        fun t i after before finds => ?_⟩
      · rcases List.mem_append.mp member with member | member
        · exact explicit_forward i member
        · exact Int.le_of_lt (lists.forward consistent member)
      · rcases List.mem_append.mp member with member | member
        · exact explicit_overlaps i member
        · obtain ⟨t, after, before, finds⟩ := lists.found i member
          have := finds.contains consistent
          omega
      · rcases List.mem_append.mp member with member | member
        · exact explicit_found i member t early late after inside
        · obtain ⟨u, _, _, finds⟩ := lists.found i member
          exact ⟨early, by rwa [coverageEnd_of_tail tail_eq], finds.inside consistent after inside⟩
      · rcases Int.lt_or_le t tail.start with front | behind
        · refine List.mem_append_left js
            (seamless.mem_explicitIn finds after before in_time fun other other_eq => ?_)
          obtain rfl := Option.some.inj (tail_eq.symm.trans other_eq)
          exact front
        · exact List.mem_append_right _ (lists.complete t i (by omega) before finds)

end CompiledZone

-----------------------------------------------------------------------------------------
-- The readings of neighbours
-----------------------------------------------------------------------------------------

/-- One interval comes in front of another one, and so do the readings at its ends. -/
structure Interval.ReadsBefore (i j : Interval) : Prop where
  stop_le : i.stop ≤ j.start
  starts : i.start + i.wallOffset ≤ j.start + j.wallOffset
  stops : i.stop + i.wallOffset ≤ j.stop + j.wallOffset

/-- Between two touching intervals of a list the clock is set forward over a reading. -/
structure Jumps (is : List Interval) (reading : Int) (i j : Interval) : Prop where
  left_mem : i ∈ is
  right_mem : j ∈ is
  touching : i.stop = j.start
  passed : i.stop + i.wallOffset ≤ reading
  not_reached : reading < j.start + j.wallOffset

namespace CompiledZone

variable {zone : CompiledZone} {i j k : Interval} {is : List Interval} {start stop reading t : Int}

/-- Where the intervals last as long as the clock is moved at their ends, the readings come in the
order of the intervals. -/
theorem Window.reads_before (window : zone.Window start stop is) (roomy : zone.Roomy)
    : is.Pairwise Interval.ReadsBefore := by
  have linked : is.IsChain fun i j =>
      i.ReadsBefore j ∧ i.start ≤ i.stop ∧ j.start ≤ j.stop := by
    refine window.linked.imp_of_mem_imp fun i j i_member j_member ⟨touching, neighbours⟩ => ?_
    have spaced := roomy i j neighbours
    unfold Interval.Spaced at spaced
    exact ⟨⟨by omega, by omega, by omega⟩, window.forward i i_member, window.forward j j_member⟩
  have : Trans (fun i j : Interval => i.ReadsBefore j ∧ i.start ≤ i.stop ∧ j.start ≤ j.stop)
      (fun i j : Interval => i.ReadsBefore j ∧ i.start ≤ i.stop ∧ j.start ≤ j.stop)
      (fun i j : Interval => i.ReadsBefore j ∧ i.start ≤ i.stop ∧ j.start ≤ j.stop) := by
    refine ⟨fun ⟨left, left_forward⟩ ⟨right, right_forward⟩ =>
      ⟨⟨?_, left.starts.trans right.starts, left.stops.trans right.stops⟩, left_forward.1,
        right_forward.2⟩⟩
    have := left.stop_le
    have := right.stop_le
    omega
  exact (List.isChain_iff_pairwise.mp linked).imp And.left

/-- Of two intervals that a range query lists, one comes in front of the other, unless they are the
same. -/
theorem Window.compare (window : zone.Window start stop is) (roomy : zone.Roomy)
    (i_member : i ∈ is) (j_member : j ∈ is)
    : i = j ∨ i.ReadsBefore j ∨ j.ReadsBefore i := by
  have : Std.Symm fun i j : Interval => i.ReadsBefore j ∨ j.ReadsBefore i := ⟨fun _ _ => Or.symm⟩
  have pairs : is.Pairwise fun i j => i.ReadsBefore j ∨ j.ReadsBefore i :=
    (window.reads_before roomy).imp .inl
  by_cases same : i = j
  · exact .inl same
  · exact .inr (List.Pairwise.forall pairs i_member j_member same)

/-- The clock is set forward over a reading at one instant only. -/
theorem Window.jumps_once (window : zone.Window start stop is) (roomy : zone.Roomy)
    {before after : Interval} (jumps : Jumps is reading i j)
    (also : Jumps is reading before after)
    : j.start = after.start := by
  have forward (k : Interval) (member : k ∈ is) := window.forward k member
  have le {i j before after : Interval} (jumps : Jumps is reading i j)
      (also : Jumps is reading before after)
      : j.start ≤ after.start := by
    obtain ⟨i_member, _, touching, passed, _⟩ := jumps
    obtain ⟨_, after_member, _, _, not_reached⟩ := also
    have := window.forward i i_member
    rcases window.compare roomy i_member after_member with rfl | front | behind
    · omega
    · have := front.stop_le
      omega
    · have := behind.starts
      omega
  exact Int.le_antisymm (le jumps also) (le also jumps)

/-- A reading that the clock is set forward over is never shown. -/
theorem Window.not_shown (window : zone.Window start stop is) (roomy : zone.Roomy)
    (jumps : Jumps is reading i j) (member : k ∈ is)
    : ¬ (k.start ≤ reading - k.wallOffset ∧ reading - k.wallOffset < k.stop) := by
  rintro ⟨after, before⟩
  obtain ⟨i_member, j_member, touching, passed, not_reached⟩ := jumps
  -- The interval would have to lie between the two neighbours.
  have behind_left : i.stop ≤ k.start := by
    rcases window.compare roomy i_member member with rfl | front | behind
    · omega
    · exact front.stop_le
    · have := behind.stops
      omega
  rcases window.compare roomy member j_member with rfl | front | behind
  · omega
  · have := front.stop_le
    omega
  · have := behind.starts
    omega

-----------------------------------------------------------------------------------------
-- The intervals around a reading
-----------------------------------------------------------------------------------------

/-- What is known of the intervals around a reading in a zone whose intervals last as long as the
clock is moved at their ends. -/
structure Surrounds (zone : CompiledZone) (reading : Int) (is : List Interval) : Prop
    extends zone.Window (reading - 172800) (reading + 172800) is where
  roomy : zone.Roomy
  offsets : zone.ShortOffsets
  first : beginningOfTime + 345600 < reading
  in_time : reading < endOfTime - 345600

/-- An interval that takes time is found within it, so its wall offset is short. -/
theorem Surrounds.short (surrounds : zone.Surrounds reading is) (member : i ∈ is)
    (forward : i.start < i.stop)
    : -172800 < i.wallOffset ∧ i.wallOffset < 172800 := by
  have first := surrounds.first
  have in_time := surrounds.in_time
  have overlaps := surrounds.overlaps i member
  exact surrounds.offsets (max i.start (reading - 172800)) i
    (surrounds.found i member _ (by omega) (by omega) (by omega) (by omega))

/-- An interval that shows a reading is found where it shows it. -/
theorem Surrounds.finds (surrounds : zone.Surrounds reading is) (member : i ∈ is)
    (shown : i.containsLocal reading = true)
    : i.start ≤ reading - i.wallOffset
      ∧ reading - i.wallOffset < i.stop
      ∧ zone.Finds (reading - i.wallOffset) i := by
  have first := surrounds.first
  have in_time := surrounds.in_time
  obtain ⟨after, before⟩ := (Interval.containsLocal_iff (by omega) (by omega)).mp shown
  have short := surrounds.short member (by omega)
  exact ⟨after, before, surrounds.found i member _ (by omega) (by omega) after before⟩

/-- A gap that is found is one of two listed neighbours. -/
theorem Surrounds.jumps_of_gapIn? (surrounds : zone.Surrounds reading is) {gap : LocalGap}
    (found : gapIn? reading is = some gap)
    : ∃ i j,
        Jumps is reading i j
        ∧ i.Spaced j
        ∧ gap = { before := i.wallOffset, after := j.wallOffset, instant := j.start } := by
  have first := surrounds.first
  have in_time := surrounds.in_time
  obtain ⟨front, i, j, back, is_eq, between⟩ := gapIn?_some found
  obtain ⟨touching, neighbours⟩ :=
    List.isChain_iff_forall_rel_of_append_cons_cons.mp surrounds.linked is_eq
  unfold gapBetween? at between
  split at between
  · rename_i skipped
    simp only [Bool.and_eq_true, decide_eq_true_eq] at skipped
    have passed := (Interval.localStop_le_iff (by omega) (by omega)).mp skipped.1
    have not_reached : ¬ j.start + j.wallOffset ≤ reading := by
      rw [← Interval.localStart_le_iff (by omega) (by omega)]
      omega
    exact ⟨i, j, ⟨by simp [is_eq], by simp [is_eq], touching, passed, Int.not_le.mp not_reached⟩,
      surrounds.roomy i j neighbours, (Option.some.inj between).symm⟩
  · simp at between

/-- A gap of the zone that a reading falls into is one of two listed neighbours. -/
theorem Surrounds.jumps_of_skips (surrounds : zone.Surrounds reading is) {gap : LocalGap}
    (skips : zone.Skips reading gap i j)
    : Jumps is reading i j ∧ j.start = gap.instant := by
  have left_short := surrounds.offsets _ i skips.found_before
  have right_short := surrounds.offsets _ j skips.found_after
  obtain ⟨found_before, found_after, stop_eq, start_eq, before_eq, after_eq, passed, not_reached⟩ :=
    skips
  exact ⟨⟨surrounds.complete _ i (by omega) (by omega) found_before,
    surrounds.complete _ j (by omega) (by omega) found_after, by omega, by omega, by omega⟩,
    start_eq⟩

/-- The lookup of a reading far from the ends of time is decided by the intervals around it. -/
theorem Seamless.intervalsForLocal_eq (seamless : zone.Seamless) (consistent : zone.Consistent)
    (roomy : zone.Roomy) (offsets : zone.ShortOffsets) (first : beginningOfTime + 345600 < reading)
    (in_time : reading < endOfTime - 345600)
    : ∃ is,
        zone.intervalsForLocal reading = .ok (localIntervals? reading is)
        ∧ zone.Surrounds reading is := by
  have window_start : Instant.saturate (reading - localWindow) = reading - 172800 :=
    Instant.saturate_eq (show beginningOfTime ≤ reading - 172800 by omega)
      (show reading - 172800 ≤ endOfTime by omega)
  have window_stop : Instant.saturate (reading + localWindow) = reading + 172800 :=
    Instant.saturate_eq (show beginningOfTime ≤ reading + 172800 by omega)
      (show reading + 172800 ≤ endOfTime by omega)
  obtain ⟨is, listed, window⟩ := seamless.intervalsIn_window consistent
    (show beginningOfTime ≤ reading - 172800 by omega)
    (show reading + 172800 ≤ endOfTime by omega)
  refine ⟨is, ?_, { window with roomy, offsets, first, in_time }⟩
  rw [intervalsForLocal, window_start, window_stop, listed]
  rfl

end CompiledZone

end CivilTime
