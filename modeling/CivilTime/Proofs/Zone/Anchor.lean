import CivilTime.Proofs.Rule.Restart
import CivilTime.Proofs.Rule.State
import CivilTime.Proofs.Zone.Walk

/-! An anchor at the start of a year takes the state of the last change before it.
The last change is looked for with no saved time, whatever saved time the changes were computed
with. Where no change trades its side of the start of a year with the saved time, the state is the
one that the changes of the tail have led to.
-/

namespace CivilTime

open Recurrence (Precedes)

/-- An instant of the representable range is left as it is. -/
theorem Instant.saturate_eq {t : Int} (low : beginningOfTime ≤ t) (high : t ≤ endOfTime)
    : Instant.saturate t = t := by
  rw [saturate, if_neg (by omega), if_neg (by omega)]

namespace Recurrence

/-- The state that the changes of a recurrence lead to. -/
def state (r : Recurrence) : RuleState := { savings := r.savings, letter := r.letter }

variable {r : Recurrence} {stdOffset : Int}

/-- The instant of the last change up to an instant, computed with no saved time. -/
def LastUpTo (r : Recurrence) (stdOffset instant : Int) : Option Int → Prop
  | none => ∀ year, r.AppliesTo year → instant < r.instantIn year stdOffset 0
  | some last =>
    last ≤ instant
    ∧ ∃ year,
        r.AppliesTo year
        ∧ last = r.instantIn year stdOffset 0
        ∧ ∀ other, r.AppliesTo other → r.instantIn other stdOffset 0 ≤ instant → other ≤ year

/-- The start of a supported year and the second behind it are representable. -/
theorem saturate_yearStart {year : Int} (first : Calendar.minYear ≤ year)
    (last : year ≤ Calendar.maxYear)
    : Instant.saturate (Calendar.yearStartSeconds year + 1)
      = Calendar.yearStartSeconds year + 1 := by
  have low := Calendar.yearStartSeconds_gap first
  have high := Calendar.yearStartSeconds_gap last
  have bounds
      : beginningOfTime ≤ Calendar.yearStartSeconds Calendar.minYear
        ∧ Calendar.yearStartSeconds Calendar.maxYear < endOfTime := by
    decide
  exact Instant.saturate_eq (by omega) (by omega)

/-- A search backward from the start of a year finds the last change up to it. The years that it
leaves out have their changes behind the start of the year. -/
theorem previous_yearStart (day : r.DayInMonth) (near : r.NearMidnight stdOffset 0)
    (unbounded : r.isUnbounded = true) {year : Int} (first : Calendar.minYear < year)
    (last : year ≤ Calendar.maxYear)
    : ∃ found,
        r.previous (Instant.saturate (Calendar.yearStartSeconds year + 1)) stdOffset 0 = .ok found
        ∧ r.LastUpTo stdOffset (Calendar.yearStartSeconds year) found := by
  rw [saturate_yearStart (Int.le_of_lt first) last]
  have supported := Calendar.yearStartSeconds_gap (Int.le_of_lt first)
  have reached : year ≤ Calendar.yearOf (Calendar.yearStartSeconds year + 1) :=
    (Calendar.le_yearOf_iff first last).mpr (by omega)
  have behind_first
      : Calendar.yearStartSeconds Calendar.minYear ≤ Calendar.yearStartSeconds year + 1 := by
    omega
  obtain ⟨found, outcome⟩ := previous_ok day (Int.le_trans near.2 (by decide)) behind_first
  refine ⟨found, outcome, ?_⟩
  obtain ⟨start, searched, same⟩ := previous_eq r stdOffset 0
    (Calendar.yearStartSeconds year + 1)
  rw [same] at outcome
  have in_front (other : Int)
      (le : r.instantIn other stdOffset 0 ≤ Calendar.yearStartSeconds year)
      : other ≤ year := by
    have behind := yearStart_lt_instantIn day near other
    have := Calendar.lt_of_yearStartSeconds_lt (Int.lt_of_lt_of_le behind le)
    omega
  have covered (other : Int) (le : other ≤ Calendar.yearOf (Calendar.yearStartSeconds year + 1) + 1)
      : other ≤ start :=
    (searched other).mpr ⟨le, endsBefore_of_isUnbounded unbounded other⟩
  cases found with
  | none =>
      intro other applies
      rcases Int.lt_or_le (Calendar.yearStartSeconds year) (r.instantIn other stdOffset 0)
        with lt | le
      · exact lt
      · have := in_front other le
        have := searchBackward_none outcome (covered other (by omega)) applies.1
        omega
  | some v =>
      obtain ⟨found, below, from_first, v_eq, lt, later⟩ := searchBackward_some outcome
      have up_to : v ≤ Calendar.yearStartSeconds year := by omega
      have below_year := in_front found (by omega)
      have enumerated : Calendar.minYear - 1 ≤ found := by
        rcases Int.lt_or_le found (Calendar.minYear - 1) with early | le
        · have next := later (found + 1) (by omega) (covered _ (by omega))
          have front := instantIn_lt_yearStart day near.2 (found + 1)
          have : year < found + 1 + 2 := Calendar.lt_of_yearStartSeconds_lt (by omega)
          omega
        · exact le
      refine ⟨up_to, found, ⟨from_first, enumerated,
        endsBefore_of_isUnbounded unbounded found, by omega⟩, v_eq, fun other _ le => ?_⟩
      rcases Int.lt_or_le found other with behind | le'
      · have := in_front other le
        have := later other behind (covered other (by omega))
        omega
      · exact le'

end Recurrence

namespace Tail

variable {tail : Tail} {stdOffset instant : Int}

-----------------------------------------------------------------------------------------
-- The last change of all recurrences
-----------------------------------------------------------------------------------------

/-- The search of a recurrence for its last change up to an instant. -/
def lastChange (stdOffset instant : Int) (r : Recurrence) : Except Fault (Option Int) :=
  r.previous (Instant.saturate (instant + 1)) stdOffset 0

/-- The last change of the recurrences is found if the searches for theirs are, by induction on the
recurrences. -/
theorem latestUpTo_exists {rs : List Recurrence} (latest : Option (Int × Recurrence))
    (searched : ∀ r ∈ rs, ∃ found, lastChange stdOffset instant r = .ok found)
    : ∃ out, latestUpTo stdOffset instant rs latest = .ok out := by
  induction rs generalizing latest with
  | nil => exact ⟨latest, rfl⟩
  | cons r rest ih =>
      obtain ⟨⟨found, here⟩, others⟩ := List.forall_mem_cons.mp searched
      obtain ⟨out, later⟩ := ih (laterOf latest r found) others
      exact ⟨out, bind_eq_ok.mpr ⟨found, here, later⟩⟩

/-- The last change of the recurrences is not found only where a search fails, by induction on the
recurrences. -/
theorem latestUpTo_error {rs : List Recurrence} {latest : Option (Int × Recurrence)}
    {fault : Fault} (failed : latestUpTo stdOffset instant rs latest = .error fault)
    : ∃ r ∈ rs, lastChange stdOffset instant r = .error fault := by
  induction rs generalizing latest with
  | nil => simp [latestUpTo] at failed
  | cons r rest ih =>
      rcases bind_eq_error.mp failed with here | ⟨found, _, failed⟩
      · exact ⟨r, by simp, here⟩
      · obtain ⟨q, member, later⟩ := ih failed
        exact ⟨q, List.mem_cons_of_mem _ member, later⟩

/-- The later of two changes is one of them. -/
theorem laterOf_mem (latest : Option (Int × Recurrence)) (r : Recurrence) (found : Option Int)
    : laterOf latest r found = latest
      ∨ ∃ v, found = some v ∧ laterOf latest r found = some (v, r) := by
  cases found with
  | none => exact .inl rfl
  | some v =>
      cases latest with
      | none => exact .inr ⟨v, rfl, rfl⟩
      | some best =>
          simp only [laterOf]
          split
          · exact .inr ⟨v, rfl, rfl⟩
          · exact .inl rfl

/-- A change comes no later than the last one of all. -/
def NotBehind (v : Int) (latest : Option (Int × Recurrence)) : Prop :=
  ∃ w q, latest = some (w, q) ∧ v ≤ w

/-- The later of two changes lies behind neither of them. -/
theorem notBehind_laterOf {latest : Option (Int × Recurrence)} {r : Recurrence}
    {found : Option Int} {v : Int} (one : NotBehind v latest ∨ found = some v)
    : NotBehind v (laterOf latest r found) := by
  cases found with
  | none =>
      rcases one with before | same
      · exact before
      · simp at same
  | some u =>
      cases latest with
      | none =>
          rcases one with ⟨w, q, same, _⟩ | same
          · simp at same
          · obtain rfl := Option.some.inj same
            exact ⟨u, r, rfl, Int.le_refl _⟩
      | some best =>
          obtain ⟨w, q⟩ := best
          simp only [laterOf]
          rcases one with ⟨w', q', same, le⟩ | same
          · obtain ⟨rfl, rfl⟩ := Prod.mk.inj (Option.some.inj same)
            split
            · exact ⟨u, r, rfl, by omega⟩
            · exact ⟨w, q, rfl, le⟩
          · obtain rfl := Option.some.inj same
            split
            · exact ⟨u, r, rfl, Int.le_refl _⟩
            · exact ⟨w, q, rfl, by omega⟩

/-- What is found to be the last change of the recurrences is one of theirs, and none lies behind
it. The proof is by induction on the recurrences. -/
theorem latestUpTo_ok {rs : List Recurrence} {latest out : Option (Int × Recurrence)}
    (found : latestUpTo stdOffset instant rs latest = .ok out)
    : (out = latest
        ∨ ∃ r ∈ rs, ∃ v, lastChange stdOffset instant r = .ok (some v) ∧ out = some (v, r))
      ∧ (∀ v, NotBehind v latest → NotBehind v out)
      ∧ ∀ r ∈ rs, ∀ v, lastChange stdOffset instant r = .ok (some v) → NotBehind v out := by
  induction rs generalizing latest with
  | nil =>
      simp only [latestUpTo, Except.ok.injEq] at found
      subst found
      exact ⟨.inl rfl, fun v before => before, by simp⟩
  | cons r rest ih =>
      obtain ⟨last, here, found⟩ := bind_eq_ok.mp found
      obtain ⟨origin, from_latest, from_rest⟩ := ih found
      refine ⟨?_, fun v before => from_latest v (notBehind_laterOf (.inl before)), ?_⟩
      · rcases origin with same | ⟨q, member, v, searched, same⟩
        · rcases laterOf_mem latest r last with old | ⟨v, rfl, new⟩
          · exact .inl (same.trans old)
          · exact .inr ⟨r, by simp, v, here, same.trans new⟩
        · exact .inr ⟨q, List.mem_cons_of_mem _ member, v, searched, same⟩
      · refine List.forall_mem_cons.mpr ⟨fun v searched => ?_, from_rest⟩
        rw [lastChange, here, Except.ok.injEq] at searched
        exact from_latest v (notBehind_laterOf (.inr searched))

-----------------------------------------------------------------------------------------
-- The anchor of a year
-----------------------------------------------------------------------------------------

/-- The start of a tail is an anchor at a boundary. -/
theorem startAnchor_ok (applicable : tail.format.isApplicable = true)
    : tail.startAnchor
      = .ok
          { cursor := tail.start
            savings := tail.initialSavings
            name := tail.format.fill tail.stdOffset tail.initialSavings tail.initialLetter
            atBoundary := true } := by
  refine bind_eq_ok.mpr ⟨_, NameFormat.apply_eq_ok.mpr ⟨applicable, rfl⟩, rfl⟩

/-- An anchor is the start of the tail, or the start of its year with the state of the last change
before it. -/
theorem anchorAt_ok {year : Int} {anchor : Anchor} (anchored : tail.anchorAt year = .ok anchor)
    : (anchor.cursor = tail.start
        ∧ anchor.atBoundary = true
        ∧ anchor.savings = tail.initialSavings
        ∧ anchor.clock tail.stdOffset = tail.shows tail.initialState)
      ∨ ∃ v, ∃ r ∈ tail.rules.recurrences,
          tail.start < Calendar.yearStartSeconds year
          ∧ latestUpTo tail.stdOffset (Calendar.yearStartSeconds year) tail.rules.recurrences none
            = .ok (some (v, r))
          ∧ anchor.cursor = Calendar.yearStartSeconds year
          ∧ anchor.atBoundary = false
          ∧ anchor.savings = r.savings
          ∧ anchor.clock tail.stdOffset = tail.shows r.state := by
  have of_start (started : tail.startAnchor = .ok anchor)
      : anchor.cursor = tail.start
        ∧ anchor.atBoundary = true
        ∧ anchor.savings = tail.initialSavings
        ∧ anchor.clock tail.stdOffset = tail.shows tail.initialState := by
    obtain ⟨name, named, started⟩ := bind_eq_ok.mp started
    obtain rfl := pure_eq_ok.mp started
    obtain ⟨_, rfl⟩ := NameFormat.apply_eq_ok.mp named
    exact ⟨rfl, rfl, rfl, rfl⟩
  unfold anchorAt at anchored
  dsimp only at anchored
  split at anchored
  · exact .inl (of_start anchored)
  · rename_i behind
    obtain ⟨latest, found, anchored⟩ := bind_eq_ok.mp anchored
    cases latest with
    | none => exact .inl (of_start anchored)
    | some best =>
        obtain ⟨v, r⟩ := best
        obtain ⟨name, named, anchored⟩ := bind_eq_ok.mp anchored
        obtain rfl := pure_eq_ok.mp anchored
        obtain ⟨_, rfl⟩ := NameFormat.apply_eq_ok.mp named
        rcases (latestUpTo_ok found).1 with same | ⟨q, member, w, _, same⟩
        · simp at same
        · obtain ⟨rfl, rfl⟩ := Prod.mk.inj (Option.some.inj same)
          exact .inr ⟨v, r, member, by omega, found, rfl, rfl, rfl, rfl⟩

/-- An anchor is not found only where the search for a last change fails. -/
theorem anchorAt_error {year : Int} {fault : Fault}
    (applicable : tail.format.isApplicable = true)
    (failed : tail.anchorAt year = .error fault)
    : tail.start < Calendar.yearStartSeconds year
      ∧ ∃ r ∈ tail.rules.recurrences,
          lastChange tail.stdOffset (Calendar.yearStartSeconds year) r = .error fault := by
  have never_fails : tail.startAnchor ≠ .error fault := by
    rw [startAnchor_ok applicable]
    simp
  unfold anchorAt at failed
  dsimp only at failed
  split at failed
  · exact absurd failed never_fails
  · rename_i behind
    refine ⟨by omega, ?_⟩
    rcases bind_eq_error.mp failed with failed | ⟨latest, _, failed⟩
    · exact latestUpTo_error failed
    · cases latest with
      | none => exact absurd failed never_fails
      | some best =>
          rcases bind_eq_error.mp failed with failed | ⟨name, _, failed⟩
          · simp [nameFor, NameFormat.apply, applicable] at failed
          · exact absurd failed pure_ne_error

-----------------------------------------------------------------------------------------
-- The anchors of a regular tail
-----------------------------------------------------------------------------------------

/-- A tail whose recurrences all go on forever, that starts with a change of one of them, and whose
changes keep their order and their sides of the starts of years whatever saved time they are
computed with. -/
structure Regular (tail : Tail) : Prop where
  unbounded : ∀ r ∈ tail.rules.recurrences, r.isUnbounded = true
  supported : Calendar.yearStartSeconds Calendar.minYear ≤ tail.start
  starts
    : ∃ r ∈ tail.rules.recurrences, ∃ year savings,
        r.firstYear ≤ year
        ∧ tail.rules.SavesAmount savings
        ∧ tail.start = r.instantIn year tail.stdOffset savings
        ∧ tail.initialState = r.state
  steady : tail.rules.Steady tail.stdOffset tail.rules.SavesAmount
  sides
    : ∀ year,
        tail.rules.KeepsSides tail.stdOffset tail.rules.SavesAmount
          (Calendar.yearStartSeconds year)
  applicable : tail.format.isApplicable = true

/-- The saved time at the start of a regular tail is that of a recurrence. -/
theorem Regular.savesAmount (regular : tail.Regular)
    : tail.rules.SavesAmount tail.initialSavings := by
  obtain ⟨r, member, _, _, _, _, _, state_eq⟩ := regular.starts
  exact .inr ⟨r, member, congrArg RuleState.savings state_eq⟩

/-- The stream of a regular tail is steady. -/
theorem Regular.stream_steady (regular : tail.Regular) (start : Int) {savings : Int}
    (amount : tail.rules.SavesAmount savings)
    : (Stream.after tail.rules start tail.stdOffset savings).Steady tail.rules.SavesAmount :=
  Stream.steady_between regular.steady amount start endOfTime

/-- A regular tail that starts in front of a supported year starts in a year that its first
recurrence is enumerated in. -/
theorem Regular.starts_applies (regular : tail.Regular) {year : Int}
    (behind : tail.start < Calendar.yearStartSeconds year)
    (in_range : year ≤ Calendar.maxYear) {r : Recurrence} (member : r ∈ tail.rules.recurrences)
    {b savings : Int} (from_first : r.firstYear ≤ b) (amount : tail.rules.SavesAmount savings)
    (start_eq : tail.start = r.instantIn b tail.stdOffset savings)
    : r.AppliesTo b := by
  have day := regular.steady.day r member
  have near := regular.steady.near r member savings amount
  have supported := regular.supported
  refine ⟨from_first, ?_, Recurrence.endsBefore_of_isUnbounded (regular.unbounded r member) b, ?_⟩
  · have front := Recurrence.instantIn_lt_yearStart day near.2 b
    have : Calendar.minYear < b + 2 := Calendar.lt_of_yearStartSeconds_lt (by omega)
    omega
  · have early := Recurrence.yearStart_lt_instantIn day near b
    have : b - 1 < year := Calendar.lt_of_yearStartSeconds_lt (by omega)
    omega

/-- Behind an instant not in front of its start, a regular tail goes on with what comes behind the
last change up to the instant, from the state that this change has led to. The case without a
change is the one where the recurrence that the tail starts with has made the last one. -/
theorem Regular.reaches_last (regular : tail.Regular) {year : Int}
    (behind : tail.start < Calendar.yearStartSeconds year)
    (in_range : year ≤ Calendar.maxYear)
    (inside : Calendar.yearStartSeconds year < endOfTime)
    : ∃ last : Stream, ∃ r ∈ tail.rules.recurrences, ∃ b savings,
        r.AppliesTo b
        ∧ tail.rules.SavesAmount savings
        ∧ r.instantIn b tail.stdOffset savings ≤ Calendar.yearStartSeconds year
        ∧ last.Steady tail.rules.SavesAmount
        ∧ last.rules = tail.rules
        ∧ last.stdOffset = tail.stdOffset
        ∧ last.stop = endOfTime
        ∧ last.savings = r.savings
        ∧ last.PendingBehind tail.rules.SavesAmount r b
        ∧ (∀ t ∈ last.transitions, Calendar.yearStartSeconds year < t.instant)
        ∧ ∀ x,
            Calendar.yearStartSeconds year ≤ x
            → tail.stateAt x = Stream.stateAfter r.state x last.transitions := by
  have steady := regular.stream_steady tail.start regular.savesAmount
  have upward := Stream.upward_between tail.rules regular.savesAmount tail.start endOfTime
    tail.stdOffset
  obtain ⟨front, last, reaches, last_steady, up_to, later⟩ :=
    steady.reaches_instant (Calendar.yearStartSeconds year)
  obtain ⟨rules_eq, stdOffset_eq, stop_eq⟩ := reaches.fixed
  have changes_eq : tail.changes = front ++ last.transitions :=
    reaches.transitions_eq steady.toSized
  rcases List.eq_nil_or_concat' front with rfl | ⟨earlier, t, rfl⟩
  · cases reaches
    obtain ⟨r, member, b, savings, from_first, amount, start_eq, state_eq⟩ := regular.starts
    have applies := regular.starts_applies behind in_range member from_first amount start_eq
    have passed
        : r.instantIn b tail.stdOffset tail.initialSavings ≤ Calendar.yearStartSeconds year :=
      regular.sides year r member b savings _ applies amount regular.savesAmount (by omega)
    have not_pending
        : ¬ (Stream.after tail.rules tail.start tail.stdOffset tail.initialSavings).Pending
            r b := by
      intro pending
      have := steady.lt_of_pending later inside pending
      simp only [Stream.after, Stream.between] at this
      omega
    refine ⟨_, r, member, b, savings, applies, amount, by omega, steady, rfl, rfl, rfl,
      congrArg RuleState.savings state_eq, fun q c => ?_, later, fun x _ => ?_⟩
    · have iff := Stream.pending_between tail.rules tail.start endOfTime tail.stdOffset
        tail.initialSavings q c
      constructor
      · intro pending
        obtain ⟨q_member, q_applies, lt⟩ := iff.mp pending
        refine ⟨q_member, q_applies, ?_⟩
        rw [start_eq] at lt
        refine (steady.behind_iff_precedes amount member applies q_member q_applies ?_).mp lt
        rintro rfl rfl
        exact not_pending pending
      · rintro ⟨q_member, q_applies, ordered⟩
        refine iff.mpr ⟨q_member, q_applies, ?_⟩
        rw [start_eq]
        exact ordered savings tail.initialSavings amount regular.savesAmount
    · rw [stateAt, changes_eq, state_eq, List.nil_append]
  · obtain ⟨r, savings, member, _, amount, applies, instant_eq, savings_eq, letter_eq, _,
      last_savings, pending_behind⟩ := reaches.pendingBehind steady upward
    have passed := up_to t (by simp)
    refine ⟨last, r, member, t.year, savings, applies, amount, ?_, last_steady, rules_eq,
      stdOffset_eq, stop_eq, last_savings.trans savings_eq, pending_behind, later, fun x le => ?_⟩
    · rw [instant_eq] at passed
      exact passed
    · have state_eq : t.state = r.state := by
        rw [Transition.state, savings_eq, letter_eq]
        rfl
      rw [stateAt, changes_eq, List.append_assoc, List.singleton_append,
        Stream.stateAfter_append_cons (by omega), state_eq]

/-- Where a change of one recurrence comes last up to the start of a year, any change of another one
that comes up to it with no saved time comes in front of that change with no saved time. -/
theorem Regular.lt_of_passed (regular : tail.Regular) {year : Int} {last : Stream} {r : Recurrence}
    {b : Int} (member : r ∈ tail.rules.recurrences) (applies : r.AppliesTo b)
    (steady : last.Steady tail.rules.SavesAmount) (rules_eq : last.rules = tail.rules)
    (stdOffset_eq : last.stdOffset = tail.stdOffset)
    (inside : Calendar.yearStartSeconds year < last.stop)
    (behind : last.PendingBehind tail.rules.SavesAmount r b)
    (later : ∀ t ∈ last.transitions, Calendar.yearStartSeconds year < t.instant) {q : Recurrence}
    (q_member : q ∈ tail.rules.recurrences) (different : q ≠ r) {d : Int}
    (q_applies : q.AppliesTo d)
    (passed : q.instantIn d tail.stdOffset 0 ≤ Calendar.yearStartSeconds year)
    : q.instantIn d tail.stdOffset 0 < r.instantIn b tail.stdOffset 0 := by
  have none_saved : tail.rules.SavesAmount 0 := .inl rfl
  obtain ⟨i, at_i⟩ := List.getElem?_of_mem member
  obtain ⟨j, at_j⟩ := List.getElem?_of_mem q_member
  have apart : i = j → b ≠ d := by
    rintro rfl
    rw [at_i, Option.some.injEq] at at_j
    exact absurd at_j.symm different
  rcases regular.steady.total at_i at_j applies q_applies apart with front | back
  · -- a change that comes behind the last one is pending, so it lies behind the start of the year
    have pending := (behind q d).mpr ⟨by rw [rules_eq]; exact q_member, q_applies, by
      rw [stdOffset_eq]
      exact front⟩
    have lt := steady.lt_of_pending later inside pending
    have le := regular.sides year q q_member d 0 last.savings q_applies none_saved
      steady.amount passed
    rw [stdOffset_eq] at lt
    omega
  · exact back 0 0 none_saved none_saved

/-- The last change up to the start of a year belongs to the recurrence whose change comes last in
the order of all changes, although it is looked for with no saved time. -/
theorem Regular.latestUpTo_eq (regular : tail.Regular) {year : Int}
    (first : Calendar.minYear < year) (in_range : year ≤ Calendar.maxYear) {last : Stream}
    {r : Recurrence} {b savings : Int} (member : r ∈ tail.rules.recurrences)
    (applies : r.AppliesTo b) (amount : tail.rules.SavesAmount savings)
    (passed : r.instantIn b tail.stdOffset savings ≤ Calendar.yearStartSeconds year)
    (steady : last.Steady tail.rules.SavesAmount) (rules_eq : last.rules = tail.rules)
    (stdOffset_eq : last.stdOffset = tail.stdOffset)
    (inside : Calendar.yearStartSeconds year < last.stop)
    (behind : last.PendingBehind tail.rules.SavesAmount r b)
    (later : ∀ t ∈ last.transitions, Calendar.yearStartSeconds year < t.instant)
    : ∃ v,
        latestUpTo tail.stdOffset (Calendar.yearStartSeconds year) tail.rules.recurrences none
        = .ok (some (v, r)) := by
  have none_saved : tail.rules.SavesAmount 0 := .inl rfl
  have searched (q : Recurrence) (q_member : q ∈ tail.rules.recurrences) :=
    Recurrence.previous_yearStart (regular.steady.day q q_member)
      (regular.steady.near q q_member 0 none_saved) (regular.unbounded q q_member) first in_range
  have all_searched (q : Recurrence) (q_member : q ∈ tail.rules.recurrences)
      : ∃ found,
          lastChange tail.stdOffset (Calendar.yearStartSeconds year) q = .ok found :=
    (searched q q_member).imp fun _ outcome => outcome.1
  obtain ⟨out, found⟩ := latestUpTo_exists none all_searched
  obtain ⟨origin, _, not_behind⟩ := latestUpTo_ok found
  have passed := regular.sides year r member b savings 0 applies amount none_saved passed
  obtain ⟨last_of_r, r_searched, r_last⟩ := searched r member
  cases last_of_r with
  | none =>
      have := r_last b applies
      omega
  | some w =>
      obtain ⟨_, c, _, w_eq, greatest⟩ := r_last
      have le_w : r.instantIn b tail.stdOffset 0 ≤ w := by
        rcases Int.lt_or_eq_of_le (greatest b applies passed) with lt | rfl
        · have := r.instantIn_lt tail.stdOffset 0 lt
          omega
        · omega
      obtain ⟨v, q, rfl, w_le⟩ := not_behind r member w r_searched
      refine ⟨v, ?_⟩
      rcases origin with same | ⟨q', q_member, v', q_searched, same⟩
      · simp at same
      obtain ⟨rfl, rfl⟩ := Prod.mk.inj (Option.some.inj same)
      obtain ⟨last_of_q, q_searched', q_last⟩ := searched q q_member
      rw [lastChange, q_searched', Except.ok.injEq] at q_searched
      subst q_searched
      obtain ⟨v_le, d, q_applies, v_eq, _⟩ := q_last
      by_cases equal : q = r
      · rw [found, equal]
      · have := regular.lt_of_passed member applies steady rules_eq stdOffset_eq inside behind later
          q_member equal q_applies (by omega)
        omega

/-- The anchor of a year behind the start of a regular tail has the state that the changes have led
to, and the stream from it goes on like the one from the start. -/
theorem Regular.anchorAt_ok (regular : tail.Regular) {year : Int}
    (behind : tail.start < Calendar.yearStartSeconds year)
    (in_range : year ≤ Calendar.maxYear)
    : ∃ r ∈ tail.rules.recurrences, ∃ anchor,
        tail.anchorAt year = .ok anchor
        ∧ anchor.cursor = Calendar.yearStartSeconds year
        ∧ anchor.atBoundary = false
        ∧ anchor.savings = r.savings
        ∧ anchor.clock tail.stdOffset = tail.shows r.state
        ∧ ∀ x,
            anchor.cursor ≤ x
            → tail.clockAfter r.state (tail.changesBehind anchor).transitions x
              = tail.clockAt x := by
  have first : Calendar.minYear < year :=
    Calendar.lt_of_yearStartSeconds_lt (Int.lt_of_le_of_lt regular.supported behind)
  have inside : Calendar.yearStartSeconds year < endOfTime := by
    have := Calendar.yearStartSeconds_gap in_range
    have : Calendar.yearStartSeconds Calendar.maxYear < endOfTime := by decide
    omega
  obtain ⟨last, r, member, b, savings, applies, amount, passed, steady, rules_eq, stdOffset_eq,
    stop_eq, savings_eq, pending_behind, later, state_eq⟩ :=
    regular.reaches_last behind in_range inside
  obtain ⟨v, found⟩ := regular.latestUpTo_eq first in_range member applies amount passed steady
    rules_eq stdOffset_eq (by omega) pending_behind later
  refine ⟨r, member, {
    cursor := Calendar.yearStartSeconds year
    savings := r.savings
    name := tail.format.fill tail.stdOffset r.savings r.letter
    atBoundary := false
  }, ?_, rfl, rfl, rfl, rfl, fun x le => ?_⟩
  · unfold anchorAt
    dsimp only
    rw [if_neg (by omega)]
    refine bind_eq_ok.mpr ⟨_, found, ?_⟩
    exact bind_eq_ok.mpr
      ⟨_, NameFormat.apply_eq_ok.mpr ⟨regular.applicable, rfl⟩, rfl⟩
  · have agrees := steady.agrees_between (by rw [rules_eq]; exact member) applies amount
      pending_behind (by rw [stdOffset_eq]; exact passed) later (by omega)
      (by rw [rules_eq, stdOffset_eq]; exact regular.sides year)
    have items_eq := agrees.items_eq
      (by
        rw [rules_eq, stdOffset_eq]
        exact Stream.steady_between regular.steady steady.amount _ _)
      steady
    rw [rules_eq, stdOffset_eq, stop_eq, savings_eq] at items_eq
    have transitions_eq := congrArg (List.filterMap Except.toOption) items_eq
    rw [clockAt, state_eq x le]
    exact congrArg (fun changes => tail.shows (Stream.stateAfter r.state x changes)) transitions_eq

end Tail

end CivilTime
