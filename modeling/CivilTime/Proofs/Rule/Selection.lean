import CivilTime.Proofs.Rule.Order

/-! A stream of some of the recurrences goes along with the stream of all of them.
Both show the same clock as long as the changes of the other recurrences cannot be seen, and the
first of those that can be seen sets them apart.
-/

namespace CivilTime

open Recurrence (Precedes)

/-- A change is made by a recurrence that is not selected. -/
def RuleSet.LeavesOut (rules : RuleSet) (selected : Recurrence → Bool) (t : Transition) : Prop :=
  ∃ r, rules.recurrences[t.index]? = some r ∧ selected r = false

/-- Whether a change is left out is decided by the recurrence at its position. -/
theorem RuleSet.leavesOut_iff {rules : RuleSet} {selected : Recurrence → Bool} {t : Transition}
    {r : Recurrence} (at_index : rules.recurrences[t.index]? = some r)
    : rules.LeavesOut selected t ↔ selected r = false := by
  constructor
  · rintro ⟨q, at_index', left_out⟩
    obtain rfl := Option.some.inj (at_index.symm.trans at_index')
    exact left_out
  · exact fun left_out => ⟨r, at_index, left_out⟩

namespace Stream

/-- The second stream makes the pending changes of the first one that selected recurrences make. -/
structure Selects (selected : Recurrence → Bool) (s u : Stream) : Prop where
  stdOffset_eq : u.stdOffset = s.stdOffset
  stop_eq : u.stop = s.stop
  savings_eq : u.savings = s.savings
  pending_iff : ∀ q year, u.Pending q year ↔ s.Pending q year ∧ selected q = true

/-- The changes that are left out cannot be seen: each of them shows what was shown in front of
it. -/
def Unseen {β : Type} (shows : RuleState → β) (leftOut : Transition → Prop)
    : RuleState → List Transition → Prop
  | _, [] => True
  | state, t :: rest =>
    (leftOut t → shows t.state = shows state) ∧ Unseen shows leftOut t.state rest

variable {β : Type} {shows : RuleState → β} {s u : Stream} {amounts : Int → Prop}
  {selected : Recurrence → Bool}

/-- All changes of a steady stream come behind an instant that all pending changes come behind. -/
theorem Steady.transitions_behind (steady : s.Steady amounts) {instant : Int}
    (behind
      : ∀ q year, s.Pending q year → instant < q.instantIn year s.stdOffset s.savings)
    : ∀ t ∈ s.transitions, instant < t.instant := by
  rcases steady.step with ⟨step, _⟩ | ⟨r, t, step, _, first⟩
  · simp [transitions_nil step]
  · have front := behind r t.year first.pending
    rw [← first.instant_eq] at front
    have later := (steady.advance first.toMakes).toSized.transitions_ordered.1
    rw [steady.toSized.transitions_cons step]
    refine List.forall_mem_cons.mpr ⟨front, fun v member => ?_⟩
    exact Int.lt_trans front (later v member).1

/-- A selected change is made by both streams alike. -/
theorem Selects.step_selected (selects : Selects selected s u) (steady : s.Steady amounts)
    (steady' : u.Steady amounts) {r : Recurrence} {t : Transition}
    (first : s.MakesFirst amounts r t) (inside : t.instant < s.stop) (kept : selected r = true)
    : ∃ v,
        u.next? = (some (.ok v), u.advance v)
        ∧ v.instant = t.instant
        ∧ v.state = t.state
        ∧ (u.advance v).Steady amounts
        ∧ Selects selected (s.advance t) (u.advance v) := by
  have instant_eq := first.instant_eq
  rw [← selects.stdOffset_eq, ← selects.savings_eq] at instant_eq
  obtain ⟨v, step, first', year_eq⟩ := steady'.step_of_first
    ((selects.pending_iff r t.year).mpr ⟨first.pending, kept⟩)
    (fun q b pending different => by
      rw [selects.stdOffset_eq]
      exact first.least q b ((selects.pending_iff q b).mp pending).1 different)
    (by rw [selects.stop_eq, ← instant_eq]; exact inside)
  have same_instant : v.instant = t.instant := by
    rw [first'.instant_eq, year_eq, instant_eq]
  have savings_eq := first'.savings_eq.trans first.savings_eq.symm
  refine ⟨v, step, same_instant, ?_, steady'.advance first'.toMakes, {
    stdOffset_eq := selects.stdOffset_eq
    stop_eq := selects.stop_eq
    savings_eq := savings_eq
    pending_iff := fun q year => ?_
  }⟩
  · simp [Transition.state, savings_eq, first'.letter_eq, first.letter_eq]
  · rw [steady'.pending_advance first', steady.pending_advance first, selects.pending_iff, year_eq]
    exact and_right_comm

/-- A change that is left out and does not change the saved time leaves the other stream in
place. -/
theorem Selects.step_leftOut (selects : Selects selected s u) (steady : s.Steady amounts)
    {r : Recurrence} {t : Transition} (first : s.MakesFirst amounts r t)
    (left_out : selected r = false) (same : t.savings = s.savings)
    : Selects selected (s.advance t) u where
  stdOffset_eq := selects.stdOffset_eq
  stop_eq := selects.stop_eq
  savings_eq := selects.savings_eq.trans same.symm
  pending_iff q year := by
    rw [steady.pending_advance first, selects.pending_iff]
    constructor
    · rintro ⟨pending, kept⟩
      refine ⟨⟨pending, ?_⟩, kept⟩
      rintro rfl
      rw [kept] at left_out
      exact absurd left_out (by decide)
    · rintro ⟨⟨pending, _⟩, kept⟩
      exact ⟨pending, kept⟩

/-- All changes of the other stream come behind a change that is left out. -/
theorem Selects.behind_leftOut (selects : Selects selected s u) (steady : s.Steady amounts)
    (steady' : u.Steady amounts) {r : Recurrence} {t : Transition}
    (first : s.MakesFirst amounts r t) (left_out : selected r = false)
    : ∀ v ∈ u.transitions, t.instant < v.instant := by
  refine steady'.transitions_behind fun q year pending => ?_
  obtain ⟨pending_s, kept⟩ := (selects.pending_iff q year).mp pending
  rw [first.instant_eq, selects.stdOffset_eq]
  refine first.least q year pending_s ?_ s.savings u.savings steady.amount steady'.amount
  rintro rfl
  rw [kept] at left_out
  exact absurd left_out (by decide)

/-- A stream of selected recurrences makes nothing where the stream of all makes nothing. -/
theorem Selects.transitions_nil (selects : Selects selected s u) (steady' : u.Steady amounts)
    (exhausted
      : ∀ q year, s.Pending q year → s.stop ≤ q.instantIn year s.stdOffset s.savings)
    : u.transitions = [] := by
  rcases steady'.step with ⟨step, _⟩ | ⟨r, t, _, inside, first⟩
  · exact Stream.transitions_nil step
  · have := exhausted r t.year ((selects.pending_iff r t.year).mp first.pending).1
    rw [← selects.stop_eq, ← selects.stdOffset_eq, ← selects.savings_eq, ← first.instant_eq]
      at this
    omega

/-- Two sequences of changes behind an instant that start out with the same clock show the same
clock exactly if they do so from that instant on. -/
theorem agree_iff_from {state state' : RuleState} {changes changes' : List Transition}
    {start stop : Int} (later : ∀ t ∈ changes, start < t.instant)
    (later' : ∀ t ∈ changes', start < t.instant) (same : shows state = shows state')
    : (∀ instant,
        instant < stop
        → shows (stateAfter state instant changes) = shows (stateAfter state' instant changes'))
      ↔ ∀ instant,
          start ≤ instant
          → instant < stop
          → shows (stateAfter state instant changes)
            = shows (stateAfter state' instant changes') := by
  refine ⟨fun agree instant _ before => agree instant before, fun agree instant before => ?_⟩
  rcases Int.lt_or_le instant start with front | behind
  · rw [stateAfter_of_behind fun t member => Int.lt_trans front (later t member),
      stateAfter_of_behind fun t member => Int.lt_trans front (later' t member)]
    exact same
  · exact agree instant behind before

/-- A change that begins both of two sequences does not set them apart. -/
theorem agree_cons_iff {state state' : RuleState} {t v : Transition}
    {rest rest' : List Transition} {stop : Int} (instant_eq : v.instant = t.instant)
    (state_eq : v.state = t.state) (later : ∀ w ∈ rest, t.instant < w.instant)
    (later' : ∀ w ∈ rest', t.instant < w.instant) (same : shows state = shows state')
    : (∀ instant,
        instant < stop
        → shows (stateAfter state instant (t :: rest))
          = shows (stateAfter state' instant (v :: rest')))
      ↔ ∀ instant,
          instant < stop
          → shows (stateAfter t.state instant rest)
            = shows (stateAfter t.state instant rest') := by
  rw [agree_iff_from later later' rfl]
  simp only [stateAfter_cons, instant_eq, state_eq]
  refine forall_congr' fun instant => ?_
  rcases Int.lt_or_le instant t.instant with front | behind
  · simp only [if_neg (Int.not_le.mpr front)]
    rw [stateAfter_of_behind fun w member => Int.lt_trans front (later w member),
      stateAfter_of_behind fun w member => Int.lt_trans front (later' w member)]
    exact ⟨fun _ impossible => absurd front (Int.not_lt.mpr impossible), fun _ _ => same⟩
  · simp only [if_pos behind]
    exact ⟨fun agree _ => agree, fun agree => agree behind⟩

/-- A change that begins only the first of two sequences sets them apart unless it shows what was
shown in front of it. -/
theorem agree_cons_left_iff {state state' : RuleState} {t : Transition}
    {rest changes : List Transition} {stop : Int} (inside : t.instant < stop)
    (later : ∀ w ∈ rest, t.instant < w.instant) (later' : ∀ w ∈ changes, t.instant < w.instant)
    (same : shows state = shows state')
    : (∀ instant,
        instant < stop
        → shows (stateAfter state instant (t :: rest))
          = shows (stateAfter state' instant changes))
      ↔ shows t.state = shows state
        ∧ ∀ instant,
            instant < stop
            → shows (stateAfter t.state instant rest)
              = shows (stateAfter state' instant changes) := by
  constructor
  · intro agree
    have unseen : shows t.state = shows state := by
      have here := agree t.instant inside
      rw [stateAfter_cons, if_pos (Int.le_refl _), stateAfter_of_behind later,
        stateAfter_of_behind later'] at here
      rw [here, same]
    refine ⟨unseen, (agree_iff_from later later' (unseen.trans same)).mpr ?_⟩
    intro instant behind before
    have here := agree instant before
    rwa [stateAfter_cons, if_pos behind] at here
  · rintro ⟨unseen, agree⟩ instant before
    rw [stateAfter_cons, ← agree instant before]
    split
    · rfl
    · rename_i front
      have front := Int.not_le.mp front
      rw [stateAfter_of_behind fun w member => Int.lt_trans front (later w member),
        stateAfter_of_behind fun w member => Int.lt_trans front (later w member)]
      exact unseen.symm

/-- A stream of selected recurrences shows the same clock as the stream of all of them exactly if
the changes that are left out cannot be seen, by induction on the items of the latter. -/
theorem Selects.shows_iff (selects : Selects selected s u) (steady : s.Steady amounts)
    (steady' : u.Steady amounts)
    (shows_savings : ∀ a b, shows a = shows b → a.savings = b.savings) {state state' : RuleState}
    (state_eq : state.savings = s.savings) (same : shows state = shows state')
    : (∀ instant,
        instant < s.stop
        → shows (stateAfter state instant s.transitions)
          = shows (stateAfter state' instant u.transitions))
      ↔ Unseen shows (s.rules.LeavesOut selected) state s.transitions := by
  generalize items_eq : s.items = items
  induction items generalizing s u state state' with
  | nil =>
      rcases steady.step with ⟨step, exhausted⟩ | ⟨r, t, step, _, _⟩
      · rw [Stream.transitions_nil step, selects.transitions_nil steady' exhausted]
        simp [Unseen, stateAfter, same]
      · rw [steady.toSized.items_cons step] at items_eq
        simp at items_eq
  | cons item others ih =>
      rcases steady.step with ⟨step, _⟩ | ⟨r, t, step, inside, first⟩
      · rw [items_nil step] at items_eq
        simp at items_eq
      rw [steady.toSized.items_cons step, List.cons.injEq] at items_eq
      obtain ⟨rfl, items_eq⟩ := items_eq
      have steady_next := steady.advance first.toMakes
      have later (v : Transition) (member : v ∈ (s.advance t).transitions)
          : t.instant < v.instant :=
        (steady_next.toSized.transitions_ordered.1 v member).1
      rw [steady.toSized.transitions_cons step, Unseen, RuleSet.leavesOut_iff first.at_index]
      cases kept : selected r with
      | true =>
          obtain ⟨v, step', instant_eq, v_state, steady_next', selects_next⟩ :=
            selects.step_selected steady steady' first inside kept
          have later' (w : Transition) (member : w ∈ (u.advance v).transitions)
              : t.instant < w.instant := by
            rw [← instant_eq]
            exact (steady_next'.toSized.transitions_ordered.1 w member).1
          rw [steady'.toSized.transitions_cons step',
            agree_cons_iff instant_eq v_state later later' same]
          exact (ih selects_next steady_next steady_next' rfl rfl items_eq).trans
            (and_iff_right (by simp)).symm
      | false =>
          rw [agree_cons_left_iff inside later (selects.behind_leftOut steady steady' first kept)
            same, forall_prop_of_true rfl]
          refine and_congr_right fun unseen => ?_
          have savings_eq : t.savings = s.savings := by
            rw [← state_eq]
            exact shows_savings t.state state unseen
          exact ih (selects.step_leftOut steady first kept savings_eq) steady_next steady' rfl
            (unseen.trans same) items_eq

/-- Where the changes come in order, a change that cannot be seen shows what the state just in
front of it shows. The proof is by induction on the changes. -/
theorem unseen_iff {leftOut : Transition → Prop} {state : RuleState} {changes : List Transition}
    (ordered : changes.Pairwise fun t v => t.instant < v.instant)
    : Unseen shows leftOut state changes
      ↔ ∀ t ∈ changes,
          leftOut t → shows t.state = shows (stateAfter state (t.instant - 1) changes) := by
  induction changes generalizing state with
  | nil => simp [Unseen]
  | cons t rest ih =>
      obtain ⟨later, ordered_rest⟩ := List.pairwise_cons.mp ordered
      rw [Unseen, ih ordered_rest, List.forall_mem_cons]
      refine and_congr ?_ (forall₂_congr fun v member => ?_)
      · rw [stateAfter_cons, if_neg (by omega), stateAfter_of_behind]
        intro v member
        have := later v member
        omega
      · have := later v member
        rw [stateAfter_cons, if_pos (by omega)]

/-- A new stream of selected recurrences, which starts behind a change and in front of everything
pending, makes what the selected ones of all recurrences make. It may make the change itself once
more in front of that, which leaves the clock as it is. -/
theorem Steady.selects_resume (steady : s.Steady amounts) {r : Recurrence}
    {year before start : Int} (amount : amounts before) (member : r ∈ s.rules.recurrences)
    (applies : r.AppliesTo year) (passed : r.instantIn year s.stdOffset before ≤ start)
    (savings_eq : s.savings = r.savings)
    (inside : r.instantIn year s.stdOffset s.savings < s.stop)
    (behind : s.PendingBehind amounts r year)
    (later : ∀ q b, s.Pending q b → start < q.instantIn b s.stdOffset s.savings) {new : Stream}
    (new_steady : new.Steady amounts) (new_stdOffset : new.stdOffset = s.stdOffset)
    (new_stop : new.stop = s.stop) (new_savings : new.savings = s.savings)
    (new_pending
      : ∀ q b,
          new.Pending q b
          ↔ (q ∈ s.rules.recurrences ∧ selected q = true)
            ∧ q.AppliesTo b
            ∧ start < q.instantIn b s.stdOffset s.savings)
    : ∃ u,
        u.Steady amounts
        ∧ u.rules = new.rules
        ∧ Selects selected s u
        ∧ (new.transitions = u.transitions
          ∨ ∃ v,
              v.state = { savings := r.savings, letter := r.letter }
              ∧ new.transitions = v :: u.transitions) := by
  have pending_iff (q : Recurrence) (b : Int) (different : q = r → b ≠ year)
      : new.Pending q b ↔ s.Pending q b ∧ selected q = true := by
    rw [new_pending]
    constructor
    · rintro ⟨⟨q_member, kept⟩, q_applies, lt⟩
      have ordered := (steady.behind_iff_precedes amount member applies q_member q_applies
        different).mp (Int.lt_of_le_of_lt passed lt)
      exact ⟨(behind q b).mpr ⟨q_member, q_applies, ordered⟩, kept⟩
    · rintro ⟨pending, kept⟩
      obtain ⟨q_member, q_applies, _⟩ := (behind q b).mp pending
      exact ⟨⟨q_member, kept⟩, q_applies, later q b pending⟩
  have not_pending : ¬ s.Pending r year := by
    intro pending
    have ordered := ((behind r year).mp pending).2.2
    exact ordered.asymm steady.amount ordered
  -- The change is pending in the new stream if its own saved time puts it behind the start.
  by_cases again : new.Pending r year
  · have first (q : Recurrence) (b : Int) (pending : new.Pending q b)
        (different : q = r → b ≠ year)
        : Precedes amounts new.stdOffset r year q b := by
      rw [new_stdOffset]
      exact ((behind q b).mp ((pending_iff q b different).mp pending).1).2.2
    obtain ⟨v, step, makes, year_eq⟩ := new_steady.step_of_first again first
      (by rw [new_stdOffset, new_savings, new_stop]; exact inside)
    refine ⟨new.advance v, new_steady.advance makes.toMakes, rfl, {
      stdOffset_eq := new_stdOffset
      stop_eq := new_stop
      savings_eq := makes.savings_eq.trans savings_eq.symm
      pending_iff := fun q b => ?_
    }, .inr ⟨v, ?_, new_steady.toSized.transitions_cons step⟩⟩
    · rw [new_steady.pending_advance makes, year_eq]
      by_cases same : q = r ∧ b = year
      · obtain ⟨rfl, rfl⟩ := same
        simp [not_pending]
      · have different : q = r → b ≠ year := fun equal equal_year => same ⟨equal, equal_year⟩
        rw [pending_iff q b different]
        exact and_iff_left different
    · rw [Transition.state, makes.savings_eq, makes.letter_eq]
  · refine ⟨new, new_steady, rfl, {
      stdOffset_eq := new_stdOffset
      stop_eq := new_stop
      savings_eq := new_savings
      pending_iff := fun q b => ?_
    }, .inl rfl⟩
    by_cases same : q = r ∧ b = year
    · obtain ⟨rfl, rfl⟩ := same
      simp [again, not_pending]
    · exact pending_iff q b fun equal equal_year => same ⟨equal, equal_year⟩

/-- A new stream of selected recurrences from a change on leads to the same states as what the
selected ones of all recurrences make behind it. -/
theorem Steady.selects_restart (steady : s.Steady amounts) {r : Recurrence} {t : Transition}
    {before : Int} (amount : amounts before) (member : r ∈ s.rules.recurrences)
    (applies : r.AppliesTo t.year)
    (instant_eq : t.instant = r.instantIn t.year s.stdOffset before)
    (state_eq : t.state = { savings := r.savings, letter := r.letter })
    (savings_eq : s.savings = r.savings)
    (inside : r.instantIn t.year s.stdOffset s.savings < s.stop)
    (behind : s.PendingBehind amounts r t.year) {new : Stream} (new_steady : new.Steady amounts)
    (new_stdOffset : new.stdOffset = s.stdOffset) (new_stop : new.stop = s.stop)
    (new_savings : new.savings = s.savings)
    (new_pending
      : ∀ q b,
          new.Pending q b
          ↔ (q ∈ s.rules.recurrences ∧ selected q = true)
            ∧ q.AppliesTo b
            ∧ t.instant < q.instantIn b s.stdOffset s.savings)
    : ∃ u,
        u.Steady amounts
        ∧ Selects selected s u
        ∧ ∀ instant,
            stateAfter t.state instant new.transitions
            = stateAfter t.state instant u.transitions := by
  have later (q : Recurrence) (b : Int) (pending : s.Pending q b)
      : t.instant < q.instantIn b s.stdOffset s.savings := by
    rw [instant_eq]
    exact ((behind q b).mp pending).2.2 before s.savings amount steady.amount
  obtain ⟨u, u_steady, _, selects, same | ⟨v, v_state, cons_eq⟩⟩ :=
    steady.selects_resume amount member applies (Int.le_of_eq instant_eq.symm) savings_eq inside
      behind later new_steady new_stdOffset new_stop new_savings new_pending
  · exact ⟨u, u_steady, selects, fun instant => by rw [same]⟩
  · refine ⟨u, u_steady, selects, fun instant => ?_⟩
    rw [cons_eq, stateAfter_cons, v_state, state_eq, ite_self]

end Stream

end CivilTime
