import CivilTime.Proofs.Machine.Arithmetic
import CivilTime.Proofs.Rule.Reach
import CivilTime.Proofs.Rule.State

/-! Searches and streams in arithmetic of signed 64 bit numbers.
Each computation takes the steps of its search or stream and is absent where an instant on its way
leaves the range of instants. Under times of the clock it comes to the outcome of the search or
stream, no search is given up, and every change comes at an instant far from the ends of time.
-/

namespace CivilTime

/-- A computation that may fail with a fault and is absent where a number leaves its range. -/
abbrev Machine (α : Type) : Type := ExceptT Fault Option α

namespace Machine

-----------------------------------------------------------------------------------------
-- Computations and their outcomes
-----------------------------------------------------------------------------------------

/-- An outcome that is computed without arithmetic. -/
def of {α : Type} (outcome : Except Fault α) : Machine α := ExceptT.mk (some outcome)

/-- A computation comes to an outcome. The outcome is no search that was given up, and its value has
a property. -/
structure Sound {α : Type} (computation : Machine α) (outcome : Except Fault α) (P : α → Prop)
    : Prop where
  agrees : computation = of outcome
  searched : ∀ ruleSet year, outcome ≠ .error (.searchExhausted ruleSet year)
  holds : ∀ value, outcome = .ok value → P value

section Steps

variable {α β : Type} {P : α → Prop} {Q : β → Prop} {computation : Machine α}
  {outcome : Except Fault α}

/-- A number that is present is taken. -/
theorem lift_bind {number : Option α} {value : α} (present : number = some value)
    (rest : α → Machine β)
    : (liftM number >>= rest : Machine β) = rest value := by
  subst present
  rfl

theorem Sound.pure {value : α} (holds : P value) : Sound (pure value) (.ok value) P where
  agrees := rfl
  searched _ _ := nofun
  holds := by
    rintro _ ⟨⟩
    exact holds

theorem Sound.of_error {fault : Fault}
    (searched : ∀ ruleSet year, fault ≠ .searchExhausted ruleSet year)
    : Sound (.of (.error fault)) (.error fault) P where
  agrees := rfl
  searched ruleSet year same := searched ruleSet year (Except.error.inj same)
  holds _ := nofun

theorem Sound.imp {R : α → Prop} (sound : Sound computation outcome P)
    (implied : ∀ value, P value → R value)
    : Sound computation outcome R :=
  { sound with holds := fun value found => implied value (sound.holds value found) }

theorem Sound.bind {rest : α → Machine β} {following : α → Except Fault β}
    (sound : Sound computation outcome P)
    (later : ∀ value, P value → Sound (rest value) (following value) Q)
    : Sound (computation >>= rest) (outcome >>= following) Q := by
  obtain ⟨rfl, searched, holds⟩ := sound
  cases outcome with
  | error fault =>
      exact Sound.of_error fun ruleSet year same => searched ruleSet year (congrArg _ same)
  | ok value => exact later value (holds value rfl)

theorem Sound.map {change : α → β} (sound : Sound computation outcome P)
    (changed : ∀ value, P value → Q (change value))
    : Sound (computation >>= fun value => Pure.pure (change value)) (outcome.map change) Q := by
  obtain ⟨rfl, searched, holds⟩ := sound
  cases outcome with
  | error fault =>
      exact Sound.of_error fun ruleSet year same => searched ruleSet year (congrArg _ same)
  | ok value => exact .pure (changed value (holds value rfl))

end Steps

-----------------------------------------------------------------------------------------
-- Recurrences
-----------------------------------------------------------------------------------------

/-- Looks for an instant after `after` in `limit` years from `year` on. -/
def searchForward (r : Recurrence) (after stdOffset savings : Int)
    : Nat → Int → Machine (Option (Int × Int))
  | 0, year => of (.error (.searchExhausted r.name year))
  | limit + 1, year =>
    if r.endsBefore year || Calendar.maxYear < year then pure none
    else do
      let instant ← instantOn r.day year r.month r.time stdOffset savings
      if after < instant then pure (some (year, instant))
      else searchForward r after stdOffset savings limit (year + 1)

/-- The first change after an instant in `minYear` or later, with its year. -/
def nextFromYear (r : Recurrence) (after stdOffset savings minYear : Int)
    : Machine (Option (Int × Int)) :=
  searchForward r after stdOffset savings Recurrence.searchLimit
    (max (max (Calendar.yearOf after - 1) r.firstYear) minYear)

/-- The first change after an instant. -/
def next (r : Recurrence) (after stdOffset savings : Int) : Machine (Option Int) := do
  let found ← nextFromYear r after stdOffset savings r.firstYear
  pure (found.map Prod.snd)

variable {r : Recurrence} {stdOffset savings : Int}

/-- A recurrence changes the clock of a supported year far from the ends of time. -/
theorem clear_instantIn (day : r.DayInMonth) (offset : ClockTime.Lasts stdOffset)
    (saved : ClockTime.Lasts savings) {year : Int} (first : Calendar.minYear - 1 ≤ year)
    (last : year ≤ Calendar.maxYear)
    : Instant.Clear (r.instantIn year stdOffset savings) := by
  unfold Calendar.minYear at first
  unfold Calendar.maxYear at last
  exact clear_instantOn (by omega) (by omega) day r.time offset saved

/-- A search through supported years is computed as it is made, by induction on its limit. -/
theorem searchForward_eq (day : r.DayInMonth) (offset : ClockTime.Lasts stdOffset)
    (saved : ClockTime.Lasts savings) (after : Int) (limit : Nat) {year : Int}
    (first : Calendar.minYear - 1 ≤ year)
    : searchForward r after stdOffset savings limit year
      = of (r.searchForward after stdOffset savings limit year) := by
  induction limit generalizing year with
  | zero => rfl
  | succ limit ih =>
      simp only [searchForward, Recurrence.searchForward]
      split
      · rfl
      · rename_i running
        simp only [Bool.or_eq_true, decide_eq_true_eq, not_or, Bool.not_eq_true] at running
        have low : -2147483648 ≤ year := by unfold Calendar.minYear at first; omega
        have high : year ≤ 2147483647 := by unfold Calendar.maxYear at running; omega
        have computed := instantOn_eq low high day r.time offset saved
        rw [lift_bind computed, ← Recurrence.instantIn]
        split
        · rfl
        · exact ih (by omega)

/-- A search of a recurrence is never given up and finds a change far from the ends of time. -/
theorem nextFromYear_sound (day : r.DayInMonth) (offset : ClockTime.Lasts stdOffset)
    (saved : ClockTime.Lasts savings) (after minYear : Int)
    : Sound (nextFromYear r after stdOffset savings minYear)
        (r.nextFromYear after stdOffset savings minYear)
        fun found => ∀ change ∈ found, Instant.Clear change.2 := by
  obtain ⟨t, rfl⟩ := offset
  obtain ⟨u, rfl⟩ := saved
  have reach := r.time.universalSeconds_bounds t.seconds_bounds u.seconds_bounds
  have supported := Calendar.yearOf_range after
  obtain ⟨found, searched⟩ := Recurrence.nextFromYear_ok day reach.1 after minYear
  refine ⟨searchForward_eq day ⟨t, rfl⟩ ⟨u, rfl⟩ after _ (by omega), by simp [searched], ?_⟩
  intro value found change member
  obtain ⟨year, instant⟩ := change
  obtain rfl := Option.mem_def.mp member
  have spec := Recurrence.searchForward_some found
  have start := spec.from_start
  rw [spec.instant_eq]
  exact clear_instantIn day ⟨t, rfl⟩ ⟨u, rfl⟩ (by omega) spec.supported

/-- The first change of a recurrence is found as it is searched for. -/
theorem next_sound (day : r.DayInMonth) (offset : ClockTime.Lasts stdOffset)
    (saved : ClockTime.Lasts savings) (after : Int)
    : Sound (next r after stdOffset savings) (r.next after stdOffset savings) fun _ => True :=
  (nextFromYear_sound day offset saved after r.firstYear).map fun _ _ => trivial

-----------------------------------------------------------------------------------------
-- Rule sets
-----------------------------------------------------------------------------------------

/-- The change that one recurrence offers after an instant. -/
def candidate? (after stdOffset savings : Int) (index : Nat) (r : Recurrence) (used : Option Int)
    : Machine (Option RuleSet.Candidate) :=
  if r.endsBefore (Calendar.yearOf after - 1) then pure none
  else do
    let found ← nextFromYear r after stdOffset savings (RuleSet.freshYear r used)
    pure (found.map fun (year, instant) => { instant, year, index, recurrence := r })

/-- The candidates of the recurrences from position `index` on, with the years last used. -/
def candidates (after stdOffset savings : Int)
    : Nat → List Recurrence → List (Option Int) → Machine (List RuleSet.Candidate)
  | _, [], _ => pure []
  | index, r :: rest, used => do
    let candidate ← candidate? after stdOffset savings index r used.head?.join
    let others ← candidates after stdOffset savings (index + 1) rest used.tail
    pure (candidate.toList ++ others)

/-- The change that a candidate stands for, with the saved time that its recurrence brings. -/
def transitionOf (c : RuleSet.Candidate) : Option Transition := do
  let savings ← clockSeconds c.recurrence.save
  some { c.transition with savings }

/-- The first change after an instant, given the year in which each recurrence was last used. -/
def nextAfterYears (rules : RuleSet) (after stdOffset savings : Int) (used : List (Option Int))
    : Machine (Option Transition) := do
  let cs ← candidates after stdOffset savings 0 rules.recurrences used
  match ← of (RuleSet.choose rules.name cs) with
  | none => pure none
  | some c => do
    let t ← transitionOf c
    pure (some t)

/-- A change far from the ends of time that saves an amount that a time of the clock lasts. -/
structure Plain (t : Transition) : Prop where
  instant : Instant.Clear t.instant
  savings : ClockTime.Lasts t.savings

/-- What a recurrence offers is far from the ends of time. -/
theorem candidate?_sound (day : r.DayInMonth) (offset : ClockTime.Lasts stdOffset)
    (saved : ClockTime.Lasts savings) (after : Int) (index : Nat) (used : Option Int)
    : Sound (candidate? after stdOffset savings index r used)
        (RuleSet.candidate? after stdOffset savings index r used)
        fun offered => ∀ c ∈ offered, Instant.Clear c.instant := by
  cases runs : r.endsBefore (Calendar.yearOf after - 1) with
  | true =>
      simp only [candidate?, RuleSet.candidate?, runs, if_true]
      exact .pure (by simp)
  | false =>
      rw [RuleSet.candidate?_eq runs, candidate?, if_neg (by simp [runs])]
      refine (nextFromYear_sound day offset saved after _).map fun found clear c member => ?_
      obtain ⟨change, present, rfl⟩ := Option.map_eq_some_iff.mp member
      exact clear change present

/-- The candidates are far from the ends of time, by induction on the recurrences. -/
theorem candidates_sound {rs : List Recurrence} (days : ∀ r ∈ rs, r.DayInMonth)
    (offset : ClockTime.Lasts stdOffset) (saved : ClockTime.Lasts savings) (after : Int)
    (index : Nat) (used : List (Option Int))
    : Sound (candidates after stdOffset savings index rs used)
        (RuleSet.candidates after stdOffset savings index rs used)
        fun cs => ∀ c ∈ cs, Instant.Clear c.instant := by
  induction rs generalizing index used with
  | nil => exact .pure (by simp)
  | cons r rest ih =>
      obtain ⟨day, days⟩ := List.forall_mem_cons.mp days
      refine (candidate?_sound day offset saved ..).bind fun offered here => ?_
      refine (ih days ..).bind fun others later => .pure fun c member => ?_
      rcases List.mem_append.mp member with first | other
      · exact here c (Option.mem_toList.mp first)
      · exact later c other

variable {rules : RuleSet}

/-- The choice of a candidate needs no arithmetic, and its faults are ties. -/
theorem choose_sound {cs : List RuleSet.Candidate} {P : RuleSet.Candidate → Prop} (name : String)
    (holds : ∀ c ∈ cs, P c)
    : Sound (of (RuleSet.choose name cs)) (RuleSet.choose name cs)
        fun chosen => ∀ c ∈ chosen, P c := by
  refine ⟨rfl, fun ruleSet year => ?_, fun chosen found c member => ?_⟩
  · unfold RuleSet.choose
    split
    · simp
    · split <;> simp
  · obtain rfl := Option.mem_def.mp member
    exact holds c (RuleSet.choose_some found).1

/-- The saved time that a recurrence brings is a small amount. -/
theorem transitionOf_eq (c : RuleSet.Candidate) : transitionOf c = some c.transition := by
  rw [transitionOf, clockSeconds_eq]
  rfl

/-- A step of the merge takes a plain change. -/
theorem nextAfterYears_sound (days : ∀ r ∈ rules.recurrences, r.DayInMonth)
    (offset : ClockTime.Lasts stdOffset) (saved : ClockTime.Lasts savings) (after : Int)
    (used : List (Option Int))
    : Sound (nextAfterYears rules after stdOffset savings used)
        (rules.nextAfterYears after stdOffset savings used) fun found => ∀ t ∈ found, Plain t := by
  refine (candidates_sound days offset saved ..).bind fun cs clear => ?_
  refine (choose_sound rules.name clear).bind fun chosen here => ?_
  cases chosen with
  | none => exact .pure (by simp)
  | some c =>
      simp only [lift_bind (transitionOf_eq c)]
      exact .pure (by simpa using ⟨here c rfl, c.recurrence.save, rfl⟩)

-----------------------------------------------------------------------------------------
-- Streams
-----------------------------------------------------------------------------------------

/-- The next change or the error that ends a stream, and the stream behind it. -/
def next? (s : Stream) : Option (Option (Except Fault Transition) × Stream) :=
  if s.finished then some (none, s)
  else do
    match ← (nextAfterYears s.rules s.cursor s.stdOffset s.savings s.used).run with
    | .ok (some t) =>
      some (if t.instant < s.stop then (some (.ok t), s.advance t) else (none, s.finish))
    | .ok none => some (none, s.finish)
    | .error fault => some (some (.error fault), s.finish)

/-- Visits at most `limit` changes in order, until one of them yields a result. -/
def visitUpTo {σ ρ : Type} (visitor : σ → Transition → Machine (Stream.Visit σ ρ))
    : Nat → Stream → σ → Machine (Stream.Visit σ ρ)
  | 0, _, state => pure (.running state)
  | limit + 1, s, state => do
    match ← liftM (next? s) with
    | (none, _) => pure (.running state)
    | (some (.error fault), _) => of (.error fault)
    | (some (.ok t), rest) =>
      match ← visitor state t with
      | .done result => pure (.done result)
      | .running state => visitUpTo visitor limit rest state

/-- Visits the changes in order, until one of them yields a result. -/
def visit {σ ρ : Type} (visitor : σ → Transition → Machine (Stream.Visit σ ρ)) (s : Stream)
    (state : σ)
    : Machine (Stream.Visit σ ρ) :=
  visitUpTo visitor s.lengthBound s state

/-- A stream of recurrences on days of their months, under amounts that times of the clock last. -/
structure Clocked (s : Stream) : Prop where
  days : ∀ r ∈ s.rules.recurrences, r.DayInMonth
  offset : ClockTime.Lasts s.stdOffset
  saved : ClockTime.Lasts s.savings

variable {s : Stream}

/-- The step of the merge behind a stream takes a plain change. -/
theorem Clocked.nextAfterYears_sound (clocked : Clocked s)
    : Sound (nextAfterYears s.rules s.cursor s.stdOffset s.savings s.used)
        (s.rules.nextAfterYears s.cursor s.stdOffset s.savings s.used)
        fun found => ∀ t ∈ found, Plain t :=
  Machine.nextAfterYears_sound clocked.days clocked.offset clocked.saved ..

/-- A step of a stream is computed as it is made. -/
theorem Clocked.next?_eq (clocked : Clocked s) : next? s = some s.next? := by
  simp only [next?, Stream.next?, clocked.nextAfterYears_sound.agrees]
  cases s.finished with
  | true => rfl
  | false =>
      cases s.rules.nextAfterYears s.cursor s.stdOffset s.savings s.used with
      | error fault => rfl
      | ok found =>
          cases found with
          | none => rfl
          | some t => rfl

/-- A visit goes on with a state or ends with a result that has a property. -/
def VisitHolds {σ ρ : Type} (P : σ → Prop) (Q : ρ → Prop) : Stream.Visit σ ρ → Prop
  | .running state => P state
  | .done result => Q result

/-- A visit is computed as it is made if the visitor is, by induction on the limit. Behind each
change the stream goes on under the saved time that the change brings. -/
theorem Clocked.visitUpTo_sound {σ ρ : Type} {P : σ → Prop} {Q : ρ → Prop}
    {visitor : σ → Transition → Machine (Stream.Visit σ ρ)}
    {model : σ → Transition → Except Fault (Stream.Visit σ ρ)}
    (visits
      : ∀ state t,
          P state → Plain t → Sound (visitor state t) (model state t) (VisitHolds P Q))
    (limit : Nat) (clocked : Clocked s) {state : σ} (holds : P state)
    : Sound (visitUpTo visitor limit s state) (Stream.visitUpTo model limit s state)
        (VisitHolds P Q) := by
  induction limit generalizing s state with
  | zero => exact .pure holds
  | succ limit ih =>
      simp only [visitUpTo, lift_bind clocked.next?_eq]
      match step : s.next? with
      | (none, rest) =>
          simp only [Stream.visitUpTo, step]
          exact .pure holds
      | (some (.error fault), rest) =>
          simp only [Stream.visitUpTo, step]
          have failed := (Stream.next?_error step).2.1
          exact .of_error fun ruleSet year same =>
            clocked.nextAfterYears_sound.searched ruleSet year (same ▸ failed)
      | (some (.ok t), rest) =>
          obtain ⟨_, found, _, rfl⟩ := Stream.next?_ok step
          have plain := clocked.nextAfterYears_sound.holds _ found t rfl
          have again : Clocked (s.advance t) := ⟨clocked.days, clocked.offset, plain.savings⟩
          obtain ⟨agrees, searched, held⟩ := visits state t holds plain
          simp only [Stream.visitUpTo, step, agrees]
          cases outcome : model state t with
          | error fault =>
              exact Sound.of_error fun ruleSet year same => searched ruleSet year (same ▸ outcome)
          | ok visited =>
              cases visited with
              | done result => exact .pure (held _ outcome)
              | running next => exact ih again (held _ outcome)

/-- A visit of all changes is computed as it is made if the visitor is. -/
theorem Clocked.visit_sound {σ ρ : Type} {P : σ → Prop} {Q : ρ → Prop}
    {visitor : σ → Transition → Machine (Stream.Visit σ ρ)}
    {model : σ → Transition → Except Fault (Stream.Visit σ ρ)}
    (visits
      : ∀ state t,
          P state → Plain t → Sound (visitor state t) (model state t) (VisitHolds P Q))
    (clocked : Clocked s) {state : σ} (holds : P state)
    : Sound (visit visitor s state) (s.visit model state) (VisitHolds P Q) :=
  clocked.visitUpTo_sound visits s.lengthBound holds

-----------------------------------------------------------------------------------------
-- The state at the start of a line
-----------------------------------------------------------------------------------------

/-- The last change at or before an instant and the first one after it. -/
def around (rules : RuleSet) (instant stdOffset : Int)
    : Machine (Option Transition × Option Transition) := do
  match ←
    visit (fun last t => of (RuleSet.splitAtInstant instant last t))
      (Stream.after rules beginningOfTime stdOffset 0) none with
  | .running last => pure (last, none)
  | .done (last, following) => pure (last, some following)

/-- Whether the clocks of the previous line put the next change of a recurrence at the instant. -/
def happenedBefore (r : Recurrence) (instant : Int) (previous : LineOffsets) : Machine Bool := do
  let next ← next r (Instant.saturate (instant - 1)) previous.stdOffset previous.savings
  pure (next.any (· ≤ instant))

/-- The state before any change, which the recurrences that save no time decide. -/
def initialState (rules : RuleSet) : Option RuleState := do
  let _ ← rules.recurrences.mapM fun r => clockSeconds r.save
  some rules.initialState

/-- The state at the start of a line, given the offsets at the end of the line before. -/
def stateAt (rules : RuleSet) (instant stdOffset : Int) (previous : Option LineOffsets)
    : Machine RuleState := do
  let initial ← initialState rules
  if instant = beginningOfTime then return initial
  let (last, following) ← around rules instant stdOffset
  let settled := (last.map Transition.state).getD initial
  match previous, following with
  | some offsets, some t =>
    match rules.recurrences[t.index]? with
    | some r => do
      let happened ← happenedBefore r instant offsets
      pure (if happened then t.state else settled)
    | none => pure settled
  | _, _ => pure settled

/-- Offsets that times of the clock last. -/
structure PlainOffsets (offsets : LineOffsets) : Prop where
  stdOffset : ClockTime.Lasts offsets.stdOffset
  savings : ClockTime.Lasts offsets.savings

/-- The changes around an instant are plain. -/
theorem around_sound (days : ∀ r ∈ rules.recurrences, r.DayInMonth)
    (offset : ClockTime.Lasts stdOffset) (instant : Int)
    : Sound (around rules instant stdOffset) (rules.around instant stdOffset)
        fun changes => (∀ t ∈ changes.1, Plain t) ∧ ∀ t ∈ changes.2, Plain t := by
  have clocked : Clocked (Stream.after rules beginningOfTime stdOffset 0) :=
    ⟨days, offset, ClockTime.lasts_zero⟩
  refine (clocked.visit_sound (P := fun last => ∀ t ∈ last, Plain t)
    (Q := fun result => (∀ t ∈ result.1, Plain t) ∧ Plain result.2)
    (fun last t earlier plain => .pure ?_) (by simp)).bind fun visited held => ?_
  · by_cases le : t.instant ≤ instant
    · rw [if_pos le]
      intro u member
      obtain rfl := Option.some.inj (Option.mem_def.mp member)
      exact plain
    · rw [if_neg le]
      exact ⟨earlier, plain⟩
  · cases visited with
    | running last => exact .pure ⟨held, by simp⟩
    | done result => exact .pure ⟨held.1, by simpa using held.2⟩

/-- The state before any change takes small amounts only. -/
theorem initialState_eq (rules : RuleSet) : initialState rules = some rules.initialState := by
  have saves
      : (rules.recurrences.mapM fun r => clockSeconds r.save)
        = some (rules.recurrences.map (·.save.seconds)) := by
    simp only [clockSeconds_eq]
    exact List.mapM_pure
  rw [initialState, saves]
  rfl

/-- Whether a change has happened before is found as it is searched for. -/
theorem happenedBefore_sound (day : r.DayInMonth) {previous : LineOffsets}
    (plain : PlainOffsets previous) (instant : Int)
    : Sound (happenedBefore r instant previous) (RuleSet.happenedBefore r instant previous)
        fun _ => True :=
  (next_sound day plain.stdOffset plain.savings _).bind fun _ _ => .pure trivial

/-- The state at the start of a line saves an amount that a time of the clock lasts. -/
theorem stateAt_sound (days : ∀ r ∈ rules.recurrences, r.DayInMonth)
    (offset : ClockTime.Lasts stdOffset) (instant : Int) {previous : Option LineOffsets}
    (plain : ∀ offsets ∈ previous, PlainOffsets offsets)
    : Sound (stateAt rules instant stdOffset previous) (rules.stateAt instant stdOffset previous)
        fun state => ClockTime.Lasts state.savings := by
  have initial : ClockTime.Lasts rules.initialState.savings := ClockTime.lasts_zero
  unfold stateAt RuleSet.stateAt
  rw [lift_bind (initialState_eq rules)]
  split
  · exact .pure initial
  · refine (around_sound days offset instant).bind fun (last, following) ⟨earlier, later⟩ => ?_
    have settled
        : ClockTime.Lasts ((last.map Transition.state).getD rules.initialState).savings := by
      cases last with
      | none => exact initial
      | some t => exact (earlier t rfl).savings
    dsimp only
    generalize (last.map Transition.state).getD rules.initialState = state at settled
    match previous, following with
    | none, _ => exact .pure settled
    | some _, none => exact .pure settled
    | some offsets, some t =>
        cases at_index : rules.recurrences[t.index]? with
        | none =>
            simp only [at_index]
            exact .pure settled
        | some r =>
            simp only [at_index]
            have day := days r (List.mem_of_getElem? at_index)
            refine (happenedBefore_sound day (plain offsets rfl) instant).bind
              fun happened _ => .pure ?_
            split
            · exact (later t rfl).savings
            · exact settled

end Machine

end CivilTime
