import CivilTime.Proofs.Rule.Candidates
import CivilTime.Proofs.Rule.Season

/-! One step of the merge is settled by what the searches of the recurrences find.
One pass over all recurrences, which keeps the least change so far and marks a tie, comes to the
same outcome as the step, which leaves out the recurrences that have ended. The order in which the
recurrences are stored has no part in it.
-/

namespace CivilTime

/-- A change without the position of its recurrence. -/
def Transition.unplaced (t : Transition) : Transition := { t with index := 0 }

namespace RuleSet

/-- The first change of a recurrence behind an instant in a year that it has not been used in. -/
def searchFresh (after stdOffset savings : Int) (r : Recurrence) (used : Option Int)
    : Except Fault (Option (Int × Int)) :=
  r.nextFromYear after stdOffset savings (freshYear r used)

/-- A change that a search has found, as the candidate of the recurrence at a position. -/
def candidateAt (index : Nat) (r : Recurrence) (change : Int × Int) : Candidate :=
  { instant := change.2, year := change.1, index, recurrence := r }

variable {after stdOffset savings : Int}

-----------------------------------------------------------------------------------------
-- One pass over all recurrences
-----------------------------------------------------------------------------------------

/-- The search of a recurrence that has ended a year in front of the cursor finds nothing, so it can
be left out. -/
theorem candidate?_eq_search (index : Nat) (r : Recurrence) (used : Option Int)
    : candidate? after stdOffset savings index r used
      = (searchFresh after stdOffset savings r used).map (·.map (candidateAt index r)) := by
  cases runs : r.endsBefore (Calendar.yearOf after - 1) with
  | false => exact candidate?_eq runs
  | true =>
      have ended := r.endsBefore_mono
        (show Calendar.yearOf after - 1
            ≤ max (max (Calendar.yearOf after - 1) r.firstYear) (freshYear r used) by omega) runs
      have nothing : searchFresh after stdOffset savings r used = .ok none := by
        rw [searchFresh, Recurrence.nextFromYear, show Recurrence.searchLimit = 499 + 1 from rfl,
          Recurrence.searchForward, ended]
        rfl
      rw [nothing]
      simp [candidate?, runs, Except.map]

/-- The least candidate so far, and whether another one shares its instant. -/
structure Lead where
  best : Option Candidate
  tied : Bool

/-- No candidate so far. -/
def Lead.none : Lead := { best := .none, tied := false }

/-- The lead behind another candidate. -/
def Lead.meet (lead : Lead) (c : Candidate) : Lead :=
  match lead.best with
  | .none => { best := some c, tied := false }
  | some b =>
    if b.instant = c.instant then { lead with tied := true }
    else if b.instant < c.instant then lead
    else { best := some c, tied := false }

/-- What a lead comes to at the end: a tie is refused. -/
def Lead.outcome (name : String) (lead : Lead) : Except Fault (Option Candidate) :=
  match lead.best with
  | .none => .ok .none
  | some c => if lead.tied then .error (.simultaneousTransitions name c.instant) else .ok (some c)

/-- Searches every recurrence from position `index` on, with the years last used. -/
def pass (after stdOffset savings : Int)
    : Nat → List Recurrence → List (Option Int) → Lead → Except Fault Lead
  | _, [], _, lead => .ok lead
  | index, r :: rest, used, lead => do
    let found ← searchFresh after stdOffset savings r used.head?.join
    pass after stdOffset savings (index + 1) rest used.tail
      (match found with
        | some change => lead.meet (candidateAt index r change)
        | none => lead)

/-- The first change after an instant by one pass over all recurrences. -/
def nextInOnePass (rules : RuleSet) (after stdOffset savings : Int) (used : List (Option Int))
    : Except Fault (Option Transition) := do
  let lead ← pass after stdOffset savings 0 rules.recurrences used .none
  let chosen ← lead.outcome rules.name
  pure (chosen.map Candidate.transition)

/-- A pass meets the candidates in order, by induction on the recurrences. -/
theorem pass_eq_candidates (index : Nat) (rs : List Recurrence) (used : List (Option Int))
    (lead : Lead)
    : pass after stdOffset savings index rs used lead
      = (candidates after stdOffset savings index rs used).map (·.foldl Lead.meet lead) := by
  induction rs generalizing index used lead with
  | nil => rfl
  | cons r rest ih =>
      simp only [pass, candidates, candidate?_eq_search]
      cases searchFresh after stdOffset savings r used.head?.join with
      | error fault => rfl
      | ok found =>
          cases others : candidates after stdOffset savings (index + 1) rest used.tail <;>
            cases found <;>
            simp [bind, Except.bind, Except.map, pure, Except.pure, ih, others]

/-- A lead sums up some candidates: the first of the least ones, and whether there are others. -/
def Lead.SumsUp (lead : Lead) (cs : List Candidate) : Prop :=
  match lead.best with
  | .none => cs = []
  | some c =>
    (∀ d ∈ cs, c.instant ≤ d.instant)
    ∧ ∃ others,
        cs.filter (·.instant == c.instant) = c :: others ∧ (lead.tied = true ↔ others ≠ [])

/-- Meeting a candidate sums it up with the others. A tie is found with a candidate that shares the
least instant, and superseded by one in front of it. -/
theorem Lead.SumsUp.meet {lead : Lead} {cs : List Candidate} (sums : lead.SumsUp cs) (c : Candidate)
    : (lead.meet c).SumsUp (cs ++ [c]) := by
  cases best : lead.best with
  | none =>
      simp only [SumsUp, best] at sums
      subst sums
      simp [Lead.meet, best, SumsUp]
  | some b =>
      simp only [SumsUp, best] at sums
      obtain ⟨least, others, filtered, tied⟩ := sums
      simp only [Lead.meet, best]
      rcases Int.lt_trichotomy b.instant c.instant with behind | same | front
      · rw [if_neg (by omega), if_pos behind]
        simp only [SumsUp, best, List.filter_append, filtered]
        refine ⟨fun d member => ?_, others, ?_, tied⟩
        · rcases List.mem_append.mp member with earlier | last
          · exact least d earlier
          · obtain rfl := List.mem_singleton.mp last
            omega
        · have apart : (c.instant == b.instant) = false := by simpa using by omega
          simp [apart]
      · rw [if_pos same]
        simp only [SumsUp, List.filter_append, filtered]
        refine ⟨fun d member => ?_, others ++ [c], ?_, by simp⟩
        · rcases List.mem_append.mp member with earlier | last
          · exact least d earlier
          · obtain rfl := List.mem_singleton.mp last
            omega
        · simp [same]
      · rw [if_neg (by omega), if_neg (by omega)]
        simp only [SumsUp, List.filter_append]
        refine ⟨fun d member => ?_, [], ?_, by simp⟩
        · rcases List.mem_append.mp member with earlier | last
          · have := least d earlier
            omega
          · obtain rfl := List.mem_singleton.mp last
            exact Int.le_refl _
        · have none_earlier : cs.filter (·.instant == c.instant) = [] := by
            refine List.filter_eq_nil_iff.mpr fun d member => ?_
            have := least d member
            simpa using by omega
          simp [none_earlier]

/-- The lead behind several candidates sums them up with those in front, by induction on them. -/
theorem Lead.SumsUp.foldl {lead : Lead} {cs : List Candidate} (sums : lead.SumsUp cs)
    (ds : List Candidate)
    : (ds.foldl Lead.meet lead).SumsUp (cs ++ ds) := by
  induction ds generalizing lead cs with
  | nil => simpa using sums
  | cons d rest ih => simpa using ih (sums.meet d)

/-- A lead comes to the choice from the candidates that it sums up. -/
theorem Lead.SumsUp.outcome_eq {lead : Lead} {cs : List Candidate} (sums : lead.SumsUp cs)
    (name : String)
    : lead.outcome name = choose name cs := by
  cases best : lead.best with
  | none =>
      simp only [SumsUp, best] at sums
      subst sums
      simp [Lead.outcome, best, choose, leastInstant?]
  | some c =>
      simp only [SumsUp, best] at sums
      obtain ⟨least, others, filtered, tied⟩ := sums
      have inside : c ∈ cs := (List.mem_filter.mp (filtered ▸ List.mem_cons_self ..)).1
      have least_eq : leastInstant? cs = some c.instant :=
        List.min?_eq_some_iff.mpr ⟨List.mem_map_of_mem inside, by simpa using least⟩
      simp only [Lead.outcome, best, choose, least_eq, filtered]
      cases others with
      | nil => simp [show lead.tied = false by simpa using tied]
      | cons d rest => simp [show lead.tied = true by simpa using tied]

/-- The step comes to the outcome of one pass over all recurrences. -/
theorem nextAfterYears_eq_onePass (rules : RuleSet) (after stdOffset savings : Int)
    (used : List (Option Int))
    : rules.nextAfterYears after stdOffset savings used
      = rules.nextInOnePass after stdOffset savings used := by
  simp only [nextAfterYears, nextInOnePass, pass_eq_candidates]
  cases candidates after stdOffset savings 0 rules.recurrences used with
  | error fault => rfl
  | ok cs =>
      have nothing : Lead.none.SumsUp [] := rfl
      have sums := (nothing.foldl cs).outcome_eq rules.name
      simp only [List.nil_append] at sums
      simp only [Except.map, bind, Except.bind, sums]

-----------------------------------------------------------------------------------------
-- What the searches find
-----------------------------------------------------------------------------------------

/-- The recurrences with the years in which they were last used, in order. -/
def entriesOf : List Recurrence → List (Option Int) → List (Recurrence × Option Int)
  | [], _ => []
  | r :: rest, used => (r, used.head?.join) :: entriesOf rest used.tail

/-- The recurrences of a rule set with the years in which they were last used. -/
def entries (rules : RuleSet) (used : List (Option Int)) : List (Recurrence × Option Int) :=
  entriesOf rules.recurrences used

/-- No search of a recurrence fails. -/
def Searched (rules : RuleSet) (after stdOffset savings : Int) (used : List (Option Int)) : Prop :=
  ∀ entry ∈ rules.entries used,
    ∃ found, searchFresh after stdOffset savings entry.1 entry.2 = .ok found

/-- The search of a recurrence at a position has found its change of a year at an instant. -/
def Finds (rules : RuleSet) (after stdOffset savings : Int) (used : List (Option Int))
    (r : Recurrence) (index : Nat) (year instant : Int)
    : Prop :=
  ∃ last,
    (rules.entries used)[index]? = some (r, last)
    ∧ searchFresh after stdOffset savings r last = .ok (some (year, instant))

/-- An entry holds the recurrence at its position and the year in which that was last used, by
induction on the recurrences. -/
theorem getElem?_entriesOf (rs : List Recurrence) (used : List (Option Int)) (index : Nat)
    : (entriesOf rs used)[index]? = rs[index]?.map fun r => (r, usedIn used index) := by
  induction rs generalizing used index with
  | nil => simp [entriesOf]
  | cons r rest ih =>
      cases index with
      | zero => simp [entriesOf, usedIn_zero]
      | succ index => simp [entriesOf, ih, usedIn_tail]

variable {rules : RuleSet} {used : List (Option Int)}

/-- A recurrence offers what its search has found. -/
theorem finds_iff_offers {r : Recurrence} {index : Nat} {year instant : Int}
    : rules.Finds after stdOffset savings used r index year instant
      ↔ rules.Offers after stdOffset savings used (candidateAt index r (year, instant)) := by
  simp only [Finds, Offers, entries, getElem?_entriesOf, candidateAt, Option.map_eq_some_iff,
    Prod.mk.injEq]
  constructor
  · rintro ⟨last, ⟨q, at_index, rfl, rfl⟩, found⟩
    refine ⟨q, at_index, ?_⟩
    rw [candidate?_eq_search, found]
    rfl
  · rintro ⟨q, at_index, offered⟩
    obtain ⟨found, _, same⟩ := nextFromYear_of_candidate? offered
    simp only at same
    subst same
    exact ⟨_, ⟨r, at_index, rfl, rfl⟩, found⟩

/-- What is offered has been found. -/
theorem Offers.finds {c : Candidate} (offers : rules.Offers after stdOffset savings used c)
    : rules.Finds after stdOffset savings used c.recurrence c.index c.year c.instant :=
  finds_iff_offers.mpr offers

/-- The recurrence at a position finds one change at most. -/
theorem Finds.unique {r q : Recurrence} {index : Nat} {a b t u : Int}
    (one : rules.Finds after stdOffset savings used r index a t)
    (other : rules.Finds after stdOffset savings used q index b u)
    : r = q ∧ a = b ∧ t = u := by
  have same := (finds_iff_offers.mp one).unique (finds_iff_offers.mp other) rfl
  simp only [candidateAt, Candidate.mk.injEq] at same
  exact ⟨same.2.2.2, same.2.1, same.1⟩

/-- Two recurrences share an instant, and none finds a change in front of it. -/
def TiedAt (rules : RuleSet) (after stdOffset savings : Int) (used : List (Option Int))
    (instant : Int)
    : Prop :=
  (∃ r q i j a b,
    i ≠ j
    ∧ rules.Finds after stdOffset savings used r i a instant
    ∧ rules.Finds after stdOffset savings used q j b instant)
  ∧ ∀ r index year t, rules.Finds after stdOffset savings used r index year t → instant ≤ t

/-- A change is the one that a recurrence has found, and all others come behind it. -/
def FirstAlone (rules : RuleSet) (after stdOffset savings : Int) (used : List (Option Int))
    (t : Transition)
    : Prop :=
  (∃ r,
    rules.Finds after stdOffset savings used r t.index t.year t.instant
    ∧ t.savings = r.savings
    ∧ t.letter = r.letter)
  ∧ ∀ r index year instant,
      rules.Finds after stdOffset savings used r index year instant
      → index ≠ t.index
      → t.instant < instant

/-- No recurrence finds a change. -/
def FindsNone (rules : RuleSet) (after stdOffset savings : Int) (used : List (Option Int)) : Prop :=
  ∀ r index year instant, ¬ rules.Finds after stdOffset savings used r index year instant

/-- Where no search fails, no recurrence fails to offer what its search finds. -/
theorem Searched.candidate?_ne_error (searched : rules.Searched after stdOffset savings used)
    {index position : Nat} {r : Recurrence} (at_index : rules.recurrences[index]? = some r)
    {fault : Fault}
    : candidate? after stdOffset savings position r (usedIn used index) ≠ .error fault := by
  have at_entry : (rules.entries used)[index]? = some (r, usedIn used index) := by
    simp [entries, getElem?_entriesOf, at_index]
  obtain ⟨found, outcome⟩ := searched _ (List.mem_of_getElem? at_entry)
  simp only at outcome
  rw [candidate?_eq_search, outcome]
  simp [Except.map]

/-- Where no search fails, the step refuses a tie, takes the change that comes first alone, or takes
nothing. -/
theorem Searched.nextAfterYears_cases (searched : rules.Searched after stdOffset savings used)
    : (∃ instant,
        rules.nextAfterYears after stdOffset savings used
          = .error (.simultaneousTransitions rules.name instant)
        ∧ rules.TiedAt after stdOffset savings used instant)
      ∨ (∃ t,
        rules.nextAfterYears after stdOffset savings used = .ok (some t)
        ∧ rules.FirstAlone after stdOffset savings used t)
      ∨ rules.nextAfterYears after stdOffset savings used = .ok none
        ∧ rules.FindsNone after stdOffset savings used := by
  cases outcome : rules.nextAfterYears after stdOffset savings used with
  | error fault =>
      refine .inl ?_
      rcases nextAfterYears_error outcome with ⟨c, d, c_offers, d_offers, apart, same, least, rfl⟩
        | ⟨index, r, at_index, failed⟩
      · exact ⟨c.instant, rfl,
          ⟨_, _, _, _, _, _, apart, c_offers.finds, by rw [same]; exact d_offers.finds⟩,
          fun r index year t finds => least _ (finds_iff_offers.mp finds)⟩
      · exact absurd failed (searched.candidate?_ne_error at_index)
  | ok result =>
      refine .inr ?_
      cases result with
      | some t =>
          obtain ⟨c, c_offers, rfl, least⟩ := nextAfterYears_some outcome
          refine .inl ⟨_, rfl, ⟨_, c_offers.finds, rfl, rfl⟩, ?_⟩
          intro r index year instant finds other
          refine least _ (finds_iff_offers.mp finds) fun same => other ?_
          rw [← same]
          rfl
      | none =>
          refine .inr ⟨rfl, fun r index year instant finds => ?_⟩
          obtain ⟨q, at_index, offered⟩ := finds_iff_offers.mp finds
          rw [nextAfterYears_none outcome at_index] at offered
          simp at offered

/-- A tie leaves no change that comes first alone. -/
theorem TiedAt.not_firstAlone {instant : Int} {t : Transition}
    (tied : rules.TiedAt after stdOffset savings used instant)
    : ¬ rules.FirstAlone after stdOffset savings used t := by
  rintro ⟨⟨_, found, _⟩, alone⟩
  obtain ⟨⟨r, q, i, j, a, b, apart, r_finds, q_finds⟩, least⟩ := tied
  have le := least _ _ _ _ found
  by_cases here : i = t.index
  · have := alone q j b instant q_finds (by omega)
    omega
  · have := alone r i a instant r_finds here
    omega

/-- There is one tied instant at most. -/
theorem TiedAt.unique {m n : Int} (one : rules.TiedAt after stdOffset savings used m)
    (other : rules.TiedAt after stdOffset savings used n)
    : m = n := by
  obtain ⟨⟨_, _, _, _, _, _, _, finds, _⟩, least⟩ := one
  obtain ⟨⟨_, _, _, _, _, _, _, finds', _⟩, least'⟩ := other
  have := least _ _ _ _ finds'
  have := least' _ _ _ _ finds
  omega

/-- One change at most comes first alone. -/
theorem FirstAlone.unique {t u : Transition}
    (one : rules.FirstAlone after stdOffset savings used t)
    (other : rules.FirstAlone after stdOffset savings used u)
    : t = u := by
  obtain ⟨⟨r, finds, savings_eq, letter_eq⟩, alone⟩ := one
  obtain ⟨⟨q, finds', savings_eq', letter_eq'⟩, alone'⟩ := other
  by_cases same : t.index = u.index
  · rw [same] at finds
    obtain ⟨rfl, year_eq, instant_eq⟩ := finds.unique finds'
    cases t
    cases u
    simp_all
  · have := alone _ _ _ _ finds' (fun equal => same equal.symm)
    have := alone' _ _ _ _ finds same
    omega

/-- Where nothing is found, nothing is tied. -/
theorem FindsNone.not_tiedAt {instant : Int}
    (nothing : rules.FindsNone after stdOffset savings used)
    : ¬ rules.TiedAt after stdOffset savings used instant := by
  rintro ⟨⟨_, _, _, _, _, _, _, finds, _⟩, _⟩
  exact nothing _ _ _ _ finds

/-- Where nothing is found, nothing comes first. -/
theorem FindsNone.not_firstAlone {t : Transition}
    (nothing : rules.FindsNone after stdOffset savings used)
    : ¬ rules.FirstAlone after stdOffset savings used t := by
  rintro ⟨⟨_, finds, _⟩, _⟩
  exact nothing _ _ _ _ finds

-----------------------------------------------------------------------------------------
-- The order in which the recurrences are stored
-----------------------------------------------------------------------------------------

/-- A candidate without its position. -/
def Candidate.unplaced (c : Candidate) : Candidate := { c with index := 0 }

/-- The candidate that an entry offers, without its position. -/
def offer? (after stdOffset savings : Int) (entry : Recurrence × Option Int) : Option Candidate :=
  (searchFresh after stdOffset savings entry.1 entry.2).toOption.join.map (candidateAt 0 entry.1)

/-- The candidates without their positions are what the entries offer, by induction on the
recurrences. -/
theorem candidates_unplaced {index : Nat} {rs : List Recurrence} {used : List (Option Int)}
    {cs : List Candidate} (found : candidates after stdOffset savings index rs used = .ok cs)
    : cs.map Candidate.unplaced
      = (entriesOf rs used).filterMap (offer? after stdOffset savings) := by
  induction rs generalizing index used cs with
  | nil =>
      simp only [candidates, Except.ok.injEq] at found
      simp [← found, entriesOf]
  | cons r rest ih =>
      obtain ⟨offered, others, head, tail, rfl⟩ := candidates_cons found
      rw [candidate?_eq_search] at head
      obtain ⟨result, searched, rfl⟩ := map_eq_ok.mp head
      rw [usedIn_zero] at searched
      rw [List.map_append, ih tail, entriesOf, List.filterMap_cons]
      cases result <;> simp [offer?, searched, Except.toOption, candidateAt, Candidate.unplaced]

/-- The choice does not depend on the positions of the candidates. -/
theorem choose_unplaced (name : String) (cs : List Candidate)
    : choose name (cs.map Candidate.unplaced)
      = (choose name cs).map (·.map Candidate.unplaced) := by
  have least_eq : leastInstant? (cs.map Candidate.unplaced) = leastInstant? cs := by
    simp [leastInstant?, Function.comp_def, Candidate.unplaced]
  cases least : leastInstant? cs with
  | none => simp [choose, least_eq, least, Except.map]
  | some instant =>
      have filtered
          : (cs.map Candidate.unplaced).filter (·.instant == instant)
            = (cs.filter (·.instant == instant)).map Candidate.unplaced :=
        List.filter_map
      simp only [choose, least_eq, least, filtered]
      generalize cs.filter (·.instant == instant) = chosen
      rcases chosen with _ | ⟨first, _ | ⟨second, others⟩⟩ <;> rfl

/-- The choice does not depend on the order of the candidates. -/
theorem choose_perm {xs ys : List Candidate} (perm : xs.Perm ys) (name : String)
    : choose name xs = choose name ys := by
  have least_eq : leastInstant? xs = leastInstant? ys := by
    refine Option.ext fun least => ?_
    simp only [leastInstant?, List.min?_eq_some_iff]
    rw [(perm.map _).mem_iff]
    exact and_congr_right fun _ => forall_congr' fun t => by rw [(perm.map _).mem_iff]
  cases least : leastInstant? ys with
  | none => simp [choose, least_eq, least]
  | some instant =>
      have filtered := perm.filter (·.instant == instant)
      simp only [choose, least_eq, least]
      split
      · rename_i c only
        rw [only] at filtered
        rw [← List.singleton_perm.mp filtered]
      · rename_i several
        split
        · rename_i c only
          rw [only] at filtered
          exact absurd (List.perm_singleton.mp filtered) (several c)
        · rfl

/-- Up to positions, the step is the choice from what the entries offer. -/
theorem Searched.nextAfterYears_unplaced (searched : rules.Searched after stdOffset savings used)
    : (rules.nextAfterYears after stdOffset savings used).map (·.map Transition.unplaced)
      = (choose rules.name ((rules.entries used).filterMap (offer? after stdOffset savings))).map
          (·.map Candidate.transition) := by
  cases all : candidates after stdOffset savings 0 rules.recurrences used with
  | error fault =>
      obtain ⟨n, r, at_n, failed⟩ := candidates_error all
      exact absurd failed (searched.candidate?_ne_error at_n)
  | ok cs =>
      rw [entries, ← candidates_unplaced all, choose_unplaced]
      simp only [nextAfterYears, all, bind, Except.bind]
      rcases choose rules.name cs with fault | _ | c <;> rfl

/-- Storing the recurrences in another order, with the years in which they were last used, leads to
the same outcome up to positions. -/
theorem Searched.nextAfterYears_perm (searched : rules.Searched after stdOffset savings used)
    {other : RuleSet} {used' : List (Option Int)} (name_eq : other.name = rules.name)
    (perm : (other.entries used').Perm (rules.entries used))
    : (other.nextAfterYears after stdOffset savings used').map (·.map Transition.unplaced)
      = (rules.nextAfterYears after stdOffset savings used).map (·.map Transition.unplaced) := by
  have searched' : other.Searched after stdOffset savings used' :=
    fun entry member => searched entry (perm.mem_iff.mp member)
  rw [searched'.nextAfterYears_unplaced, searched.nextAfterYears_unplaced, name_eq,
    choose_perm (perm.filterMap _)]

-----------------------------------------------------------------------------------------
-- The outcome of a step
-----------------------------------------------------------------------------------------

/-- Where no search fails, the step is refused exactly for a tie of the least instant, and otherwise
takes the change that comes first alone, if any is found. There is no other case. Storing the
recurrences in another order leads to the same outcome up to positions, and searching those that
have ended leads to the same outcome. -/
theorem Searched.nextAfterYears_settled (searched : rules.Searched after stdOffset savings used)
    : (∀ instant,
        rules.nextAfterYears after stdOffset savings used
            = .error (.simultaneousTransitions rules.name instant)
          ↔ rules.TiedAt after stdOffset savings used instant)
      ∧ (∀ t,
        rules.nextAfterYears after stdOffset savings used = .ok (some t)
          ↔ rules.FirstAlone after stdOffset savings used t)
      ∧ (rules.nextAfterYears after stdOffset savings used = .ok none
          ↔ rules.FindsNone after stdOffset savings used)
      ∧ ((∃ instant, rules.TiedAt after stdOffset savings used instant)
        ∨ (∃ t, rules.FirstAlone after stdOffset savings used t)
        ∨ rules.FindsNone after stdOffset savings used)
      ∧ (∀ (other : RuleSet) (used' : List (Option Int)),
        other.name = rules.name
        → (other.entries used').Perm (rules.entries used)
        → (other.nextAfterYears after stdOffset savings used').map (·.map Transition.unplaced)
          = (rules.nextAfterYears after stdOffset savings used).map (·.map Transition.unplaced))
      ∧ rules.nextAfterYears after stdOffset savings used
        = rules.nextInOnePass after stdOffset savings used := by
  have settled := searched.nextAfterYears_cases
  refine ⟨fun instant => ?_, fun t => ?_, ?_,
    settled.imp (fun ⟨m, _, tied⟩ => ⟨m, tied⟩) (.imp (fun ⟨u, _, first⟩ => ⟨u, first⟩) And.right),
    fun other used' => searched.nextAfterYears_perm,
    rules.nextAfterYears_eq_onePass after stdOffset savings used⟩
  all_goals
    rcases settled with ⟨m, outcome, tied⟩ | ⟨u, outcome, first⟩
        | ⟨outcome, nothing⟩
      <;> rw [outcome]
  -- A tie is the only reason for a refusal.
  · simp only [Except.error.injEq, Fault.simultaneousTransitions.injEq, true_and]
    exact ⟨fun same => same ▸ tied, tied.unique⟩
  · simpa using fun tied : rules.TiedAt after stdOffset savings used instant =>
      tied.not_firstAlone first
  · simpa using nothing.not_tiedAt
  -- What is taken comes first alone.
  · simpa using tied.not_firstAlone
  · simp only [Except.ok.injEq, Option.some.injEq]
    exact ⟨fun same => same ▸ first, first.unique⟩
  · simpa using nothing.not_firstAlone
  -- Nothing is taken where nothing is found.
  · simpa using fun nothing : rules.FindsNone after stdOffset savings used =>
      nothing.not_tiedAt tied
  · simpa using fun nothing : rules.FindsNone after stdOffset savings used =>
      nothing.not_firstAlone first
  · simpa using nothing

end RuleSet

/-- After summer time of 2000 has begun, the change of autumn comes first alone, and storing it in
front leads to the same outcome up to positions. -/
theorem summerRules_step_settled
    : summerRules.Searched 952844400 (-18000) 3600 [some 2000, none]
      ∧ summerRules.FirstAlone 952844400 (-18000) 3600 [some 2000, none]
        { instant := 973404000, year := 2000, savings := 0, letter := some "S", index := 1 }
      ∧ (RuleSet.nextAfterYears { summerRules with recurrences := summerRules.recurrences.reverse }
            952844400 (-18000) 3600 [none, some 2000]).map (·.map Transition.unplaced)
        = (summerRules.nextAfterYears 952844400 (-18000) 3600 [some 2000, none]).map
            (·.map Transition.unplaced) := by
  have searched : summerRules.Searched 952844400 (-18000) 3600 [some 2000, none] := by
    intro entry member
    simp only [RuleSet.entries, RuleSet.entriesOf, summerRules, List.mem_cons, List.not_mem_nil,
      or_false] at member
    rcases member with rfl | rfl
    · exact ⟨some (2001, 984290400), mem_toOption.mp (by decide +kernel)⟩
    · exact ⟨some (2000, 973404000), mem_toOption.mp (by decide +kernel)⟩
  refine ⟨searched, (RuleSet.Searched.nextAfterYears_settled searched).2.1 _ |>.mp ?_,
    (RuleSet.Searched.nextAfterYears_settled searched).2.2.2.2.1 _ _ rfl (List.Perm.swap ..)⟩
  exact mem_toOption.mp (by decide +kernel)

end CivilTime
