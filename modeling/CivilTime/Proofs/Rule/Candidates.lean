import CivilTime.Proofs.Outcome
import CivilTime.Proofs.Rule.Search
import CivilTime.Rule.RuleSet

/-! One step of the merge takes the least change that any recurrence offers.
A recurrence offers its first change behind the cursor in a year that it has not been used in. The
step fails only where two recurrences offer the least instant, or where a search has failed.
-/

namespace CivilTime.RuleSet

/-- The year in which the recurrence at a position was last used. -/
def usedIn (used : List (Option Int)) (index : Nat) : Option Int := used[index]?.join

/-- A recurrence last used in the given year has not been used in a year. -/
def Fresh (used : Option Int) (year : Int) : Prop := ∀ last, used = some last → last < year

/-- The first year in which a recurrence has not been used. -/
def freshYear (r : Recurrence) : Option Int → Int
  | some year => year + 1
  | none => r.firstYear

-----------------------------------------------------------------------------------------
-- The candidate of one recurrence
-----------------------------------------------------------------------------------------

section Candidate

variable {after stdOffset savings : Int} {index : Nat} {r : Recurrence} {used : Option Int}

/-- A year of a recurrence is fresh from the first fresh year on. -/
theorem freshYear_le {year : Int} (first : r.firstYear ≤ year) (fresh : Fresh used year)
    : freshYear r used ≤ year := by
  cases used with
  | none => exact first
  | some last => exact fresh last rfl

/-- The candidate of a recurrence that has not ended is the outcome of its search. -/
theorem candidate?_eq (runs : r.endsBefore (Calendar.yearOf after - 1) = false)
    : candidate? after stdOffset savings index r used
      = (r.nextFromYear after stdOffset savings (freshYear r used)).map
          (·.map fun (year, instant) => { instant, year, index, recurrence := r }) := by
  cases used <;> simp [candidate?, runs, freshYear]

/-- A candidate stands for what the search of its recurrence has found. -/
theorem nextFromYear_of_candidate? {c : Candidate}
    (found : candidate? after stdOffset savings index r used = .ok (some c))
    : r.nextFromYear after stdOffset savings (freshYear r used) = .ok (some (c.year, c.instant))
      ∧ c.index = index
      ∧ c.recurrence = r := by
  cases runs : r.endsBefore (Calendar.yearOf after - 1) with
  | true => simp [candidate?, runs] at found
  | false =>
      rw [candidate?_eq runs] at found
      obtain ⟨result, outcome, same⟩ := map_eq_ok.mp found
      obtain ⟨change, rfl, rfl⟩ := Option.map_eq_some_iff.mp same
      exact ⟨outcome, rfl, rfl⟩

/-- A candidate is a change of its recurrence behind the cursor, in a fresh year. -/
theorem candidate?_some {c : Candidate}
    (found : candidate? after stdOffset savings index r used = .ok (some c))
    : r.AppliesTo c.year
      ∧ Fresh used c.year
      ∧ c.instant = r.instantIn c.year stdOffset savings
      ∧ after < c.instant := by
  have spec := Recurrence.searchForward_some (nextFromYear_of_candidate? found).1
  have start := spec.from_start
  have supported := Calendar.yearOf_range after
  refine ⟨⟨by omega, by omega, spec.runs, spec.supported⟩, ?_, spec.instant_eq, spec.behind⟩
  intro last same
  subst same
  simp only [freshYear] at start
  omega

/-- A candidate comes in the first fresh year with a change behind the cursor. -/
theorem candidate?_first (day : r.DayInMonth) (prompt : r.Prompt stdOffset savings) {c : Candidate}
    (found : candidate? after stdOffset savings index r used = .ok (some c)) {year : Int}
    (applies : r.AppliesTo year) (fresh : Fresh used year)
    (behind : after < r.instantIn year stdOffset savings)
    : c.year ≤ year :=
  Recurrence.nextFromYear_first day prompt (nextFromYear_of_candidate? found).1 applies
    (freshYear_le applies.1 fresh) behind

/-- A recurrence without a candidate has no change behind the cursor in a fresh year. -/
theorem candidate?_none (day : r.DayInMonth) (prompt : r.Prompt stdOffset savings)
    (found : candidate? after stdOffset savings index r used = .ok none) {year : Int}
    (applies : r.AppliesTo year) (fresh : Fresh used year)
    : r.instantIn year stdOffset savings ≤ after := by
  cases runs : r.endsBefore (Calendar.yearOf after - 1) with
  | true =>
      refine Recurrence.instantIn_le_of_lt_yearOf day prompt applies.2.1 ?_
      rcases Int.lt_or_le year (Calendar.yearOf after - 1) with lt | le
      · exact lt
      · have ended := r.endsBefore_mono le runs
        rw [applies.2.2.1] at ended
        exact absurd ended (by decide)
  | false =>
      rw [candidate?_eq runs] at found
      obtain ⟨result, outcome, same⟩ := map_eq_ok.mp found
      rw [Option.map_eq_none_iff.mp same] at outcome
      exact Recurrence.nextFromYear_none day prompt outcome applies
        (freshYear_le applies.1 fresh)

/-- A recurrence whose search stays within its limit has a candidate or has none. -/
theorem candidate?_ok (after : Int) (index : Nat) (used : Option Int) (day : r.DayInMonth)
    (reach : -707824665 ≤ r.time.universalSeconds stdOffset savings)
    : ∃ c, candidate? after stdOffset savings index r used = .ok c := by
  cases runs : r.endsBefore (Calendar.yearOf after - 1) with
  | true => exact ⟨none, by simp [candidate?, runs]⟩
  | false =>
      obtain ⟨found, outcome⟩ := Recurrence.nextFromYear_ok day reach after (freshYear r used)
      rw [candidate?_eq runs, outcome]
      exact ⟨_, rfl⟩

end Candidate

-----------------------------------------------------------------------------------------
-- The candidates of all recurrences
-----------------------------------------------------------------------------------------

variable {after stdOffset savings : Int}

/-- The recurrence at the position of a candidate offers it. -/
def Offers (rules : RuleSet) (after stdOffset savings : Int) (used : List (Option Int))
    (c : Candidate)
    : Prop :=
  ∃ r,
    rules.recurrences[c.index]? = some r
    ∧ candidate? after stdOffset savings c.index r (usedIn used c.index) = .ok (some c)

/-- The first entry of the years last used belongs to the first recurrence. -/
theorem usedIn_zero (used : List (Option Int)) : usedIn used 0 = used.head?.join := by
  rw [usedIn, List.head?_eq_getElem?]

/-- The other entries of the years last used belong to the other recurrences. -/
theorem usedIn_tail (used : List (Option Int)) (n : Nat)
    : usedIn used.tail n = usedIn used (n + 1) := by
  rw [usedIn, usedIn, List.getElem?_tail]

/-- The candidates of a list are those of its first recurrence and of the others. -/
theorem candidates_cons {index : Nat} {first : Recurrence} {rest : List Recurrence}
    {used : List (Option Int)} {cs : List Candidate}
    (found : candidates after stdOffset savings index (first :: rest) used = .ok cs)
    : ∃ offered others,
        candidate? after stdOffset savings index first (usedIn used 0) = .ok offered
        ∧ candidates after stdOffset savings (index + 1) rest used.tail = .ok others
        ∧ cs = offered.toList ++ others := by
  rw [usedIn_zero]
  obtain ⟨offered, head, found⟩ := bind_eq_ok.mp found
  obtain ⟨others, tail, found⟩ := bind_eq_ok.mp found
  exact ⟨offered, others, head, tail, (pure_eq_ok.mp found).symm⟩

/-- A recurrence offers one change at most. -/
theorem Offers.unique {rules : RuleSet} {used : List (Option Int)} {c d : Candidate}
    (one : rules.Offers after stdOffset savings used c)
    (other : rules.Offers after stdOffset savings used d) (same : c.index = d.index)
    : c = d := by
  obtain ⟨r, at_c, offered⟩ := one
  obtain ⟨q, at_d, again⟩ := other
  rw [← same, at_c, Option.some.injEq] at at_d
  rw [← same, ← at_d, offered] at again
  simpa using again

/-- The candidates of a list have been searched for without a failure, by induction on the list. -/
theorem candidates_found {index : Nat} {rs : List Recurrence} {used : List (Option Int)}
    {cs : List Candidate}
    (found : candidates after stdOffset savings index rs used = .ok cs) {n : Nat}
    {r : Recurrence} (at_n : rs[n]? = some r)
    : ∃ c,
        candidate? after stdOffset savings (index + n) r (usedIn used n) = .ok c
        ∧ c.toList ⊆ cs := by
  induction rs generalizing index used cs n with
  | nil => simp at at_n
  | cons first rest ih =>
      obtain ⟨offered, others, head, tail, rfl⟩ := candidates_cons found
      cases n with
      | zero =>
          simp only [List.getElem?_cons_zero, Option.some.injEq] at at_n
          subst at_n
          exact ⟨offered, head, fun x member => List.mem_append_left _ member⟩
      | succ n =>
          obtain ⟨c, same, member⟩ := ih tail at_n
          refine ⟨c, ?_, fun x inside => List.mem_append_right _ (member inside)⟩
          rw [← same, usedIn_tail, Nat.add_right_comm, Nat.add_assoc]

/-- The candidates of a list come from its recurrences, by induction on the list. -/
theorem mem_candidates {index : Nat} {rs : List Recurrence} {used : List (Option Int)}
    {cs : List Candidate}
    (found : candidates after stdOffset savings index rs used = .ok cs) {c : Candidate}
    (member : c ∈ cs)
    : ∃ n r,
        rs[n]? = some r
        ∧ c.index = index + n
        ∧ candidate? after stdOffset savings (index + n) r (usedIn used n) = .ok (some c) := by
  induction rs generalizing index used cs with
  | nil =>
      simp only [candidates, Except.ok.injEq] at found
      simp [← found] at member
  | cons first rest ih =>
      obtain ⟨offered, others, head, tail, rfl⟩ := candidates_cons found
      rcases List.mem_append.mp member with here | later
      · have same := Option.mem_toList.mp here
        subst same
        exact ⟨0, first, rfl, (nextFromYear_of_candidate? head).2.1, head⟩
      · obtain ⟨n, r, at_n, place, same⟩ := ih tail later
        refine ⟨n + 1, r, at_n, by omega, ?_⟩
        rw [← same, usedIn_tail, Nat.add_right_comm, Nat.add_assoc]

/-- The candidates of a list come in the order of its recurrences, by induction on the list. -/
theorem candidates_pairwise {index : Nat} {rs : List Recurrence} {used : List (Option Int)}
    {cs : List Candidate} (found : candidates after stdOffset savings index rs used = .ok cs)
    : cs.Pairwise fun c d => c.index < d.index := by
  induction rs generalizing index used cs with
  | nil =>
      simp only [candidates, Except.ok.injEq] at found
      simp [← found]
  | cons first rest ih =>
      obtain ⟨offered, others, head, tail, rfl⟩ := candidates_cons found
      cases offered with
      | none => exact ih tail
      | some c =>
          refine List.pairwise_cons.mpr ⟨fun d later => ?_, ih tail⟩
          obtain ⟨n, _, _, place, _⟩ := mem_candidates tail later
          have := (nextFromYear_of_candidate? head).2.1
          omega

/-- The candidates of a list fail to be found only where one search fails, by induction on the
list. -/
theorem candidates_error {index : Nat} {rs : List Recurrence} {used : List (Option Int)}
    {fault : Fault}
    (failed : candidates after stdOffset savings index rs used = .error fault)
    : ∃ n r,
        rs[n]? = some r
        ∧ candidate? after stdOffset savings (index + n) r (usedIn used n) = .error fault := by
  induction rs generalizing index used with
  | nil => simp [candidates] at failed
  | cons first rest ih =>
      rcases bind_eq_error.mp failed with head | ⟨offered, _, failed⟩
      · refine ⟨0, first, rfl, ?_⟩
        rw [usedIn_zero]
        exact head
      · rcases bind_eq_error.mp failed with tail | ⟨others, _, failed⟩
        · obtain ⟨n, r, at_n, same⟩ := ih tail
          refine ⟨n + 1, r, at_n, ?_⟩
          rw [← same, usedIn_tail, Nat.add_right_comm, Nat.add_assoc]
        · exact absurd failed pure_ne_error

-----------------------------------------------------------------------------------------
-- The choice of the least candidate
-----------------------------------------------------------------------------------------

/-- The least instant is the instant of a candidate, and none lies in front of it. -/
theorem leastInstant?_some {cs : List Candidate} {least : Int}
    (found : leastInstant? cs = some least)
    : (∃ c ∈ cs, c.instant = least) ∧ ∀ c ∈ cs, least ≤ c.instant := by
  obtain ⟨member, le⟩ := List.min?_eq_some_iff.mp found
  exact ⟨by simpa using member, fun c inside => le _ (List.mem_map_of_mem inside)⟩

/-- There is no least instant only without candidates. -/
theorem leastInstant?_none {cs : List Candidate} (found : leastInstant? cs = none) : cs = [] := by
  simpa [leastInstant?] using found

/-- The chosen candidate lies in front of all others. -/
theorem choose_some {name : String} {cs : List Candidate} {c : Candidate}
    (found : choose name cs = .ok (some c))
    : c ∈ cs ∧ ∀ d ∈ cs, d ≠ c → c.instant < d.instant := by
  cases least : leastInstant? cs with
  | none => simp [choose, least] at found
  | some instant =>
      simp only [choose, least] at found
      split at found
      · rename_i chosen only
        simp only [Except.ok.injEq, Option.some.injEq] at found
        subst found
        have here : chosen ∈ cs.filter (·.instant == instant) := by simp [only]
        obtain ⟨member, same⟩ := List.mem_filter.mp here
        simp only [beq_iff_eq] at same
        refine ⟨member, fun d inside other => ?_⟩
        have le := (leastInstant?_some least).2 d inside
        rcases Int.lt_or_eq_of_le le with lt | tie
        · omega
        · have : d ∈ cs.filter (·.instant == instant) :=
            List.mem_filter.mpr ⟨inside, by simp [tie]⟩
          rw [only] at this
          exact absurd (List.mem_singleton.mp this) other
      · simp at found

/-- Nothing is chosen only without candidates. -/
theorem choose_none {name : String} {cs : List Candidate} (found : choose name cs = .ok none)
    : cs = [] := by
  cases least : leastInstant? cs with
  | none => exact leastInstant?_none least
  | some instant =>
      simp only [choose, least] at found
      split at found <;> simp at found

/-- The choice fails only where two candidates share the least instant. -/
theorem choose_error {name : String} {cs : List Candidate} {fault : Fault}
    (distinct : cs.Nodup) (failed : choose name cs = .error fault)
    : ∃ c ∈ cs, ∃ d ∈ cs,
        c ≠ d
        ∧ c.instant = d.instant
        ∧ (∀ e ∈ cs, c.instant ≤ e.instant)
        ∧ fault = .simultaneousTransitions name c.instant := by
  cases least : leastInstant? cs with
  | none => simp [choose, least] at failed
  | some instant =>
      obtain ⟨⟨first, inside, same⟩, le⟩ := leastInstant?_some least
      have shared : first ∈ cs.filter (·.instant == instant) :=
        List.mem_filter.mpr ⟨inside, by simp [same]⟩
      simp only [choose, least] at failed
      split at failed
      · simp at failed
      · rename_i several
        simp only [Except.error.injEq] at failed
        match matching : cs.filter (·.instant == instant) with
        | [] => simp [matching] at shared
        | [c] => exact absurd matching (several c)
        | c :: d :: rest =>
            have c_in : c ∈ cs.filter (·.instant == instant) := by simp [matching]
            have d_in : d ∈ cs.filter (·.instant == instant) := by simp [matching]
            obtain ⟨c_member, c_same⟩ := List.mem_filter.mp c_in
            obtain ⟨d_member, d_same⟩ := List.mem_filter.mp d_in
            simp only [beq_iff_eq] at c_same d_same
            have once := distinct.filter (·.instant == instant)
            rw [matching] at once
            refine ⟨c, c_member, d, d_member, ?_, by omega, fun e member => ?_, ?_⟩
            · intro equal
              simp [equal] at once
            · rw [c_same]
              exact le e member
            · rw [c_same, failed]

-----------------------------------------------------------------------------------------
-- One step of the merge
-----------------------------------------------------------------------------------------

variable {rules : RuleSet} {used : List (Option Int)}

/-- The candidates of a rule set are what its recurrences offer. -/
theorem mem_candidates_iff {cs : List Candidate}
    (found : candidates after stdOffset savings 0 rules.recurrences used = .ok cs) (c : Candidate)
    : c ∈ cs ↔ rules.Offers after stdOffset savings used c := by
  constructor
  · intro member
    obtain ⟨n, r, at_n, place, offered⟩ := mem_candidates found member
    simp only [Nat.zero_add] at place offered
    subst place
    exact ⟨r, at_n, offered⟩
  · rintro ⟨r, at_index, offered⟩
    obtain ⟨d, same, member⟩ := candidates_found found at_index
    simp only [Nat.zero_add, offered, Except.ok.injEq] at same
    subst same
    exact member (by simp)

/-- A step takes the one offered change that lies in front of all others. -/
theorem nextAfterYears_some {t : Transition}
    (found : rules.nextAfterYears after stdOffset savings used = .ok (some t))
    : ∃ c,
        rules.Offers after stdOffset savings used c
        ∧ t = c.transition
        ∧ ∀ d, rules.Offers after stdOffset savings used d → d ≠ c → c.instant < d.instant := by
  obtain ⟨cs, all, found⟩ := bind_eq_ok.mp found
  obtain ⟨chosen, chosen_eq, found⟩ := bind_eq_ok.mp found
  obtain ⟨c, rfl, same⟩ := Option.map_eq_some_iff.mp (pure_eq_ok.mp found)
  obtain ⟨member, least⟩ := choose_some chosen_eq
  refine ⟨c, (mem_candidates_iff all c).mp member, same.symm, fun d offered other => ?_⟩
  exact least d ((mem_candidates_iff all d).mpr offered) other

/-- A step takes nothing only where no recurrence offers a change. -/
theorem nextAfterYears_none (found : rules.nextAfterYears after stdOffset savings used = .ok none)
    {index : Nat} {r : Recurrence} (at_index : rules.recurrences[index]? = some r)
    : candidate? after stdOffset savings index r (usedIn used index) = .ok none := by
  obtain ⟨cs, all, found⟩ := bind_eq_ok.mp found
  obtain ⟨chosen, chosen_eq, found⟩ := bind_eq_ok.mp found
  have none_chosen := Option.map_eq_none_iff.mp (pure_eq_ok.mp found)
  subst none_chosen
  obtain ⟨c, same, member⟩ := candidates_found all at_index
  rw [choose_none chosen_eq] at member
  rw [Nat.zero_add] at same
  cases c with
  | none => exact same
  | some c => exact absurd (member (List.mem_singleton.mpr rfl)) List.not_mem_nil

/-- A step fails only where two recurrences offer the least instant, or where the search of a
recurrence fails. -/
theorem nextAfterYears_error {fault : Fault}
    (failed : rules.nextAfterYears after stdOffset savings used = .error fault)
    : (∃ c d,
        rules.Offers after stdOffset savings used c
        ∧ rules.Offers after stdOffset savings used d
        ∧ c.index ≠ d.index
        ∧ c.instant = d.instant
        ∧ (∀ e, rules.Offers after stdOffset savings used e → c.instant ≤ e.instant)
        ∧ fault = .simultaneousTransitions rules.name c.instant)
      ∨ ∃ index r,
          rules.recurrences[index]? = some r
          ∧ candidate? after stdOffset savings index r (usedIn used index) = .error fault := by
  rcases bind_eq_error.mp failed with failed | ⟨cs, all, failed⟩
  · obtain ⟨n, r, at_n, same⟩ := candidates_error failed
    exact .inr ⟨n, r, at_n, by simpa using same⟩
  · rcases bind_eq_error.mp failed with failed | ⟨chosen, _, failed⟩
    · have order := candidates_pairwise all
      have distinct : cs.Nodup := order.imp fun lt same => by simp [same] at lt
      obtain ⟨c, c_in, d, d_in, other, tie, least, same⟩ := choose_error distinct failed
      have c_offered := (mem_candidates_iff all c).mp c_in
      have d_offered := (mem_candidates_iff all d).mp d_in
      refine .inl ⟨c, d, c_offered, d_offered, fun place => other ?_, tie,
        fun e offered => least e ((mem_candidates_iff all e).mpr offered), same⟩
      exact c_offered.unique d_offered place
    · exact absurd failed pure_ne_error

end CivilTime.RuleSet
