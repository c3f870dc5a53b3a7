import CivilTime.Proofs.Rule.Order

/-! What keeps a stream of changes going.
The searches of its recurrences never give up as long as no time of day is too far from midnight,
so it only fails where two recurrences coincide. As long as its changes leave the saved time as it
is, every change that is due is made.
-/

namespace CivilTime

namespace ClockTime

/-- The hours of a time of the clock have sixteen bits, its minutes and seconds eight each. -/
theorem seconds_bounds (t : ClockTime) : -235941555 ≤ t.seconds ∧ t.seconds ≤ 235941555 := by
  have := t.hour_le
  have := t.minute_le
  have := t.second_le
  simp only [seconds]
  split <;> omega

end ClockTime

/-- Three times of the clock decide how far a time of day lies from midnight. -/
theorem TimeOfDay.universalSeconds_bounds (t : TimeOfDay) {stdOffset savings : Int}
    (offset_bounds : -235941555 ≤ stdOffset ∧ stdOffset ≤ 235941555)
    (savings_bounds : -235941555 ≤ savings ∧ savings ≤ 235941555)
    : -707824665 ≤ t.universalSeconds stdOffset savings
      ∧ t.universalSeconds stdOffset savings ≤ 707824665 := by
  have := t.time.seconds_bounds
  unfold universalSeconds
  split <;> omega

namespace RuleSet

/-- Two recurrences change the clock at an instant, computed with the same one of the given amounts
of saved time. -/
def Coincide (rules : RuleSet) (stdOffset : Int) (amounts : Int → Prop) (instant : Int) : Prop :=
  ∃ (i j : Nat) (r q : Recurrence) (a b savings : Int),
    i ≠ j
    ∧ rules.recurrences[i]? = some r
    ∧ rules.recurrences[j]? = some q
    ∧ r.AppliesTo a
    ∧ q.AppliesTo b
    ∧ amounts savings
    ∧ r.instantIn a stdOffset savings = instant
    ∧ q.instantIn b stdOffset savings = instant

/-- The recurrences change the clock on days of their months, not too far from midnight under the
given amounts of saved time, which are all that they bring. -/
structure Searchable (rules : RuleSet) (stdOffset : Int) (amounts : Int → Prop) : Prop where
  day : ∀ r ∈ rules.recurrences, r.DayInMonth
  reach
    : ∀ r ∈ rules.recurrences, ∀ savings,
        amounts savings
        → -707824665 ≤ r.time.universalSeconds stdOffset savings
          ∧ r.time.universalSeconds stdOffset savings ≤ 707824665
  closed : ∀ r ∈ rules.recurrences, amounts r.savings

variable {rules : RuleSet} {after stdOffset savings : Int} {used : List (Option Int)}

/-- A step fails only where two recurrences coincide. -/
theorem Searchable.nextAfterYears_error {amounts : Int → Prop}
    (searchable : rules.Searchable stdOffset amounts) (amount : amounts savings) {fault : Fault}
    (failed : rules.nextAfterYears after stdOffset savings used = .error fault)
    : ∃ instant,
        fault = .simultaneousTransitions rules.name instant
        ∧ rules.Coincide stdOffset amounts instant := by
  rcases RuleSet.nextAfterYears_error failed with tie | ⟨index, r, at_index, failed⟩
  · obtain ⟨c, d, ⟨r, at_c, c_offered⟩, ⟨q, at_d, d_offered⟩, other, same, _, rfl⟩ := tie
    obtain ⟨c_applies, _, c_instant, _⟩ := candidate?_some c_offered
    obtain ⟨d_applies, _, d_instant, _⟩ := candidate?_some d_offered
    exact ⟨c.instant, rfl, c.index, d.index, r, q, c.year, d.year, savings, other, at_c, at_d,
      c_applies, d_applies, amount, c_instant.symm, by rw [same, d_instant]⟩
  · have member := List.mem_of_getElem? at_index
    obtain ⟨c, found⟩ := candidate?_ok after index (usedIn used index)
      (searchable.day r member) (searchable.reach r member savings amount).1
    rw [failed] at found
    simp at found

/-- Where a step succeeds, the search of each recurrence has. -/
theorem candidate?_of_nextAfterYears {result : Option Transition}
    (found : rules.nextAfterYears after stdOffset savings used = .ok result) {index : Nat}
    {q : Recurrence} (at_index : rules.recurrences[index]? = some q)
    : ∃ c, candidate? after stdOffset savings index q (usedIn used index) = .ok c := by
  obtain ⟨cs, all, _⟩ := bind_eq_ok.mp found
  obtain ⟨c, same, _⟩ := candidates_found all at_index
  exact ⟨c, by simpa using same⟩

/-- A step that succeeds takes a change that comes no later than any change that is due. -/
theorem nextAfterYears_le {result : Option Transition}
    (found : rules.nextAfterYears after stdOffset savings used = .ok result) {index : Nat}
    {q : Recurrence} (at_index : rules.recurrences[index]? = some q) (day : q.DayInMonth)
    (prompt : q.Prompt stdOffset savings) {year : Int} (applies : q.AppliesTo year)
    (fresh : Fresh (usedIn used index) year) (behind : after < q.instantIn year stdOffset savings)
    : ∃ t,
        result = some t
        ∧ t.instant ≤ q.instantIn year stdOffset savings
        ∧ (t.index ≠ index → t.instant < q.instantIn year stdOffset savings) := by
  obtain ⟨offered, searched⟩ := candidate?_of_nextAfterYears found at_index
  cases offered with
  | none =>
      have := candidate?_none day prompt searched applies fresh
      omega
  | some d =>
      have place := (nextFromYear_of_candidate? searched).2.1
      have d_year := candidate?_first day prompt searched applies fresh behind
      have d_instant := (candidate?_some searched).2.2.1
      have d_le : d.instant ≤ q.instantIn year stdOffset savings := by
        rcases Int.lt_or_eq_of_le d_year with lt | same
        · have := q.instantIn_lt stdOffset savings lt
          omega
        · exact Int.le_of_eq (d_instant.trans (by rw [same]))
      cases result with
      | none =>
          have none_offered := nextAfterYears_none found at_index
          rw [searched] at none_offered
          simp at none_offered
      | some t =>
          obtain ⟨c, _, rfl, least⟩ := nextAfterYears_some found
          have d_offers : rules.Offers after stdOffset savings used d :=
            ⟨q, by rw [place]; exact at_index, by rw [place]; exact searched⟩
          refine ⟨_, rfl, ?_, fun other => ?_⟩
          · by_cases same : d = c
            · rw [same] at d_le
              exact d_le
            · have := least d d_offers same
              simp only [Candidate.transition]
              omega
          · have different : d ≠ c := fun same => other (by rw [← same]; exact place)
            have := least d d_offers different
            simp only [Candidate.transition]
            omega

end RuleSet

namespace Stream

variable {s : Stream} {amounts : Int → Prop}

/-- A stream of a searchable rule set fails only where two recurrences coincide, by induction on its
items. -/
theorem Sized.coincide_of_error (sized : s.Sized)
    (searchable : s.rules.Searchable s.stdOffset amounts) (amount : amounts s.savings)
    {fault : Fault} (member : .error fault ∈ s.items)
    : ∃ instant,
        fault = .simultaneousTransitions s.rules.name instant
        ∧ s.rules.Coincide s.stdOffset amounts instant := by
  generalize items_eq : s.items = items at member
  induction items generalizing s with
  | nil => simp at member
  | cons item others ih =>
      obtain ⟨rest, step, same, again, _⟩ := sized.of_items_cons items_eq
      cases item with
      | error failure =>
          have none_left := sized.items_cons step
          rw [(sized.transitions_error step).1, List.cons.injEq] at none_left
          rw [← same, ← none_left.2, List.mem_singleton, Except.error.injEq] at member
          rw [member]
          exact searchable.nextAfterYears_error amount (next?_error step).2.1
      | ok t =>
          obtain ⟨_, found, _, rfl⟩ := next?_ok step
          obtain ⟨r, makes⟩ := makes_of_nextAfterYears found
          have brought : amounts (s.advance t).savings := by
            have closed := searchable.closed r (List.mem_of_getElem? makes.at_index)
            rw [← makes.savings_eq] at closed
            exact closed
          refine ih (s := s.advance t) again searchable brought same ?_
          rcases List.mem_cons.mp member with impossible | member
          · simp at impossible
          · exact member

/-- The items of a stream show no failure up to an instant. -/
def ClearUpTo (items : List (Except Fault Transition)) (instant : Int) : Prop :=
  ∃ (seen : List Transition) (rest : List (Except Fault Transition)),
    items = seen.map .ok ++ rest
    ∧ (rest = [] ∨ ∃ t others, rest = .ok t :: others ∧ instant < t.instant)

/-- Behind a change that comes no later than an instant, the items still show no failure up to it.
-/
theorem ClearUpTo.tail {t : Transition} {others : List (Except Fault Transition)} {instant : Int}
    (clear : ClearUpTo (.ok t :: others) instant) (le : t.instant ≤ instant)
    : ClearUpTo others instant := by
  obtain ⟨seen, rest, shape, edge⟩ := clear
  cases seen with
  | nil =>
      rcases edge with rfl | ⟨u, _, rfl, lt⟩
      · simp at shape
      · simp only [List.map_nil, List.nil_append, List.cons.injEq, Except.ok.injEq] at shape
        rw [← shape.1] at lt
        omega
  | cons u seen =>
      obtain ⟨_, rfl⟩ := List.cons.inj shape
      exact ⟨seen, rest, rfl, edge⟩

/-- Items that show no failure up to an instant do not begin with one. -/
theorem ClearUpTo.head {item : Except Fault Transition} {others : List (Except Fault Transition)}
    {instant : Int} (clear : ClearUpTo (item :: others) instant)
    : ∃ t, item = .ok t := by
  obtain ⟨seen, rest, shape, edge⟩ := clear
  cases seen with
  | nil =>
      rcases edge with rfl | ⟨t, _, rfl, _⟩
      · simp at shape
      · exact ⟨t, (List.cons.inj shape).1⟩
  | cons t seen => exact ⟨t, (List.cons.inj shape).1⟩

/-- A running stream has items as long as a change is due in front of its end. -/
theorem Sized.items_ne_nil (sized : s.Sized) (running : s.finished = false) {index : Nat}
    {q : Recurrence} (at_index : s.rules.recurrences[index]? = some q) (day : q.DayInMonth)
    (prompt : q.Prompt s.stdOffset s.savings) {year : Int} (applies : q.AppliesTo year)
    (fresh : RuleSet.Fresh (RuleSet.usedIn s.used index) year)
    (behind : s.cursor < q.instantIn year s.stdOffset s.savings)
    (inside : q.instantIn year s.stdOffset s.savings < s.stop)
    : s.items ≠ [] := by
  intro items_eq
  obtain ⟨_, step⟩ := sized.of_items_nil items_eq
  rcases next?_none step with finished | found | ⟨t, found, exhausted⟩
  · rw [running] at finished
    exact absurd finished (by decide)
  · obtain ⟨t, impossible, _⟩ :=
      RuleSet.nextAfterYears_le found at_index day prompt applies fresh behind
    simp at impossible
  · obtain ⟨u, same, u_le, _⟩ :=
      RuleSet.nextAfterYears_le found at_index day prompt applies fresh behind
    obtain rfl := Option.some.inj same
    omega

/-- As long as the changes leave the saved time as it is, a change that is due is made in its turn
or an earlier one of its recurrence is. The proof is by induction on the items. -/
theorem Sized.mem_of_constant (sized : s.Sized) (running : s.finished = false) {instant : Int}
    (clear : ClearUpTo s.items instant) (inside : instant < s.stop)
    (constant : ∀ t ∈ s.transitions, t.instant ≤ instant → t.savings = s.savings) {index : Nat}
    {q : Recurrence} (at_index : s.rules.recurrences[index]? = some q) (day : q.DayInMonth)
    (prompt : q.Prompt s.stdOffset s.savings) {year : Int} (applies : q.AppliesTo year)
    (fresh : RuleSet.Fresh (RuleSet.usedIn s.used index) year)
    (behind : s.cursor < q.instantIn year s.stdOffset s.savings)
    (le : q.instantIn year s.stdOffset s.savings ≤ instant)
    : ∃ t ∈ s.transitions, t.instant ≤ instant ∧ t.index = index := by
  generalize items_eq : s.items = items at clear
  induction items generalizing s with
  | nil =>
      exact absurd items_eq (sized.items_ne_nil running at_index day prompt applies fresh behind
        (Int.lt_of_le_of_lt le inside))
  | cons item others ih =>
      obtain ⟨t, rfl⟩ := clear.head
      obtain ⟨next, step, others_eq, again, _⟩ := sized.of_items_cons items_eq
      obtain ⟨_, found, _, rfl⟩ := next?_ok step
      obtain ⟨u, same, t_le, t_lt⟩ :=
        RuleSet.nextAfterYears_le found at_index day prompt applies fresh behind
      obtain rfl := Option.some.inj same
      have transitions_eq := sized.transitions_cons step
      by_cases here : t.index = index
      · exact ⟨t, by rw [transitions_eq]; simp, by omega, here⟩
      · have kept := constant t (by rw [transitions_eq]; simp) (by omega)
        have savings_eq : (s.advance t).savings = s.savings := kept
        have used_eq
            : RuleSet.usedIn (s.advance t).used index = RuleSet.usedIn s.used index := by
          simp only [RuleSet.usedIn, Stream.advance]
          rw [List.getElem?_set_ne here]
        have lt := t_lt here
        rw [← savings_eq] at lt le prompt
        rw [← used_eq] at fresh
        obtain ⟨v, member, v_le, v_index⟩ := ih (s := s.advance t) again running inside
          (fun v member v_le => by
            rw [savings_eq]
            exact constant v (by rw [transitions_eq]; simp [member]) v_le)
          at_index prompt fresh lt le others_eq (clear.tail (by omega))
        exact ⟨v, by rw [transitions_eq]; exact List.mem_cons_of_mem _ member, v_le, v_index⟩

end Stream

end CivilTime
