import CivilTime.Proofs.Outcome
import CivilTime.Proofs.Rule.Stream

/-! The state at the start of a line is the initial one or one that a recurrence brings. -/

namespace CivilTime.RuleSet

variable {rules : RuleSet}

/-- The amounts of saved time that the changes of a rule set are computed with. -/
def SavesAmount (rules : RuleSet) (savings : Int) : Prop :=
  savings = 0 ∨ ∃ r ∈ rules.recurrences, savings = r.savings

/-- The changes around an instant are changes of the stream, by induction on the items. -/
theorem mem_of_splitAtInstant {instant : Int} {items : List (Except Fault Transition)}
    {last : Option Transition}
    {outcome : Stream.Visit (Option Transition) (Option Transition × Transition)}
    (visited : Stream.visitItems (splitAtInstant instant) items last = .ok outcome)
    : match outcome with
      | .running t => t = last ∨ ∃ u, t = some u ∧ u ∈ items.filterMap Except.toOption
      | .done (t, following) =>
          (t = last ∨ ∃ u, t = some u ∧ u ∈ items.filterMap Except.toOption)
          ∧ following ∈ items.filterMap Except.toOption := by
  induction items generalizing last with
  | nil =>
      simp only [Stream.visitItems, Except.ok.injEq] at visited
      subst visited
      exact .inl rfl
  | cons item others ih =>
      cases item with
      | error fault => simp [Stream.visitItems] at visited
      | ok t =>
          have here : t ∈ (Except.ok t :: others).filterMap Except.toOption := by
            simp [Except.toOption]
          have there {u : Transition} (inside : u ∈ others.filterMap Except.toOption)
              : u ∈ (Except.ok t :: others).filterMap Except.toOption := by
            simp only [List.filterMap_cons, Except.toOption]
            exact List.mem_cons_of_mem _ inside
          have from_next {u : Option Transition}
              (found : u = some t ∨ ∃ v, u = some v ∧ v ∈ others.filterMap Except.toOption)
              : ∃ v, u = some v ∧ v ∈ (Except.ok t :: others).filterMap Except.toOption := by
            rcases found with rfl | ⟨v, rfl, inside⟩
            · exact ⟨t, rfl, here⟩
            · exact ⟨v, rfl, there inside⟩
          by_cases le : t.instant ≤ instant
          · simp only [Stream.visitItems, splitAtInstant, le, if_true] at visited
            have later := ih visited
            cases outcome with
            | running u => exact .inr (from_next later)
            | done result => exact ⟨.inr (from_next later.1), there later.2⟩
          · simp only [Stream.visitItems, splitAtInstant, le, if_false, Except.ok.injEq] at visited
            subst visited
            exact ⟨.inl rfl, here⟩

/-- The changes around an instant are changes from the beginning of time on. -/
theorem mem_of_around {instant stdOffset : Int} {last following : Option Transition}
    (found : rules.around instant stdOffset = .ok (last, following))
    : (∀ t, last = some t → t ∈ (Stream.after rules beginningOfTime stdOffset 0).transitions)
      ∧ ∀ t,
          following = some t
          → t ∈ (Stream.after rules beginningOfTime stdOffset 0).transitions := by
  have sized := Stream.sized_between rules beginningOfTime endOfTime stdOffset 0
  obtain ⟨outcome, visited, found⟩ := bind_eq_ok.mp found
  rw [Stream.after, sized.visit_eq] at visited
  have members := mem_of_splitAtInstant visited
  cases outcome with
  | running u =>
      obtain ⟨rfl, rfl⟩ := Prod.ext_iff.mp (pure_eq_ok.mp found)
      refine ⟨?_, by simp⟩
      rintro t rfl
      rcases members with same | ⟨v, same, inside⟩
      · simp at same
      · obtain rfl := Option.some.inj same
        exact inside
  | done result =>
      obtain ⟨rfl, rfl⟩ := Prod.ext_iff.mp (pure_eq_ok.mp found)
      refine ⟨?_, ?_⟩
      · rintro t last_eq
        rcases members.1 with same | ⟨v, same, inside⟩
        · rw [last_eq] at same
          simp at same
        · rw [last_eq] at same
          obtain rfl := Option.some.inj same
          exact inside
      · rintro t following_eq
        obtain rfl := Option.some.inj following_eq
        exact members.2

/-- The state at the start of a line saves no time or the time of a recurrence. -/
theorem savesAmount_of_stateAt {instant stdOffset : Int} {previous : Option LineOffsets}
    {state : RuleState} (stated : rules.stateAt instant stdOffset previous = .ok state)
    : rules.SavesAmount state.savings := by
  have sized := Stream.sized_between rules beginningOfTime endOfTime stdOffset 0
  have brought {t : Transition}
      (member : t ∈ (Stream.after rules beginningOfTime stdOffset 0).transitions)
      : rules.SavesAmount t.state.savings := by
    obtain ⟨r, at_index, savings_eq, _⟩ := sized.mem_transitions member
    exact .inr ⟨r, List.mem_of_getElem? at_index, savings_eq⟩
  unfold stateAt at stated
  by_cases first : instant = beginningOfTime
  · simp only [first, if_true] at stated
    obtain rfl := pure_eq_ok.mp stated
    exact .inl rfl
  · simp only [first, if_false] at stated
    obtain ⟨⟨last, following⟩, found, stated⟩ := bind_eq_ok.mp stated
    obtain ⟨last_member, following_member⟩ := mem_of_around found
    have settled
        : rules.SavesAmount ((last.map Transition.state).getD rules.initialState).savings := by
      cases last with
      | none => exact .inl rfl
      | some t => exact brought (last_member t rfl)
    cases previous with
    | none =>
        obtain rfl := pure_eq_ok.mp stated
        exact settled
    | some offsets =>
        cases following with
        | none =>
            obtain rfl := pure_eq_ok.mp stated
            exact settled
        | some t =>
            simp only at stated
            split at stated
            · obtain ⟨happened, _, stated⟩ := bind_eq_ok.mp stated
              obtain rfl := pure_eq_ok.mp stated
              split
              · exact brought (following_member t rfl)
              · exact settled
            · obtain rfl := pure_eq_ok.mp stated
              exact settled

end CivilTime.RuleSet
