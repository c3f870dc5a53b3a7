import CivilTime.Proofs.Rule.Order

/-! A stream that starts anew in between goes on like the one that it was taken from.
It has to start with the saved time in force there, at an instant that every change keeps to one
side of. What the first stream has made by then is what the second one leaves out.
-/

namespace CivilTime

open Recurrence (Precedes)

/-- Whatever saved time it is computed with, a change lies on the same side of an instant. -/
def RuleSet.KeepsSides (rules : RuleSet) (stdOffset : Int) (amounts : Int → Prop) (instant : Int)
    : Prop :=
  ∀ r ∈ rules.recurrences, ∀ year savings other,
    r.AppliesTo year
    → amounts savings
    → amounts other
    → r.instantIn year stdOffset savings ≤ instant
    → r.instantIn year stdOffset other ≤ instant

namespace Stream

variable {s : Stream} {amounts : Int → Prop} {instant : Int}

/-- A steady stream makes changes only, by induction on the items. -/
theorem Steady.items_eq (steady : s.Steady amounts) : s.items = s.transitions.map .ok := by
  generalize items_eq : s.items = items
  induction items generalizing s with
  | nil => simp [transitions, items_eq]
  | cons item others ih =>
      rcases steady.step with ⟨step, _⟩ | ⟨r, t, step, _, first⟩
      · rw [items_nil step] at items_eq
        simp at items_eq
      · rw [steady.toSized.items_cons step, List.cons.injEq] at items_eq
        obtain ⟨rfl, items_eq⟩ := items_eq
        rw [steady.toSized.transitions_cons step, List.map_cons,
          ih (steady.advance first.toMakes) items_eq]

/-- The pending changes come behind an instant that all changes come behind. -/
theorem Steady.lt_of_pending (steady : s.Steady amounts)
    (behind : ∀ t ∈ s.transitions, instant < t.instant) (inside : instant < s.stop)
    {q : Recurrence} {year : Int} (pending : s.Pending q year)
    : instant < q.instantIn year s.stdOffset s.savings := by
  rcases steady.step with ⟨_, exhausted⟩ | ⟨r, t, step, _, first⟩
  · have := exhausted q year pending
    omega
  · rw [steady.toSized.transitions_cons step] at behind
    have front := behind t (by simp)
    rw [first.instant_eq] at front
    by_cases same : q = r ∧ year = t.year
    · rw [same.1, same.2]
      exact front
    · have ordered := first.least q year pending fun equal equal_year => same ⟨equal, equal_year⟩
      exact Int.lt_trans front (ordered s.savings s.savings steady.amount steady.amount)

/-- A steady stream makes every pending change in front of its end, by induction on the items. -/
theorem Steady.mem_of_pending (steady : s.Steady amounts) {q : Recurrence} {year : Int}
    (pending : s.Pending q year)
    (inside : ∀ savings, amounts savings → q.instantIn year s.stdOffset savings < s.stop)
    : ∃ t ∈ s.transitions, ∃ savings,
        amounts savings
        ∧ s.rules.recurrences[t.index]? = some q
        ∧ t.year = year
        ∧ t.instant = q.instantIn year s.stdOffset savings
        ∧ t.savings = q.savings
        ∧ t.letter = q.letter := by
  generalize items_eq : s.items = items
  induction items generalizing s with
  | nil =>
      rcases steady.step with ⟨_, exhausted⟩ | ⟨r, t, step, _, _⟩
      · have := exhausted q year pending
        have := inside s.savings steady.amount
        omega
      · rw [steady.toSized.items_cons step] at items_eq
        simp at items_eq
  | cons item others ih =>
      rcases steady.step with ⟨step, _⟩ | ⟨r, t, step, _, first⟩
      · rw [items_nil step] at items_eq
        simp at items_eq
      · rw [steady.toSized.items_cons step, List.cons.injEq] at items_eq
        rw [steady.toSized.transitions_cons step]
        by_cases same : q = r ∧ year = t.year
        · obtain ⟨rfl, rfl⟩ := same
          exact ⟨t, by simp, s.savings, steady.amount, first.at_index, rfl, first.instant_eq,
            first.savings_eq, first.letter_eq⟩
        · have still := (steady.pending_advance first q year).mpr
            ⟨pending, fun equal equal_year => same ⟨equal, equal_year⟩⟩
          obtain ⟨u, member, made⟩ :=
            ih (steady.advance first.toMakes) still inside items_eq.2
          exact ⟨u, List.mem_cons_of_mem _ member, made⟩

/-- A stream makes its changes up to an instant first, by induction on the items. -/
theorem Steady.reaches_instant (steady : s.Steady amounts) (instant : Int)
    : ∃ front last,
        Reaches s front last
        ∧ last.Steady amounts
        ∧ (∀ t ∈ front, t.instant ≤ instant)
        ∧ ∀ t ∈ last.transitions, instant < t.instant := by
  generalize items_eq : s.items = items
  induction items generalizing s with
  | nil => exact ⟨[], s, .stay s, steady, by simp, by simp [transitions, items_eq]⟩
  | cons item others ih =>
      rcases steady.step with ⟨step, _⟩ | ⟨r, t, step, _, first⟩
      · rw [items_nil step] at items_eq
        simp at items_eq
      · rw [steady.toSized.items_cons step, List.cons.injEq] at items_eq
        have steady_next := steady.advance first.toMakes
        rcases Int.lt_or_le instant t.instant with behind | reached
        · have later := steady_next.toSized.transitions_ordered.1
          refine ⟨[], s, .stay s, steady, by simp, ?_⟩
          rw [steady.toSized.transitions_cons step]
          exact List.forall_mem_cons.mpr
            ⟨behind, fun u member => Int.lt_trans behind (later u member).1⟩
        · obtain ⟨front, last, reaches, last_steady, up_to, behind⟩ :=
            ih steady_next items_eq.2
          exact ⟨t :: front, last, .step step reaches, last_steady,
            List.forall_mem_cons.mpr ⟨reached, up_to⟩, behind⟩

/-- A new stream agrees with one whose changes all lie behind the start of the new one, if what is
pending comes behind a change that does not. -/
theorem Steady.agrees_between (steady : s.Steady amounts) {r : Recurrence} {year savings : Int}
    (member : r ∈ s.rules.recurrences) (applies : r.AppliesTo year) (amount : amounts savings)
    (behind : s.PendingBehind amounts r year)
    (passed : r.instantIn year s.stdOffset savings ≤ instant)
    (later : ∀ t ∈ s.transitions, instant < t.instant) (inside : instant < s.stop)
    (sides : s.rules.KeepsSides s.stdOffset amounts instant)
    : Agrees (between s.rules instant s.stop s.stdOffset s.savings) s where
  rules_eq := rfl
  stdOffset_eq := rfl
  stop_eq := rfl
  savings_eq := rfl
  pending_iff q b := by
    have passed := sides r member year savings s.savings applies amount steady.amount passed
    rw [pending_between]
    constructor
    · rintro ⟨q_member, q_applies, lt⟩
      refine (behind q b).mpr ⟨q_member, q_applies, ?_⟩
      refine (steady.behind_iff_precedes steady.amount member applies q_member q_applies ?_).mp
        (by omega)
      rintro rfl rfl
      omega
    · intro pending
      obtain ⟨q_member, q_applies, _⟩ := (behind q b).mp pending
      exact ⟨q_member, q_applies, steady.lt_of_pending later inside pending⟩

end Stream

end CivilTime
