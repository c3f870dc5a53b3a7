import CivilTime.Proofs.Rule.Enumeration
import CivilTime.Proofs.Rule.Selection

/-! A line of a zone takes up a rule set in the state that all changes up to its start have led to.
The stream from there on may make the last of these changes once more, which cannot be seen. Apart
from that it goes on like the uninterrupted one.
-/

namespace CivilTime

open Recurrence (Precedes)

/-- The changes that can be seen from a state on, each of which leads to another state. -/
def visibleFrom : RuleState → List Transition → List Transition
  | _, [] => []
  | state, t :: rest =>
    if t.state = state then visibleFrom state rest else t :: visibleFrom t.state rest

namespace RuleSet

variable {rules : RuleSet} {stdOffset start : Int}

/-- The stream that starts anew at an instant, in the state in force there, shows the changes that
the uninterrupted stream shows behind the instant. -/
def Resumes (rules : RuleSet) (stdOffset start : Int) : Prop :=
  ∃ state changes resumed,
    rules.stateAt start stdOffset none = .ok state
    ∧ (Stream.after rules beginningOfTime stdOffset 0).RunsThrough changes
    ∧ (Stream.after rules start stdOffset state.savings).RunsThrough resumed
    ∧ visibleFrom state resumed = visibleFrom state (changes.filter (start < ·.instant))

/-- Going past changes at or before an instant keeps the last of them in mind, by induction on the
changes. -/
theorem visitItems_splitAtInstant {front : List Transition} (items : List (Except Fault Transition))
    (up_to : ∀ t ∈ front, t.instant ≤ start) (last : Option Transition)
    : Stream.visitItems (splitAtInstant start) (front.map .ok ++ items) last
      = Stream.visitItems (splitAtInstant start) items (front.getLast?.or last) := by
  induction front generalizing last with
  | nil => rfl
  | cons t rest ih =>
      obtain ⟨le, up_to⟩ := List.forall_mem_cons.mp up_to
      simp only [List.map_cons, List.cons_append, Stream.visitItems, splitAtInstant, le, if_true]
      rw [ih up_to, List.getLast?_cons]
      cases rest.getLast? <;> rfl

/-- The state at an instant without a line in front of it is the one that the last change at or
before the instant leads to. -/
theorem stateAt_of_items {front behind : List Transition} (later : beginningOfTime < start)
    (items_eq
      : (Stream.after rules beginningOfTime stdOffset 0).items = (front ++ behind).map .ok)
    (up_to : ∀ t ∈ front, t.instant ≤ start) (after : ∀ t ∈ behind, start < t.instant)
    : rules.stateAt start stdOffset none
      = .ok ((front.getLast?.map Transition.state).getD rules.initialState) := by
  have sized := Stream.sized_between rules beginningOfTime endOfTime stdOffset 0
  have around_eq : rules.around start stdOffset = .ok (front.getLast?, behind.head?) := by
    rw [around, Stream.after, sized.visit_eq, ← Stream.after, items_eq, List.map_append,
      visitItems_splitAtInstant _ up_to, Option.or_none]
    cases behind with
    | nil => rfl
    | cons t rest =>
        have lt := after t (by simp)
        simp [Stream.visitItems, splitAtInstant, Int.not_le.mpr lt]
        rfl
  unfold stateAt
  rw [if_neg (by omega), around_eq]
  rfl

end RuleSet

namespace Stream

variable {s u : Stream} {amounts : Int → Prop} {start : Int}

/-- A stream that starts at its end or behind it has no changes. -/
theorem transitions_between_nil (rules : RuleSet) {start stop : Int} (stdOffset savings : Int)
    (le : stop ≤ start)
    : (between rules start stop stdOffset savings).transitions = [] := by
  refine List.eq_nil_iff_forall_not_mem.mpr fun t member => ?_
  have inside := (sized_between rules start stop stdOffset savings).transitions_ordered.1 t member
  simp only [between] at inside
  omega

/-- A stream that selects every change of another one, under the same rules, makes its changes. -/
theorem Selects.transitions_eq (selects : Selects (fun _ => true) s u)
    (rules_eq : u.rules = s.rules) (steady : s.Steady amounts) (steady' : u.Steady amounts)
    : u.transitions = s.transitions := by
  have agrees : Agrees u s := {
    rules_eq := rules_eq
    stdOffset_eq := selects.stdOffset_eq
    stop_eq := selects.stop_eq
    savings_eq := selects.savings_eq
    pending_iff := fun q year => by simp [selects.pending_iff]
  }
  rw [transitions, transitions, agrees.items_eq steady' steady]

/-- A start that is moved on, but not past a change, makes no difference. -/
theorem Steady.transitions_later {rules : RuleSet} {first stop stdOffset savings : Int}
    (steady : rules.Steady stdOffset amounts) (amount : amounts savings) (le : first ≤ start)
    (inside : start < stop)
    (later : ∀ t ∈ (between rules first stop stdOffset savings).transitions, start < t.instant)
    : (between rules start stop stdOffset savings).transitions
      = (between rules first stop stdOffset savings).transitions := by
  have old_steady := steady_between steady amount first stop
  have agrees
      : Agrees (between rules start stop stdOffset savings)
          (between rules first stop stdOffset savings) := {
    rules_eq := rfl
    stdOffset_eq := rfl
    stop_eq := rfl
    savings_eq := rfl
    pending_iff := fun q year => ?_
  }
  · rw [transitions, transitions, agrees.items_eq (steady_between steady amount start stop)
      old_steady]
  · constructor
    · intro pending
      obtain ⟨member, applies, behind⟩ := (pending_between ..).mp pending
      exact (pending_between ..).mpr ⟨member, applies, by omega⟩
    · intro pending
      obtain ⟨member, applies, _⟩ := (pending_between ..).mp pending
      exact (pending_between ..).mpr
        ⟨member, applies, old_steady.lt_of_pending later inside pending⟩

/-- A new stream from an instant between two changes on shows the changes behind the instant. It may
make the last change in front of the instant once more, since the saved time that this change has
brought may put it behind the instant. -/
theorem Reaches.visible_resume {front : List Transition} {t : Transition} {last : Stream}
    (reaches : Reaches s (front ++ [t]) last) (steady : s.Steady amounts)
    (upward : s.Upward amounts)
    (in_time
      : ∀ r ∈ s.rules.recurrences, ∀ year savings,
          r.AppliesTo year → amounts savings → r.instantIn year s.stdOffset savings < s.stop)
    (le : t.instant ≤ start) (inside : start < s.stop)
    (later : ∀ v ∈ last.transitions, start < v.instant)
    : visibleFrom t.state (between s.rules start s.stop s.stdOffset t.savings).transitions
      = visibleFrom t.state last.transitions := by
  obtain ⟨last_steady, _⟩ := reaches.steady steady upward
  obtain ⟨rules_eq, stdOffset_eq, stop_eq⟩ := reaches.fixed
  obtain ⟨r, before, member, _, amount, applies, instant_eq, savings_eq, letter_eq, _, last_savings,
    behind⟩ := reaches.pendingBehind steady upward
  have new_steady : (between s.rules start s.stop s.stdOffset t.savings).Steady amounts :=
    steady_between steady.steady (by rw [← last_savings]; exact last_steady.amount) start s.stop
  rw [← stdOffset_eq] at instant_eq
  have passed : r.instantIn t.year last.stdOffset before ≤ start := by rwa [← instant_eq]
  have in_front := in_time r member t.year last.savings applies last_steady.amount
  rw [← stdOffset_eq, ← stop_eq] at in_front
  have new_pending (q : Recurrence) (b : Int)
      : (between s.rules start s.stop s.stdOffset t.savings).Pending q b
        ↔ (q ∈ last.rules.recurrences ∧ Function.const Recurrence true q = true)
          ∧ q.AppliesTo b
          ∧ start < q.instantIn b last.stdOffset last.savings := by
    rw [pending_between, rules_eq, stdOffset_eq, last_savings]
    simp
  obtain ⟨u, u_steady, u_rules, selects, same | ⟨v, v_state, cons_eq⟩⟩ :=
    last_steady.selects_resume amount (by rwa [rules_eq]) applies passed
      (last_savings.trans savings_eq) in_front behind
      (fun q b pending => last_steady.lt_of_pending later (by rwa [stop_eq]) pending) new_steady
      stdOffset_eq.symm stop_eq.symm last_savings.symm new_pending
  · rw [same, selects.transitions_eq (u_rules.trans rules_eq.symm) last_steady u_steady]
  · have again : v.state = t.state := by
      rw [v_state, Transition.state, savings_eq, letter_eq]
    rw [cons_eq, visibleFrom, if_pos again,
      selects.transitions_eq (u_rules.trans rules_eq.symm) last_steady u_steady]

end Stream

namespace RuleSet

variable {rules : RuleSet} {stdOffset start : Int}

/-- Where the changes of a rule set keep their order and fall on days of their months, the stream
from an instant on resumes the uninterrupted one. -/
theorem KeepsOrder.resumes (keeps : rules.KeepsOrder stdOffset rules.SavesAmount)
    (day : ∀ r ∈ rules.recurrences, r.DayInMonth) (behind : beginningOfTime < start)
    : rules.Resumes stdOffset start := by
  have rules_steady := keeps.steady day fun r member => .inr ⟨r, member, rfl⟩
  have initially : rules.SavesAmount 0 := .inl rfl
  have steady := Stream.steady_between rules_steady initially beginningOfTime endOfTime
  have upward := Stream.upward_between rules initially beginningOfTime endOfTime stdOffset
  obtain ⟨front, last, reaches, _, up_to, later⟩ := steady.reaches_instant start
  have changes_eq := reaches.transitions_eq steady.toSized
  have stated := stateAt_of_items behind (by rw [Stream.after, steady.items_eq, changes_eq]) up_to
    later
  have amount := savesAmount_of_stateAt stated
  refine ⟨_, _, _, stated, steady.runsThrough upward,
    (Stream.steady_between rules_steady amount start endOfTime).runsThrough
      (Stream.upward_between rules amount start endOfTime stdOffset), ?_⟩
  have kept : (front ++ last.transitions).filter (start < ·.instant) = last.transitions := by
    rw [List.filter_append, List.filter_eq_nil_iff.mpr, List.nil_append, List.filter_eq_self.mpr]
    · simpa using later
    · simpa using up_to
  rw [changes_eq, kept]
  rcases Int.lt_or_le start endOfTime with inside | beyond
  · rcases List.eq_nil_or_concat front with rfl | ⟨changes, t, rfl⟩
    · -- No change has been made yet, so the two streams differ in their start only.
      cases reaches
      exact congrArg (visibleFrom rules.initialState)
        (Stream.Steady.transitions_later rules_steady initially (Int.le_of_lt behind) inside later)
    · rw [List.concat_eq_append] at reaches up_to ⊢
      rw [List.getLast?_concat]
      exact reaches.visible_resume steady upward
        (fun r member year savings applies amount =>
          Recurrence.instantIn_lt_endOfTime (day r member) (keeps.near r member savings amount).2
            applies)
        (up_to t (by simp)) inside later
  · have none_left : last.transitions = [] := by
      refine List.eq_nil_iff_forall_not_mem.mpr fun t member => ?_
      have front := later t member
      have before := (steady.toSized.transitions_ordered.1 t (by simp [changes_eq, member])).2
      simp only [Stream.between] at before
      omega
    rw [none_left]
    exact congrArg (visibleFrom _) (Stream.transitions_between_nil rules stdOffset _ beyond)

end RuleSet

/-- The stream of summer time resumes half an hour after the end of the summer of 2000. It makes the
change to standard time once more. -/
theorem summerRules_resumes : summerRules.Resumes (-18000) 973405800 :=
  summerRules_keepsOrder.resumes summerRules_seasonal.day (by decide)

/-- The late change alone. -/
def lateRule : RuleSet := { name := "L", recurrences := [lateRecurrence] }

/-- A day past the end of its month may bring a change that a stream from the second year behind it
on has lost, while the uninterrupted stream still makes it. -/
theorem lateRule_not_resumed
    : lateRule.KeepsOrder 0 lateRule.SavesAmount ∧ ¬ lateRule.Resumes 0 1011052800 := by
  constructor
  · rw [← RuleSet.mem_savedAmounts]
    refine RuleSet.Punctual.keepsOrder ⟨?_, ?_⟩ ?_ ?_ <;> decide +kernel
  · rintro ⟨state, changes, resumed, stated, through, resumes, same⟩
    have state_eq : (lateRule.stateAt 1011052800 0 none).toOption = some ⟨0, none⟩ := by
      decide +kernel
    rw [stated] at state_eq
    obtain rfl := Option.some.inj state_eq
    rw [← through.transitions_eq (Stream.sized_between ..),
      ← resumes.transitions_eq (Stream.sized_between ..)] at same
    revert same
    decide +kernel

end CivilTime
