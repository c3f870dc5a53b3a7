import CivilTime.Proofs.Rule.Season

/-! Where the changes of a rule set keep their order, its stream from the beginning of time
enumerates them. Every year of every recurrence comes up once, in the order of the instants, and
each instant is computed with the saved time that the change in front of it has brought.
-/

namespace CivilTime

open Recurrence (Precedes)

namespace Recurrence

/-- A recurrence runs in the supported years from its first one to its last one. -/
def RunsIn (r : Recurrence) (year : Int) : Prop :=
  r.firstYear ≤ year ∧ r.endsBefore year = false ∧ year ≤ Calendar.maxYear

/-- A recurrence whose first year is supported is enumerated in the years that it runs in. -/
theorem appliesTo_iff_runsIn {r : Recurrence} (supported : Calendar.minYear ≤ r.firstYear)
    (year : Int)
    : r.AppliesTo year ↔ r.RunsIn year := by
  simp only [AppliesTo, RunsIn]
  constructor
  · rintro ⟨first, _, runs, le⟩
    exact ⟨first, runs, le⟩
  · rintro ⟨first, runs, le⟩
    exact ⟨first, by omega, runs, le⟩

end Recurrence

namespace RuleSet

/-- The recurrence at a position runs in a year. -/
def RunsAt (rules : RuleSet) (index : Nat) (year : Int) : Prop :=
  ∃ r, rules.recurrences[index]? = some r ∧ r.RunsIn year

/-- The amounts of saved time that the changes behind an initial one are computed with. -/
def SavesFrom (rules : RuleSet) (initial savings : Int) : Prop :=
  savings = initial ∨ ∃ r ∈ rules.recurrences, savings = r.savings

/-- The changes stay near midnight and keep their order, whichever of the given amounts of saved
time they are computed with. -/
structure KeepsOrder (rules : RuleSet) (stdOffset : Int) (amounts : Int → Prop) : Prop where
  supported : ∀ r ∈ rules.recurrences, Calendar.minYear ≤ r.firstYear
  near : ∀ r ∈ rules.recurrences, ∀ savings, amounts savings → r.NearMidnight stdOffset savings
  ordered
    : ∀ (i j : Nat) (r q : Recurrence) (a b : Int),
        rules.recurrences[i]? = some r
        → rules.recurrences[j]? = some q
        → r.RunsIn a
        → q.RunsIn b
        → (i = j → a ≠ b)
        → Precedes amounts stdOffset r a q b ∨ Precedes amounts stdOffset q b r a

/-- A change of a rule set, computed with the given saved time. -/
structure IsChange (rules : RuleSet) (stdOffset savings : Int) (r : Recurrence) (t : Transition)
    : Prop where
  at_index : rules.recurrences[t.index]? = some r
  applies : r.AppliesTo t.year
  instant_eq : t.instant = r.instantIn t.year stdOffset savings
  savings_eq : t.savings = r.savings
  letter_eq : t.letter = r.letter

/-- Each change is computed with the saved time that the change in front of it has brought. -/
def Computed (rules : RuleSet) (stdOffset : Int) : Int → List Transition → Prop
  | _, [] => True
  | savings, t :: rest =>
    (∃ r, rules.IsChange stdOffset savings r t) ∧ Computed rules stdOffset t.savings rest

/-- Some changes are all the changes of a rule set, in order and without repetition. -/
structure Enumerates (rules : RuleSet) (stdOffset initial : Int) (changes : List Transition)
    : Prop where
  complete
    : ∀ index year,
        rules.RunsAt index year ↔ ∃ t ∈ changes, t.index = index ∧ t.year = year
  once : (changes.map fun t => (t.index, t.year)).Nodup
  ordered : changes.Pairwise fun t u => t.instant < u.instant
  computed : rules.Computed stdOffset initial changes

variable {rules : RuleSet} {stdOffset : Int} {amounts : Int → Prop}

/-- Rules whose changes keep their order are steady, if the amounts of saved time are theirs. -/
theorem KeepsOrder.steady (keeps : rules.KeepsOrder stdOffset amounts)
    (day : ∀ r ∈ rules.recurrences, r.DayInMonth)
    (closed : ∀ r ∈ rules.recurrences, amounts r.savings)
    : rules.Steady stdOffset amounts := by
  refine steady_of_total day keeps.near closed fun i j r q a b at_i at_j a_applies b_applies => ?_
  have runs {q : Recurrence} {k : Nat} (at_k : rules.recurrences[k]? = some q) (year : Int) :=
    Recurrence.appliesTo_iff_runsIn (keeps.supported q (List.mem_of_getElem? at_k)) year
  exact keeps.ordered i j r q a b at_i at_j ((runs at_i a).mp a_applies)
    ((runs at_j b).mp b_applies)

/-- Rules that keep to seasons of their own keep their order. -/
theorem Seasonal.keepsOrder {savings : List Int} (seasonal : rules.Seasonal stdOffset savings)
    (supported : ∀ r ∈ rules.recurrences, Calendar.minYear ≤ r.firstYear)
    : rules.KeepsOrder stdOffset (· ∈ savings) where
  supported := supported
  near := seasonal.near
  ordered _ _ _ _ _ _ at_i at_j _ _ different := seasonal.total at_i at_j different

/-- Punctual rules near midnight keep their order. -/
theorem Punctual.keepsOrder {savings : List Int}
    (punctual : rules.Punctual stdOffset savings)
    (supported : ∀ r ∈ rules.recurrences, Calendar.minYear ≤ r.firstYear)
    (near
      : ∀ r ∈ rules.recurrences, ∀ σ ∈ savings,
          -25920000 ≤ r.time.universalSeconds stdOffset σ
          ∧ r.time.universalSeconds stdOffset σ ≤ 25920000)
    : rules.KeepsOrder stdOffset (· ∈ savings) where
  supported := supported
  near := near
  ordered _ _ _ _ _ _ at_i at_j _ _ different := punctual.total at_i at_j different

end RuleSet

namespace Stream

variable {s last : Stream} {amounts : Int → Prop} {changes : List Transition}

/-- A stream makes the given changes one after another and then ends. -/
def RunsThrough (s : Stream) (changes : List Transition) : Prop :=
  ∃ last, Reaches s changes last ∧ last.next? = (none, last.finish)

/-- What a stream makes is a change of its rules under the saved time in force. -/
theorem Makes.isChange {r : Recurrence} {t : Transition} (makes : s.Makes r t)
    : s.rules.IsChange s.stdOffset s.savings r t where
  at_index := makes.at_index
  applies := makes.applies
  instant_eq := makes.instant_eq
  savings_eq := makes.savings_eq
  letter_eq := makes.letter_eq

/-- A step that makes a change makes it with a recurrence of the rules. -/
theorem makes_of_next? {next : Stream} {t : Transition} (step : s.next? = (some (.ok t), next))
    : next = s.advance t ∧ ∃ r, s.Makes r t := by
  obtain ⟨_, found, _, next_eq⟩ := next?_ok step
  exact ⟨next_eq, makes_of_nextAfterYears found⟩

/-- The changes of several steps are each computed with what the one in front has brought. -/
theorem Reaches.computed (reaches : Reaches s changes last)
    : s.rules.Computed s.stdOffset s.savings changes := by
  induction reaches with
  | stay => exact trivial
  | step makes _ ih =>
      obtain ⟨rfl, r, made⟩ := makes_of_next? makes
      exact ⟨⟨r, made.isChange⟩, ih⟩

/-- The changes that a stream runs through are all of its changes. -/
theorem RunsThrough.transitions_eq (through : s.RunsThrough changes) (sized : s.Sized)
    : s.transitions = changes := by
  obtain ⟨last, reaches, ends⟩ := through
  rw [reaches.transitions_eq sized, transitions_nil ends, List.append_nil]

/-- Every change of several steps is a change of the rules in a year that they are enumerated in. -/
theorem Reaches.isChange_of_mem (reaches : Reaches s changes last) {t : Transition}
    (member : t ∈ changes)
    : ∃ savings r, s.rules.IsChange s.stdOffset savings r t := by
  induction reaches with
  | stay => simp at member
  | @step s _ _ _ _ makes _ ih =>
      obtain ⟨rfl, r, made⟩ := makes_of_next? makes
      rcases List.mem_cons.mp member with rfl | later
      · exact ⟨s.savings, r, made.isChange⟩
      · exact ih later

/-- The years in which several steps use a recurrence are fresh and increase. -/
theorem Reaches.years_increase (reaches : Reaches s changes last) (sized : s.Sized)
    : (∀ t ∈ changes, RuleSet.Fresh (RuleSet.usedIn s.used t.index) t.year)
      ∧ changes.Pairwise fun t u => t.index = u.index → t.year < u.year := by
  induction reaches with
  | stay => exact ⟨by simp, .nil⟩
  | @step s _ _ t rest makes _ ih =>
      have sized_next := (sized.next makes).1
      obtain ⟨rfl, r, made⟩ := makes_of_next? makes
      obtain ⟨fresh, increasing⟩ := ih sized_next
      have later (u : Transition) (member : u ∈ rest) :=
        (fresh_advance_iff sized made).mp (fresh u member)
      exact ⟨List.forall_mem_cons.mpr ⟨made.fresh, fun u member => (later u member).1⟩,
        List.pairwise_cons.mpr ⟨fun u member => (later u member).2, increasing⟩⟩

/-- Several steps use a recurrence at most once for a year. -/
theorem Reaches.once (reaches : Reaches s changes last) (sized : s.Sized)
    : (changes.map fun t => (t.index, t.year)).Nodup := by
  refine List.pairwise_map.mpr ((reaches.years_increase sized).2.imp fun increases same => ?_)
  have := increases (Prod.mk.inj same).1
  have := (Prod.mk.inj same).2
  omega

/-- A steady stream makes all of its changes and then ends. -/
theorem Steady.runsThrough (steady : s.Steady amounts) (upward : s.Upward amounts)
    : s.RunsThrough s.transitions := by
  have all : s.items = s.transitions.map .ok ++ [] := by rw [steady.items_eq, List.append_nil]
  obtain ⟨last, reaches, _, items_eq⟩ := steady.toSized.reaches_of_items all
  refine ⟨last, reaches, ?_⟩
  rcases (reaches.steady steady upward).1.step with ⟨step, _⟩ | ⟨r, t, step, _, _⟩
  · exact step
  · rw [(reaches.steady steady upward).1.toSized.items_cons step] at items_eq
    simp at items_eq

end Stream

namespace RuleSet

variable {rules : RuleSet} {stdOffset initial : Int}

/-- Where the changes of a rule set keep their order and fall on days of their months, the stream
from the beginning of time makes each of them once and then ends. -/
theorem KeepsOrder.enumerates
    (keeps : rules.KeepsOrder stdOffset (rules.SavesFrom initial))
    (day : ∀ r ∈ rules.recurrences, r.DayInMonth)
    : ∃ changes,
        (Stream.after rules beginningOfTime stdOffset initial).RunsThrough changes
        ∧ rules.Enumerates stdOffset initial changes := by
  have rules_steady := keeps.steady day fun r member => .inr ⟨r, member, rfl⟩
  have initially : rules.SavesFrom initial initial := .inl rfl
  have steady := Stream.steady_between rules_steady initially beginningOfTime endOfTime
  have upward := Stream.upward_between rules initially beginningOfTime endOfTime stdOffset
  have through := steady.runsThrough upward
  have ⟨_, reaches, _⟩ := through
  refine ⟨_, through, {
    complete := fun index year => ⟨?_, ?_⟩
    once := reaches.once steady.toSized
    ordered := steady.toSized.transitions_ordered.2
    computed := reaches.computed
  }⟩
  · -- A change that is due is pending at the beginning of time, so the stream makes it.
    rintro ⟨r, at_index, runs⟩
    have member := List.mem_of_getElem? at_index
    have near := keeps.near r member
    have applies := (Recurrence.appliesTo_iff_runsIn (keeps.supported r member) year).mpr runs
    have pending := (Stream.pending_between rules beginningOfTime endOfTime stdOffset initial r
      year).mpr ⟨member, applies, Recurrence.beginningOfTime_lt_instantIn (day r member)
        (near initial initially) applies⟩
    obtain ⟨t, made, _, _, at_t, year_eq, _⟩ := steady.mem_of_pending pending
      fun savings amount => Recurrence.instantIn_lt_endOfTime (day r member)
        (near savings amount).2 applies
    exact ⟨t, made, rules_steady.index_unique initially at_t at_index applies, year_eq⟩
  · rintro ⟨t, made, rfl, rfl⟩
    obtain ⟨_, r, change⟩ := reaches.isChange_of_mem made
    have member := List.mem_of_getElem? change.at_index
    exact ⟨r, change.at_index,
      (Recurrence.appliesTo_iff_runsIn (keeps.supported r member) t.year).mp change.applies⟩

end RuleSet

/-- Summer time keeps its order. -/
theorem summerRules_keepsOrder
    : summerRules.KeepsOrder (-18000) summerRules.SavesAmount := by
  rw [← RuleSet.mem_savedAmounts]
  exact summerRules_seasonal.keepsOrder (by decide +kernel)

/-- Every change of summer time comes up once. -/
theorem summerRules_enumerates
    : ∃ changes,
        (Stream.after summerRules beginningOfTime (-18000) 0).RunsThrough changes
        ∧ summerRules.Enumerates (-18000) 0 changes :=
  RuleSet.KeepsOrder.enumerates summerRules_keepsOrder summerRules_seasonal.day

/-- A change of the year 2000 on day 255 of December, two hundred and fifty days after midnight. It
comes in April 2002. -/
def lateRecurrence : Recurrence :=
  { name := "L"
    first := .year 2000
    last := .year 2000
    month := .dec
    day := .fixed 255
    time := { mode := .universal, time := .ofSeconds 21600000 }
    save := .ofSeconds 3600
    letter := some "D" }

/-- A late change of the year 2000 and one of January 2002, which comes in front of it. -/
def lateRules : RuleSet :=
  { name := "L"
    recurrences :=
      [ lateRecurrence,
        { name := "L"
          first := .year 2002
          last := .year 2002
          month := .jan
          day := .fixed 10
          time := { mode := .universal, time := .ofSeconds 3600 }
          save := .zero
          letter := some "S" } ] }

/-- The late change keeps its order. -/
theorem lateRules_keepsOrder : lateRules.KeepsOrder 0 lateRules.SavesAmount := by
  rw [← RuleSet.mem_savedAmounts]
  refine RuleSet.Punctual.keepsOrder ⟨?_, ?_⟩ ?_ ?_ <;> decide +kernel

/-- A day past the end of its month may bring a change that is never made: the recurrence has ended
more than a year before the cursor by the time its change is due. -/
theorem lateRules_not_enumerated
    : lateRules.KeepsOrder 0 (lateRules.SavesFrom 0)
      ∧ ¬ ∃ changes,
          (Stream.after lateRules beginningOfTime 0 0).RunsThrough changes
          ∧ lateRules.Enumerates 0 0 changes := by
  refine ⟨lateRules_keepsOrder, ?_⟩
  rintro ⟨changes, through, enumerates⟩
  have due : lateRules.RunsAt 0 2000 := ⟨lateRecurrence, rfl, by decide, by decide, by decide⟩
  obtain ⟨t, made, index_eq, _⟩ := (enumerates.complete 0 2000).mp due
  have never
      : ∀ u ∈ (Stream.after lateRules beginningOfTime 0 0).transitions, u.index ≠ 0 := by
    decide +kernel
  rw [through.transitions_eq (Stream.sized_between ..)] at never
  exact never t made index_eq

end CivilTime
