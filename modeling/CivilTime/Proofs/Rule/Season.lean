import CivilTime.Proofs.Rule.Restart
import CivilTime.Proofs.Rule.State

/-! Rules whose changes keep to seasons of their own do not trade places.
A change moves within its year by a week, by the leap day and with the saved time. If the ranges
that this leaves to two recurrences are apart, so are their changes in all years.
-/

namespace CivilTime

open Recurrence (Precedes)

/-- A symmetric relation of the pairs of a list holds at any two positions. -/
theorem of_pairwise {R : α → α → Prop} {xs : List α} (pairs : xs.Pairwise R)
    (symm : ∀ x y, R x y → R y x) {i j : Nat} {x y : α} (at_i : xs[i]? = some x)
    (at_j : xs[j]? = some y) (different : i ≠ j)
    : R x y := by
  obtain ⟨i_lt, rfl⟩ := List.getElem?_eq_some_iff.mp at_i
  obtain ⟨j_lt, rfl⟩ := List.getElem?_eq_some_iff.mp at_j
  have pairs := List.pairwise_iff_getElem.mp pairs
  rcases Nat.lt_or_gt_of_ne different with lt | gt
  · exact pairs i j i_lt j_lt lt
  · exact symm _ _ (pairs j i j_lt i_lt gt)

namespace Recurrence

variable (r : Recurrence) (stdOffset savings : Int)

/-- The earliest second of a year at which a recurrence can change the clock. -/
def seasonStart : Int :=
  r.day.earliestPlace r.month * 86400 + r.time.universalSeconds stdOffset savings

/-- An instant lies in the week behind the start of its season. -/
theorem instantIn_season (year : Int)
    : Calendar.yearStartSeconds year + r.seasonStart stdOffset savings
        ≤ r.instantIn year stdOffset savings
      ∧ r.instantIn year stdOffset savings
        ≤ Calendar.yearStartSeconds year + r.seasonStart stdOffset savings + 604800 := by
  have place := r.day.dayIn_bounds year r.month
  simp only [instantIn, seasonStart, Calendar.yearStartSeconds, Calendar.secondsOfDay,
    Calendar.secondsPerDay]
  omega

end Recurrence

namespace RuleSet

/-- The season of one recurrence ends before the season of another one starts. -/
def SeasonEnds (stdOffset : Int) (amounts : List Int) (r q : Recurrence) : Prop :=
  ∀ savings ∈ amounts, ∀ other ∈ amounts,
    r.seasonStart stdOffset savings + 604800 < q.seasonStart stdOffset other

instance (stdOffset : Int) (amounts : List Int) (r q : Recurrence)
    : Decidable (SeasonEnds stdOffset amounts r q) :=
  inferInstanceAs (Decidable (∀ savings ∈ amounts, ∀ other ∈ amounts, _ < _))

/-- Of two recurrences on the same day, one comes at an earlier time of day. -/
def SameDayBefore (stdOffset : Int) (amounts : List Int) (r q : Recurrence) : Prop :=
  (r.month = q.month ∧ r.day = q.day)
  ∧ ∀ savings ∈ amounts, ∀ other ∈ amounts,
      r.time.universalSeconds stdOffset savings < q.time.universalSeconds stdOffset other

instance (stdOffset : Int) (amounts : List Int) (r q : Recurrence)
    : Decidable (SameDayBefore stdOffset amounts r q) :=
  inferInstanceAs (Decidable (_ ∧ ∀ savings ∈ amounts, ∀ other ∈ amounts, _ < _))

/-- In every year one recurrence comes before another one. -/
def ComesBefore (stdOffset : Int) (amounts : List Int) (r q : Recurrence) : Prop :=
  SeasonEnds stdOffset amounts r q ∨ SameDayBefore stdOffset amounts r q

instance (stdOffset : Int) (amounts : List Int) (r q : Recurrence)
    : Decidable (ComesBefore stdOffset amounts r q) :=
  inferInstanceAs (Decidable (_ ∨ _))

/-- Under the given amounts of saved time, the recurrences come in the same order in every year and
leave room for each other from one year to the next. -/
structure Seasonal (rules : RuleSet) (stdOffset : Int) (amounts : List Int) : Prop where
  day : ∀ r ∈ rules.recurrences, r.day.dayPast? r.month = none
  near
    : ∀ r ∈ rules.recurrences, ∀ savings ∈ amounts,
        -25920000 ≤ r.time.universalSeconds stdOffset savings
        ∧ r.time.universalSeconds stdOffset savings ≤ 25920000
  closed : ∀ r ∈ rules.recurrences, r.savings ∈ amounts
  apart
    : rules.recurrences.Pairwise fun r q =>
        ComesBefore stdOffset amounts r q ∨ ComesBefore stdOffset amounts q r
  yearly
    : ∀ r ∈ rules.recurrences, ∀ q ∈ rules.recurrences, ∀ savings ∈ amounts, ∀ other ∈ amounts,
        r.seasonStart stdOffset savings + 604800 < q.seasonStart stdOffset other + 31536000

variable {rules : RuleSet} {stdOffset : Int} {amounts : List Int}

/-- In an earlier year every change comes in front of every change of a later year. -/
theorem Seasonal.precedes_of_lt (seasonal : rules.Seasonal stdOffset amounts) {r q : Recurrence}
    (r_member : r ∈ rules.recurrences) (q_member : q ∈ rules.recurrences) {a b : Int} (lt : a < b)
    : Precedes (· ∈ amounts) stdOffset r a q b := by
  intro savings other amount other_amount
  have room := seasonal.yearly r r_member q q_member savings amount other other_amount
  have first := (r.instantIn_season stdOffset savings a).2
  have second := (q.instantIn_season stdOffset other b).1
  have years := Calendar.yearStartSeconds_gap (Int.le_of_lt lt)
  omega

/-- In the same year a change comes in front of the changes that come later every year. -/
theorem ComesBefore.precedes {r q : Recurrence} (before : ComesBefore stdOffset amounts r q)
    (year : Int)
    : Precedes (· ∈ amounts) stdOffset r year q year := by
  intro savings other amount other_amount
  rcases before with ends | ⟨⟨month_eq, day_eq⟩, earlier⟩
  · have room := ends savings amount other other_amount
    have first := (r.instantIn_season stdOffset savings year).2
    have second := (q.instantIn_season stdOffset other year).1
    omega
  · have room := earlier savings amount other other_amount
    simp only [Recurrence.instantIn, month_eq, day_eq]
    omega

/-- Two changes at different positions or in different years come in the same order whatever saved
time they are computed with. -/
theorem Seasonal.total (seasonal : rules.Seasonal stdOffset amounts) {i j : Nat}
    {r q : Recurrence} (at_i : rules.recurrences[i]? = some r)
    (at_j : rules.recurrences[j]? = some q) {a b : Int} (different : i = j → a ≠ b)
    : Precedes (· ∈ amounts) stdOffset r a q b ∨ Precedes (· ∈ amounts) stdOffset q b r a := by
  have r_member := List.mem_of_getElem? at_i
  have q_member := List.mem_of_getElem? at_j
  rcases Int.lt_trichotomy a b with lt | rfl | gt
  · exact .inl (seasonal.precedes_of_lt r_member q_member lt)
  · have apart := of_pairwise seasonal.apart (fun _ _ => Or.symm) at_i at_j
      fun same => different same rfl
    exact apart.imp (fun before => before.precedes a) fun before => before.precedes a
  · exact .inr (seasonal.precedes_of_lt q_member r_member gt)

/-- Rules that keep to seasons of their own are steady. -/
theorem Seasonal.steady (seasonal : rules.Seasonal stdOffset amounts)
    : rules.Steady stdOffset (· ∈ amounts) :=
  steady_of_total seasonal.day seasonal.near seasonal.closed
    fun _ _ _ _ _ _ at_i at_j _ _ different => seasonal.total at_i at_j different

/-- Under the given amounts of saved time, every change stays within its year. -/
def WithinYear (rules : RuleSet) (stdOffset : Int) (amounts : List Int) : Prop :=
  ∀ r ∈ rules.recurrences, ∀ savings ∈ amounts,
    0 < r.seasonStart stdOffset savings
    ∧ r.seasonStart stdOffset savings + 604800 < 31536000

instance (rules : RuleSet) (stdOffset : Int) (amounts : List Int)
    : Decidable (rules.WithinYear stdOffset amounts) :=
  inferInstanceAs (Decidable (∀ r ∈ rules.recurrences, ∀ savings ∈ amounts, _ ∧ _))

/-- A change that stays within its year is on the same side of the start of a year whatever saved
time it is computed with. -/
theorem WithinYear.le_of_le (within : rules.WithinYear stdOffset amounts) {r : Recurrence}
    (member : r ∈ rules.recurrences) {savings other : Int} (amount : savings ∈ amounts)
    (other_amount : other ∈ amounts) {year start : Int}
    (le : r.instantIn year stdOffset savings ≤ Calendar.yearStartSeconds start)
    : r.instantIn year stdOffset other ≤ Calendar.yearStartSeconds start := by
  have here := within r member savings amount
  have there := within r member other other_amount
  have first := (r.instantIn_season stdOffset savings year).1
  have second := (r.instantIn_season stdOffset other year).2
  rcases Int.lt_or_le year start with lt | ge
  · have := Calendar.yearStartSeconds_gap (Int.le_of_lt lt)
    omega
  · have := Calendar.yearStartSeconds_gap ge
    omega

/-- A change that stays within its year keeps its sides of the starts of years. -/
theorem WithinYear.keepsSides (within : rules.WithinYear stdOffset amounts) (start : Int)
    : rules.KeepsSides stdOffset (· ∈ amounts) (Calendar.yearStartSeconds start) :=
  fun _ member _ _ _ _ amount other_amount le => within.le_of_le member amount other_amount le

/-- Of two changes on one day, one comes at an earlier time of day. -/
def TimeBefore (stdOffset : Int) (amounts : List Int) (r q : Recurrence) : Prop :=
  ∀ savings ∈ amounts, ∀ other ∈ amounts,
    r.time.universalSeconds stdOffset savings % 86400
      < q.time.universalSeconds stdOffset other % 86400

instance (stdOffset : Int) (amounts : List Int) (r q : Recurrence)
    : Decidable (TimeBefore stdOffset amounts r q) :=
  inferInstanceAs (Decidable (∀ savings ∈ amounts, ∀ other ∈ amounts, _ < _))

/-- Under the given amounts of saved time, every change keeps to its day in universal time, and no
two recurrences share a time of day. -/
structure Punctual (rules : RuleSet) (stdOffset : Int) (amounts : List Int) : Prop where
  sameDay
    : ∀ r ∈ rules.recurrences, ∀ savings ∈ amounts, ∀ other ∈ amounts,
        r.time.universalSeconds stdOffset savings / 86400
          = r.time.universalSeconds stdOffset other / 86400
  apart
    : rules.recurrences.Pairwise fun r q =>
        TimeBefore stdOffset amounts r q ∨ TimeBefore stdOffset amounts q r

/-- Of two changes whose times of day differ, the one on the earlier day comes first, and on one day
the one at the earlier time. -/
theorem Punctual.total_of_timeBefore (punctual : rules.Punctual stdOffset amounts)
    {r q : Recurrence} (r_member : r ∈ rules.recurrences) (q_member : q ∈ rules.recurrences)
    (before : TimeBefore stdOffset amounts r q) (a b : Int)
    : Precedes (· ∈ amounts) stdOffset r a q b ∨ Precedes (· ∈ amounts) stdOffset q b r a := by
  by_cases le : ∀ savings ∈ amounts, ∀ other ∈ amounts,
      r.day.dayIn a r.month + r.time.universalSeconds stdOffset savings / 86400
        ≤ q.day.dayIn b q.month + q.time.universalSeconds stdOffset other / 86400
  · refine .inl fun savings other amount other_amount => ?_
    have := le savings amount other other_amount
    have := before savings amount other other_amount
    simp only [Recurrence.instantIn, Calendar.secondsOfDay, Calendar.secondsPerDay]
    omega
  · refine .inr fun savings other amount other_amount => ?_
    simp only [Classical.not_forall, Int.not_le] at le
    obtain ⟨first, first_amount, second, second_amount, lt⟩ := le
    have := punctual.sameDay r r_member first first_amount other other_amount
    have := punctual.sameDay q q_member second second_amount savings amount
    simp only [Recurrence.instantIn, Calendar.secondsOfDay, Calendar.secondsPerDay]
    omega

/-- Two changes of punctual rules at different positions or in different years come in the same
order whatever saved time they are computed with. -/
theorem Punctual.total (punctual : rules.Punctual stdOffset amounts) {i j : Nat}
    {r q : Recurrence} (at_i : rules.recurrences[i]? = some r)
    (at_j : rules.recurrences[j]? = some q) {a b : Int} (different : i = j → a ≠ b)
    : Precedes (· ∈ amounts) stdOffset r a q b ∨ Precedes (· ∈ amounts) stdOffset q b r a := by
  have r_member := List.mem_of_getElem? at_i
  have q_member := List.mem_of_getElem? at_j
  by_cases same : i = j
  · subst same
    obtain rfl := Option.some.inj (at_i.symm.trans at_j)
    have later {c d : Int} (lt : c < d) : Precedes (· ∈ amounts) stdOffset r c r d := by
      intro savings other amount other_amount
      have := punctual.sameDay r r_member savings amount other other_amount
      have first := (r.instantIn_season stdOffset savings c).2
      have second := (r.instantIn_season stdOffset other d).1
      have := Calendar.yearStartSeconds_gap (Int.le_of_lt lt)
      simp only [Recurrence.seasonStart] at first second
      omega
    exact (Int.lt_or_gt_of_ne (different rfl)).imp later later
  · rcases of_pairwise punctual.apart (fun _ _ => Or.symm) at_i at_j same with before | before
    · exact punctual.total_of_timeBefore r_member q_member before a b
    · exact (punctual.total_of_timeBefore q_member r_member before b a).symm

/-- A change of punctual rules does not pass midnight with the saved time. -/
theorem Punctual.not_across (punctual : rules.Punctual stdOffset amounts) {r : Recurrence}
    (member : r ∈ rules.recurrences) {savings other : Int} (amount : savings ∈ amounts)
    (other_amount : other ∈ amounts) (a year : Int)
    : ¬ (r.instantIn a stdOffset savings < Calendar.yearStartSeconds year
        ∧ Calendar.yearStartSeconds year < r.instantIn a stdOffset other) := by
  have := punctual.sameDay r member savings amount other other_amount
  simp only [Recurrence.instantIn, Calendar.yearStartSeconds, Calendar.secondsOfDay,
    Calendar.secondsPerDay]
  omega

/-- The amounts of saved time of a rule set as a list. -/
def savedAmounts (rules : RuleSet) : List Int := 0 :: rules.recurrences.map (·.savings)

/-- The amounts of saved time of a rule set are those of its list. -/
theorem mem_savedAmounts_iff (savings : Int)
    : savings ∈ rules.savedAmounts ↔ rules.SavesAmount savings := by
  simp [savedAmounts, SavesAmount, eq_comm]

/-- The amounts of saved time of a rule set are the members of the list of them. -/
theorem mem_savedAmounts : (· ∈ rules.savedAmounts) = rules.SavesAmount :=
  funext fun savings => propext (mem_savedAmounts_iff savings)

/-- Rules that keep to seasons under their own amounts of saved time are steady under them. -/
theorem Seasonal.steady_savesAmount (seasonal : rules.Seasonal stdOffset rules.savedAmounts)
    : rules.Steady stdOffset rules.SavesAmount := by
  rw [← mem_savedAmounts]
  exact seasonal.steady

end RuleSet

/-- A rule set that saves an hour from spring to autumn in every year since 2000. -/
def summerRules : RuleSet :=
  { name := "S"
    recurrences :=
      [ { name := "S"
          first := .year 2000
          last := .latest
          month := .mar
          day := .onOrAfter .sun 8
          time := { mode := .wall, time := .ofSeconds 7200 }
          save := .ofSeconds 3600
          letter := some "D" },
        { name := "S"
          first := .year 2000
          last := .latest
          month := .nov
          day := .onOrAfter .sun 1
          time := { mode := .wall, time := .ofSeconds 7200 }
          save := .zero
          letter := some "S" } ] }

/-- Summer time keeps to its seasons. -/
theorem summerRules_seasonal : summerRules.Seasonal (-18000) summerRules.savedAmounts where
  day := by decide +kernel
  near := by decide +kernel
  closed := by decide +kernel
  apart := by decide +kernel
  yearly := by decide +kernel

end CivilTime
