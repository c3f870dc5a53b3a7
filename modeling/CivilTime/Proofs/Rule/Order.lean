import CivilTime.Proofs.Rule.Stream

/-! Where the order of the changes does not depend on the saved time, a stream makes exactly the
pending ones. The changes that are left behind a cursor shrink by one at each step, so two streams
with the same pending changes and the same saved time go on alike.
-/

namespace CivilTime

namespace Recurrence

/-- Under all of the given amounts of saved time, one change comes in front of another. -/
def Precedes (amounts : Int → Prop) (stdOffset : Int) (r : Recurrence) (year : Int)
    (other : Recurrence) (otherYear : Int)
    : Prop :=
  ∀ savings otherSavings,
    amounts savings
    → amounts otherSavings
    → r.instantIn year stdOffset savings < other.instantIn otherYear stdOffset otherSavings

variable {amounts : Int → Prop} {stdOffset : Int} {r q p : Recurrence} {a b c : Int}

/-- The order of the changes is transitive if there is an amount of saved time at all. -/
theorem Precedes.trans {savings : Int} (amount : amounts savings)
    (first : Precedes amounts stdOffset r a q b) (second : Precedes amounts stdOffset q b p c)
    : Precedes amounts stdOffset r a p c := by
  intro σ τ σ_amount τ_amount
  exact Int.lt_trans (first σ savings σ_amount amount) (second savings τ amount τ_amount)

/-- A change does not come in front of itself, nor two changes in front of each other. -/
theorem Precedes.asymm {savings : Int} (amount : amounts savings)
    (first : Precedes amounts stdOffset r a q b) (second : Precedes amounts stdOffset q b r a)
    : False := by
  have := first.trans amount second savings savings amount amount
  omega

end Recurrence

open Recurrence (Precedes)

namespace RuleSet

/-- Under the given amounts of saved time, every change stays near its day and no two changes trade
places or coincide. -/
structure Steady (rules : RuleSet) (stdOffset : Int) (amounts : Int → Prop) : Prop where
  day : ∀ r ∈ rules.recurrences, r.DayInMonth
  near : ∀ r ∈ rules.recurrences, ∀ savings, amounts savings → r.NearMidnight stdOffset savings
  closed : ∀ r ∈ rules.recurrences, amounts r.savings
  own
    : ∀ r ∈ rules.recurrences, ∀ a b,
        r.AppliesTo a → r.AppliesTo b → a < b → Precedes amounts stdOffset r a r b
  others
    : rules.recurrences.Pairwise fun r q =>
        ∀ a b,
          r.AppliesTo a
          → q.AppliesTo b
          → Precedes amounts stdOffset r a q b ∨ Precedes amounts stdOffset q b r a

variable {rules : RuleSet} {stdOffset : Int} {amounts : Int → Prop}

/-- Rules are steady if any two of their changes come in one order, whatever saved time they are
computed with. -/
theorem steady_of_total (day : ∀ r ∈ rules.recurrences, r.DayInMonth)
    (near
      : ∀ r ∈ rules.recurrences, ∀ savings, amounts savings → r.NearMidnight stdOffset savings)
    (closed : ∀ r ∈ rules.recurrences, amounts r.savings)
    (total
      : ∀ (i j : Nat) (r q : Recurrence) (a b : Int),
          rules.recurrences[i]? = some r
          → rules.recurrences[j]? = some q
          → r.AppliesTo a
          → q.AppliesTo b
          → (i = j → a ≠ b)
          → Precedes amounts stdOffset r a q b ∨ Precedes amounts stdOffset q b r a)
    : rules.Steady stdOffset amounts where
  day
  near
  closed
  own r member a b a_applies b_applies lt := by
    obtain ⟨i, at_i⟩ := List.getElem?_of_mem member
    rcases total i i r r a b at_i at_i a_applies b_applies fun _ => Int.ne_of_lt lt with
      front | back
    · exact front
    · have backward := back r.savings r.savings (closed r member) (closed r member)
      have forward := r.instantIn_lt stdOffset r.savings lt
      omega
  others := by
    refine List.pairwise_iff_getElem.mpr fun i j i_lt j_lt lt a b a_applies b_applies => ?_
    exact total i j _ _ a b (List.getElem?_eq_getElem i_lt) (List.getElem?_eq_getElem j_lt)
      a_applies b_applies fun same => by omega

/-- Two changes at different positions or in different years are ordered. -/
theorem Steady.total (steady : rules.Steady stdOffset amounts) {i j : Nat} {r q : Recurrence}
    (at_i : rules.recurrences[i]? = some r) (at_j : rules.recurrences[j]? = some q) {a b : Int}
    (r_applies : r.AppliesTo a) (q_applies : q.AppliesTo b) (different : i = j → a ≠ b)
    : Precedes amounts stdOffset r a q b ∨ Precedes amounts stdOffset q b r a := by
  obtain ⟨i_lt, r_eq⟩ := List.getElem?_eq_some_iff.mp at_i
  obtain ⟨j_lt, q_eq⟩ := List.getElem?_eq_some_iff.mp at_j
  have pairs := List.pairwise_iff_getElem.mp steady.others
  rcases Nat.lt_trichotomy i j with lt | same | gt
  · have := pairs i j i_lt j_lt lt
    rw [r_eq, q_eq] at this
    exact this a b r_applies q_applies
  · subst same
    have equal : r = q := by rw [← r_eq, ← q_eq]
    subst equal
    have member := List.mem_of_getElem? at_i
    rcases Int.lt_or_gt_of_ne (different rfl) with lt | gt
    · exact .inl (steady.own r member a b r_applies q_applies lt)
    · exact .inr (steady.own r member b a q_applies r_applies gt)
  · have := pairs j i j_lt i_lt gt
    rw [r_eq, q_eq] at this
    exact (this b a q_applies r_applies).symm

/-- Of two changes the one that is made no later comes in front of the other, whatever saved time
each of them is made under. -/
theorem Steady.precedes_of_le (steady : rules.Steady stdOffset amounts) {i j : Nat}
    {r q : Recurrence} (at_i : rules.recurrences[i]? = some r)
    (at_j : rules.recurrences[j]? = some q) {a b : Int} (r_applies : r.AppliesTo a)
    (q_applies : q.AppliesTo b) (different : i = j → a ≠ b) {savings other : Int}
    (amount : amounts savings) (other_amount : amounts other)
    (le : r.instantIn a stdOffset savings ≤ q.instantIn b stdOffset other)
    : Precedes amounts stdOffset r a q b := by
  rcases steady.total at_i at_j r_applies q_applies different with front | back
  · exact front
  · have := back other savings other_amount amount
    omega

/-- A recurrence that applies to a year stands at one position only. -/
theorem Steady.index_unique (steady : rules.Steady stdOffset amounts) {savings : Int}
    (amount : amounts savings) {i j : Nat} {r : Recurrence}
    (at_i : rules.recurrences[i]? = some r) (at_j : rules.recurrences[j]? = some r) {year : Int}
    (applies : r.AppliesTo year)
    : i = j := by
  by_cases same : i = j
  · exact same
  · rcases steady.total at_i at_j applies applies fun equal => absurd equal same with lt | gt
    · exact (lt.asymm amount lt).elim
    · exact (gt.asymm amount gt).elim

/-- A part of a steady rule set is steady. -/
theorem Steady.filter (steady : rules.Steady stdOffset amounts) (name : String)
    (keep : Recurrence → Bool)
    : RuleSet.Steady { name, recurrences := rules.recurrences.filter keep } stdOffset amounts where
  day r member := steady.day r (List.mem_filter.mp member).1
  near r member := steady.near r (List.mem_filter.mp member).1
  closed r member := steady.closed r (List.mem_filter.mp member).1
  own r member := steady.own r (List.mem_filter.mp member).1
  others := steady.others.filter keep

end RuleSet

namespace Stream

/-- A change of a recurrence is pending if it lies behind the cursor in a fresh year. -/
def Pending (s : Stream) (r : Recurrence) (year : Int) : Prop :=
  ∃ index,
    s.rules.recurrences[index]? = some r
    ∧ r.AppliesTo year
    ∧ RuleSet.Fresh (RuleSet.usedIn s.used index) year
    ∧ s.cursor < r.instantIn year s.stdOffset s.savings

/-- A stream of a steady rule set that goes on under one of the given amounts of saved time. -/
structure Steady (s : Stream) (amounts : Int → Prop) : Prop extends s.Sized where
  steady : s.rules.Steady s.stdOffset amounts
  amount : amounts s.savings
  running : s.finished = false

/-- A change of a stream that comes in front of all other pending changes. -/
structure MakesFirst (s : Stream) (amounts : Int → Prop) (r : Recurrence) (t : Transition) : Prop
    extends s.Makes r t where
  least
    : ∀ q year,
        s.Pending q year
        → (q = r → year ≠ t.year)
        → Precedes amounts s.stdOffset r t.year q year

variable {s : Stream} {amounts : Int → Prop}

/-- A pending change is offered by its recurrence, unless an earlier one of it is. -/
theorem Steady.offered (steady : s.Steady amounts) {q : Recurrence} {index : Nat} {year : Int}
    (at_index : s.rules.recurrences[index]? = some q) (applies : q.AppliesTo year)
    (fresh : RuleSet.Fresh (RuleSet.usedIn s.used index) year)
    (behind : s.cursor < q.instantIn year s.stdOffset s.savings)
    : ∃ c,
        s.rules.Offers s.cursor s.stdOffset s.savings s.used c
        ∧ c.index = index
        ∧ c.year ≤ year := by
  have member := List.mem_of_getElem? at_index
  have day := steady.steady.day q member
  have near := steady.steady.near q member s.savings steady.amount
  obtain ⟨c, found⟩ := RuleSet.candidate?_ok s.cursor index (RuleSet.usedIn s.used index) day
    (Int.le_trans (by decide) near.1)
  cases c with
  | none =>
      have := RuleSet.candidate?_none day near.2 found applies fresh
      omega
  | some c =>
      have place := (RuleSet.nextFromYear_of_candidate? found).2.1
      exact ⟨c, ⟨q, by rw [place]; exact at_index, by rw [place]; exact found⟩, place,
        RuleSet.candidate?_first day near.2 found applies fresh behind⟩

/-- The changes of a steady rule set never coincide, and its searches never fail. -/
theorem Steady.nextAfterYears_ok (steady : s.Steady amounts)
    : ∃ t, s.rules.nextAfterYears s.cursor s.stdOffset s.savings s.used = .ok t := by
  cases outcome : s.rules.nextAfterYears s.cursor s.stdOffset s.savings s.used with
  | ok t => exact ⟨t, rfl⟩
  | error fault =>
      rcases RuleSet.nextAfterYears_error outcome with tie | ⟨index, r, at_index, failed⟩
      · obtain ⟨c, d, ⟨r, at_c, c_offered⟩, ⟨q, at_d, d_offered⟩, other, same, _⟩ := tie
        obtain ⟨c_applies, _, c_instant, _⟩ := RuleSet.candidate?_some c_offered
        obtain ⟨d_applies, _, d_instant, _⟩ := RuleSet.candidate?_some d_offered
        have front := steady.steady.precedes_of_le at_c at_d c_applies d_applies
          (fun equal => absurd equal other) steady.amount steady.amount (by omega)
        have := front s.savings s.savings steady.amount steady.amount
        omega
      · have member := List.mem_of_getElem? at_index
        have near := steady.steady.near r member s.savings steady.amount
        obtain ⟨c, found⟩ := RuleSet.candidate?_ok s.cursor index (RuleSet.usedIn s.used index)
          (steady.steady.day r member) (Int.le_trans (by decide) near.1)
        rw [failed] at found
        simp at found

/-- An offered change that is made in front of all other offered ones comes in front of them
whatever saved time they are computed with. -/
theorem Steady.precedes_of_offered (steady : s.Steady amounts) {c d : RuleSet.Candidate}
    {r q : Recurrence} (at_c : s.rules.recurrences[c.index]? = some r)
    (c_offered
      : RuleSet.candidate? s.cursor s.stdOffset s.savings c.index r
          (RuleSet.usedIn s.used c.index)
        = .ok (some c))
    (at_d : s.rules.recurrences[d.index]? = some q)
    (d_offered
      : RuleSet.candidate? s.cursor s.stdOffset s.savings d.index q
          (RuleSet.usedIn s.used d.index)
        = .ok (some d))
    (other : d ≠ c) (lt : c.instant < d.instant)
    : Precedes amounts s.stdOffset r c.year q d.year := by
  obtain ⟨c_applies, _, c_instant, _⟩ := RuleSet.candidate?_some c_offered
  obtain ⟨d_applies, _, d_instant, _⟩ := RuleSet.candidate?_some d_offered
  have index_ne : c.index ≠ d.index := fun equal =>
    other (RuleSet.Offers.unique ⟨q, at_d, d_offered⟩ ⟨r, at_c, c_offered⟩ equal.symm)
  exact steady.steady.precedes_of_le at_c at_d c_applies d_applies
    (fun equal => absurd equal index_ne) steady.amount steady.amount (by omega)

/-- The change that a steady rule set makes next is pending and comes in front of all other pending
changes. -/
theorem Steady.next_least (steady : s.Steady amounts) {t : Transition}
    (found : s.rules.nextAfterYears s.cursor s.stdOffset s.savings s.used = .ok (some t))
    : ∃ r, s.MakesFirst amounts r t := by
  obtain ⟨c, ⟨r, at_c, c_offered⟩, rfl, least⟩ := RuleSet.nextAfterYears_some found
  obtain ⟨c_applies, c_fresh, c_instant, c_behind⟩ := RuleSet.candidate?_some c_offered
  have same : c.recurrence = r := (RuleSet.nextFromYear_of_candidate? c_offered).2.2
  refine ⟨r, {
    at_index := at_c
    applies := c_applies
    fresh := c_fresh
    instant_eq := c_instant
    savings_eq := by simp [RuleSet.Candidate.transition, same]
    letter_eq := by simp [RuleSet.Candidate.transition, same]
    behind := c_behind
    least := ?_
  }⟩
  intro q year pending different
  obtain ⟨index, at_index, applies, fresh, behind⟩ := pending
  obtain ⟨d, offered, place, le⟩ := steady.offered at_index applies fresh behind
  obtain ⟨q', at_d, d_offered⟩ := offered
  obtain ⟨d_applies, _⟩ := RuleSet.candidate?_some d_offered
  have equal : q' = q := by
    rw [place, at_index] at at_d
    exact (Option.some.inj at_d).symm
  subst equal
  have later (lt : d.year < year) : Precedes amounts s.stdOffset q' d.year q' year :=
    steady.steady.own q' (List.mem_of_getElem? at_index) d.year year d_applies applies lt
  by_cases one : d = c
  · subst one
    obtain rfl : q' = r := Option.some.inj (at_d.symm.trans at_c)
    have ne : year ≠ d.year := different rfl
    exact later (by omega)
  · have before := steady.precedes_of_offered at_c c_offered at_d d_offered one
      (least d ⟨q', at_d, d_offered⟩ one)
    rcases Int.lt_or_eq_of_le le with lt | same_year
    · exact before.trans steady.amount (later lt)
    · rw [← same_year]
      exact before

/-- A step of a steady stream ends it where no change is pending in front of its end, or makes the
pending change that comes in front of all others. -/
theorem Steady.step (steady : s.Steady amounts)
    : (s.next? = (none, s.finish)
        ∧ ∀ q year, s.Pending q year → s.stop ≤ q.instantIn year s.stdOffset s.savings)
      ∨ ∃ r t,
          s.next? = (some (.ok t), s.advance t)
          ∧ t.instant < s.stop
          ∧ s.MakesFirst amounts r t := by
  obtain ⟨next, outcome⟩ := steady.nextAfterYears_ok
  cases next with
  | none =>
      refine .inl ⟨by simp [next?, steady.running, outcome], fun q year pending => ?_⟩
      obtain ⟨index, at_index, applies, fresh, behind⟩ := pending
      have nothing := RuleSet.nextAfterYears_none outcome at_index
      have member := List.mem_of_getElem? at_index
      have near := steady.steady.near q member s.savings steady.amount
      have := RuleSet.candidate?_none (steady.steady.day q member) near.2 nothing applies fresh
      omega
  | some t =>
      obtain ⟨r, first⟩ := steady.next_least outcome
      by_cases inside : t.instant < s.stop
      · refine .inr ⟨r, t, ?_, inside, first⟩
        simp [next?, steady.running, outcome, inside]
      · refine .inl ⟨by simp [next?, steady.running, outcome, inside], fun q year pending => ?_⟩
        have instant_eq := first.instant_eq
        by_cases same : q = r ∧ year = t.year
        · rw [same.1, same.2]
          omega
        · have := first.least q year pending (fun equal equal_year => same ⟨equal, equal_year⟩)
            s.savings s.savings steady.amount steady.amount
          omega

/-- A steady stream stays steady. -/
theorem Steady.advance (steady : s.Steady amounts) {r : Recurrence} {t : Transition}
    (makes : s.Makes r t)
    : (s.advance t).Steady amounts where
  toSized := (Sized.advance steady.toSized makes steady.running).1
  steady := steady.steady
  amount := by
    have := steady.steady.closed r (List.mem_of_getElem? makes.at_index)
    rw [← makes.savings_eq] at this
    exact this
  running := steady.running

/-- The year in which a recurrence was last used changes for the recurrence of a change only. -/
theorem usedIn_advance (sized : s.Sized) {r : Recurrence} {t : Transition} (makes : s.Makes r t)
    (index : Nat)
    : RuleSet.usedIn (s.advance t).used index
      = if t.index = index then some t.year else RuleSet.usedIn s.used index := by
  have bound : t.index < s.used.length := by
    rw [sized.length_eq]
    exact (List.getElem?_eq_some_iff.mp makes.at_index).1
  simp only [RuleSet.usedIn, Stream.advance, List.getElem?_set, bound, if_true]
  split <;> rfl

/-- Behind a step a recurrence has not been used in a year if it had not been before, and if the
change, where it is the one of the recurrence, belongs to an earlier year. -/
theorem fresh_advance_iff (sized : s.Sized) {r : Recurrence} {t : Transition} (makes : s.Makes r t)
    {index : Nat} {year : Int}
    : RuleSet.Fresh (RuleSet.usedIn (s.advance t).used index) year
      ↔ RuleSet.Fresh (RuleSet.usedIn s.used index) year ∧ (t.index = index → t.year < year) := by
  rw [usedIn_advance sized makes]
  by_cases same : t.index = index
  · subst same
    rw [if_pos rfl]
    constructor
    · intro fresh
      have lt := fresh t.year rfl
      exact ⟨fun last used => Int.lt_trans (makes.fresh last used) lt, fun _ => lt⟩
    · rintro ⟨_, lt⟩ last used
      obtain rfl := Option.some.inj used
      exact lt rfl
  · rw [if_neg same]
    exact (and_iff_left fun equal => absurd equal same).symm

/-- A step leaves every pending change pending but the one that it makes. -/
theorem Steady.pending_advance (steady : s.Steady amounts) {r : Recurrence} {t : Transition}
    (first : s.MakesFirst amounts r t) (q : Recurrence) (year : Int)
    : (s.advance t).Pending q year ↔ s.Pending q year ∧ (q = r → year ≠ t.year) := by
  have makes := first.toMakes
  have after := (steady.advance makes).amount
  constructor
  · rintro ⟨index, at_index, applies, fresh, behind⟩
    obtain ⟨fresh, increases⟩ := (fresh_advance_iff steady.toSized makes).mp fresh
    change s.rules.recurrences[index]? = some q at at_index
    change t.instant < q.instantIn year s.stdOffset t.savings at behind
    have ordered : Precedes amounts s.stdOffset r t.year q year := by
      rw [makes.instant_eq] at behind
      exact steady.steady.precedes_of_le makes.at_index at_index makes.applies applies
        (fun same => Int.ne_of_lt (increases same)) steady.amount after (Int.le_of_lt behind)
    refine ⟨⟨index, at_index, applies, fresh, ?_⟩, ?_⟩
    · have := ordered s.savings s.savings steady.amount steady.amount
      have := makes.instant_eq
      have := makes.behind
      omega
    · rintro rfl rfl
      exact ordered.asymm steady.amount ordered
  · rintro ⟨pending, different⟩
    have ordered := first.least q year pending different
    obtain ⟨index, at_index, applies, fresh, behind⟩ := pending
    refine ⟨index, at_index, applies,
      (fresh_advance_iff steady.toSized makes).mpr ⟨fresh, fun same => ?_⟩, ?_⟩
    · have equal : q = r := by
        rw [← same, makes.at_index] at at_index
        exact (Option.some.inj at_index).symm
      subst equal
      rcases Int.lt_or_le t.year year with lt | le
      · exact lt
      · have ne := different rfl
        have lt : year < t.year := by omega
        have reverse := steady.steady.own q (List.mem_of_getElem? makes.at_index) year t.year
          applies makes.applies lt
        exact (reverse.asymm steady.amount ordered).elim
    · change t.instant < q.instantIn year s.stdOffset t.savings
      rw [makes.instant_eq]
      exact ordered s.savings t.savings steady.amount after

/-- The change that is made was pending. -/
theorem Makes.pending {r : Recurrence} {t : Transition} (makes : s.Makes r t)
    : s.Pending r t.year :=
  ⟨t.index, makes.at_index, makes.applies, makes.fresh, by
    rw [← makes.instant_eq]
    exact makes.behind⟩

/-- What applies to a year behind a pending change is pending itself. -/
def Upward (s : Stream) (amounts : Int → Prop) : Prop :=
  ∀ r a q b,
    s.Pending r a
    → q ∈ s.rules.recurrences
    → q.AppliesTo b
    → Precedes amounts s.stdOffset r a q b
    → s.Pending q b

/-- Exactly what comes behind a change is pending. -/
def PendingBehind (s : Stream) (amounts : Int → Prop) (r : Recurrence) (year : Int) : Prop :=
  ∀ q b,
    s.Pending q b
    ↔ q ∈ s.rules.recurrences ∧ q.AppliesTo b ∧ Precedes amounts s.stdOffset r year q b

/-- In a new stream no recurrence has been used. -/
theorem usedIn_between (rules : RuleSet) (start stop stdOffset savings : Int) (index : Nat)
    : RuleSet.usedIn (between rules start stop stdOffset savings).used index = none := by
  rw [between, RuleSet.usedIn, List.getElem?_map]
  cases rules.recurrences[index]? <;> rfl

/-- In a new stream the changes behind the start are pending. -/
theorem pending_between (rules : RuleSet) (start stop stdOffset savings : Int) (q : Recurrence)
    (year : Int)
    : (between rules start stop stdOffset savings).Pending q year
      ↔ q ∈ rules.recurrences
        ∧ q.AppliesTo year
        ∧ start < q.instantIn year stdOffset savings := by
  constructor
  · rintro ⟨index, at_index, applies, _, behind⟩
    exact ⟨List.mem_of_getElem? at_index, applies, behind⟩
  · rintro ⟨member, applies, behind⟩
    obtain ⟨index, at_index⟩ := List.getElem?_of_mem member
    refine ⟨index, at_index, applies, ?_, behind⟩
    intro last used
    simp [usedIn_between] at used

/-- A new stream of steady rules is steady. -/
theorem steady_between {rules : RuleSet} {stdOffset savings : Int}
    (steady : rules.Steady stdOffset amounts) (amount : amounts savings) (start stop : Int)
    : (between rules start stop stdOffset savings).Steady amounts where
  toSized := sized_between rules start stop stdOffset savings
  steady := steady
  amount := amount
  running := rfl

/-- Everything behind a pending change of a new stream is pending. -/
theorem upward_between (rules : RuleSet) {savings : Int} (amount : amounts savings)
    (start stop stdOffset : Int)
    : (between rules start stop stdOffset savings).Upward amounts := by
  intro r a q b pending member applies ordered
  have front := ((pending_between ..).mp pending).2.2
  exact (pending_between ..).mpr
    ⟨member, applies, Int.lt_trans front (ordered savings savings amount amount)⟩

/-- Behind a change exactly what it comes in front of is pending. -/
theorem Steady.pendingBehind_advance (steady : s.Steady amounts) (upward : s.Upward amounts)
    {r : Recurrence} {t : Transition} (first : s.MakesFirst amounts r t)
    : (s.advance t).PendingBehind amounts r t.year := by
  intro q b
  rw [steady.pending_advance first]
  constructor
  · rintro ⟨pending, different⟩
    have ordered := first.least q b pending different
    obtain ⟨index, at_index, applies, _, _⟩ := pending
    exact ⟨List.mem_of_getElem? at_index, applies, ordered⟩
  · rintro ⟨member, applies, ordered⟩
    refine ⟨upward r t.year q b first.pending member applies ordered, ?_⟩
    rintro rfl rfl
    exact ordered.asymm steady.amount ordered

/-- Everything behind a pending change stays pending. -/
theorem Steady.upward_advance (steady : s.Steady amounts) (upward : s.Upward amounts)
    {r : Recurrence} {t : Transition} (first : s.MakesFirst amounts r t)
    : (s.advance t).Upward amounts := by
  intro p a q b pending member applies ordered
  have behind := steady.pendingBehind_advance upward first
  have front := ((behind p a).mp pending).2.2
  exact (behind q b).mpr ⟨member, applies, front.trans steady.amount ordered⟩

/-- The change of a step of a steady stream comes in front of all other pending changes. -/
theorem Steady.makesFirst (steady : s.Steady amounts) {t : Transition} {next : Stream}
    (step : s.next? = (some (.ok t), next))
    : next = s.advance t ∧ ∃ r, s.MakesFirst amounts r t := by
  obtain ⟨_, found, _, next_eq⟩ := next?_ok step
  exact ⟨next_eq, steady.next_least found⟩

/-- Steps of a steady stream lead to a steady stream, behind whose cursor nothing is lost. -/
theorem Reaches.steady {last : Stream} {changes : List Transition}
    (reaches : Reaches s changes last) (steady : s.Steady amounts) (upward : s.Upward amounts)
    : last.Steady amounts ∧ last.Upward amounts := by
  induction reaches with
  | stay => exact ⟨steady, upward⟩
  | step makes _ ih =>
      obtain ⟨rfl, r, first⟩ := steady.makesFirst makes
      exact ih (steady.advance first.toMakes) (steady.upward_advance upward first)

/-- Behind the last of several changes exactly what it comes in front of is pending, by induction
on the changes. -/
theorem Reaches.pendingBehind {last : Stream} {changes : List Transition} {t : Transition}
    (reaches : Reaches s (changes ++ [t]) last) (steady : s.Steady amounts)
    (upward : s.Upward amounts)
    : ∃ r savings,
        r ∈ s.rules.recurrences
        ∧ s.rules.recurrences[t.index]? = some r
        ∧ amounts savings
        ∧ r.AppliesTo t.year
        ∧ t.instant = r.instantIn t.year s.stdOffset savings
        ∧ t.savings = r.savings
        ∧ t.letter = r.letter
        ∧ last.cursor = t.instant
        ∧ last.savings = t.savings
        ∧ last.PendingBehind amounts r t.year := by
  induction changes generalizing s with
  | nil =>
      cases reaches with
      | step makes later =>
          cases later with
          | stay =>
              obtain ⟨rfl, r, first⟩ := steady.makesFirst makes
              exact ⟨r, s.savings, List.mem_of_getElem? first.at_index, first.at_index,
                steady.amount, first.applies, first.instant_eq, first.savings_eq,
                first.letter_eq, rfl, rfl, steady.pendingBehind_advance upward first⟩
  | cons u rest ih =>
      cases reaches with
      | step makes later =>
          obtain ⟨rfl, r, first⟩ := steady.makesFirst makes
          have behind := ih later (steady.advance first.toMakes)
            (steady.upward_advance upward first)
          exact behind

/-- Behind an instant at which a change is made, exactly what the change comes in front of lies
behind it under another amount of saved time, the change itself apart. -/
theorem Steady.behind_iff_precedes (steady : s.Steady amounts) {r q : Recurrence} {a b : Int}
    {before : Int} (amount : amounts before) (r_member : r ∈ s.rules.recurrences)
    (r_applies : r.AppliesTo a) (q_member : q ∈ s.rules.recurrences) (q_applies : q.AppliesTo b)
    (different : q = r → b ≠ a)
    : r.instantIn a s.stdOffset before < q.instantIn b s.stdOffset s.savings
      ↔ Precedes amounts s.stdOffset r a q b := by
  constructor
  · intro lt
    obtain ⟨i, at_i⟩ := List.getElem?_of_mem r_member
    obtain ⟨j, at_j⟩ := List.getElem?_of_mem q_member
    have apart : i = j → a ≠ b := by
      rintro rfl rfl
      rw [at_i, Option.some.injEq] at at_j
      exact different at_j.symm rfl
    exact steady.steady.precedes_of_le at_i at_j r_applies q_applies apart amount steady.amount
      (Int.le_of_lt lt)
  · intro ordered
    exact ordered before s.savings amount steady.amount

/-- A pending change that comes in front of all others and lies in front of the end is made next. -/
theorem Steady.step_of_first (steady : s.Steady amounts) {r : Recurrence} {year : Int}
    (pending : s.Pending r year)
    (least
      : ∀ q b, s.Pending q b → (q = r → b ≠ year) → Precedes amounts s.stdOffset r year q b)
    (inside : r.instantIn year s.stdOffset s.savings < s.stop)
    : ∃ t, s.next? = (some (.ok t), s.advance t) ∧ s.MakesFirst amounts r t ∧ t.year = year := by
  rcases steady.step with ⟨_, exhausted⟩ | ⟨q, t, step, _, first⟩
  · have := exhausted r year pending
    omega
  · have same : q = r ∧ t.year = year := by
      by_cases different : q = r → t.year ≠ year
      · have front := least q t.year first.pending different
        have back := first.least r year pending (fun equal equal_year =>
          different equal.symm equal_year.symm)
        exact (front.asymm steady.amount back).elim
      · simpa using different
    obtain ⟨rfl, rfl⟩ := same
    exact ⟨t, step, first, rfl⟩

/-- Two streams are to make the same changes. -/
structure Agrees (s u : Stream) : Prop where
  rules_eq : s.rules = u.rules
  stdOffset_eq : s.stdOffset = u.stdOffset
  stop_eq : s.stop = u.stop
  savings_eq : s.savings = u.savings
  pending_iff : ∀ q year, s.Pending q year ↔ u.Pending q year

/-- A step of two streams that agree makes the same change, and they agree behind it. -/
theorem Agrees.step {u : Stream} (agrees : Agrees s u) (steady : s.Steady amounts)
    (steady' : u.Steady amounts) {r : Recurrence} {t : Transition}
    (first : s.MakesFirst amounts r t) (inside : t.instant < s.stop)
    : u.next? = (some (.ok t), u.advance t)
      ∧ (u.advance t).Steady amounts
      ∧ Agrees (s.advance t) (u.advance t) := by
  have instant_eq := first.instant_eq
  rw [agrees.stdOffset_eq, agrees.savings_eq] at instant_eq
  obtain ⟨v, step, first', year_eq⟩ := steady'.step_of_first
    ((agrees.pending_iff r t.year).mp first.pending)
    (fun q b pending different => by
      rw [← agrees.stdOffset_eq]
      exact first.least q b ((agrees.pending_iff q b).mpr pending) different)
    (by rw [← agrees.stop_eq, ← instant_eq]; exact inside)
  have index_eq : v.index = t.index := by
    have at_index := first'.at_index
    rw [← agrees.rules_eq] at at_index
    exact steady.steady.index_unique steady.amount at_index first.at_index first.applies
  have same : v = t := by
    have instant_eq' := first'.instant_eq
    rw [year_eq, ← instant_eq] at instant_eq'
    have savings_eq := first'.savings_eq.trans first.savings_eq.symm
    have letter_eq := first'.letter_eq.trans first.letter_eq.symm
    cases v
    cases t
    simp_all
  subst same
  refine ⟨step, steady'.advance first'.toMakes, {
    rules_eq := agrees.rules_eq
    stdOffset_eq := agrees.stdOffset_eq
    stop_eq := agrees.stop_eq
    savings_eq := rfl
    pending_iff := fun q year => ?_
  }⟩
  rw [steady.pending_advance first, steady'.pending_advance first', agrees.pending_iff]

/-- Steady streams with the same pending changes and the same saved time make the same changes, by
induction on the items of one of them. -/
theorem Agrees.items_eq {u : Stream} (agrees : Agrees s u) (steady : s.Steady amounts)
    (steady' : u.Steady amounts)
    : s.items = u.items := by
  generalize items_eq : s.items = items
  induction items generalizing s u with
  | nil =>
      rcases steady'.step with ⟨step, _⟩ | ⟨r, t, _, inside, first⟩
      · rw [items_nil step]
      · rcases steady.step with ⟨_, exhausted⟩ | ⟨q, v, step, _, _⟩
        · have := exhausted r t.year ((agrees.pending_iff r t.year).mpr first.pending)
          rw [agrees.stop_eq, agrees.stdOffset_eq, agrees.savings_eq, ← first.instant_eq] at this
          omega
        · rw [steady.toSized.items_cons step] at items_eq
          simp at items_eq
  | cons item others ih =>
      rcases steady.step with ⟨step, _⟩ | ⟨r, t, step, inside, first⟩
      · rw [items_nil step] at items_eq
        simp at items_eq
      · rw [steady.toSized.items_cons step, List.cons.injEq] at items_eq
        obtain ⟨rfl, items_eq⟩ := items_eq
        obtain ⟨step', steady_next', agrees_next⟩ := agrees.step steady steady' first inside
        rw [steady'.toSized.items_cons step']
        exact congrArg _ (ih agrees_next (steady.advance first.toMakes) steady_next' items_eq)

end Stream

end CivilTime
