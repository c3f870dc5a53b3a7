import CivilTime.Proofs.Artifact.Zone
import CivilTime.Proofs.Machine.Compilation
import CivilTime.Proofs.Zone.Completion

/-! Compiled zones fit into an artifact.
Their intervals and tails are bounded and years have thirty-two bits, so no number of a compiled
zone needs more than sixty-four bits. A tail keeps the format of its line as it is written, and its
recurrences carry the name of its rules.
-/

namespace CivilTime

/-- An instant far from the ends of time is representable. -/
theorem Instant.Clear.representable {t : Int} (clear : Clear t) : Representable t := by
  unfold Clear at clear
  unfold Representable beginningOfTime endOfTime
  omega

/-- A small amount is representable. -/
theorem ClockTime.Small.representable {amount : Int} (small : Small amount)
    : Instant.Representable amount := by
  unfold Small at small
  unfold Instant.Representable beginningOfTime endOfTime
  omega

/-- A bounded interval fits into an artifact. -/
theorem Interval.Bounded.encodable {i : Interval} (bounded : i.Bounded) : i.Encodable where
  start := by
    rcases bounded.start with same | clear
    · rw [same]
      decide
    · exact clear.representable
  stop := by
    rcases bounded.stop with same | clear
    · rw [same]
      decide
    · exact clear.representable
  stdOffset := bounded.stdOffset.representable
  savings := bounded.savings.representable
  wallOffset := by
    have stdOffset := bounded.stdOffset
    have savings := bounded.savings
    unfold ClockTime.Small at stdOffset savings
    unfold Instant.Representable wallOffset beginningOfTime endOfTime
    omega

/-- A day rule that names no day past the end of its month names one of at most thirty-one days. -/
theorem DayRule.namedDay_le {rule : DayRule} {month : Month} (valid : rule.dayPast? month = none)
    : ∀ day ∈ rule.namedDay?, day ≤ 31 := by
  intro day named
  have inside := Option.filter_eq_none_iff.mp valid day named
  have length : month.maxLength ≤ 31 := by cases month <;> decide
  simp only [decide_eq_true_eq] at inside
  omega

/-- A bounded tail that a checked line starts under checked rules fits into an artifact. -/
theorem Compilation.StartsTail.encodable {line : ZoneLine} {rules : RuleSet} {start : Int}
    {tail : Tail} (starts : StartsTail line rules start tail) (bounded : tail.Bounded)
    (checked : line.Checked) (rules_checked : rules.Checked)
    : tail.Encodable := by
  obtain ⟨_, alternating, _, t, _, _, rfl⟩ := starts
  have unbounded {q : Recurrence} (member : q ∈ rules.unbounded) : q ∈ rules.recurrences :=
    (List.mem_filter.mp member).1
  exact
    { start_lt := by
        have clear := bounded.start
        unfold Instant.Clear at clear
        unfold endOfTime
        omega
      stdOffset := bounded.stdOffset.representable
      initialSavings := bounded.initialSavings.representable
      format := checked.format
      named := by
        change rules.unbounded.head?.map (·.name) = some rules.name
        cases unbounded_eq : rules.unbounded with
        | nil => simp [RuleSet.hasAlternatingTail, unbounded_eq] at alternating
        | cons q rest =>
            have member := unbounded (unbounded_eq ▸ List.mem_cons_self ..)
            exact congrArg some (rules_checked.named q member)
      recurrences := fun q member => by
        have checked := rules_checked.recurrences q (unbounded member)
        exact
          ⟨checked.first, checked.last, fun day named =>
            (DayRule.namedDay_le checked.day day named).trans (by decide)⟩ }

/-- What a checked record compiles to under checked rules fits into an artifact. -/
theorem ZoneRecord.encodable_of_compile {record : ZoneRecord} {name : String}
    {table : Table RuleSet} {zone : CompiledZone} (compiled : record.compile name table = .ok zone)
    (checked : record.Checked) (rules_checked : ∀ entry ∈ table, entry.2.Checked)
    : zone.Encodable := by
  have sound := Machine.compile_sound name checked fun entry member r inside =>
    ((rules_checked entry member).recurrences r inside).day
  have bounded := sound.holds zone compiled
  refine ⟨contiguous_of_compile compiled, fun i member => (bounded.intervals i member).encodable,
    fun t member => ?_⟩
  obtain ⟨stop_eq, line, line_member, key, rules, start, found, starts⟩ :=
    tail_of_compile compiled member
  have rules_checked := rules_checked _ (Table.mem_of_get? found)
  exact
    ⟨stop_eq,
      starts.encodable (bounded.tail t member) (checked line line_member) rules_checked⟩

end CivilTime
