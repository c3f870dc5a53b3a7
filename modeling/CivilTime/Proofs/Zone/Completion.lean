import CivilTime.Proofs.Zone.Lines

/-! How the last line of a record completes its zone.
The intervals cover the time up to where the last line leads. A tail starts with a change of the
rules of the last line, in a later year than the line does.
-/

namespace CivilTime

namespace Compilation

/-- The intervals behind a line. -/
def LineEnd.timeline : LineEnd → Timeline
  | .next progress => progress.timeline
  | .tail timeline _ => timeline

/-- Where a line leads to: the start of the next line or of the tail. -/
def LineEnd.stop : LineEnd → Int
  | .next progress => progress.start
  | .tail _ rest => rest.start

/-- The tail that a line leads into, if it does. -/
def LineEnd.tail? : LineEnd → Option Tail
  | .next _ => none
  | .tail _ rest => some rest

variable {zone : String} {line : ZoneLine} {table : Table RuleSet}

/-- A line covers the time up to where it leads. -/
theorem compileLine_covers {progress : Progress} {isLast : Bool} {lineEnd : LineEnd}
    (compiled : compileLine zone table line progress isLast = .ok lineEnd)
    (covers : Timeline.Covers progress.timeline.newestFirst progress.start)
    : Timeline.Covers lineEnd.timeline.newestFirst lineEnd.stop := by
  cases lineEnd with
  | next next =>
      obtain ⟨_, _, _, _, covered⟩ := compileLine_next compiled covers
      exact covered
  | tail timeline tail => exact (compileLine_tail compiled covers).2.2

/-- A tail of a line under rules starts with one of their changes, in a later year than the line
does. The rules go on forever with more than one state. -/
structure StartsTail (line : ZoneLine) (rules : RuleSet) (start : Int) (tail : Tail) : Prop where
  applicable : line.format.isApplicable = true
  alternating : rules.hasAlternatingTail = true
  starts
    : ∃ savings t,
        t ∈ (Stream.after rules start line.stdOffset.seconds savings).transitions
        ∧ Calendar.yearOf start < Calendar.yearOf t.instant
        ∧ tail = tailFrom line rules t

/-- A change past the cutoff lies in a later year than the start of its line. -/
theorem yearOf_lt_of_pastCutoff {rules : RuleSet} {start : Int} {isLast : Bool} {t : Transition}
    (past : pastCutoff (cutoffYear? line rules start isLast) t = true)
    : Calendar.yearOf start < Calendar.yearOf t.instant := by
  unfold pastCutoff cutoffYear? at past
  split at past
  · simp only [Option.any_some, decide_eq_true_eq] at past
    split at past
    · exact Int.lt_of_le_of_lt (Int.le_max_right ..) past
    · exact past
  · simp at past

/-- A line under rules that leads into a tail starts it. -/
theorem compileRules_startsTail {rules : RuleSet} {progress : Progress} {isLast : Bool}
    {timeline : Timeline} {tail : Tail}
    (compiled : compileRules zone line rules progress isLast = .ok (.tail timeline tail))
    : StartsTail line rules progress.start tail := by
  obtain ⟨state, name, changes, last, rest, _, named, items_eq, _, ends⟩ :=
    compileRules_ok compiled
  cases ends with
  | exhausted _ finished | ended _ _ finished | settled _ _ _ _ finished =>
      obtain ⟨_, _, same⟩ := finish_ok finished
      simp at same
  | tail earlier _ past alternating =>
      refine ⟨(NameFormat.apply_eq_ok.mp named).1, alternating, state.savings, _, ?_,
        yearOf_lt_of_pastCutoff past, rfl⟩
      rw [Stream.transitions, items_eq, filterMap_toOption_append]
      simp

/-- A line that leads into a tail has rules that start it. -/
theorem compileLine_startsTail {progress : Progress} {isLast : Bool} {timeline : Timeline}
    {tail : Tail}
    (compiled : compileLine zone table line progress isLast = .ok (.tail timeline tail))
    : ∃ name rules,
        table.get? name = some rules ∧ StartsTail line rules progress.start tail := by
  unfold compileLine at compiled
  split at compiled
  · simp at compiled
  · cases source : line.savings with
    | standard | fixed savings =>
        simp only [source] at compiled
        obtain ⟨_, _, compiled⟩ := bind_eq_ok.mp compiled
        obtain ⟨_, _, compiled⟩ := bind_eq_ok.mp compiled
        simp [pure_eq_ok] at compiled
    | rules name =>
        simp only [source] at compiled
        cases found : table.get? name with
        | none => simp [found] at compiled
        | some rules =>
            simp only [found] at compiled
            exact ⟨name, rules, found, compileRules_startsTail compiled⟩

end Compilation

/-- A compiled zone consists of the intervals up to where its last line leads, which are not empty,
and of the tail that the line leads into. -/
theorem ZoneRecord.compile_completes {record : ZoneRecord} {name : String} {table : Table RuleSet}
    {zone : CompiledZone} (compiled : record.compile name table = .ok zone)
    : ∃ last before lineEnd,
        last ∈ record.lines
        ∧ Compilation.compileLine name table last before true = .ok lineEnd
        ∧ Timeline.Covers lineEnd.timeline.newestFirst lineEnd.stop
        ∧ lineEnd.timeline.newestFirst ≠ []
        ∧ zone = { intervals := lineEnd.timeline.newestFirst.reverse, tail := lineEnd.tail? } := by
  unfold compile at compiled
  split at compiled
  · simp at compiled
  · rename_i some_line
    obtain ⟨earlier, last, before, lineEnd, lines_eq, _, covers, step, completes⟩ :=
      Compilation.compileLines_ok compiled .empty (by simpa using some_line)
    have covered := Compilation.compileLine_covers step covers
    have completed
        : Compilation.complete name lineEnd.timeline lineEnd.tail? = .ok zone := by
      cases lineEnd with
      | next next => exact completes
      | tail timeline tail => exact completes
    obtain ⟨zone_eq, some_interval⟩ := Compilation.complete_ok completed
    exact ⟨last, before, lineEnd, by simp [lines_eq], step, covered, some_interval, zone_eq⟩

/-- The intervals of a compiled zone are contiguous. -/
theorem ZoneRecord.contiguous_of_compile {record : ZoneRecord} {name : String}
    {table : Table RuleSet} {zone : CompiledZone} (compiled : record.compile name table = .ok zone)
    : Contiguous zone.intervals := by
  obtain ⟨_, _, _, _, _, covered, some_interval, rfl⟩ := compile_completes compiled
  exact (covered.contiguous some_interval).1

/-- The tail of a compiled zone starts where its intervals end, with a change of the rules of a line
of its record. -/
theorem ZoneRecord.tail_of_compile {record : ZoneRecord} {name : String} {table : Table RuleSet}
    {zone : CompiledZone} (compiled : record.compile name table = .ok zone) {tail : Tail}
    (tail_eq : zone.tail = some tail)
    : zone.intervals.getLast?.map (·.stop) = some tail.start
      ∧ ∃ line ∈ record.lines, ∃ key rules start,
          table.get? key = some rules ∧ Compilation.StartsTail line rules start tail := by
  obtain ⟨last, before, lineEnd, member, step, covered, some_interval, rfl⟩ :=
    compile_completes compiled
  cases lineEnd with
  | next next => simp [Compilation.LineEnd.tail?] at tail_eq
  | tail timeline rest =>
      obtain rfl := Option.some.inj tail_eq
      obtain ⟨key, rules, found, starts⟩ := Compilation.compileLine_startsTail step
      exact ⟨(covered.contiguous some_interval).2.2, last, member, key, rules, before.start, found,
        starts⟩

end CivilTime
