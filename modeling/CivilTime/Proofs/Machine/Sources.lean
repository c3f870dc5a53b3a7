import CivilTime.Proofs.Machine.Compilation
import CivilTime.Proofs.Zone.Totality

/-! The zones of a source compile in arithmetic of signed 64 bit numbers.
Whatever the reader accepts has years of thirty-two bits and times of the clock, so nothing
overflows, no search is given up, and no instant comes near the ends of time.
-/

namespace CivilTime

/-- A zone of tables that pass their checks compiles to a bounded zone. -/
theorem Machine.compileZone?_sound {t : Tables} (checked : t.Checked) {name : String}
    {record : ZoneRecord} (found : t.zones.get? name = some record)
    : Sound (compile record name t.rules) (record.compile name t.rules) CompiledZone.Bounded :=
  compile_sound name (checked.zones _ (Table.mem_of_get? found)) fun entry member r inside =>
    ((checked.rules entry member).2.recurrences r inside).day

/-- No search of a recurrence is given up while a zone of a source is compiled. From every instant
and year on, the search of a recurrence that the reader accepts comes to an end, whichever times of
the clock the standard offset and the saved time last. -/
theorem Tables.searches_end
    : (∀ text name ruleSet year,
        (Tables.ofText text).compileZone? name ≠ some (.error (.searchExhausted ruleSet year)))
      ∧ ∀ columns place r behind,
          (Recurrence.read columns).run place = (.ok r, behind)
          → ∀ (stdOffset savings : ClockTime) (after minYear : Int),
              ∃ found,
                r.nextFromYear after stdOffset.seconds savings.seconds minYear = .ok found := by
  constructor
  · intro text name ruleSet year failed
    obtain ⟨record, found, failed⟩ := Option.map_eq_some_iff.mp failed
    have sound := Machine.compileZone?_sound (Tables.checked_ofText text) found
    exact sound.searched ruleSet year failed
  · intro columns place r behind read stdOffset savings after minYear
    have checked : r.Checked := Recurrence.yields_read columns place r behind read
    have reach := r.time.universalSeconds_bounds stdOffset.seconds_bounds savings.seconds_bounds
    exact Recurrence.nextFromYear_ok checked.day reach.1 after minYear

/-- The columns of a rule whose time of day has as many hours as can be written. -/
def lateColumns : List String :=
  ["S", "2000", "max", "-", "Mar", "Sun>=8", "-65535:59:59", "65535:59:59", "D"]

/-- The greatest time of the clock that can be written. -/
def greatestTime : ClockTime := { negative := false, hour := 65535, minute := 59, second := 59 }

/-- Witness: a rule with as many hours as can be written is accepted, and its search from the
beginning of time on comes to an end under as great an offset and as much saved time. -/
theorem Tables.searches_end_late
    : ∃ r behind,
        (Recurrence.read lateColumns).run .start = (.ok r, behind)
        ∧ ∃ found,
            r.nextFromYear beginningOfTime greatestTime.seconds greatestTime.seconds 0
              = .ok found := by
  have accepted : ((Recurrence.read lateColumns).run .start).1.isOk = true := by decide +kernel
  match read : (Recurrence.read lateColumns).run .start with
  | (.error error, _) => simp [read, Except.isOk, Except.toBool] at accepted
  | (.ok r, behind) =>
      exact ⟨r, behind, rfl,
        Tables.searches_end.2 lateColumns .start r behind read greatestTime greatestTime _ 0⟩

/-- Every zone of a source compiles without an overflow of signed 64 bit numbers, with small amounts
of offset and saved time and with instants far from the ends of time on the way. The bounds of a
compiled zone are such instants or the two ends of time, which stand on their own sides only. -/
theorem Tables.compileZone?_inRange (text name : String)
    : Machine.compileZone? (Tables.ofText text) name
        = ((Tables.ofText text).compileZone? name).map Machine.of
      ∧ ∀ zone,
          (Tables.ofText text).compileZone? name = some (.ok zone)
          → zone.Bounded
            ∧ ∀ i ∈ zone.intervals, i.start ≠ endOfTime ∧ i.stop ≠ beginningOfTime := by
  have sound {record : ZoneRecord} (found : (Tables.ofText text).zones.get? name = some record) :=
    Machine.compileZone?_sound (Tables.checked_ofText text) found
  constructor
  · unfold Machine.compileZone? Tables.compileZone?
    cases found : (Tables.ofText text).zones.get? name with
    | none => rfl
    | some record => simp [(sound found).agrees]
  · intro zone compiled
    obtain ⟨record, found, compiled⟩ := Option.map_eq_some_iff.mp compiled
    have bounded := (sound found).holds zone compiled
    refine ⟨bounded, fun i member => ?_⟩
    have start := (bounded.intervals i member).start
    have stop := (bounded.intervals i member).stop
    unfold Instant.Clear beginningOfTime endOfTime at *
    omega

/-- Witness: the zone of summer time compiles without an overflow to a bounded zone. -/
theorem Tables.compileZone?_inRange_summer
    : (Tables.ofText summerText).compileZone? "E" = some (.ok summerTextZone)
      ∧ Machine.compileZone? (Tables.ofText summerText) "E" = some (Machine.of (.ok summerTextZone))
      ∧ summerTextZone.Bounded := by
  have compiled : (Tables.ofText summerText).compileZone? "E" = some (.ok summerTextZone) := by
    decide +kernel
  have inRange := Tables.compileZone?_inRange summerText "E"
  exact ⟨compiled, by rw [inRange.1, compiled]; rfl, (inRange.2 summerTextZone compiled).1⟩

end CivilTime
