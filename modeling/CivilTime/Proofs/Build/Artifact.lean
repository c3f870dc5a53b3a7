import CivilTime.Proofs.Artifact.Compiled
import CivilTime.Proofs.Artifact.RoundTrip
import CivilTime.Proofs.Build.Aliases

/-! The artifact of a build is read as what has been built.
A regular time is the one that its seconds stand for unless it is a zero with a minus sign, and an
artifact holds seconds. A recurrence with such a zero therefore comes back without the sign, and all
else comes back as it is.
-/

namespace CivilTime

-----------------------------------------------------------------------------------------
-- Negative zeros
-----------------------------------------------------------------------------------------

/-- A recurrence with a negative zero as its time of day or as its saved time. -/
def Recurrence.HasNegativeZero (r : Recurrence) : Prop :=
  r.time.time.NegativeZero ∨ r.save.NegativeZero

instance (r : Recurrence) : Decidable r.HasNegativeZero := inferInstanceAs (Decidable (_ ∨ _))

/-- A recurrence with regular times is kept by writing them as seconds, unless it has a negative
zero. -/
theorem Recurrence.inSeconds_eq_iff {r : Recurrence} (time : r.time.time.Regular)
    (save : r.save.Regular)
    : r.inSeconds = r ↔ ¬ r.HasNegativeZero := by
  rw [HasNegativeZero, not_or, ← time.ofSeconds_eq_iff, ← save.ofSeconds_eq_iff]
  obtain ⟨name, first, last, month, day, ⟨mode, time⟩, save, letter⟩ := r
  simp [inSeconds]

/-- A zone whose tail has a recurrence with a negative zero. -/
def CompiledZone.HasNegativeZero (z : CompiledZone) : Prop :=
  ∃ t ∈ z.tail, ∃ r ∈ t.rules.recurrences, r.HasNegativeZero

instance (z : CompiledZone) : Decidable z.HasNegativeZero :=
  inferInstanceAs (Decidable (∃ t ∈ z.tail, ∃ r ∈ t.rules.recurrences, r.HasNegativeZero))

/-- A tail whose recurrences have regular times. -/
def Tail.RegularTimes (t : Tail) : Prop :=
  ∀ r ∈ t.rules.recurrences, r.time.time.Regular ∧ r.save.Regular

/-- A zone with regular times is kept by writing them as seconds, unless it has a negative zero. -/
theorem CompiledZone.inSeconds_eq_iff {z : CompiledZone} (regular : ∀ t ∈ z.tail, t.RegularTimes)
    : z.inSeconds = z ↔ ¬ z.HasNegativeZero := by
  obtain ⟨intervals, tail⟩ := z
  cases tail with
  | none => simp [inSeconds, HasNegativeZero]
  | some t =>
      have kept : t.rules.recurrences.map Recurrence.inSeconds = t.rules.recurrences
          ↔ ∀ r ∈ t.rules.recurrences, ¬ r.HasNegativeZero := by
        refine Iff.trans ?_ (forall₂_congr fun r member =>
          Recurrence.inSeconds_eq_iff (regular t rfl r member).1 (regular t rfl r member).2)
        simpa using List.map_eq_map_iff (f := Recurrence.inSeconds) (g := id)
          (l := t.rules.recurrences)
      obtain ⟨start, stdOffset, format, initialSavings, initialLetter, name, recurrences⟩ := t
      simpa [inSeconds, Tail.inSeconds, HasNegativeZero] using kept

/-- The tail of what a record compiles to under checked rules has regular times. -/
theorem ZoneRecord.regular_of_compile {record : ZoneRecord} {name : String}
    {table : Table RuleSet} {zone : CompiledZone} (compiled : record.compile name table = .ok zone)
    (rules_checked : ∀ entry ∈ table, entry.2.Checked)
    : ∀ t ∈ zone.tail, t.RegularTimes := by
  intro t member r inside
  obtain ⟨_, _, _, _, rules, _, found, _, _, _, _, _, _, rfl⟩ := tail_of_compile compiled member
  have checked := (rules_checked _ (Table.mem_of_get? found)).recurrences r
    (List.mem_filter.mp inside).1
  exact ⟨checked.time, checked.save⟩

/-- The zones of an index under their names. -/
def ZoneIndex.zones (index : ZoneIndex) : Table CompiledZone :=
  index.map fun (name, shared) => (name, shared.zone)

namespace Build

variable {options : Options} {sources : Sources}

-----------------------------------------------------------------------------------------
-- The index of a build
-----------------------------------------------------------------------------------------

/-- The names of a build are in order. -/
theorem pairwise_index : (run options sources).index.names.Pairwise (· < ·) :=
  Table.pairwise_sorted _

/-- What stands in the index of a build has been compiled from a record, whose position is its
token. -/
theorem compiled_of_mem_index {entry : String × SharedZone}
    (member : entry ∈ (run options sources).index)
    : ∃ name record,
        ((parse sources).1.tables.zones.filter fun (name, _) =>
            (Selection.ofOptions (parse sources).1.tables options).contains name)[entry.2.token]?
          = some (name, record)
        ∧ record.compile name (parse sources).1.tables.rules = .ok entry.2.zone := by
  obtain ⟨name, shared⟩ := entry
  have nodup : (run options sources).index.names.Nodup := pairwise_index.imp fun lt => lt.ne
  have built : ∃ zone, (zone, shared) ∈ zonesOf options (parse sources).1 := by
    rcases get?_index.mp (Table.get?_of_mem nodup member) with zone | shown
    · exact ⟨name, zone⟩
    · obtain ⟨_, target, _, _, zone⟩ := target_of_mem_aliasesOf shown
      exact ⟨target, zone⟩
  obtain ⟨zone, zone_member⟩ := built
  obtain ⟨record, at_token, compiled⟩ := mem_buildZones.mp zone_member
  exact ⟨zone, record, at_token, compiled⟩

/-- Names with the same token have the same zone, since they have the same record. -/
theorem shares_index : (run options sources).index.Shares := by
  intro entry member other other_member same
  obtain ⟨name, record, at_token, compiled⟩ := compiled_of_mem_index member
  obtain ⟨name', record', at_token', compiled'⟩ := compiled_of_mem_index other_member
  rw [same] at at_token
  obtain ⟨rfl, rfl⟩ := Prod.mk.inj (Option.some.inj (at_token.symm.trans at_token'))
  exact Except.ok.inj (compiled.symm.trans compiled')

/-- The zones of a build fit into an artifact, and their tails have regular times. -/
theorem encodable_of_mem_index {entry : String × SharedZone}
    (member : entry ∈ (run options sources).index)
    : entry.2.zone.Encodable ∧ ∀ t ∈ entry.2.zone.tail, t.RegularTimes := by
  obtain ⟨name, record, at_token, compiled⟩ := compiled_of_mem_index member
  have checked := parse_checked sources
  have rules_checked : ∀ entry ∈ (parse sources).1.tables.rules, entry.2.Checked :=
    fun entry member => (checked.rules entry member).2
  have listed := List.mem_of_mem_filter (List.mem_of_getElem? at_token)
  exact
    ⟨ZoneRecord.encodable_of_compile compiled (checked.zones _ listed) rules_checked,
      ZoneRecord.regular_of_compile compiled rules_checked⟩

-----------------------------------------------------------------------------------------
-- The artifact of a build
-----------------------------------------------------------------------------------------

/-- The artifact of a build is read as its zones with their times written as seconds. -/
theorem read_bytes (short : (run options sources).bytes.length < 2 ^ 64)
    : ∃ index,
        Artifact.read (run options sources).bytes = .ok index
        ∧ List.Forall₂ (Table.Agree fun shared stored => shared.zone = stored.zone.inSeconds)
            index (run options sources).index := by
  have read := Artifact.read_finish shares_index
    (fun _ member => (encodable_of_mem_index member).1) short
  rwa [Table.sorted_eq pairwise_index] at read

/-- Two indices of the same names, in one of which the zones have their times written as seconds,
have equal zones exactly if that changes no zone. The induction is on the entries. -/
theorem zones_eq_iff {index stored : ZoneIndex}
    (agree
      : List.Forall₂ (Table.Agree fun shared stored => shared.zone = stored.zone.inSeconds) index
          stored)
    : index.zones = stored.zones ↔ ∀ entry ∈ stored, entry.2.zone.inSeconds = entry.2.zone := by
  induction agree with
  | nil => simp [ZoneIndex.zones]
  | @cons shared entry rest others here _ ih =>
      rw [List.forall_mem_cons, ← ih]
      obtain ⟨name_eq, zone_eq⟩ := here
      simp only [ZoneIndex.zones, List.map_cons, List.cons.injEq, Prod.mk.injEq, name_eq, zone_eq,
        true_and]

/-- The artifact of a build is read as a table of the same names, each with its zone up to the form
of its times. The zones are the very same exactly if none of them has a negative zero. -/
theorem run_readsBack (short : (run options sources).bytes.length < 2 ^ 64)
    : ∃ index,
        Artifact.read (run options sources).bytes = .ok index
        ∧ index.names = (run options sources).index.names
        ∧ (∀ name,
            (index.get? name).map (·.zone)
              = ((run options sources).index.get? name).map (·.zone.inSeconds))
        ∧ (index.zones = (run options sources).index.zones
            ↔ ∀ entry ∈ (run options sources).index, ¬ entry.2.zone.HasNegativeZero) := by
  obtain ⟨index, read_eq, agree⟩ := read_bytes short
  refine ⟨index, read_eq, Table.names_eq_of_agree agree, fun name => ?_, ?_⟩
  · exact Table.map_get?_of_agree agree name
  · rw [zones_eq_iff agree]
    exact forall₂_congr fun entry member =>
      CompiledZone.inSeconds_eq_iff (encodable_of_mem_index member).2

/-- A source with a zone of summer time and an alias of it. -/
def summerSources : Sources :=
  [{ name := "f"
     contents :=
       "R S 2000 ma - Mar Su>=8 2 1 D\nR S 2000 ma - N Su>=1 2 0 S\nZ E -5 S E%sT\nL E F\n" }]

/-- Witness: the artifact of a build with a tail and an alias is read as the very same zones. -/
theorem run_readsBack_summer
    : ∃ index,
        Artifact.read (run .standard summerSources).bytes = .ok index
        ∧ index.names = ["E", "F"]
        ∧ index.zones = (run .standard summerSources).index.zones := by
  obtain ⟨index, read_eq, names_eq, -, same⟩ :=
    run_readsBack
      (show (run .standard summerSources).bytes.length < 2 ^ 64 by decide +kernel)
  exact ⟨index, read_eq, names_eq.trans (by decide +kernel), same.mpr (by decide +kernel)⟩

/-- A source whose summer time begins at a negative zero. -/
def negativeZeroSources : Sources :=
  [{ name := "f"
     contents :=
       "R A 2000 ma - Mar lastSu -0 1 D\nR A 2000 ma - O lastSu 1 0 S\nZ X 0 A X%sT\n" }]

/-- A zone whose summer time begins at a time of the last Sunday in March. -/
def marchZone (time : ClockTime) : CompiledZone :=
  { intervals :=
      [ { start := beginningOfTime
          stop := 954028800
          stdOffset := 0
          savings := 0
          name := "XST" },
        { start := 954028800
          stop := 972777600
          stdOffset := 0
          savings := 3600
          name := "XDT" },
        { start := 972777600
          stop := 985478400
          stdOffset := 0
          savings := 0
          name := "XST" } ]
    tail :=
      some
        { start := 985478400
          stdOffset := 0
          format := .letter "X%sT"
          initialSavings := 3600
          initialLetter := some "D"
          rules :=
            { name := "A"
              recurrences :=
                [ { name := "A"
                    first := .year 2000
                    last := .latest
                    month := .mar
                    day := .last .sun
                    time := { mode := .wall, time }
                    save := .ofSeconds 3600
                    letter := some "D" },
                  { name := "A"
                    first := .year 2000
                    last := .latest
                    month := .oct
                    day := .last .sun
                    time := { mode := .wall, time := .ofSeconds 3600 }
                    save := .zero
                    letter := some "S" } ] } } }

/-- The zone is built with a negative zero, and the artifact of the build is read as a zone without
it, which is another one. -/
theorem run_negativeZero_lost
    : (run .standard negativeZeroSources).index.zones
        = [("X", marchZone { ClockTime.zero with negative := true })]
      ∧ (Artifact.read (run .standard negativeZeroSources).bytes).map ZoneIndex.zones
        = .ok [("X", marchZone .zero)]
      ∧ marchZone { ClockTime.zero with negative := true } ≠ marchZone .zero := by
  refine ⟨?_, ?_, ?_⟩ <;> decide +kernel

end Build

end CivilTime
