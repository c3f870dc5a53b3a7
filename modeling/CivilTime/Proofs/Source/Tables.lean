import CivilTime.Proofs.Source.Record
import CivilTime.Proofs.Table
import CivilTime.Source.Tables

/-! What the tables of a source hold.
Every record passes the checks of its reader and is found under its own name, and no zone or link
name is defined twice. This holds of the empty tables and is kept by every line.
-/

namespace CivilTime

/-- A rule set whose recurrences carry its name and pass their checks. -/
structure RuleSet.Checked (rules : RuleSet) : Prop where
  named : ∀ r ∈ rules.recurrences, r.name = rules.name
  recurrences : ∀ r ∈ rules.recurrences, r.Checked

/-- A zone record whose lines pass their checks. -/
def ZoneRecord.Checked (record : ZoneRecord) : Prop := ∀ line ∈ record.lines, line.Checked

/-- Tables of records that pass their checks, each under its own name. Zones and links have no name
twice. -/
structure Tables.Checked (t : Tables) : Prop where
  rules : ∀ entry ∈ t.rules, entry.2.name = entry.1 ∧ entry.2.Checked
  zones : ∀ entry ∈ t.zones, entry.2.Checked
  links : ∀ entry ∈ t.links, entry.2.name = entry.1
  zoneNames : t.zones.names.Nodup
  linkNames : t.links.names.Nodup

/-- A zone that expects further lines has passed its checks so far. -/
def OpenZone.Checked (zone : OpenZone) : Prop :=
  ∀ name record, zone = .collecting name record → record.Checked

/-- What has been read of a source passes its checks. -/
structure Collector.Checked (c : Collector) : Prop where
  tables : c.tables.Checked
  zone : c.zone.Checked

-----------------------------------------------------------------------------------------
-- Adding records
-----------------------------------------------------------------------------------------

namespace Tables

variable {t : Tables}

/-- Without records there is nothing to check. -/
theorem Checked.empty : Tables.empty.Checked where
  rules := by simp [Tables.empty]
  zones := by simp [Tables.empty]
  links := by simp [Tables.empty]
  zoneNames := by simp [Tables.empty, Table.names]
  linkNames := by simp [Tables.empty, Table.names]

/-- Reported errors are no records. -/
theorem Checked.withErrors (checked : t.Checked) (errors : List LineError)
    : { t with errors }.Checked :=
  { rules := checked.rules
    zones := checked.zones
    links := checked.links
    zoneNames := checked.zoneNames
    linkNames := checked.linkNames }

/-- Changing the rule set of a name keeps the checks if the new rule set passes them. -/
theorem Checked.alterRules (checked : t.Checked) {name : String}
    {change : Option RuleSet → RuleSet}
    (changed
      : ∀ old,
          (∀ former ∈ old, former.name = name ∧ former.Checked)
          → (change old).name = name ∧ (change old).Checked)
    : { t with rules := t.rules.alter name change }.Checked :=
  { checked with
    rules := by
      intro entry member
      rcases Table.mem_alter member with kept | ⟨old, former, rfl⟩
      · exact checked.rules entry kept
      · exact changed old fun rules held => checked.rules _ (former rules held) }

/-- Adding a recurrence keeps the checks. -/
theorem Checked.addRule (checked : t.Checked) {r : Recurrence} (sound : r.Checked)
    : (t.addRule r).Checked := by
  refine checked.alterRules fun old former => ?_
  cases old with
  | none =>
      refine ⟨rfl, ?_, ?_⟩
      · simp [RuleSet.push, RuleSet.empty]
      · simpa [RuleSet.push, RuleSet.empty] using sound
  | some rules =>
      obtain ⟨name_eq, held⟩ := former rules rfl
      refine ⟨name_eq, ?_, ?_⟩
      · intro q member
        rcases List.mem_append.mp member with before | new
        · exact held.named q before
        · rw [List.mem_singleton.mp new]
          exact name_eq.symm
      · intro q member
        rcases List.mem_append.mp member with before | new
        · exact held.recurrences q before
        · rw [List.mem_singleton.mp new]
          exact sound

/-- Adding a rule set keeps the checks. -/
theorem Checked.addRuleSet (checked : t.Checked) {name : String} {rules : RuleSet}
    (name_eq : rules.name = name) (sound : rules.Checked)
    : (t.addRuleSet name rules).Checked := by
  refine checked.alterRules fun old former => ?_
  cases old with
  | none => exact ⟨name_eq, sound⟩
  | some earlier =>
      obtain ⟨earlier_name, held⟩ := former earlier rfl
      refine ⟨earlier_name, ?_, ?_⟩
      · intro q member
        rcases List.mem_append.mp member with before | new
        · exact held.named q before
        · exact (sound.named q new).trans (name_eq.trans earlier_name.symm)
      · intro q member
        rcases List.mem_append.mp member with before | new
        · exact held.recurrences q before
        · exact sound.recurrences q new

/-- Adding a zone keeps the checks. -/
theorem Checked.addZone (checked : t.Checked) {name : String} {record : ZoneRecord}
    (sound : record.Checked)
    : (t.addZone name record).Checked := by
  unfold Tables.addZone
  split
  case isTrue => exact checked.withErrors _
  case isFalse fresh =>
    exact
      { checked with
        zones := by
          intro entry member
          rcases List.mem_append.mp member with before | new
          · exact checked.zones entry before
          · rw [List.mem_singleton.mp new]
            exact sound
        zoneNames := Table.nodup_append checked.zoneNames fresh record }

/-- Adding a link keeps the checks. -/
theorem Checked.addLink (checked : t.Checked) (link : Link) : (t.addLink link).Checked := by
  unfold Tables.addLink
  split
  case isTrue => exact checked.withErrors _
  case isFalse fresh =>
    exact
      { checked with
        links := by
          intro entry member
          rcases List.mem_append.mp member with before | new
          · exact checked.links entry before
          · rw [List.mem_singleton.mp new]
        linkNames := Table.nodup_append checked.linkNames fresh link }

/-- A fold of steps that keep the checks keeps them, by induction on the list. -/
theorem Checked.foldl {α : Type} {step : Tables → α → Tables} {values : List α}
    (checked : t.Checked)
    (kept : ∀ value ∈ values, ∀ u : Tables, u.Checked → (step u value).Checked)
    : (values.foldl step t).Checked := by
  induction values generalizing t with
  | nil => exact checked
  | cons value rest ih =>
      exact ih (kept value (by simp) t checked)
        fun v member => kept v (List.mem_cons_of_mem _ member)

/-- Adding the records of another source keeps the checks. -/
theorem Checked.extend {other : Tables} (checked : t.Checked) (sound : other.Checked)
    : (t.extend other).Checked := by
  refine Checked.withErrors ?_ _
  refine Checked.foldl (Checked.foldl (Checked.foldl checked ?_) ?_) ?_
  · intro entry member u held
    exact held.addRuleSet (sound.rules entry member).1 (sound.rules entry member).2
  · exact fun entry member u held => held.addZone (sound.zones entry member)
  · exact fun entry _ u held => held.addLink entry.2

end Tables

-----------------------------------------------------------------------------------------
-- Reading a source
-----------------------------------------------------------------------------------------

namespace Collector

variable {c : Collector}

/-- Moving the place is no matter of the records. -/
theorem Checked.withPlace (checked : c.Checked) (place : Place) : { c with place }.Checked :=
  ⟨checked.tables, checked.zone⟩

/-- A zone that is not expecting lines has nothing to check. -/
theorem checked_idle : OpenZone.idle.Checked := fun _ _ same => nomatch same

/-- Taking a zone keeps the checks. -/
theorem Checked.takeZone (checked : c.Checked) (name : String) {record : ZoneRecord}
    (sound : record.Checked) (line : ZoneLine)
    : (c.takeZone name record line).Checked := by
  unfold Collector.takeZone
  split
  · exact ⟨checked.tables.addZone sound, checked_idle⟩
  · refine ⟨checked.tables, ?_⟩
    rintro _ _ ⟨⟩
    exact sound

/-- Taking a record keeps the checks, by cases on the record. -/
theorem Checked.takeRecord (checked : c.Checked) {record : Record} (sound : record.Checked)
    : (c.takeRecord record).Checked := by
  cases record with
  | rule r => exact ⟨checked.tables.addRule sound, checked.zone⟩
  | zone name line =>
      refine checked.takeZone name (fun l member => ?_) line
      rw [List.mem_singleton.mp member]
      exact sound
  | link link => exact ⟨checked.tables.addLink link, checked.zone⟩
  | continuation line =>
      simp only [Collector.takeRecord]
      split
      case h_1 name record collecting =>
        refine checked.takeZone name (fun l member => ?_) line
        rcases List.mem_append.mp member with before | new
        · exact checked.zone name record collecting l before
        · rw [List.mem_singleton.mp new]
          exact sound
      case h_2 =>
        split
        · exact ⟨checked.tables, checked_idle⟩
        · exact checked

/-- Taking the columns of a line keeps the checks. A refused line is reported and closes or discards
its zone. -/
theorem Checked.takeColumns (checked : c.Checked) (columns : List String)
    : (c.takeColumns columns).Checked := by
  unfold Collector.takeColumns
  split
  case h_1 => exact checked.withPlace _
  case h_2 record place read =>
    exact (checked.withPlace place).takeRecord
      (Record.yields_readColumns _ _ _ _ _ read record rfl)
  case h_3 =>
    refine ⟨checked.tables.withErrors _, fun name record same => ?_⟩
    simp only [OpenZone.afterRefused] at same
    repeat' split at same
    all_goals cases same

/-- Taking a line keeps the checks. -/
theorem Checked.takeLine (checked : c.Checked) (line : String) : (c.takeLine line).Checked := by
  simp only [Collector.takeLine]
  split
  · exact checked.withPlace _
  · split
    · split
      · exact ⟨checked.tables, checked_idle⟩
      · exact checked.withPlace _
    · exact (checked.withPlace _).takeColumns _

/-- The records at the end of a source pass their checks. -/
theorem Checked.finish (checked : c.Checked) : c.finish.Checked := by
  unfold Collector.finish
  split
  case h_1 name record collecting =>
    exact checked.tables.addZone (checked.zone name record collecting)
  case h_2 => exact checked.tables

/-- Taking lines keeps the checks, by induction on the lines. -/
theorem Checked.takeLines (checked : c.Checked) (lines : List String)
    : (lines.foldl Collector.takeLine c).Checked := by
  induction lines generalizing c with
  | nil => exact checked
  | cons line rest ih =>
      rw [List.foldl_cons]
      exact ih (checked.takeLine line)

end Collector

/-- The tables of a source text pass their checks. -/
theorem Tables.checked_ofText (text : String) : (Tables.ofText text).Checked :=
  Collector.Checked.finish
    (Collector.Checked.takeLines ⟨Tables.Checked.empty, Collector.checked_idle⟩ _)

end CivilTime
