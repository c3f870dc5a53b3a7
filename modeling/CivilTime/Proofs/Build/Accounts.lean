import CivilTime.Proofs.Build.Aliases
import CivilTime.Proofs.Zone.Refusal

/-! A build without requests leaves nothing out in silence.
Every zone record and every link is either in the index or has one diagnostic, and the two are
counted against each other. A name that a zone and a link share is in the index for the zone only,
so the diagnostics of zones are told from those of links by their faults.
-/

namespace CivilTime

/-- Putting a table without repeated names in order keeps its length. -/
theorem Table.length_sorted {α : Type} {table : Table α} (nodup : table.names.Nodup)
    : table.sorted.length = table.length := by
  have sorted_nodup : table.sorted.names.Nodup := table.pairwise_sorted.imp ne_of_lt
  have same := (List.perm_ext_iff_of_nodup sorted_nodup nodup).mpr table.mem_names_sorted
  simpa [names] using same.length_eq

namespace Build

namespace Report

/-- The diagnostics for a zone that does not compile. -/
def defectsOf (report : Report) (name : String) : List Diagnostic :=
  report.diagnostics.filter fun d => d.zone == some name && d.fault.isOfZone

/-- The diagnostics for an alias that is left out. -/
def refusalsOf (report : Report) (name : String) : List Diagnostic :=
  report.diagnostics.filter fun d => d.zone == some name && !d.fault.isOfZone

/-- The diagnostics that name a zone or an alias. -/
def named (report : Report) : List Diagnostic := report.diagnostics.filter (·.zone.isSome)

end Report

/-- The index and the report of a build account for a zone record: either it compiles, stands in the
index under its name and has no diagnostic, or it does not compile, is not in the index and has one.
-/
def Output.AccountsForZone (output : Output) (parsed : Parsed) (name : String)
    (record : ZoneRecord)
    : Prop :=
  (∃ shared,
    record.compile name parsed.tables.rules = .ok shared.zone
    ∧ output.index.get? name = some shared
    ∧ output.report.defectsOf name = [])
  ∨ ∃ fault,
      record.compile name parsed.tables.rules = .error fault
      ∧ output.index.get? name = none
      ∧ output.report.defectsOf name
        = [{ fault, file := parsed.zoneFile? name, line := some record.line, zone := some name }]

/-- The index and the report of a build account for a link: either it is in the index as an alias of
the zone at the end of its chain and has no diagnostic, or it has one, since its name is that of a
zone or since it leads to no zone of the index. -/
def Output.AccountsForLink (output : Output) (parsed : Parsed) (name : String) (link : Link)
    : Prop :=
  (parsed.tables.zones.contains name = false
    ∧ (∃ target shared,
      Link.resolveTarget parsed.tables.links name = .ok target
      ∧ output.index.get? target = some shared
      ∧ output.index.get? name = some shared)
    ∧ output.report.refusalsOf name = [])
  ∨ (parsed.tables.zones.contains name = true
    ∧ output.report.refusalsOf name
      = [aliasDiagnostic parsed name link
          (.malformedRecord { line := link.line, fault := .duplicateName name })])
  ∨ (parsed.tables.zones.contains name = false
    ∧ output.index.get? name = none
    ∧ ∃ target,
        output.report.refusalsOf name
        = [aliasDiagnostic parsed name link (.unknownZone name target)])

/-- The index and the report of a build account for all zone records and links, and for nothing
else. -/
structure Output.Accounts (output : Output) (parsed : Parsed) : Prop where
  zone
    : ∀ name record,
        (name, record) ∈ parsed.tables.zones → output.AccountsForZone parsed name record
  link
    : ∀ name link, (name, link) ∈ parsed.tables.links → output.AccountsForLink parsed name link
  known
    : ∀ name,
        output.index.contains name = true
        → parsed.tables.zones.contains name = true ∨ parsed.tables.links.contains name = true
  built : output.report.zones + output.report.links = output.index.length
  reported
    : output.report.named.length + output.index.length
      = parsed.tables.zones.length + parsed.tables.links.length

-----------------------------------------------------------------------------------------
-- Diagnostics of what is built
-----------------------------------------------------------------------------------------

theorem mem_builtDiagnostics {built : List Built} {d : Diagnostic}
    : d ∈ builtDiagnostics built ↔ .diagnostic d ∈ built := by
  rw [builtDiagnostics, List.mem_filterMap]
  constructor
  · rintro ⟨result, member, same⟩
    cases result with
    | zone name shared => cases same
    | diagnostic other =>
        cases same
        exact member
  · exact fun member => ⟨_, member, rfl⟩

/-- What is built is a zone or a diagnostic. -/
theorem length_builtZones_add (built : List Built)
    : (builtZones built).length + (builtDiagnostics built).length = built.length := by
  induction built with
  | nil => rfl
  | cons result rest ih =>
      simp only [builtZones, builtDiagnostics] at ih ⊢
      cases result <;> simp only [List.filterMap_cons, List.length_cons] <;> omega

section Entries

variable {α : Type} {entries : List α} {key : α → String} {build : α → Option Built}

/-- The diagnostics for a name are those of the entries of that name, by induction on the entries.
-/
theorem filter_builtDiagnostics
    (named : ∀ entry d, build entry = some (.diagnostic d) → d.zone = some (key entry))
    (name : String)
    : (builtDiagnostics (entries.filterMap build)).filter (·.zone == some name)
      = builtDiagnostics ((entries.filter (key · == name)).filterMap build) := by
  induction entries with
  | nil => rfl
  | cons entry rest ih =>
      simp only [builtDiagnostics] at ih ⊢
      by_cases same : key entry = name
      all_goals
        cases built : build entry with
        | none => simp [same, built, ih]
        | some result =>
            cases result with
            | zone other shared => simp [same, built, ih]
            | diagnostic d => simp [same, built, ih, named entry d built]

/-- Where no two entries have the same name, a name has one entry. -/
theorem filter_key_eq (nodup : (entries.map key).Nodup) {entry : α} (member : entry ∈ entries)
    : entries.filter (key · == key entry) = [entry] := by
  obtain ⟨front, back, rfl⟩ := List.append_of_mem member
  rw [List.map_append, List.map_cons] at nodup
  obtain ⟨_, back_nodup, apart⟩ := List.nodup_append.mp nodup
  have front_other : ∀ other ∈ front, key other ≠ key entry := fun other inside =>
    apart _ (List.mem_map_of_mem inside) _ (by simp)
  have back_other : ∀ other ∈ back, key other ≠ key entry := fun other inside same =>
    (List.nodup_cons.mp back_nodup).1 (same ▸ List.mem_map_of_mem inside)
  rw [List.filter_append, List.filter_cons_of_pos (by simp),
    List.filter_eq_nil_iff.mpr fun other inside => by simpa using front_other other inside,
    List.filter_eq_nil_iff.mpr fun other inside => by simpa using back_other other inside]
  rfl

end Entries

/-- The diagnostics of parsing name no zone, by induction on the files. -/
theorem Parsed.zone_eq_none_of_mem_addAll {p : Parsed} {files : Sources} {d : Diagnostic}
    (member : d ∈ (p.addAll files).2)
    : d.zone = none := by
  induction files generalizing p with
  | nil => cases member
  | cons file rest ih =>
      rcases List.mem_append.mp member with here | later
      · obtain ⟨error, _, rfl⟩ := List.mem_map.mp here
        rfl
      · exact ih later

-----------------------------------------------------------------------------------------
-- Diagnostics of zones and of links
-----------------------------------------------------------------------------------------

variable {parsed : Parsed} {selection : Selection} {zones : ZoneIndex} {name : String}
  {d : Diagnostic}

/-- The diagnostic of a record tells its name and a fault of a zone. -/
theorem buildZone_eq_diagnostic {record : ZoneRecord} {token : Nat}
    : buildZone parsed name record token = .diagnostic d
      ↔ ∃ fault,
          record.compile name parsed.tables.rules = .error fault
          ∧ d
            = { fault
                file := parsed.zoneFile? name
                line := some record.line
                zone := some name } := by
  unfold buildZone
  cases record.compile name parsed.tables.rules with
  | ok zone => simp
  | error fault => simp [eq_comm]

/-- The diagnostics of records have faults of a zone. -/
theorem isOfZone_of_mem_buildZones (member : d ∈ builtDiagnostics (buildZones parsed selection))
    : d.zone.isSome = true ∧ d.fault.isOfZone = true := by
  obtain ⟨⟨⟨name, record⟩, token⟩, _, built⟩ := List.mem_map.mp (mem_builtDiagnostics.mp member)
  obtain ⟨fault, failed, rfl⟩ := buildZone_eq_diagnostic.mp built
  exact ⟨rfl, (record.compile_failsOfZone ..).isOfKind fault failed⟩

/-- The diagnostic of a link tells its name, and that the name is taken or that the link leads to no
zone that has been built. -/
theorem buildAlias_eq_diagnostic {link : Link}
    (built : buildAlias parsed selection zones name link = some (.diagnostic d))
    : (parsed.tables.zones.contains name = true
        ∧ d
          = aliasDiagnostic parsed name link
              (.malformedRecord { line := link.line, fault := .duplicateName name }))
      ∨ (parsed.tables.zones.contains name = false
        ∧ (∀ target,
            Link.resolveTarget parsed.tables.links name = .ok target → zones.get? target = none)
        ∧ ∃ target, d = aliasDiagnostic parsed name link (.unknownZone name target)) := by
  unfold buildAlias at built
  cases taken : parsed.tables.zones.contains name with
  | true =>
      simp only [taken, if_true, Option.some.injEq, Built.diagnostic.injEq] at built
      exact .inl ⟨rfl, built.symm⟩
  | false =>
      simp only [taken, Bool.false_eq_true, if_false] at built
      split at built
      · cases built
      · cases outcome : Link.resolve parsed.tables.links zones.get? name with
        | ok shared => simp [outcome] at built
        | error fault =>
            simp only [outcome, Option.some.injEq, Built.diagnostic.injEq] at built
            obtain ⟨unbuilt, target, rfl⟩ := Link.resolve_eq_error outcome
            exact .inr ⟨rfl, unbuilt, target, built.symm⟩

/-- A diagnostic of a link names the link. -/
theorem zone_eq_of_buildAlias {link : Link}
    (built : buildAlias parsed selection zones name link = some (.diagnostic d))
    : d.zone = some name := by
  rcases buildAlias_eq_diagnostic built with ⟨_, rfl⟩ | ⟨_, _, _, rfl⟩ <;> rfl

/-- The diagnostics of links have other faults. -/
theorem isOfZone_of_mem_buildAliases
    (member : d ∈ builtDiagnostics (buildAliases parsed selection zones))
    : d.zone.isSome = true ∧ d.fault.isOfZone = false := by
  obtain ⟨⟨name, link⟩, _, built⟩ := List.mem_filterMap.mp (mem_builtDiagnostics.mp member)
  rcases buildAlias_eq_diagnostic built with ⟨_, rfl⟩ | ⟨_, _, _, rfl⟩ <;> exact ⟨rfl, rfl⟩

/-- The diagnostics of the records for a name are those of the record of that name. -/
theorem filter_buildZones {record : ZoneRecord} (checked : parsed.tables.Checked)
    (listed : (name, record) ∈ parsed.tables.zones) (selected : selection.contains name = true)
    : ∃ token,
        (parsed.tables.zones.filter fun (name, _) => selection.contains name)[token]?
          = some (name, record)
        ∧ (builtDiagnostics (buildZones parsed selection)).filter (·.zone == some name)
          = builtDiagnostics [buildZone parsed name record token] := by
  generalize entries_eq
    : (parsed.tables.zones.filter fun (name, _) => selection.contains name).zipIdx = entries
  have kept : (name, record)
      ∈ parsed.tables.zones.filter fun (name, _) => selection.contains name :=
    List.mem_filter.mpr ⟨listed, selected⟩
  obtain ⟨token, at_token⟩ := List.getElem?_of_mem kept
  have member : ((name, record), token) ∈ entries :=
    entries_eq ▸ List.mem_zipIdx_iff_getElem?.mpr at_token
  have nodup : (entries.map fun entry => entry.1.1).Nodup := by
    change (entries.map (Prod.fst ∘ Prod.fst)).Nodup
    rw [← List.map_map, ← entries_eq, List.zipIdx_map_fst]
    exact (List.filter_sublist.map _).nodup checked.zoneNames
  refine ⟨token, at_token, ?_⟩
  have filtered := @filter_builtDiagnostics _ entries (fun entry => entry.1.1)
    (fun entry => some (buildZone parsed entry.1.1 entry.1.2 entry.2))
    (fun entry d built => by
      obtain ⟨_, _, rfl⟩ := buildZone_eq_diagnostic.mp (Option.some.inj built)
      rfl)
    name
  have single := @filter_key_eq _ entries (fun entry => entry.1.1) nodup _ member
  rw [single, List.filterMap_eq_map'] at filtered
  rw [buildZones, entries_eq]
  exact filtered

/-- The diagnostics of the links for a name are those of the link of that name. -/
theorem filter_buildAliases {link : Link} (checked : parsed.tables.Checked)
    (listed : (name, link) ∈ parsed.tables.links)
    : (builtDiagnostics (buildAliases parsed selection zones)).filter (·.zone == some name)
      = builtDiagnostics (buildAlias parsed selection zones name link).toList := by
  have filtered := @filter_builtDiagnostics _ parsed.tables.links Prod.fst
    (fun entry => buildAlias parsed selection zones entry.1 entry.2)
    (fun _ _ => zone_eq_of_buildAlias)
    name
  rw [filter_key_eq checked.linkNames listed] at filtered
  rw [buildAliases, filtered, List.filterMap_cons, List.filterMap_nil]
  cases buildAlias parsed selection zones name link <;> rfl

/-- Every link comes to something where no zone is left out. -/
theorem isSome_buildAlias (all : ∀ target, selection.contains target = true) (link : Link)
    : (buildAlias parsed selection zones name link).isSome = true := by
  have not_elsewhere : leadsElsewhere parsed selection name = false := by
    unfold leadsElsewhere
    split
    · rw [all, Bool.not_true]
    · rfl
  unfold buildAlias
  rw [not_elsewhere]
  split
  · rfl
  · rw [if_neg Bool.false_ne_true]
    split <;> rfl

-----------------------------------------------------------------------------------------
-- Builds without requests
-----------------------------------------------------------------------------------------

/-- The options of a build that asks for every name. -/
def Options.everything (parallel : Bool) : Options := { parallel, requested := none }

section Everything

variable (parallel : Bool) (sources : Sources)

/-- What the records of the sources come to. -/
def recordsBuilt : List Built :=
  buildZones (parse sources).1 (Selection.ofOptions (parse sources).1.tables (.everything parallel))

/-- What the links of the sources come to. -/
def linksBuilt : List Built :=
  buildAliases (parse sources).1
    (Selection.ofOptions (parse sources).1.tables (.everything parallel))
    (builtZones (recordsBuilt parallel sources))

theorem diagnostics_everything
    : (run (.everything parallel) sources).report.diagnostics
      = (parse sources).2 ++ builtDiagnostics (recordsBuilt parallel sources)
        ++ builtDiagnostics (linksBuilt parallel sources) := by
  rw [← List.append_nil (parse sources).2]
  rfl

theorem length_recordsBuilt
    : (recordsBuilt parallel sources).length = (parse sources).1.tables.zones.length := by
  have all
      : ((parse sources).1.tables.zones.filter fun _ => true)
        = (parse sources).1.tables.zones :=
    List.filter_eq_self.mpr fun _ _ => rfl
  rw [recordsBuilt, buildZones, List.length_map, List.length_zipIdx]
  exact congrArg List.length all

theorem length_linksBuilt
    : (linksBuilt parallel sources).length = (parse sources).1.tables.links.length := by
  rw [linksBuilt, buildAliases, List.length_filterMap_eq_countP, List.countP_eq_length]
  exact fun entry _ => isSome_buildAlias (fun _ => rfl) entry.2

variable {parallel sources}

theorem defectsOf_everything (name : String)
    : (run (.everything parallel) sources).report.defectsOf name
      = (builtDiagnostics (recordsBuilt parallel sources)).filter (·.zone == some name) := by
  have parsing : (parse sources).2.filter
      (fun d => d.zone == some name && d.fault.isOfZone) = [] :=
    List.filter_eq_nil_iff.mpr fun d member => by
      simp [Parsed.zone_eq_none_of_mem_addAll member]
  have links : (builtDiagnostics (linksBuilt parallel sources)).filter
      (fun d => d.zone == some name && d.fault.isOfZone) = [] :=
    List.filter_eq_nil_iff.mpr fun d member => by simp [(isOfZone_of_mem_buildAliases member).2]
  rw [Report.defectsOf, diagnostics_everything, List.filter_append, List.filter_append, parsing,
    links, List.nil_append, List.append_nil]
  exact List.filter_congr fun d member => by simp [(isOfZone_of_mem_buildZones member).2]

theorem refusalsOf_everything (name : String)
    : (run (.everything parallel) sources).report.refusalsOf name
      = (builtDiagnostics (linksBuilt parallel sources)).filter (·.zone == some name) := by
  have parsing : (parse sources).2.filter
      (fun d => d.zone == some name && !d.fault.isOfZone) = [] :=
    List.filter_eq_nil_iff.mpr fun d member => by
      simp [Parsed.zone_eq_none_of_mem_addAll member]
  have records : (builtDiagnostics (recordsBuilt parallel sources)).filter
      (fun d => d.zone == some name && !d.fault.isOfZone) = [] :=
    List.filter_eq_nil_iff.mpr fun d member => by simp [(isOfZone_of_mem_buildZones member).2]
  rw [Report.refusalsOf, diagnostics_everything, List.filter_append, List.filter_append, parsing,
    records, List.nil_append, List.nil_append]
  exact List.filter_congr fun d member => by simp [(isOfZone_of_mem_buildAliases member).2]

theorem named_everything
    : (run (.everything parallel) sources).report.named
      = builtDiagnostics (recordsBuilt parallel sources)
        ++ builtDiagnostics (linksBuilt parallel sources) := by
  have parsing : (parse sources).2.filter (·.zone.isSome) = [] :=
    List.filter_eq_nil_iff.mpr fun d member => by
      simp [Parsed.zone_eq_none_of_mem_addAll member]
  have records : (builtDiagnostics (recordsBuilt parallel sources)).filter (·.zone.isSome)
      = builtDiagnostics (recordsBuilt parallel sources) :=
    List.filter_eq_self.mpr fun d member => (isOfZone_of_mem_buildZones member).1
  have links : (builtDiagnostics (linksBuilt parallel sources)).filter (·.zone.isSome)
      = builtDiagnostics (linksBuilt parallel sources) :=
    List.filter_eq_self.mpr fun d member => (isOfZone_of_mem_buildAliases member).1
  rw [Report.named, diagnostics_everything, List.filter_append, List.filter_append, parsing,
    records, links, List.nil_append]

/-- What has been built from the records and the links makes up the index. -/
theorem length_index_everything
    : (builtZones (recordsBuilt parallel sources)).length
        + (builtZones (linksBuilt parallel sources)).length
      = (run (.everything parallel) sources).index.length := by
  have nodup
      : (Table.names
          (builtZones (recordsBuilt parallel sources)
            ++ builtZones (linksBuilt parallel sources))).Nodup :=
    nodup_zones_aliases (parse_checked sources)
  have length_eq := Table.length_sorted nodup
  rw [List.length_append] at length_eq
  exact length_eq.symm

/-- A zone record is accounted for. No other record has its name, so nothing else is in the index
under it or has a diagnostic of a zone. -/
theorem accountsForZone {name : String} {record : ZoneRecord}
    (listed : (name, record) ∈ (parse sources).1.tables.zones)
    : (run (.everything parallel) sources).AccountsForZone (parse sources).1 name record := by
  have checked := parse_checked sources
  obtain ⟨token, at_token, reported⟩ := @filter_buildZones _
    (Selection.ofOptions (parse sources).1.tables (.everything parallel)) _ _ checked listed rfl
  have defects := (@defectsOf_everything parallel sources name).trans reported
  cases outcome : record.compile name (parse sources).1.tables.rules with
  | ok zone =>
      refine .inl ⟨{ token, zone }, outcome, ?_, ?_⟩
      · exact get?_index.mpr (.inl (mem_buildZones.mpr ⟨record, at_token, outcome⟩))
      · rw [defects, buildZone, outcome]
        rfl
  | error fault =>
      refine .inr ⟨fault, outcome, ?_, ?_⟩
      · refine Option.eq_none_iff_forall_ne_some.mpr fun shared found => ?_
        rcases get?_index.mp found with zone | shown
        · obtain ⟨other, at_other, compiled⟩ := mem_buildZones.mp zone
          have other_listed := List.mem_of_mem_filter (List.mem_of_getElem? at_other)
          have same := (Table.get?_of_mem checked.zoneNames listed).symm.trans
            (Table.get?_of_mem checked.zoneNames other_listed)
          rw [← Option.some.inj same, outcome] at compiled
          cases compiled
        · have no_zone := (mem_buildAliases.mp shown).2.1
          rw [Table.contains, Table.get?_of_mem checked.zoneNames listed] at no_zone
          cases no_zone
      · rw [defects, buildZone, outcome]
        rfl

/-- A link is accounted for, by cases on what it comes to. -/
theorem accountsForLink {name : String} {link : Link}
    (listed : (name, link) ∈ (parse sources).1.tables.links)
    : (run (.everything parallel) sources).AccountsForLink (parse sources).1 name link := by
  have refusals := (@refusalsOf_everything parallel sources name).trans
    (filter_buildAliases (parse_checked sources) listed)
  match built : buildAlias (parse sources).1
      (Selection.ofOptions (parse sources).1.tables (.everything parallel))
      (builtZones (recordsBuilt parallel sources)) name link with
  | none =>
      have something := built ▸ isSome_buildAlias (fun _ => rfl) link
      cases something
  | some (.zone key shared) =>
      obtain ⟨rfl, no_zone, target, resolved, selected, found⟩ := buildAlias_eq_zone.mp built
      refine .inl ⟨no_zone, ⟨target, shared, resolved, ?_, ?_⟩, ?_⟩
      · exact get?_index.mpr (.inl (Table.mem_of_get? found))
      · exact get?_index.mpr
          (.inr (mem_buildAliases.mpr ⟨⟨link, listed⟩, no_zone, target, resolved, selected, found⟩))
      · rw [refusals, built]
        rfl
  | some (.diagnostic d) =>
      have single := refusals.trans (congrArg (builtDiagnostics ·.toList) built)
      rcases buildAlias_eq_diagnostic built with ⟨taken, rfl⟩ | ⟨no_zone, unbuilt, target, rfl⟩
      · exact .inr (.inl ⟨taken, single⟩)
      · refine .inr (.inr ⟨no_zone, ?_, target, single⟩)
        refine Option.eq_none_iff_forall_ne_some.mpr fun shared found => ?_
        rcases get?_index.mp found with zone | shown
        · rw [contains_of_mem_zonesOf zone] at no_zone
          cases no_zone
        · obtain ⟨_, _, end_, resolved, _, held⟩ := mem_buildAliases.mp shown
          have := (unbuilt end_ resolved).symm.trans held
          cases this

end Everything

/-- A build without requests accounts for every zone record and every link of its sources. The
counts of its report make up the index, and every record and link that is not in the index has a
diagnostic of its own. -/
theorem run_accounts (parallel : Bool) (sources : Sources)
    : (run (.everything parallel) sources).Accounts (parse sources).1 where
  zone _ _ := accountsForZone
  link _ _ := accountsForLink
  known name shown := by
    obtain ⟨shared, found⟩ := Option.isSome_iff_exists.mp shown
    rcases get?_index.mp found with zone | shown
    · exact .inl (contains_of_mem_zonesOf zone)
    · obtain ⟨⟨link, listed⟩, _⟩ := mem_buildAliases.mp shown
      exact .inr (Table.contains_iff.mpr (List.mem_map_of_mem listed))
  built := length_index_everything
  reported := by
    have records := length_builtZones_add (recordsBuilt parallel sources)
    have links := length_builtZones_add (linksBuilt parallel sources)
    rw [length_recordsBuilt] at records
    rw [length_linksBuilt] at links
    rw [named_everything, List.length_append, ← length_index_everything]
    omega

/-- The zone `X` does not compile and the alias of that name is left out as well, so both have a
diagnostic, and the alias of an unknown zone has a third one. -/
example
    : (run (.everything true)
          [{ name := "f", contents := "Z X 0 Q A\nZ Y 0 - B\nL Y X\nL Q P\n" }]).report.named.map
          (·.zone)
        = [some "X", some "X", some "P"] := by
  decide +kernel

end Build

end CivilTime
