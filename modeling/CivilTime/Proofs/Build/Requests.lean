import CivilTime.Proofs.Build.Accounts

/-! Requests leave names out of a build and change nothing else.
Whatever the options, a name is in the index with the zone of one record: its own, or the one at the
end of the chain of its links. Requests decide only which of these records are compiled.
-/

namespace CivilTime

/-- A name stands for the record of a zone: for its own, or as an alias for the one at the end of
its chain. A name of a zone is no alias. -/
def Tables.StandsFor (t : Tables) (name target : String) : Prop :=
  (t.zones.contains name = true ∧ target = name)
  ∨ (t.zones.contains name = false ∧ Link.resolveTarget t.links name = .ok target)

namespace Build

/-- The name of a zone that is requested itself, or that a requested alias leads to. -/
def Asked (t : Tables) (requested : List String) (name : String) : Prop :=
  (name ∈ requested ∧ t.zones.contains name = true)
  ∨ ∃ further ∈ requested, Link.resolveTarget t.links further = .ok name

/-- One index is what requests leave of another one. -/
structure Restricts (t : Tables) (requested : List String) (restricted full : ZoneIndex)
    : Prop where
  /-- Every name that is left has an equal zone. -/
  equal
    : ∀ name shared,
        restricted.get? name = some shared
        → ∃ other, full.get? name = some other ∧ other.zone = shared.zone
  /-- Every requested name is left. -/
  kept : ∀ name ∈ requested, full.contains name = true → restricted.contains name = true
  /-- Every name that is left is asked for, or is an alias of one that is. -/
  asked
    : ∀ name,
        restricted.contains name = true
        → Asked t requested name
          ∨ ∃ target, Link.resolveTarget t.links name = .ok target ∧ Asked t requested target

-----------------------------------------------------------------------------------------
-- The index of a build
-----------------------------------------------------------------------------------------

variable {options : Options} {parsed : Parsed} {name : String} {zone : CompiledZone}

/-- The zones of a build are the records that are selected and compile. -/
theorem exists_mem_zonesOf
    : (∃ token, (name, { token, zone }) ∈ zonesOf options parsed)
      ↔ (Selection.ofOptions parsed.tables options).contains name = true
        ∧ ∃ record,
            (name, record) ∈ parsed.tables.zones
            ∧ record.compile name parsed.tables.rules = .ok zone := by
  constructor
  · rintro ⟨token, member⟩
    obtain ⟨record, at_token, compiled⟩ := mem_buildZones.mp member
    obtain ⟨listed, selected⟩ := List.mem_filter.mp (List.mem_of_getElem? at_token)
    exact ⟨selected, record, listed, compiled⟩
  · rintro ⟨selected, record, listed, compiled⟩
    have kept
        : (name, record)
          ∈ parsed.tables.zones.filter fun entry =>
              (Selection.ofOptions parsed.tables options).contains entry.1 :=
      List.mem_filter.mpr ⟨listed, selected⟩
    obtain ⟨token, at_token⟩ := List.getElem?_of_mem kept
    exact ⟨token, mem_buildZones.mpr ⟨record, at_token, compiled⟩⟩

/-- The index of a build has a zone under a name exactly if the name stands for a record that is
selected and compiles to the zone. -/
theorem exists_get?_index {sources : Sources}
    : (∃ token, (run options sources).index.get? name = some { token, zone })
      ↔ ∃ target,
          (parse sources).1.tables.StandsFor name target
          ∧ (Selection.ofOptions (parse sources).1.tables options).contains target = true
          ∧ ∃ record,
              (target, record) ∈ (parse sources).1.tables.zones
              ∧ record.compile target (parse sources).1.tables.rules = .ok zone := by
  have nodup : (zonesOf options (parse sources).1).names.Nodup :=
    nodup_buildZones (parse_checked sources).zoneNames
  constructor
  · rintro ⟨token, found⟩
    rcases get?_index.mp found with zone_found | shown
    · exact ⟨name, .inl ⟨contains_of_mem_zonesOf zone_found, rfl⟩,
        exists_mem_zonesOf.mp ⟨token, zone_found⟩⟩
    · obtain ⟨_, no_zone, target, resolved, _, found⟩ := mem_buildAliases.mp shown
      exact ⟨target, .inr ⟨no_zone, resolved⟩,
        exists_mem_zonesOf.mp ⟨token, Table.mem_of_get? found⟩⟩
  · rintro ⟨target, stands, built⟩
    obtain ⟨token, member⟩ := exists_mem_zonesOf.mpr built
    refine ⟨token, get?_index.mpr ?_⟩
    rcases stands with ⟨_, rfl⟩ | ⟨no_zone, resolved⟩
    · exact .inl member
    · obtain ⟨path, chain⟩ := Link.resolveTarget_eq_ok.mp resolved
      obtain ⟨link, found⟩ := chain.link_of_mem (List.mem_cons_self ..)
      exact .inr
        (mem_buildAliases.mpr
          ⟨⟨link, Table.mem_of_get? found⟩, no_zone, target, resolved, built.1,
            Table.get?_of_mem nodup member⟩)

/-- A name of the index of a build stands for a selected record. -/
theorem standsFor_of_contains {sources : Sources}
    (shown : (run options sources).index.contains name = true)
    : ∃ target zone,
        (parse sources).1.tables.StandsFor name target
        ∧ (Selection.ofOptions (parse sources).1.tables options).contains target = true
        ∧ ∃ record,
            (target, record) ∈ (parse sources).1.tables.zones
            ∧ record.compile target (parse sources).1.tables.rules = .ok zone := by
  obtain ⟨shared, found⟩ := Option.isSome_iff_exists.mp shown
  obtain ⟨target, rest⟩ := exists_get?_index.mp ⟨shared.token, found⟩
  exact ⟨target, shared.zone, rest⟩

-----------------------------------------------------------------------------------------
-- What requests select
-----------------------------------------------------------------------------------------

/-- The requests select the names that are asked for. -/
theorem contains_ofOptions (t : Tables) (parallel : Bool) (requested : List String)
    (name : String)
    : (Selection.ofOptions t { parallel, requested := some requested }).contains name = true
      ↔ Asked t requested name := by
  simp only [Selection.ofOptions, Selection.contains, Selection.targetsOf, List.contains_iff_mem,
    List.mem_append, List.mem_filter, List.mem_filterMap, Options.selects, Asked]
  refine or_congr ?_ ?_
  · rw [← Table.contains_iff]
    exact and_comm
  · constructor
    · rintro ⟨further, ⟨_, asked⟩, resolved⟩
      exact ⟨further, asked, mem_toOption.mp resolved⟩
    · rintro ⟨further, asked, resolved⟩
      obtain ⟨path, chain⟩ := Link.resolveTarget_eq_ok.mp resolved
      obtain ⟨link, found⟩ := chain.link_of_mem (List.mem_cons_self ..)
      have listed : further ∈ t.links.names :=
        List.mem_map.mpr ⟨_, Table.mem_of_get? found, rfl⟩
      exact ⟨further, ⟨listed, asked⟩, mem_toOption.mpr resolved⟩

/-- What a requested name stands for is asked for. -/
theorem asked_of_standsFor {t : Tables} {requested : List String} {target : String}
    (stands : t.StandsFor name target) (request : name ∈ requested)
    : Asked t requested target := by
  rcases stands with ⟨zone, rfl⟩ | ⟨_, resolved⟩
  · exact .inl ⟨request, zone⟩
  · exact .inr ⟨name, request, resolved⟩

/-- A build with requests is what they leave of the build without any. -/
theorem run_restricts (parallel parallel' : Bool) (requested : List String) (sources : Sources)
    : Restricts (parse sources).1.tables requested
        (run { parallel, requested := some requested } sources).index
        (run (.everything parallel') sources).index where
  equal name shared found := by
    obtain ⟨target, stands, _, built⟩ := exists_get?_index.mp ⟨shared.token, found⟩
    obtain ⟨token, other⟩ :=
      (@exists_get?_index (.everything parallel')).mpr ⟨target, stands, rfl, built⟩
    exact ⟨_, other, rfl⟩
  kept name request shown := by
    obtain ⟨target, zone, stands, _, built⟩ := standsFor_of_contains shown
    have selected := (contains_ofOptions _ parallel requested target).mpr
      (asked_of_standsFor stands request)
    obtain ⟨token, found⟩ := exists_get?_index.mpr ⟨target, stands, selected, built⟩
    exact Option.isSome_iff_exists.mpr ⟨_, found⟩
  asked name shown := by
    obtain ⟨target, zone, stands, selected, _⟩ := standsFor_of_contains shown
    have asked := (contains_ofOptions _ parallel requested target).mp selected
    rcases stands with ⟨_, rfl⟩ | ⟨_, resolved⟩
    · exact .inl asked
    · exact .inr ⟨target, resolved, asked⟩

end Build

end CivilTime
