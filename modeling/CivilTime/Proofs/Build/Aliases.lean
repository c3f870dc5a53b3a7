import CivilTime.Build.Run
import CivilTime.Proofs.Build.Sources
import CivilTime.Proofs.Link

/-! The aliases of a build show the zones at the ends of their chains.
Every zone of a build has a token of its own, so an alias shares its zone with no other name than
those on its chain. A chain passes through a name that belongs to a zone as well as to a link, so
an alias in front of it does not show that zone.
-/

namespace CivilTime.Build

variable {parsed : Parsed} {selection : Selection} {name : String} {shared : SharedZone}

-----------------------------------------------------------------------------------------
-- Zones
-----------------------------------------------------------------------------------------

/-- The zones among what has been built. -/
theorem mem_builtZones {built : List Built}
    : (name, shared) ∈ builtZones built ↔ .zone name shared ∈ built := by
  rw [builtZones, List.mem_filterMap]
  constructor
  · rintro ⟨result, member, same⟩
    cases result with
    | zone other zone =>
        cases same
        exact member
    | diagnostic => cases same
  · exact fun member => ⟨_, member, rfl⟩

/-- A record is built as a zone of its own name exactly if it compiles. -/
theorem buildZone_eq_zone {key : String} {record : ZoneRecord} {token : Nat}
    : buildZone parsed key record token = .zone name shared
      ↔ name = key
        ∧ shared.token = token
        ∧ record.compile key parsed.tables.rules = .ok shared.zone := by
  unfold buildZone
  cases record.compile key parsed.tables.rules with
  | error fault => simp
  | ok zone =>
      obtain ⟨other, found⟩ := shared
      simp [eq_comm]

/-- The zones of a build are the selected records that compile. The token of a zone is the position
of its record. -/
theorem mem_buildZones
    : (name, shared) ∈ builtZones (buildZones parsed selection)
      ↔ ∃ record,
          (parsed.tables.zones.filter fun (name, _) => selection.contains name)[shared.token]?
            = some (name, record)
          ∧ record.compile name parsed.tables.rules = .ok shared.zone := by
  rw [mem_builtZones, buildZones, List.mem_map]
  constructor
  · rintro ⟨⟨⟨key, record⟩, token⟩, member, built⟩
    obtain ⟨rfl, rfl, compiled⟩ := buildZone_eq_zone.mp built
    exact ⟨record, List.mem_zipIdx_iff_getElem?.mp member, compiled⟩
  · rintro ⟨record, at_token, compiled⟩
    exact ⟨((name, record), shared.token), List.mem_zipIdx_iff_getElem?.mpr at_token,
      buildZone_eq_zone.mpr ⟨rfl, rfl, compiled⟩⟩

/-- Two zones of a build that are the same have the same name. -/
theorem name_unique {other : String}
    (member : (name, shared) ∈ builtZones (buildZones parsed selection))
    (member' : (other, shared) ∈ builtZones (buildZones parsed selection))
    : name = other := by
  obtain ⟨_, at_token, _⟩ := mem_buildZones.mp member
  obtain ⟨_, at_token', _⟩ := mem_buildZones.mp member'
  exact congrArg Prod.fst (Option.some.inj (at_token.symm.trans at_token'))

/-- The names of what is built from entries in order are among those of the entries. -/
theorem names_builtZones_sublist {α : Type} (entries : List α) (key : α → String)
    (build : α → Option Built)
    (named : ∀ entry name shared, build entry = some (.zone name shared) → name = key entry)
    : (builtZones (entries.filterMap build)).names.Sublist (entries.map key) := by
  induction entries with
  | nil => exact .slnil
  | cons entry rest ih =>
      rw [List.map_cons, List.filterMap_cons]
      cases built : build entry with
      | none => exact ih.cons _
      | some result =>
          cases result with
          | diagnostic => exact ih.cons _
          | zone name shared =>
              rw [← named entry name shared built]
              exact ih.cons_cons _

/-- No two zones of a build have the same name, if no two records have. -/
theorem nodup_buildZones (nodup : parsed.tables.zones.names.Nodup)
    : (builtZones (buildZones parsed selection)).names.Nodup := by
  have built := names_builtZones_sublist
    (parsed.tables.zones.filter fun (name, _) => selection.contains name).zipIdx
    (fun entry => entry.1.1)
    (fun entry => some (buildZone parsed entry.1.1 entry.1.2 entry.2))
    (fun _ _ _ built => (buildZone_eq_zone.mp (Option.some.inj built)).1)
  rw [List.filterMap_eq_map'] at built
  have kept
      : ((parsed.tables.zones.filter fun (name, _) => selection.contains name).zipIdx.map
          fun entry => entry.1.1).Sublist parsed.tables.zones.names := by
    change ((List.zipIdx _).map (Prod.fst ∘ Prod.fst)).Sublist _
    rw [← List.map_map, List.zipIdx_map_fst]
    exact List.filter_sublist.map _
  exact (built.trans kept).nodup nodup

-----------------------------------------------------------------------------------------
-- Aliases
-----------------------------------------------------------------------------------------

/-- An alias is built if it has no zone's name and leads to a selected zone that has been built. -/
theorem buildAlias_eq_zone {zones : ZoneIndex} {key : String} {link : Link}
    : buildAlias parsed selection zones key link = some (.zone name shared)
      ↔ name = key
        ∧ parsed.tables.zones.contains key = false
        ∧ ∃ target,
            Link.resolveTarget parsed.tables.links key = .ok target
            ∧ selection.contains target = true
            ∧ zones.get? target = some shared := by
  unfold buildAlias leadsElsewhere
  cases taken : parsed.tables.zones.contains key with
  | true => simp
  | false =>
      cases resolved : Link.resolveTarget parsed.tables.links key with
      | error fault => simp [Link.resolve, resolved, bind, Except.bind]
      | ok target =>
          cases selected : selection.contains target with
          | false => simp [selected]
          | true =>
              cases found : zones.get? target with
              | none =>
                  simp [Link.resolve, resolved, found, bind, Except.bind, throw, throwThe,
                    MonadExceptOf.throw, selected]
              | some zone =>
                  simp [Link.resolve, resolved, found, bind, Except.bind, pure, Except.pure,
                    selected]
                  exact fun _ => eq_comm

/-- The aliases of a build are the links that are built. -/
theorem mem_buildAliases {zones : ZoneIndex}
    : (name, shared) ∈ builtZones (buildAliases parsed selection zones)
      ↔ (∃ link, (name, link) ∈ parsed.tables.links)
        ∧ parsed.tables.zones.contains name = false
        ∧ ∃ target,
            Link.resolveTarget parsed.tables.links name = .ok target
            ∧ selection.contains target = true
            ∧ zones.get? target = some shared := by
  rw [mem_builtZones, buildAliases, List.mem_filterMap]
  constructor
  · rintro ⟨⟨key, link⟩, member, built⟩
    obtain ⟨rfl, rest⟩ := buildAlias_eq_zone.mp built
    exact ⟨⟨link, member⟩, rest⟩
  · rintro ⟨⟨link, member⟩, rest⟩
    exact ⟨(name, link), member, buildAlias_eq_zone.mpr ⟨rfl, rest⟩⟩

/-- The zones that the options ask for. -/
def zonesOf (options : Options) (parsed : Parsed) : ZoneIndex :=
  builtZones (buildZones parsed (Selection.ofOptions parsed.tables options))

/-- The aliases that the options ask for. -/
def aliasesOf (options : Options) (parsed : Parsed) : ZoneIndex :=
  builtZones
    (buildAliases parsed (Selection.ofOptions parsed.tables options) (zonesOf options parsed))

variable {options : Options}

/-- The zones of a build are those of records. -/
theorem contains_of_mem_zonesOf (member : (name, shared) ∈ zonesOf options parsed)
    : parsed.tables.zones.contains name = true := by
  obtain ⟨record, at_token, _⟩ := mem_buildZones.mp member
  exact Table.contains_iff.mpr
    (List.mem_map.mpr ⟨_, List.mem_of_mem_filter (List.mem_of_getElem? at_token), rfl⟩)

/-- No two zones or aliases of a build have the same name, if no two records or links have. -/
theorem nodup_zones_aliases (checked : parsed.tables.Checked)
    : (Table.names (zonesOf options parsed ++ aliasesOf options parsed)).Nodup := by
  have aliases
      : (aliasesOf options parsed).names.Sublist parsed.tables.links.names :=
    names_builtZones_sublist parsed.tables.links Prod.fst _
      (fun _ _ _ built => (buildAlias_eq_zone.mp built).1)
  rw [Table.names, List.map_append]
  refine List.nodup_append.mpr
    ⟨nodup_buildZones checked.zoneNames, aliases.nodup checked.linkNames, ?_⟩
  rintro name zone_name _ alias_name rfl
  obtain ⟨⟨_, zone⟩, member, rfl⟩ := List.mem_map.mp zone_name
  obtain ⟨⟨other, shared⟩, member', same⟩ := List.mem_map.mp alias_name
  have no_zone := (mem_buildAliases.mp member').2.1
  rw [show other = _ from same, contains_of_mem_zonesOf member] at no_zone
  cases no_zone

/-- The index of a build holds its zones and its aliases. -/
theorem get?_index {sources : Sources}
    : (run options sources).index.get? name = some shared
      ↔ (name, shared) ∈ zonesOf options (parse sources).1
        ∨ (name, shared) ∈ aliasesOf options (parse sources).1 := by
  have nodup
      : (Table.names
          (zonesOf options (parse sources).1 ++ aliasesOf options (parse sources).1)).Nodup :=
    nodup_zones_aliases (parse_checked sources)
  have index_eq
      : (run options sources).index
        = Table.sorted
            (zonesOf options (parse sources).1 ++ aliasesOf options (parse sources).1) :=
    rfl
  rw [index_eq, Table.get?_sorted_of_nodup nodup, ← List.mem_append]
  exact ⟨Table.mem_of_get?, Table.get?_of_mem nodup⟩

-----------------------------------------------------------------------------------------
-- What an alias shows
-----------------------------------------------------------------------------------------

/-- An alias of a build leads to a zone of it. -/
theorem target_of_mem_aliasesOf (member : (name, shared) ∈ aliasesOf options parsed)
    : ∃ path target,
        Link.Chain parsed.tables.links name (name :: path) target
        ∧ (Selection.ofOptions parsed.tables options).contains target = true
        ∧ (target, shared) ∈ zonesOf options parsed := by
  obtain ⟨_, _, target, resolved, selected, found⟩ := mem_buildAliases.mp member
  obtain ⟨path, chain⟩ := Link.resolveTarget_eq_ok.mp resolved
  exact ⟨path, target, chain, selected, Table.mem_of_get? found⟩

/-- A name on the chain of an alias shows the zone at its end unless it belongs to a zone itself. -/
theorem shown_on_chain (checked : parsed.tables.Checked) {path : List String} {target : String}
    (chain : Link.Chain parsed.tables.links name path target)
    (selected : (Selection.ofOptions parsed.tables options).contains target = true)
    (built : (target, shared) ∈ zonesOf options parsed) {middle : String} (member : middle ∈ path)
    : (middle, shared) ∈ zonesOf options parsed ++ aliasesOf options parsed
      ↔ parsed.tables.zones.contains middle = false := by
  obtain ⟨_, rest, _, from_middle⟩ := chain.from_mem member
  obtain ⟨link, found⟩ := from_middle.link_of_mem (List.mem_cons_self ..)
  rw [List.mem_append]
  constructor
  · rintro (zone | shown)
    · -- a zone shares its token with no other zone, and the end of a chain is no link
      have same := name_unique zone built
      rw [same, chain.target_absent] at found
      cases found
    · exact (mem_buildAliases.mp shown).2.1
  · intro no_zone
    have nodup : (zonesOf options parsed).names.Nodup := nodup_buildZones checked.zoneNames
    exact .inr
      (mem_buildAliases.mpr
        ⟨⟨link, Table.mem_of_get? found⟩, no_zone, target,
          Link.resolveTarget_eq_ok.mpr ⟨rest, from_middle⟩, selected,
          Table.get?_of_mem nodup built⟩)

/-- An alias that a build shows leads along its chain of links to a zone of the build. Its own
target shows the same zone exactly if it is not a zone and a link at once. The links with the name
of a zone make no difference to where the alias leads exactly if its chain passes none of them. -/
theorem run_aliasShows {options : Options} {sources : Sources} {name : String} {link : Link}
    {shared : SharedZone} (listed : (parse sources).1.tables.links.get? name = some link)
    (no_zone : (parse sources).1.tables.zones.contains name = false)
    (shown : (run options sources).index.get? name = some shared)
    : ∃ path target,
        Link.Chain (parse sources).1.tables.links name (name :: path) target
        ∧ (run options sources).index.get? target = some shared
        ∧ ((run options sources).index.get? link.target = some shared
            ↔ ¬ ((parse sources).1.tables.zones.contains link.target = true
                ∧ (parse sources).1.tables.links.contains link.target = true))
        ∧ (Link.resolveTarget
              (Link.leaveOut (parse sources).1.tables.zones.contains
                (parse sources).1.tables.links)
              name
            = Link.resolveTarget (parse sources).1.tables.links name
            ↔ ∀ middle ∈ name :: path,
                (parse sources).1.tables.zones.contains middle = false) := by
  have checked := parse_checked sources
  have member : (name, shared) ∈ aliasesOf options (parse sources).1 := by
    refine (get?_index.mp shown).resolve_left fun zone => ?_
    rw [contains_of_mem_zonesOf zone] at no_zone
    cases no_zone
  obtain ⟨path, target, chain, selected, built⟩ := target_of_mem_aliasesOf member
  refine ⟨path, target, chain, get?_index.mpr (.inl built), ?_,
    Link.resolveTarget_leaveOut chain⟩
  cases chain with
  | step found later =>
      obtain rfl := Option.some.inj (listed.symm.trans found)
      cases later with
      | stop absent =>
          have no_link : ¬ (parse sources).1.tables.links.contains link.target = true := by
            simp [Table.contains, absent]
          exact iff_of_true (get?_index.mpr (.inl built)) fun both => no_link both.2
      | step found' later =>
          have is_link : (parse sources).1.tables.links.contains link.target = true := by
            simp [Table.contains, found']
          have on_chain := shown_on_chain checked (.step found' later) selected built
            (List.mem_cons_self ..)
          rw [List.mem_append, ← get?_index] at on_chain
          rw [on_chain]
          simp [is_link]

/-- A zone of a fixed offset that never ends. -/
def endlessZone (name : String) (stdOffset : Int) : CompiledZone :=
  { intervals := [{ start := beginningOfTime, stop := endOfTime, stdOffset, savings := 0, name }]
    tail := none }

/-- A source with a chain of two aliases. -/
def chainedSources : Sources := [{ name := "f", contents := "Z Z 2 - ZZZ\nL Z Y\nL Y X\n" }]

/-- Witness: both aliases of the chain show the zone at its end. -/
theorem run_aliasShows_chained
    : (run .standard chainedSources).index.get? "X"
        = some { token := 0, zone := endlessZone "ZZZ" 7200 }
      ∧ (run .standard chainedSources).index.get? "Y"
        = some { token := 0, zone := endlessZone "ZZZ" 7200 } := by
  have shown
      : (run .standard chainedSources).index.get? "X"
        = some { token := 0, zone := endlessZone "ZZZ" 7200 } := by
    decide +kernel
  have listed
      : (parse chainedSources).1.tables.links.get? "X"
        = some { target := "Y", name := "X", line := 3 } := by
    decide +kernel
  obtain ⟨_, _, _, _, target_shows, _⟩ := run_aliasShows listed (by decide +kernel) shown
  exact ⟨shown, target_shows.mpr (by decide +kernel)⟩

/-- A source in which the target of an alias is a zone and a link at once. -/
def crossedSources : Sources :=
  [{ name := "f", contents := "Z Y 1 - YYY\nZ Z 2 - ZZZ\nL Y X\nL Z Y\n" }]

/-- The link with the name of the zone `Y` is left out, and yet the alias `X` of `Y` goes through it
and shows the zone `Z`. Without that link it would lead to `Y`. -/
theorem run_alias_crossed
    : (parse crossedSources).1.tables.links.get? "X"
        = some { target := "Y", name := "X", line := 3 }
      ∧ (parse crossedSources).1.tables.zones.contains "X" = false
      ∧ (run .standard crossedSources).index.get? "X"
        = some { token := 1, zone := endlessZone "ZZZ" 7200 }
      ∧ (run .standard crossedSources).index.get? "Y"
        = some { token := 0, zone := endlessZone "YYY" 3600 }
      ∧ Link.resolveTarget
          (Link.leaveOut (parse crossedSources).1.tables.zones.contains
            (parse crossedSources).1.tables.links)
          "X"
        = .ok "Y" := by
  refine ⟨?_, ?_, ?_, ?_, ?_⟩ <;> decide +kernel

end CivilTime.Build
