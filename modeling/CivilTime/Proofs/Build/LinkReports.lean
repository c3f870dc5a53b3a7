import CivilTime.Proofs.Build.Requests
import CivilTime.Proofs.Link.Reachability

/-! Requests pass over the links that they do not ask for, but not over all of them.
A link is asked for by its own name or by that of the zone that it leads to. Other links come to
nothing, even if they lead to no zone. Two kinds of them are noticed before it is known whether they
are asked for, though, and are reported in every build: a link with the name of a zone is refused
before it is followed, and a link to a cycle leads to no zone that could be left out.
-/

namespace CivilTime.Build

/-- A link that is requested itself, or that leads to a zone that is asked for. -/
def LinkAsked (t : Tables) (requested : List String) (name : String) : Prop :=
  name ∈ requested
  ∨ ∃ target, Link.resolveTarget t.links name = .ok target ∧ Asked t requested target

instance (t : Tables) (requested : List String) (name : String)
    : Decidable (LinkAsked t requested name) :=
  decidable_of_iff
    (name ∈ requested
      ∨ ∃ target ∈ (Link.resolveTarget t.links name).toOption,
          (Selection.ofOptions t { parallel := true, requested := some requested }).contains target
            = true)
    (or_congr_right <| exists_congr fun target =>
      and_congr mem_toOption (contains_ofOptions t true requested target))

/-- A link that is reported in every build: one with the name of a zone, or one to a cycle. -/
def ReportedAnyway (t : Tables) (name : String) : Prop :=
  t.zones.contains name = true ∨ Link.ReachesCycle t.links name

/-- What a link comes to in a build. -/
def linkOutcome (options : Options) (parsed : Parsed) (name : String) (link : Link)
    : Option Built :=
  buildAlias parsed (Selection.ofOptions parsed.tables options) (zonesOf options parsed) name link

/-- What the links come to in a build. -/
def linkOutcomes (options : Options) (parsed : Parsed) : List Built :=
  parsed.tables.links.filterMap fun (name, link) => linkOutcome options parsed name link

/-- What a build with requests says of the links. -/
structure LinksReported (requested : List String) (options : Options) (parsed : Parsed) : Prop where
  /-- Every diagnostic names a link that is asked for or reported anyway. -/
  expected
    : ∀ d ∈ builtDiagnostics (linkOutcomes options parsed),
        ∃ name link,
          (name, link) ∈ parsed.tables.links
          ∧ d.zone = some name
          ∧ (LinkAsked parsed.tables requested name ∨ ReportedAnyway parsed.tables name)
  /-- Other links come to nothing. -/
  silent
    : ∀ name link,
        (name, link) ∈ parsed.tables.links
        → ¬ LinkAsked parsed.tables requested name
        → ¬ ReportedAnyway parsed.tables name
        → linkOutcome options parsed name link = none
  /-- Links that are reported anyway have a diagnostic, asked for or not. -/
  reported
    : ∀ name link,
        (name, link) ∈ parsed.tables.links
        → ReportedAnyway parsed.tables name
        → ∃ d ∈ builtDiagnostics (linkOutcomes options parsed), d.zone = some name

variable {parsed : Parsed} {selection : Selection} {zones : ZoneIndex} {name : String} {link : Link}
  {d : Diagnostic}

-----------------------------------------------------------------------------------------
-- One link
-----------------------------------------------------------------------------------------

/-- A link of the sources leads to a name, or else to a cycle. -/
theorem exists_target_iff (listed : (name, link) ∈ parsed.tables.links)
    : (∃ target, Link.resolveTarget parsed.tables.links name = .ok target)
      ↔ ¬ Link.ReachesCycle parsed.tables.links name := by
  have present : parsed.tables.links.contains name = true :=
    Table.contains_iff.mpr (List.mem_map.mpr ⟨_, listed, rfl⟩)
  rw [Link.exists_resolveTarget_iff, present, eq_self, true_and]

theorem leadsElsewhere_iff
    : leadsElsewhere parsed selection name = true
      ↔ ∃ target,
          Link.resolveTarget parsed.tables.links name = .ok target
          ∧ selection.contains target = false := by
  unfold leadsElsewhere
  cases Link.resolveTarget parsed.tables.links name <;> simp

/-- A link comes to nothing exactly if it is followed to a zone that is not selected. -/
theorem buildAlias_eq_none_iff
    : buildAlias parsed selection zones name link = none
      ↔ parsed.tables.zones.contains name = false
        ∧ ∃ target,
            Link.resolveTarget parsed.tables.links name = .ok target
            ∧ selection.contains target = false := by
  rw [← leadsElsewhere_iff]
  unfold buildAlias
  cases parsed.tables.zones.contains name with
  | true => simp
  | false =>
      cases leadsElsewhere parsed selection name with
      | true => simp
      | false => cases Link.resolve parsed.tables.links zones.get? name <;> simp

/-- A link that is followed to a name is not reported anyway. -/
theorem not_reportedAnyway (listed : (name, link) ∈ parsed.tables.links)
    (no_zone : parsed.tables.zones.contains name = false)
    (resolves : ∃ target, Link.resolveTarget parsed.tables.links name = .ok target)
    : ¬ ReportedAnyway parsed.tables name := by
  rintro (zone | cycle)
  · cases no_zone.symm.trans zone
  · exact (exists_target_iff listed).mp resolves cycle

/-- A link that is reported anyway has a diagnostic in every build. -/
theorem exists_diagnostic_of_reportedAnyway (listed : (name, link) ∈ parsed.tables.links)
    (anyway : ReportedAnyway parsed.tables name)
    : ∃ d, buildAlias parsed selection zones name link = some (.diagnostic d) := by
  cases outcome : buildAlias parsed selection zones name link with
  | none =>
      obtain ⟨no_zone, target, resolved, _⟩ := buildAlias_eq_none_iff.mp outcome
      exact absurd anyway (not_reportedAnyway listed no_zone ⟨target, resolved⟩)
  | some built =>
      cases built with
      | zone key shared =>
          obtain ⟨_, no_zone, target, resolved, _⟩ := buildAlias_eq_zone.mp outcome
          exact absurd anyway (not_reportedAnyway listed no_zone ⟨target, resolved⟩)
      | diagnostic d => exact ⟨d, rfl⟩

/-- A link that is neither asked for nor reported anyway comes to nothing: it is followed to a name,
which nobody asks for. -/
theorem linkOutcome_eq_none {parallel : Bool} {requested : List String}
    (listed : (name, link) ∈ parsed.tables.links)
    (unasked : ¬ LinkAsked parsed.tables requested name)
    (passed : ¬ ReportedAnyway parsed.tables name)
    : linkOutcome { parallel, requested := some requested } parsed name link = none := by
  rw [ReportedAnyway, not_or, Bool.not_eq_true] at passed
  obtain ⟨target, resolved⟩ := (exists_target_iff listed).mpr passed.2
  refine buildAlias_eq_none_iff.mpr ⟨passed.1, target, resolved, ?_⟩
  rw [← Bool.not_eq_true, contains_ofOptions]
  exact fun asked => unasked (.inr ⟨target, resolved, asked⟩)

-----------------------------------------------------------------------------------------
-- All links
-----------------------------------------------------------------------------------------

variable {options : Options}

/-- The diagnostics of the links are those that a link comes to. -/
theorem mem_linkDiagnostics
    : d ∈ builtDiagnostics (linkOutcomes options parsed)
      ↔ ∃ name link,
          (name, link) ∈ parsed.tables.links
          ∧ linkOutcome options parsed name link = some (.diagnostic d) := by
  rw [mem_builtDiagnostics, linkOutcomes, List.mem_filterMap, Prod.exists]

theorem linksReported (parallel : Bool) (requested : List String) (parsed : Parsed)
    : LinksReported requested { parallel, requested := some requested } parsed where
  expected d member := by
    obtain ⟨name, link, listed, built⟩ := mem_linkDiagnostics.mp member
    refine ⟨name, link, listed, zone_eq_of_buildAlias built, ?_⟩
    by_contra unexpected
    obtain ⟨unasked, passed⟩ := not_or.mp unexpected
    rw [linkOutcome_eq_none listed unasked passed] at built
    cases built
  silent name link listed := linkOutcome_eq_none listed
  reported name link listed anyway := by
    obtain ⟨d, built⟩ := exists_diagnostic_of_reportedAnyway listed anyway
    exact ⟨d, mem_linkDiagnostics.mpr ⟨name, link, listed, built⟩, zone_eq_of_buildAlias built⟩

/-- With requests, the report of a build follows the links that are asked for and those that are
reported anyway. -/
theorem run_linksReported (parallel : Bool) (requested : List String) (sources : Sources)
    : let options : Options := { parallel, requested := some requested }
      let parsed := (parse sources).1
      let selection := Selection.ofOptions parsed.tables options
      LinksReported requested options parsed
      ∧ (run options sources).report.links = (builtZones (linkOutcomes options parsed)).length
      ∧ (run options sources).report.diagnostics
        = (parse sources).2 ++ selection.diagnostics
          ++ builtDiagnostics (buildZones parsed selection)
          ++ builtDiagnostics (linkOutcomes options parsed) :=
  ⟨linksReported parallel requested (parse sources).1, rfl, rfl⟩

/-- A source with a link that nobody can follow, one with the name of a zone, and two on a cycle. -/
def brokenLinkSources : Sources :=
  [ { name := "f"
      contents := "Z A 0 - AAA\nZ B 0 - BBB\nZ E 0 - EEE\nL E B\nL C D\nL D C\nL M N\n" } ]

/-- A build that asks for the zone `A` alone passes over the link to nowhere, but reports the link
with the name of the zone `B` and the links `C` and `D` of the cycle, which nobody asks for. -/
theorem run_unasked_reported
    : let parsed := (parse brokenLinkSources).1
      (run { parallel := true, requested := some ["A"] } brokenLinkSources).report.diagnostics.map
          (·.zone)
        = [some "B", some "D", some "C"]
      ∧ ¬ LinkAsked parsed.tables ["A"] "B"
      ∧ ¬ LinkAsked parsed.tables ["A"] "C"
      ∧ ¬ LinkAsked parsed.tables ["A"] "D" := by
  refine ⟨?_, ?_, ?_, ?_⟩ <;> decide +kernel

end CivilTime.Build
