import CivilTime.Proofs.Build.Aliases
import CivilTime.Proofs.Source.Splitting

/-! A build does not depend on how its sources are cut into files.
The records of the parts are those of the whole up to the numbers of their lines, which a zone is
compiled without.
-/

namespace CivilTime

-----------------------------------------------------------------------------------------
-- Tables up to the numbers of lines
-----------------------------------------------------------------------------------------

namespace Tables

variable {t t' u u' v : Tables}

theorem Distinct.renumber (distinct : t.Distinct) (change : Nat → Nat)
    : (t.renumber change).Distinct where
  rules := distinct.rules
  zones := by
    rw [Tables.renumber, Table.names_mapValues]
    exact distinct.zones
  links := by
    rw [Tables.renumber, Table.names_mapValues]
    exact distinct.links
  named := by
    intro entry member
    obtain ⟨former, inside, rfl⟩ := List.mem_map.mp member
    exact distinct.named former inside

/-- The records of tables without the numbers of their lines. -/
def unnumbered (t : Tables) : Tables := { t.renumber fun _ => 0 with errors := [] }

theorem unnumbered_renumber (t : Tables) (change : Nat → Nat)
    : (t.renumber change).unnumbered = t.unnumbered := by
  simp [unnumbered, renumber, Table.mapValues, ZoneRecord.renumber, ZoneLine.renumber,
    Link.renumber, Function.comp_def]

theorem Same.unnumbered (same : t.Same u) : t.unnumbered = u.unnumbered := by
  simp only [Tables.unnumbered, Tables.renumber, same.rules, same.zones, same.links]

/-- A merge of tables has the records that their records lead to. -/
theorem unnumbered_extend (same : t.unnumbered = t'.unnumbered)
    (same' : u.unnumbered = u'.unnumbered) (distinct : u.Distinct) (distinct' : u'.Distinct)
    : (t.extend u).unnumbered = (t'.extend u').unnumbered := by
  simp only [unnumbered, renumber, mk.injEq] at same same'
  obtain ⟨rules, zones, links, -⟩ := same
  obtain ⟨rules', zones', links', -⟩ := same'
  simp only [extend_eq distinct, extend_eq distinct', unnumbered, renumber,
    Table.mapValues_append_fresh, rules, zones, links, rules', zones', links']

/-- Merging is associative up to the errors. -/
theorem unnumbered_extend_assoc (distinct : u.Distinct) (distinct' : v.Distinct) (t : Tables)
    : (t.extend (u.extend v)).unnumbered = ((t.extend u).extend v).unnumbered := by
  rw [extend_eq (distinct.extend distinct')]
  simp only [extend_eq distinct', extend_eq distinct, unnumbered, renumber,
    RuleSet.merge_assoc distinct.rules, Table.fresh_append_fresh, Table.fresh_append,
    List.append_assoc]

end Tables

-----------------------------------------------------------------------------------------
-- Compilation
-----------------------------------------------------------------------------------------

namespace Compilation

/-- A line is compiled alike under another number, which only a refusal tells. -/
theorem compileLine_renumber (zone : String) (rules : Table RuleSet) (change : Nat → Nat)
    (line : ZoneLine) (progress : Progress) (isLast : Bool)
    : (compileLine zone rules (line.renumber change) progress isLast).toOption
      = (compileLine zone rules line progress isLast).toOption := by
  have same : (line.renumber change).isOpen = line.isOpen := rfl
  simp only [compileLine, same]
  split
  · rfl
  · rfl

/-- Lines are compiled alike under other numbers, by induction on the lines. -/
theorem compileLines_renumber (zone : String) (rules : Table RuleSet) (change : Nat → Nat)
    (lines : List ZoneLine) (progress : Progress)
    : (compileLines zone rules (lines.map (·.renumber change)) progress).toOption
      = (compileLines zone rules lines progress).toOption := by
  induction lines generalizing progress with
  | nil => rfl
  | cons line rest ih =>
      have here := compileLine_renumber zone rules change line progress rest.isEmpty
      simp only [List.map_cons, compileLines, List.isEmpty_map, toOption_bind, here]
      refine Option.bind_congr fun lineEnd _ => ?_
      cases lineEnd with
      | next progress => exact ih progress
      | tail timeline tail => rfl

end Compilation

/-- A record compiles to the same zone under other numbers. -/
theorem ZoneRecord.compile_renumber (record : ZoneRecord) (change : Nat → Nat) (name : String)
    (rules : Table RuleSet)
    : ((record.renumber change).compile name rules).toOption
      = (record.compile name rules).toOption := by
  simp only [compile, renumber, List.isEmpty_map]
  split
  · rfl
  · exact Compilation.compileLines_renumber name rules change record.lines .initial

namespace Link

variable (change : Nat → Nat) (links : Table Link)

theorem follow_renumber (limit : Nat) (name : String)
    : follow (links.mapValues (·.renumber change)) limit name = follow links limit name := by
  induction limit generalizing name with
  | zero => rfl
  | succ limit ih =>
      rw [follow, follow, Table.get?_mapValues]
      cases links.get? name with
      | none => rfl
      | some link => exact ih link.target

theorem resolveTarget_renumber (name : String)
    : resolveTarget (links.mapValues (·.renumber change)) name = resolveTarget links name := by
  have length_eq : (links.mapValues (·.renumber change)).length = links.length :=
    List.length_map ..
  rw [resolveTarget, resolveTarget, Table.get?_mapValues, length_eq]
  cases links.get? name with
  | none => rfl
  | some link =>
      change (follow _ links.length link.target).mapError _ = _
      rw [follow_renumber]

end Link

-----------------------------------------------------------------------------------------
-- Builds
-----------------------------------------------------------------------------------------

namespace Build

/-- Parsed sources without the numbers of their lines and the names of their files. -/
def Parsed.unnumbered (p : Parsed) : Parsed :=
  { tables := p.tables.unnumbered, zoneFiles := [], linkFiles := [] }

theorem Selection.ofOptions_unnumbered (t : Tables) (options : Options)
    : ofOptions t.unnumbered options = ofOptions t options := by
  have targets : targetsOf t.unnumbered options = targetsOf t options := by
    simp only [targetsOf, Tables.unnumbered, Tables.renumber, Table.names_mapValues,
      Link.resolveTarget_renumber]
  have unknown : unknownRequest? t.unnumbered = unknownRequest? t := by
    funext name
    simp only [unknownRequest?, Tables.unnumbered, Tables.renumber, Table.contains_mapValues]
  rw [ofOptions, ofOptions, targets, unknown]

/-- The zone that has been built, if it is one. -/
def Built.zone? : Built → Option (String × SharedZone)
  | .zone name shared => some (name, shared)
  | .diagnostic _ => none

theorem zone?_buildZone (p : Parsed) (name : String) (record : ZoneRecord) (token : Nat)
    : (buildZone p name record token).zone?
      = (record.compile name p.tables.rules).toOption.map fun zone => (name, { token, zone }) := by
  rw [buildZone]
  cases record.compile name p.tables.rules <;> rfl

theorem builtZones_eq (built : List Built) : builtZones built = built.filterMap Built.zone? := by
  rw [builtZones]
  refine List.filterMap_congr fun result _ => ?_
  cases result <;> rfl

/-- The zones that are built without the numbers of lines are those with them. -/
theorem builtZones_buildZones (p : Parsed) (selection : Selection)
    : builtZones (buildZones p.unnumbered selection) = builtZones (buildZones p selection) := by
  simp only [builtZones_eq, buildZones, Parsed.unnumbered, Tables.unnumbered, Tables.renumber,
    Table.mapValues, List.filter_map, List.zipIdx_map, List.filterMap_map]
  refine List.filterMap_congr fun entry _ => ?_
  simp only [Function.comp_apply, zone?_buildZone, Prod.map]
  rw [ZoneRecord.compile_renumber]
  rfl

theorem bind_zone?_eq_some {result : Option Built} {name : String} {shared : SharedZone}
    : result.bind Built.zone? = some (name, shared) ↔ result = some (.zone name shared) := by
  rcases result with _ | (_ | _) <;> simp [Built.zone?]

/-- An alias is built alike under another number. -/
theorem zone?_buildAlias (p : Parsed) (selection : Selection) (zones : ZoneIndex) (name : String)
    (link : Link) (change : Nat → Nat)
    : (buildAlias p.unnumbered selection zones name (link.renumber change)).bind Built.zone?
      = (buildAlias p selection zones name link).bind Built.zone? := by
  have resolved
      : Link.resolveTarget p.unnumbered.tables.links = Link.resolveTarget p.tables.links :=
    funext (Link.resolveTarget_renumber _ p.tables.links)
  have taken : p.unnumbered.tables.zones.contains name = p.tables.zones.contains name :=
    Table.contains_mapValues ..
  refine Option.ext fun ⟨shown, shared⟩ => ?_
  rw [bind_zone?_eq_some, bind_zone?_eq_some, buildAlias_eq_zone, buildAlias_eq_zone, resolved,
    taken]

/-- The aliases that are built without the numbers of lines are those with them. -/
theorem builtZones_buildAliases (p : Parsed) (selection : Selection) (zones : ZoneIndex)
    : builtZones (buildAliases p.unnumbered selection zones)
      = builtZones (buildAliases p selection zones) := by
  have entries
      : p.unnumbered.tables.links = p.tables.links.mapValues (·.renumber fun _ => 0) :=
    rfl
  simp only [builtZones_eq, buildAliases, entries, Table.mapValues, List.filterMap_filterMap,
    List.filterMap_map]
  exact List.filterMap_congr fun entry _ => zone?_buildAlias p selection zones entry.1 entry.2 _

/-- A build comes to what its records lead to. -/
theorem compileParsed_unnumbered (options : Options) (p : Parsed) (sources : Nat)
    (diagnostics : List Diagnostic)
    : (compileParsed options p.unnumbered sources diagnostics).1
      = (compileParsed options p sources diagnostics).1 := by
  have selected
      : Selection.ofOptions p.unnumbered.tables options = Selection.ofOptions p.tables options :=
    Selection.ofOptions_unnumbered p.tables options
  simp only [compileParsed, selected, builtZones_buildZones, builtZones_buildAliases]

namespace Parsed

variable {p q : Parsed}

/-- The files of a build, one after the other. -/
theorem addAll_append (p : Parsed) (front back : Sources)
    : (p.addAll (front ++ back)).1 = ((p.addAll front).1.addAll back).1 := by
  induction front generalizing p with
  | nil => rfl
  | cons file rest ih =>
      rw [List.cons_append, addAll, addAll]
      exact ih (p.addFile file).1

theorem tables_addFile (p : Parsed) (file : SourceFile)
    : (p.addFile file).1.tables.unnumbered
      = (p.tables.extend (Tables.ofText file.contents)).unnumbered := by
  have distinct := Tables.distinct_ofText file.contents
  have added
      : (p.addFile file).1.tables.unnumbered
        = (p.tables.extend { Tables.ofText file.contents with errors := [] }).unnumbered :=
    rfl
  rw [added]
  exact Tables.unnumbered_extend rfl rfl { distinct with } distinct

theorem unnumbered_addFile (same : p.tables.unnumbered = q.tables.unnumbered) (file : SourceFile)
    : (p.addFile file).1.tables.unnumbered = (q.addFile file).1.tables.unnumbered := by
  have distinct := Tables.distinct_ofText file.contents
  rw [tables_addFile, tables_addFile]
  exact Tables.unnumbered_extend same rfl distinct distinct

/-- Files add the same records to the same records, by induction on the files. -/
theorem unnumbered_addAll (same : p.tables.unnumbered = q.tables.unnumbered) (files : Sources)
    : (p.addAll files).1.tables.unnumbered = (q.addAll files).1.tables.unnumbered := by
  induction files generalizing p q with
  | nil => exact same
  | cons file rest ih => exact ih (unnumbered_addFile same file)

/-- A file that is cut where no zone is open adds the records of its parts. -/
theorem unnumbered_addFile_cut {whole front back : SourceFile}
    (cut : whole.contents = front.contents ++ back.contents) (ends : Text.EndsLine front.contents)
    (idle : OpenZone.behind front.contents = .idle) (p : Parsed)
    : (p.addFile whole).1.tables.unnumbered
      = ((p.addFile front).1.addFile back).1.tables.unnumbered := by
  have distinct := Tables.distinct_ofText front.contents
  have distinct' := Tables.distinct_ofText back.contents
  have parts
      : (Tables.ofText whole.contents).unnumbered
        = ((Tables.ofText front.contents).extend (Tables.ofText back.contents)).unnumbered := by
    rw [cut, (Tables.ofText_append ends idle back.contents).unnumbered]
    exact Tables.unnumbered_extend rfl (Tables.unnumbered_renumber ..) (distinct'.renumber _)
      distinct'
  calc
    (p.addFile whole).1.tables.unnumbered
      = (p.tables.extend (Tables.ofText whole.contents)).unnumbered := tables_addFile p whole
    _ = (p.tables.extend
          ((Tables.ofText front.contents).extend (Tables.ofText back.contents))).unnumbered :=
        Tables.unnumbered_extend rfl parts (Tables.distinct_ofText _) (distinct.extend distinct')
    _ = ((p.tables.extend (Tables.ofText front.contents)).extend
          (Tables.ofText back.contents)).unnumbered :=
        Tables.unnumbered_extend_assoc distinct distinct' _
    _ = ((p.addFile front).1.tables.extend (Tables.ofText back.contents)).unnumbered :=
        Tables.unnumbered_extend (tables_addFile p front).symm rfl distinct' distinct'
    _ = ((p.addFile front).1.addFile back).1.tables.unnumbered :=
        (tables_addFile (p.addFile front).1 back).symm

end Parsed

theorem run_index_eq (options : Options) (sources : Sources)
    : (run options sources).index = (compileParsed options (parse sources).1.unnumbered 0 []).1 :=
  (compileParsed_unnumbered ..).symm

/-- A text whose first part is empty or ends its last line, and leaves no zone that awaits or passes
over further lines, can be cut behind that part. The tables of the whole are those of the parts
merged, with the lines of the second part counted on from those of the first, and only the errors
may stand in another order. A build from the parts as two files has the same zones and aliases, and
its artifact has the same bytes.
-/
theorem run_cutFile {whole front back : SourceFile}
    (cut : whole.contents = front.contents ++ back.contents) (ends : Text.EndsLine front.contents)
    (idle : OpenZone.behind front.contents = .idle)
    : (Tables.ofText whole.contents).Same
        ((Tables.ofText front.contents).extend
          ((Tables.ofText back.contents).renumber (· + Text.lineCount front.contents)))
      ∧ ∀ (options : Options) (before after : Sources),
          (run options (before ++ whole :: after)).index
            = (run options (before ++ front :: back :: after)).index
          ∧ (run options (before ++ whole :: after)).bytes
            = (run options (before ++ front :: back :: after)).bytes := by
  refine ⟨?_, ?_⟩
  · rw [cut]
    exact Tables.ofText_append ends idle back.contents
  · intro options before after
    have index_eq
        : (run options (before ++ whole :: after)).index
          = (run options (before ++ front :: back :: after)).index := by
      have parsed
          : (parse (before ++ whole :: after)).1.unnumbered
            = (parse (before ++ front :: back :: after)).1.unnumbered := by
        simp only [parse, Parsed.addAll_append, Parsed.unnumbered]
        have joined := Parsed.unnumbered_addAll
          (Parsed.unnumbered_addFile_cut cut ends idle (Parsed.empty.addAll before).1) after
        exact congrArg (Parsed.mk · [] []) joined
      rw [run_index_eq, run_index_eq, parsed]
    refine ⟨index_eq, ?_⟩
    rw [Output.bytes, index_eq]
    rfl

/-- The first half of a source that defines names again, inside it and in the second half. -/
def clashingFront : SourceFile := { name := "front", contents := "Z A 0 - X\nZ A 1 - X\nL A B\n" }

/-- The second half, which begins with a line that is refused. -/
def clashingBack : SourceFile := { name := "back", contents := "R S\nZ A 2 - X\nL C B\n" }

/-- The whole source. -/
def clashingWhole : SourceFile :=
  { name := "whole", contents := clashingFront.contents ++ clashingBack.contents }

/-- Witness: the errors of the merged halves stand in another order than those of the whole. -/
theorem run_cutFile_clashing
    : (Tables.ofText clashingWhole.contents).errors.map (·.line) = [2, 4, 5, 6]
      ∧ (((Tables.ofText clashingFront.contents).extend
            ((Tables.ofText clashingBack.contents).renumber (· + 3))).errors.map (·.line))
        = [2, 5, 6, 4]
      ∧ (Tables.ofText clashingWhole.contents).Same
        ((Tables.ofText clashingFront.contents).extend
          ((Tables.ofText clashingBack.contents).renumber (· + 3)))
      ∧ (run .standard [clashingWhole]).bytes
        = (run .standard [clashingFront, clashingBack]).bytes := by
  have count : Text.lineCount clashingFront.contents = 3 := by decide +kernel
  have cut : clashingWhole.contents = clashingFront.contents ++ clashingBack.contents := rfl
  obtain ⟨same, built⟩ := run_cutFile cut (.inr (by decide +kernel)) (by decide +kernel)
  rw [count] at same
  exact ⟨by decide +kernel, by decide +kernel, same, (built .standard [] []).2⟩

end Build

end CivilTime
