import CivilTime.Build.Sources
import CivilTime.Proofs.Build.Sources
import CivilTime.Proofs.Source.Definitions
import CivilTime.Proofs.Source.Merging

/-! Where the merged records of a build come from.
The first file that defines a name gives its record and is named as its file. Every further
definition is reported once, under its own file and line, whether the name is defined in front of it
by its own file or by an earlier one.
-/

namespace CivilTime.Build

/-- Whether a fault is reported for a name that is defined again. -/
def Diagnostic.isDuplicate (d : Diagnostic) : Bool :=
  match d.fault with
  | .malformedRecord error => error.fault.isDuplicate
  | _ => false

/-- The report of a definition whose name is taken. -/
def diagnosticOf (d : Definition) : Diagnostic := .ofLine d.file d.clash

/-- The definitions of a file. -/
def SourceFile.definitions (file : SourceFile) : List Definition :=
  Definition.listOf file.name file.contents

/-- Whether a file defines a name. -/
def SourceFile.defines (file : SourceFile) (key : NameKind × String) : Bool :=
  file.definitions.any (·.key = key)

/-- The first file that defines a name. -/
def firstDefining? (sources : Sources) (key : NameKind × String) : Option SourceFile :=
  sources.find? (·.defines key)

theorem SourceFile.file_eq (file : SourceFile) {d : Definition} (member : d ∈ file.definitions)
    : d.file = file.name := by
  cases Definition.mem_listOf_iff.mp member <;> rfl

/-- The records of a file that is read on its own have the names that it defines. -/
theorem knows_ofText (file : SourceFile)
    : (Tables.ofText file.contents).Knows (file.definitions.map Definition.key) := by
  rw [Tables.ofText_eq]
  exact Tables.knows_empty.addAll file.name (Entry.listOf file.contents)

theorem defines_eq (file : SourceFile) (key : NameKind × String)
    : file.defines key = (Tables.ofText file.contents).defines key := by
  rw [Bool.eq_iff_iff, knows_ofText file key]
  simp [SourceFile.defines]

/-- The first file that gives a value is the first one that defines the name, if those that define
it are the ones that give a value. The induction is on the files. -/
theorem findSome?_eq_firstDefining? {α : Type} {answer : SourceFile → Option α}
    {key : NameKind × String}
    (answers : ∀ file : SourceFile, (answer file).isSome = file.defines key) (files : Sources)
    : files.findSome? answer = (firstDefining? files key).bind answer := by
  unfold firstDefining?
  induction files with
  | nil => rfl
  | cons file rest ih =>
      have here := answers file
      rw [List.findSome?_cons, List.find?_cons, ← here]
      cases answered : answer file with
      | none => exact ih
      | some value => exact answered.symm

namespace Parsed

variable {p : Parsed} {known : List (NameKind × String)}

-----------------------------------------------------------------------------------------
-- Records and their files
-----------------------------------------------------------------------------------------

theorem merged_addFile (p : Parsed) (file : SourceFile)
    : (p.addFile file).1.tables
      = { p.tables.extend (Tables.ofText file.contents) with errors := [] } :=
  rfl

theorem get?_claimNames (file : String) (names : List String) (owners : Table String)
    (name : String)
    : (claimNames file names owners).get? name
      = (owners.get? name).or (if name ∈ names then some file else none) := by
  induction names generalizing owners with
  | nil => simp [claimNames]
  | cons first rest ih =>
      have unfolded
          : claimNames file (first :: rest) owners
            = claimNames file rest (owners.alter first (·.getD file)) :=
        rfl
      rw [unfolded, ih, Table.get?_alter]
      by_cases same : name = first
      · subst same
        cases owners.get? name <;> simp
      · simp [same]

/-- A lookup that a file answers if the ones in front of it do not is answered by the first file
that can. The induction is on the files. -/
theorem addAll_or {α : Type} {lookup : Parsed → Option α} {answer : SourceFile → Option α}
    (step : ∀ p file, lookup (addFile p file).1 = (lookup p).or (answer file))
    (p : Parsed) (files : Sources)
    : lookup (p.addAll files).1 = (lookup p).or (files.findSome? answer) := by
  induction files generalizing p with
  | nil => simp [addAll]
  | cons file rest ih =>
      have unfolded : (p.addAll (file :: rest)).1 = ((p.addFile file).1.addAll rest).1 := rfl
      rw [unfolded, ih, step, Option.or_assoc, List.findSome?_cons]
      cases answer file <;> rfl

theorem zones_addFile (p : Parsed) (file : SourceFile) (name : String)
    : (p.addFile file).1.tables.zones.get? name
      = (p.tables.zones.get? name).or ((Tables.ofText file.contents).zones.get? name) := by
  rw [merged_addFile, Tables.extend_eq (Tables.distinct_ofText _)]
  exact Table.get?_append_fresh ..

theorem links_addFile (p : Parsed) (file : SourceFile) (name : String)
    : (p.addFile file).1.tables.links.get? name
      = (p.tables.links.get? name).or ((Tables.ofText file.contents).links.get? name) := by
  rw [merged_addFile, Tables.extend_eq (Tables.distinct_ofText _)]
  exact Table.get?_append_fresh ..

theorem zoneFile?_addFile (p : Parsed) (file : SourceFile) (name : String)
    : (p.addFile file).1.zoneFile? name
      = (p.zoneFile? name).or (if file.defines (.zone, name) then some file.name else none) := by
  rw [defines_eq, Tables.defines]
  simp only [Table.contains_iff]
  exact get?_claimNames ..

theorem linkFile?_addFile (p : Parsed) (file : SourceFile) (name : String)
    : (p.addFile file).1.linkFile? name
      = (p.linkFile? name).or (if file.defines (.link, name) then some file.name else none) := by
  rw [defines_eq, Tables.defines]
  simp only [Table.contains_iff]
  exact get?_claimNames ..

-----------------------------------------------------------------------------------------
-- Reports
-----------------------------------------------------------------------------------------

/-- A file is reported for what adding its entries behind the merged records reports. -/
theorem diagnostics_addFile (p : Parsed) (file : SourceFile)
    : (p.addFile file).2.Perm
        ((p.tables.addAll (Entry.listOf file.contents)).errors.map
          (Diagnostic.ofLine file.name)) := by
  have same := (Tables.addAll_same_extend p.tables (Entry.listOf file.contents)).errors
  rw [← Tables.ofText_eq] at same
  refine List.Perm.map _ (List.Perm.trans ?_ same.symm)
  simp only [Tables.extend, List.append_nil]
  exact List.perm_append_comm

/-- A file makes the names known that it defines. -/
theorem knows_addFile (knows : p.tables.Knows known) (file : SourceFile)
    : (p.addFile file).1.tables.Knows (known ++ file.definitions.map Definition.key) := by
  have same := Tables.addAll_same_extend p.tables (Entry.listOf file.contents)
  rw [← Tables.ofText_eq] at same
  have added := knows.addAll file.name (Entry.listOf file.contents)
  intro key
  rw [merged_addFile, SourceFile.definitions, Definition.listOf, ← added key]
  obtain ⟨_ | _, name⟩ := key
  · simp only [Tables.defines, same.zones]
  · simp only [Tables.defines, same.links]

/-- The definitions of a file are reported whose names are known in front of them. -/
theorem duplicates_addFile (knows : p.tables.Knows known) (clean : p.tables.errors = [])
    (file : SourceFile)
    : ((p.addFile file).2.filter Diagnostic.isDuplicate).Perm
        ((Definition.further known file.definitions).map diagnosticOf) := by
  have reported := knows.duplicates_addAll file.name
    fun error (member : .error error ∈ Entry.listOf file.contents) =>
      Entry.isDuplicate_of_mem member
  have same
      : Diagnostic.isDuplicate ∘ Diagnostic.ofLine file.name
        = fun error => error.fault.isDuplicate :=
    rfl
  refine ((diagnostics_addFile p file).filter _).trans (.of_eq ?_)
  rw [List.filter_map, same, reported, clean, List.filter_nil, List.nil_append, List.map_map]
  refine List.map_congr_left fun d member => ?_
  rw [Function.comp_apply, diagnosticOf, file.file_eq (Definition.further_subset _ _ member)]

/-- The definitions of files are reported whose names are known in front of them. The induction is
on the files. -/
theorem duplicates_addAll (knows : p.tables.Knows known) (clean : p.tables.errors = [])
    (files : Sources)
    : ((p.addAll files).2.filter Diagnostic.isDuplicate).Perm
        ((Definition.further known (files.flatMap SourceFile.definitions)).map diagnosticOf) := by
  induction files generalizing p known with
  | nil => simp [addAll, Definition.further]
  | cons file rest ih =>
      let next := p.addFile file
      have unfolded : (p.addAll (file :: rest)).2 = next.2 ++ (next.1.addAll rest).2 := rfl
      rw [unfolded, List.filter_append, List.flatMap_cons, Definition.further_append,
        List.map_append]
      exact (duplicates_addFile knows clean file).append (ih (knows_addFile knows file) rfl)

end Parsed

-----------------------------------------------------------------------------------------
-- All files
-----------------------------------------------------------------------------------------

/-- A lookup that each file answers for the names that it defines, unless one in front of it has
answered, is answered by the first file that defines the name. -/
theorem parse_lookup {α : Type} (lookup : Parsed → Option α) (answer : SourceFile → Option α)
    (key : NameKind × String) (start : lookup .empty = none)
    (step : ∀ p file, lookup (Parsed.addFile p file).1 = (lookup p).or (answer file))
    (answers : ∀ file, (answer file).isSome = file.defines key) (sources : Sources)
    : lookup (parse sources).1 = (firstDefining? sources key).bind answer := by
  rw [parse, Parsed.addAll_or step, start, Option.none_or, findSome?_eq_firstDefining? answers]

/-- The file of a name is the first one that defines it. -/
theorem parse_owner (lookup : Parsed → Option String) (key : NameKind × String)
    (start : lookup .empty = none)
    (step
      : ∀ p file, lookup (Parsed.addFile p file).1
          = (lookup p).or (if file.defines key then some file.name else none))
    (sources : Sources)
    : lookup (parse sources).1 = (firstDefining? sources key).map (·.name) := by
  rw [parse_lookup lookup _ key start step fun file => by split <;> simp_all]
  cases found : firstDefining? sources key with
  | none => rfl
  | some file =>
      rw [firstDefining?] at found
      have defines := List.find?_some found
      exact if_pos defines

theorem zones_parse (sources : Sources) (name : String)
    : (parse sources).1.tables.zones.get? name
      = (firstDefining? sources (.zone, name)).bind fun file =>
          (Tables.ofText file.contents).zones.get? name :=
  parse_lookup (fun p => p.tables.zones.get? name) _ (.zone, name) rfl
    (Parsed.zones_addFile · · name) (fun file => (defines_eq file (.zone, name)).symm) sources

theorem links_parse (sources : Sources) (name : String)
    : (parse sources).1.tables.links.get? name
      = (firstDefining? sources (.link, name)).bind fun file =>
          (Tables.ofText file.contents).links.get? name :=
  parse_lookup (fun p => p.tables.links.get? name) _ (.link, name) rfl
    (Parsed.links_addFile · · name) (fun file => (defines_eq file (.link, name)).symm) sources

/-- The zones and links of a build are those that the first file defining their names has on its
own, and that file is named for them. The reports of names that are defined again are those of the
further definitions of all files, each with its own file and line. The definitions of a file stand
on the headers of its zones and on the lines of its links, in order. -/
theorem parse_definitions (sources : Sources)
    : (∀ name record,
        (name, record) ∈ (parse sources).1.tables.zones
        ↔ ∃ file, firstDefining? sources (.zone, name) = some file
            ∧ (Tables.ofText file.contents).zones.get? name = some record)
      ∧ (∀ name link,
          (name, link) ∈ (parse sources).1.tables.links
          ↔ ∃ file, firstDefining? sources (.link, name) = some file
              ∧ (Tables.ofText file.contents).links.get? name = some link)
      ∧ (∀ name,
          (parse sources).1.zoneFile? name
          = (firstDefining? sources (.zone, name)).map (·.name))
      ∧ (∀ name,
          (parse sources).1.linkFile? name
          = (firstDefining? sources (.link, name)).map (·.name))
      ∧ ((parse sources).2.filter Diagnostic.isDuplicate).Perm
          ((Definition.further [] (sources.flatMap SourceFile.definitions)).map diagnosticOf)
      ∧ ∀ file : SourceFile,
          file.definitions.Pairwise (·.line < ·.line)
          ∧ ∀ d, d ∈ file.definitions ↔ Definition.Stands file.name file.contents d := by
  have checked := parse_checked sources
  refine ⟨?zones, ?links, ?zoneFiles, ?linkFiles, ?duplicates, ?definitions⟩
  case zones =>
    intro name record
    rw [← Option.bind_eq_some_iff, ← zones_parse]
    exact ⟨Table.get?_of_mem checked.zoneNames, Table.mem_of_get?⟩
  case links =>
    intro name link
    rw [← Option.bind_eq_some_iff, ← links_parse]
    exact ⟨Table.get?_of_mem checked.linkNames, Table.mem_of_get?⟩
  case zoneFiles =>
    intro name
    exact parse_owner (·.zoneFile? name) (.zone, name) rfl (Parsed.zoneFile?_addFile · · name) _
  case linkFiles =>
    intro name
    exact parse_owner (·.linkFile? name) (.link, name) rfl (Parsed.linkFile?_addFile · · name) _
  case duplicates => exact Parsed.duplicates_addAll Tables.knows_empty rfl sources
  case definitions =>
    exact fun file =>
      ⟨Definition.increasing_listOf file.name file.contents, fun _ => Definition.mem_listOf_iff⟩

/-- Two files define a zone, the first one of them twice. -/
example :
    let sources : Sources := [⟨"zones", "Z A 0 - X\nZ A 1 - Y\n"⟩, ⟨"again", "Z A 2 - W\n"⟩]
    (parse sources).1.zoneFile? "A" = some "zones"
      ∧ (parse sources).2
        = [diagnosticOf { file := "zones", kind := .zone, name := "A", line := 2 },
          diagnosticOf { file := "again", kind := .zone, name := "A", line := 1 }] := by
  decide +kernel

end CivilTime.Build
