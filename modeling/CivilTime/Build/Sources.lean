import CivilTime.Build.Report
import CivilTime.Files.Access
import CivilTime.Source.Tables

/-! The source files of a build.
Each file is read on its own, so that every refused line can be reported under its file, and the
records are then merged in the order of the files.
-/

namespace CivilTime.Build

/-- A named source text. -/
structure SourceFile where
  name : String
  contents : String
  deriving DecidableEq, Repr, Inhabited

/-- The source files in order. -/
abbrev Sources := List SourceFile

/-- The files that the database is split into. -/
def regionFiles : List String :=
  ["africa", "antarctica", "asia", "australasia", "backward", "etcetera", "europe",
    "northamerica", "southamerica"]

/-- The one file that can hold the whole database. -/
def compactFile : String := "tzdata.zi"

section Reading

variable {m : Type → Type} [Monad m] (files : FileAccess m)

/-- Reads files behind those that have been read. The ones in front of a failure are kept. -/
def addFiles (sources : Sources) : List String → m (Sources × Except FileError Unit)
  | [] => pure (sources, .ok ())
  | path :: rest => do
    match ← files.readText path with
    | .error error => pure (sources, .error error)
    | .ok contents => addFiles (sources ++ [{ name := path, contents }]) rest

/-- Whether all paths are those of files. -/
def allFiles : List String → m Bool
  | [] => pure true
  | path :: rest => do
    if ← files.isFile path then allFiles rest else pure false

/-- Reads a file or a directory of the database: its region files if it has them all, and otherwise
its compact file. -/
def addPath (sources : Sources) (path : String) : m (Sources × Except FileError Unit) := do
  if ← files.isDirectory path then
    let regions := regionFiles.map (pathIn path)
    let compact := pathIn path compactFile
    if ← allFiles files regions then addFiles files sources regions
    else if ← files.isFile compact then addFiles files sources [compact]
    else pure (sources, .error (.noSources path))
  else addFiles files sources [path]

/-- The records of a file. -/
def readTables (path : String) : m (Except FileError Tables) := do
  match ← files.readText path with
  | .error error => pure (.error error)
  | .ok contents => pure (.ok (.ofText contents))

/-- The records of files, merged in order. -/
def mergeFiles (tables : Tables) : List String → m (Except FileError Tables)
  | [] => pure (.ok tables)
  | path :: rest => do
    match ← readTables files path with
    | .error error => pure (.error error)
    | .ok other => mergeFiles (tables.extend other) rest

/-- The records of the region files of a directory. -/
def readDirectory (path : String) : m (Except FileError Tables) :=
  mergeFiles files .empty (regionFiles.map (pathIn path))

end Reading

/-- The merged records of the sources, with the file that each zone and link comes from. -/
structure Parsed where
  tables : Tables
  zoneFiles : Table String
  linkFiles : Table String
  deriving Repr, Inhabited

namespace Parsed

/-- No records. -/
def empty : Parsed := { tables := .empty, zoneFiles := [], linkFiles := [] }

/-- The file of a zone's record. -/
def zoneFile? (p : Parsed) (zone : String) : Option String := p.zoneFiles.get? zone

/-- The file of a link. -/
def linkFile? (p : Parsed) (name : String) : Option String := p.linkFiles.get? name

/-- Names a file for each name that has none yet. -/
def claimNames (file : String) (names : List String) (owners : Table String) : Table String :=
  names.foldl (fun owners name => owners.alter name (·.getD file)) owners

/-- Merges the records of a file. Its refused lines come first, and the names that it defines again
follow as refused lines of the same file. -/
def addFile (p : Parsed) (file : SourceFile) : Parsed × List Diagnostic :=
  let found := Tables.ofText file.contents
  let merged := p.tables.extend { found with errors := [] }
  ({ tables := { merged with errors := [] }
     zoneFiles := claimNames file.name found.zones.names p.zoneFiles
     linkFiles := claimNames file.name found.links.names p.linkFiles },
    (found.errors ++ merged.errors).map (Diagnostic.ofLine file.name))

/-- Merges the records of files in order. -/
def addAll (p : Parsed) : Sources → Parsed × List Diagnostic
  | [] => (p, [])
  | file :: rest =>
    let (p, diagnostics) := p.addFile file
    let (p, others) := p.addAll rest
    (p, diagnostics ++ others)

end Parsed

/-- The merged records of the sources, and a diagnostic for each refused line. -/
def parse (sources : Sources) : Parsed × List Diagnostic := Parsed.empty.addAll sources

end CivilTime.Build
