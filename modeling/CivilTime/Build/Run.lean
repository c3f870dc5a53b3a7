import CivilTime.Artifact.Writer
import CivilTime.Build.Options
import CivilTime.Build.Sources
import CivilTime.Zone.Compilation

/-! A build compiles the zones of its sources and then resolves the links.
Nothing stops a build: a zone or link that cannot be built is left out and reported. An alias shares
the zone it leads to.
-/

namespace CivilTime.Build

/-- The zones and aliases of a build. -/
structure Output where
  index : ZoneIndex
  report : Report
  /-- What the build had to say while it ran. -/
  messages : List Message
  deriving Repr, Inhabited

/-- The artifact that holds the zones and aliases. -/
def Output.bytes (output : Output) : List UInt8 := (Artifact.Writer.ofIndex output.index).finish

/-- Writes the artifact to a file and gives its length. -/
def Output.writeTo [Monad m] (files : FileAccess m) (output : Output) (path : String)
    : m (Except FileError Nat) := do
  let bytes := output.bytes
  match ← files.writeBytes path bytes with
  | .ok () => pure (.ok bytes.length)
  | .error error => pure (.error error)

/-- What a list of requests comes to. -/
structure Selection where
  /-- The zones to compile, absent for all. -/
  targets : Option (List String)
  /-- The requests that name nothing. -/
  diagnostics : List Diagnostic
  deriving Repr, Inhabited

namespace Selection

/-- Whether a zone is to be compiled. -/
def contains (s : Selection) (zone : String) : Bool :=
  match s.targets with
  | none => true
  | some targets => targets.contains zone

/-- The requested zones, and those that requested aliases lead to. -/
def targetsOf (tables : Tables) (options : Options) : List String :=
  tables.zones.names.filter options.selects ++
    (tables.links.names.filter options.selects).filterMap fun name =>
      (Link.resolveTarget tables.links name).toOption

/-- The diagnostic for a requested name that is neither a zone nor an alias. -/
def unknownRequest? (tables : Tables) (name : String) : Option Diagnostic :=
  if tables.zones.contains name || tables.links.contains name then none
  else some { Diagnostic.ofFault (.unknownZone name name) with zone := some name }

/-- The zones that the options ask for. -/
def ofOptions (tables : Tables) (options : Options) : Selection :=
  match options.requested with
  | none => { targets := none, diagnostics := [] }
  | some requested =>
    { targets := some (targetsOf tables options)
      diagnostics := requested.filterMap (unknownRequest? tables) }

end Selection

/-- What a zone or alias of the sources comes to. -/
inductive Built where
  | zone (name : String) (shared : SharedZone)
  | diagnostic (diagnostic : Diagnostic)
  deriving Repr, Inhabited

/-- The zones among what has been built. -/
def builtZones (built : List Built) : ZoneIndex :=
  built.filterMap fun
    | .zone name shared => some (name, shared)
    | .diagnostic _ => none

/-- The diagnostics among what has been built. -/
def builtDiagnostics (built : List Built) : List Diagnostic :=
  built.filterMap fun
    | .zone _ _ => none
    | .diagnostic d => some d

/-- Compiles one zone, giving it a token. -/
def buildZone (parsed : Parsed) (name : String) (record : ZoneRecord) (token : Nat) : Built :=
  match record.compile name parsed.tables.rules with
  | .ok zone => .zone name { token, zone }
  | .error fault =>
    .diagnostic
      { fault, file := parsed.zoneFile? name, line := some record.line, zone := some name }

/-- Compiles the selected zones in the order of the sources. -/
def buildZones (parsed : Parsed) (selection : Selection) : List Built :=
  (parsed.tables.zones.filter fun (name, _) => selection.contains name).zipIdx.map
    fun ((name, record), token) => buildZone parsed name record token

/-- The diagnostic for an alias that is left out. -/
def aliasDiagnostic (parsed : Parsed) (name : String) (link : Link) (fault : Fault)
    : Diagnostic :=
  { fault, file := parsed.linkFile? name, line := some link.line, zone := some name }

/-- Whether an alias leads to a zone that is not selected. -/
def leadsElsewhere (parsed : Parsed) (selection : Selection) (name : String) : Bool :=
  match Link.resolveTarget parsed.tables.links name with
  | .ok target => !selection.contains target
  | .error _ => false

/-- Resolves one alias among the compiled zones. An alias with the name of a zone is left out, and
one that leads to a zone that is not selected is passed over. -/
def buildAlias (parsed : Parsed) (selection : Selection) (zones : ZoneIndex) (name : String)
    (link : Link) : Option Built :=
  if parsed.tables.zones.contains name then
    let error := { line := link.line, fault := .duplicateName name }
    some (.diagnostic (aliasDiagnostic parsed name link (.malformedRecord error)))
  else if leadsElsewhere parsed selection name then none
  else
    match Link.resolve parsed.tables.links zones.get? name with
    | .ok shared => some (.zone name shared)
    | .error fault => some (.diagnostic (aliasDiagnostic parsed name link fault))

/-- Resolves the aliases in the order of the sources. -/
def buildAliases (parsed : Parsed) (selection : Selection) (zones : ZoneIndex) : List Built :=
  parsed.tables.links.filterMap fun (name, link) => buildAlias parsed selection zones name link

/-- Compiles parsed sources. The diagnostics of parsing come first, then those of the requests, of
the zones and of the links. -/
def compileParsed (options : Options) (parsed : Parsed) (sources : Nat)
    (diagnostics : List Diagnostic) : ZoneIndex × Report :=
  let selection := Selection.ofOptions parsed.tables options
  let compiled := buildZones parsed selection
  let zones := builtZones compiled
  let resolved := buildAliases parsed selection zones
  let aliases := builtZones resolved
  (Table.sorted (zones ++ aliases),
    { sources
      zones := zones.length
      links := aliases.length
      diagnostics :=
        diagnostics ++ selection.diagnostics ++ builtDiagnostics compiled ++
          builtDiagnostics resolved })

/-- The counts of the merged records. -/
def parsedMessage (sources : Nat) (tables : Tables) : Message :=
  { severity := .info
    content :=
      s!"Parsed {sources} sources: {tables.rules.length} rule sets, " ++
        s!"{tables.zones.length} zones, {tables.links.length} links." }

/-- Builds the sources. -/
def run (options : Options) (sources : Sources) : Output :=
  let (parsed, diagnostics) := parse sources
  let (index, report) := compileParsed options parsed sources.length diagnostics
  { index, report, messages := parsedMessage sources.length parsed.tables :: report.messages }

end CivilTime.Build
