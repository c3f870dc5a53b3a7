import CivilTime.Atlas.Basic
import CivilTime.Build.Run
import CivilTime.CommandLine.Arguments
import CivilTime.Zone.Document

/-! Commands and what they print.
What has been printed before a command fails stays printed. Messages go the way of the printed
lines, as far as the verbosity admits them.
-/

namespace CivilTime.CommandLine

open Build (Message Severity)

/-- A piece of output. -/
inductive Output where
  | line (text : String)
  | document (document : Document)
  | message (message : Message)
  deriving Repr, Inhabited

/-- How a command ended and what it printed. -/
structure Outcome where
  code : Nat
  output : List Output
  /-- The lines on the error stream. -/
  errors : List String
  /-- Why the command failed, which is said behind all else. -/
  reason : Option String
  deriving Repr, Inhabited

/-- The exit code of a program that did what it was asked. -/
def success : Nat := 0

/-- The exit code of a program that failed. -/
def failure : Nat := 1

/-- The exit code for arguments that make up no command. -/
def usageFailure : Nat := 2

/-- The verbosity from which messages of a severity are printed. -/
def minVerbosity : Severity → Nat
  | .error | .warning => 0
  | .info => 1
  | .debug => 2

/-- The messages that a verbosity admits. -/
def admitted (verbosity : Nat) (messages : List Message) : List Output :=
  (messages.filter fun m => minVerbosity m.severity ≤ verbosity).map .message

/-- The command ends well. -/
def succeed (output : List Output) : Outcome :=
  { code := success, output, errors := [], reason := none }

/-- The command fails. -/
def fail (output : List Output) (errors : List String) (reason : String) : Outcome :=
  { code := failure, output, errors, reason := some reason }

/-- The text of an optional boundary. -/
def boundaryText : Option Int → String
  | some instant => toString instant
  | none => "none"

/-- Prints the offset at an instant and the boundaries around it. -/
def lookupInstant (atlas : Atlas) (zone : String) (instant : Int)
    : List Output × Except QueryError Unit :=
  match atlas.offsetAt zone instant with
  | .error error => ([], .error error)
  | .ok info =>
    let saving := if info.isSaving then " (DST)" else ""
    let first :=
      .line s!"{zone} at {instant}: {offsetText info.offset} {info.abbreviation}{saving}"
    let neighbours := do
      let previous ← atlas.transition zone instant .previous
      let next ← atlas.transition zone instant .next
      pure (previous, next)
    match neighbours with
    | .error error => ([first], .error error)
    | .ok (previous, next) =>
      ([first, .line s!"previous transition: {boundaryText previous}",
        .line s!"next transition: {boundaryText next}"], .ok ())

/-- An instant and its offset. -/
def Resolved.text (r : Resolved) : String := s!"{r.instant} {offsetText r.offset}"

/-- The lines for the instants at which the clock shows a reading. -/
def candidateLines : Candidates → List Output
  | .skipped gap =>
    let range := s!"{offsetText gap.before} to {offsetText gap.after}"
    [.line s!"no candidates, gap from {range} at {gap.instant}"]
  | candidates => candidates.toList.map fun r => .line s!"candidate: {Resolved.text r}"

/-- Prints the instants at which the clock shows a date and time, and the one that is chosen. -/
def lookupLocal (atlas : Atlas) (zone : String) (time : LocalDateTime) (choice : Disambiguation)
    : List Output × Except QueryError Unit :=
  match atlas.candidates zone time with
  | .error error => ([], .error error)
  | .ok candidates =>
    let lines := candidateLines candidates
    match atlas.resolve zone time choice with
    | .error error => (lines, .error error)
    | .ok r => (lines ++ [.line s!"{choice.text}: {Resolved.text r}"], .ok ())

/-- Prints what there is to know about a subject. -/
def lookupSubject (atlas : Atlas) (zone : String) (choice : Disambiguation)
    : Subject → List Output × Except QueryError Unit
  | .instant instant => lookupInstant atlas zone instant
  | .localTime time => lookupLocal atlas zone time choice

/-- Prints a zone as a document. -/
def dumpZone (atlas : Atlas) (zone : String) : List Output × Except QueryError Unit :=
  let found := do
    let name ← atlas.normalize zone
    let compiled ← atlas.zone name
    pure (name, compiled)
  match found with
  | .error error => ([], .error error)
  | .ok (name, compiled) => ([.document (compiled.dump name)], .ok ())

/-- The outcome of a query. -/
def ofQuery (messages : List Output) : List Output × Except QueryError Unit → Outcome
  | (output, .ok ()) => succeed (messages ++ output)
  | (output, .error error) => fail (messages ++ output) [] error.message

/-- What is said about a loaded artifact. -/
def loadMessages (atlas : Atlas) : List Message :=
  let names := atlas.index.length
  let zones := names - atlas.index.repeated.length
  [{ severity := .debug, content := s!"Read {names} identifiers with {zones} distinct zones" },
    { severity := .debug, content := s!"Indexed {names} time zone identifiers" }]

section Running

variable {m : Type → Type} [Monad m] (files : FileAccess m)

/-- Runs a query on an artifact. -/
def withAtlas (verbosity : Nat) (artifact : String)
    (query : Atlas → List Output × Except QueryError Unit) : m Outcome := do
  match ← Atlas.load files artifact with
  | .error error => pure (fail [] [] s!"could not load {artifact}: {error.message}")
  | .ok atlas => pure (ofQuery (admitted verbosity (loadMessages atlas)) (query atlas))

/-- The failure for a file that cannot be used, which is told as a message too. -/
def failOnFile (verbosity : Nat) (printed : List Output) (use path : String) (error : FileError)
    : Outcome :=
  let message : Message :=
    { severity := .error, content := s!"Could not {use} {path}: {error.message}" }
  fail (printed ++ admitted verbosity [message]) [] s!"could not {use} {path}: {error.message}"

/-- Reads all inputs. -/
def readInputs (sources : Build.Sources)
    : List String → m (Except (String × FileError) Build.Sources)
  | [] => pure (.ok sources)
  | path :: rest => do
    match ← Build.addPath files sources path with
    | (_, .error error) => pure (.error (path, error))
    | (sources, .ok ()) => readInputs sources rest

/-- Builds sources and writes the artifact, unless a strict build left something out. -/
def buildSources (verbosity : Nat) (sources : Build.Sources) (options : Build.Options)
    (output : String) (strict : Bool) : m Outcome := do
  let built := Build.run options sources
  let count : Message :=
    { severity := .info, content := s!"Read {sources.length} source files." }
  let printed := admitted verbosity (count :: built.messages) ++ [.line built.report.text]
  let faults := built.report.diagnostics
  if strict && !built.report.isClean then
    pure (fail printed (faults.map (·.text))
      s!"{faults.length} diagnostics reported, no artifact was written")
  else
    match ← built.writeTo files output with
    | .error error => pure (failOnFile verbosity printed "write" output error)
    | .ok size =>
      let message : Message := { severity := .info, content := s!"Wrote {size} bytes to {output}." }
      pure (succeed
        (printed ++ admitted verbosity [message] ++ [.line s!"Wrote {size} bytes to {output}"]))

/-- Runs a command. -/
def runCommand (verbosity : Nat) : Command → m Outcome
  | .compile inputs output serial zones strict => do
    match ← readInputs files [] inputs with
    | .error (path, error) => pure (failOnFile verbosity [] "read" path error)
    | .ok sources =>
      let requested := if zones.isEmpty then none else some zones
      buildSources files verbosity sources { parallel := !serial, requested } output strict
  | .lookup artifact zone subject choice =>
    withAtlas files verbosity artifact (lookupSubject · zone choice subject)
  | .dump artifact zone => withAtlas files verbosity artifact (dumpZone · zone)

/-- A short description of the command line. -/
def usageLines : List String :=
  ["Usage: tzc compile INPUTS... -o OUTPUT [--serial] [--zone ID]... [--strict]",
    "       tzc lookup ARTIFACT ZONE (--instant SECONDS | --local TIME) [--disambiguation CHOICE]",
    "       tzc dump ARTIFACT ZONE"]

/-- The name and the version of the program. -/
def versionLine : String := "tzc 0.1.0"

/-- Runs the command that arguments make up. -/
def run (arguments : List String) : m Outcome :=
  match parse arguments with
  | .ok invocation => runCommand files invocation.verbosity invocation.command
  | .error (.notice .help) => pure (succeed (usageLines.map .line))
  | .error (.notice .version) => pure (succeed [.line versionLine])
  | .error .usage =>
    pure { code := usageFailure, output := [], errors := usageLines, reason := none }

end Running

end CivilTime.CommandLine
