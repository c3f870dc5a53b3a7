import CivilTime.Fault

/-! Reports of a build: what was built, and what was left out and why. -/

namespace CivilTime.Build

/-- A fault together with where it was found. -/
structure Diagnostic where
  fault : Fault
  /-- The source file, where the fault can be traced to one. -/
  file : Option String
  /-- The line, where the fault can be traced to one. -/
  line : Option Nat
  /-- The zone or alias that was left out. -/
  zone : Option String
  deriving DecidableEq, Repr, Inhabited

namespace Diagnostic

/-- A fault at the line it names, if it names one. -/
def ofFault (fault : Fault) : Diagnostic :=
  { fault
    file := none
    line :=
      match fault with
      | .malformedRecord error => some error.line
      | _ => none
    zone := none }

/-- A refused line of a file. -/
def ofLine (file : String) (error : LineError) : Diagnostic :=
  { ofFault (.malformedRecord error) with file := some file }

/-- The file and the line in front of a message. -/
def placeText (d : Diagnostic) : String :=
  match d.file, d.line with
  | some file, some line => s!"{file}:{line}: "
  | some file, none => s!"{file}: "
  | none, some line => s!"line {line}: "
  | none, none => ""

/-- The zone in front of a message. -/
def zoneText (d : Diagnostic) : String :=
  match d.zone with
  | some zone => s!"[{zone}] "
  | none => ""

/-- The wording of a diagnostic. -/
def text (d : Diagnostic) : String := d.placeText ++ d.zoneText ++ d.fault.message

end Diagnostic

/-- The weight of a message. -/
inductive Severity where
  | error
  | warning
  | info
  | debug
  deriving DecidableEq, Repr, Inhabited

/-- The word for a severity. -/
def Severity.text : Severity → String
  | error => "ERROR"
  | warning => "WARN"
  | info => "INFO"
  | debug => "DEBUG"

/-- A message about the progress of a program. -/
structure Message where
  severity : Severity
  content : String
  deriving DecidableEq, Repr, Inhabited

/-- A message with its severity in front. -/
def Message.text (m : Message) : String := m.severity.text ++ " " ++ m.content

/-- The outcome of a build apart from the zones. -/
structure Report where
  sources : Nat
  zones : Nat
  links : Nat
  diagnostics : List Diagnostic
  deriving DecidableEq, Repr, Inhabited

namespace Report

/-- Nothing built. -/
def empty : Report := { sources := 0, zones := 0, links := 0, diagnostics := [] }

/-- Whether nothing was left out. -/
def isClean (r : Report) : Bool := r.diagnostics.isEmpty

/-- The counts of a report in one line. -/
def text (r : Report) : String :=
  s!"{r.zones} zones, {r.links} links, {r.diagnostics.length} diagnostics"

/-- The summary of a report. -/
def summary (r : Report) : Message :=
  { severity := .info
    content :=
      s!"Compiled {r.zones} zones and {r.links} links from {r.sources} sources " ++
        s!"with {r.diagnostics.length} diagnostics." }

/-- The summary and every diagnostic as messages. -/
def messages (r : Report) : List Message :=
  r.summary :: r.diagnostics.map fun d => { severity := .warning, content := d.text }

end Report

end CivilTime.Build
