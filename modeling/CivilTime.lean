import CivilTime.Main
import CivilTime.Proofs.Artifact.Accepted
import CivilTime.Proofs.Artifact.Rewriting
import CivilTime.Proofs.Artifact.Sharing
import CivilTime.Proofs.Atlas.LocalDateTime
import CivilTime.Proofs.Atlas.Names
import CivilTime.Proofs.Atlas.Resolution
import CivilTime.Proofs.Build.Accounts
import CivilTime.Proofs.Build.Definitions
import CivilTime.Proofs.Build.LinkReports
import CivilTime.Proofs.Build.Requests
import CivilTime.Proofs.Build.Splitting
import CivilTime.Proofs.Calendar.RuleDay
import CivilTime.Proofs.CommandLine.Files
import CivilTime.Proofs.Outcome
import CivilTime.Proofs.Rule.Candidates
import CivilTime.Proofs.Rule.LineStart
import CivilTime.Proofs.Rule.Order
import CivilTime.Proofs.Rule.Restart
import CivilTime.Proofs.Rule.Resumption
import CivilTime.Proofs.Rule.Season
import CivilTime.Proofs.Rule.Selection
import CivilTime.Proofs.Source.Accounts
import CivilTime.Proofs.Source.Containment
import CivilTime.Proofs.Zone.Anchor
import CivilTime.Proofs.Zone.Boundaries
import CivilTime.Proofs.Zone.LocalTime
import CivilTime.Proofs.Zone.Reading
import CivilTime.Proofs.Zone.Totality
import CivilTime.Proofs.Zone.Visible
import CivilTime.Proofs.Rule.Nearest
import CivilTime.Proofs.Machine.Arithmetic
import CivilTime.Proofs.Machine.Search
import CivilTime.Proofs.Rule.Merge
import CivilTime.Proofs.Machine.Compilation
import CivilTime.Proofs.Machine.Sources
import CivilTime.Proofs.Machine.Dates
import CivilTime.Proofs.Calendar.PickedDay
import CivilTime.Proofs.Zone.PosixReading
import CivilTime.Proofs.Zone.PosixText
import CivilTime.Proofs.Zone.Defects
import CivilTime.Proofs.Link.Reachability
import CivilTime.Proofs.Artifact.Truncation
import CivilTime.Proofs.Zone.Progress
import CivilTime.Proofs.Text.Keyword
import CivilTime.Proofs.Artifact.Groups
import CivilTime.Proofs.Atlas.RollOver
import CivilTime.Proofs.Source.ClockText
