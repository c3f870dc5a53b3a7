import CivilTime.Build.Sources
import CivilTime.Proofs.Source.Tables

/-! The merged records of the sources of a build pass the checks of their readers. -/

namespace CivilTime.Build

variable {p : Parsed}

/-- Merging the records of a file keeps the checks. -/
theorem Parsed.checked_addFile (checked : p.tables.Checked) (file : SourceFile)
    : (p.addFile file).1.tables.Checked :=
  (checked.extend ((Tables.checked_ofText file.contents).withErrors [])).withErrors []

/-- Merging the records of files keeps the checks, by induction on the files. -/
theorem Parsed.checked_addAll (checked : p.tables.Checked) (files : Sources)
    : (p.addAll files).1.tables.Checked := by
  induction files generalizing p with
  | nil => exact checked
  | cons file rest ih => exact ih (p.checked_addFile checked file)

/-- The merged records of the sources pass their checks. -/
theorem parse_checked (sources : Sources) : (parse sources).1.tables.Checked :=
  Parsed.checked_addAll Tables.Checked.empty sources

end CivilTime.Build
