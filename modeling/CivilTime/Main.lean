import CivilTime.CommandLine.Run

/-! The program: a compiler of time zone sources, and lookups in the artifacts it writes. -/

namespace CivilTime

/-- The failure of an operation on the files of the machine. -/
def fileError : IO.Error → FileError
  | .noFileOrDirectory .. => .notFound
  | .inappropriateType _ 21 _ => .isDirectory
  | .inappropriateType .. => .notDirectory
  | error => .other (toString error)

/-- Whether a file of the machine can be opened. -/
def canOpen (path : String) : IO Bool := do
  try
    let _ ← IO.FS.Handle.mk path .read
    pure true
  catch _ => pure false

/-- Whether a path leads to a directory, which has itself as an entry. -/
def opensAsDirectory (path : String) : IO Bool :=
  if path.isEmpty then pure false else canOpen (path ++ "/.")

/-- The files of the machine. -/
def machineFiles : FileAccess IO where
  isDirectory := opensAsDirectory
  isFile path := do
    if ← opensAsDirectory path then pure false else canOpen path
  readBytes path := do
    try
      let bytes ← IO.FS.readBinFile path
      pure (.ok bytes.toList)
    catch error => pure (.error (fileError error))
  writeBytes path bytes := do
    try
      IO.FS.writeBinFile path ⟨bytes.toArray⟩
      pure (.ok ())
    catch error => pure (.error (fileError error))

/-- Prints a piece of output. -/
def printOutput : CommandLine.Output → IO Unit
  | .line text => IO.println text
  | .document document => IO.println document.pretty
  | .message message => IO.println message.text

end CivilTime

/-- Runs the command that the arguments make up. -/
def main (arguments : List String) : IO UInt32 := do
  let outcome ← CivilTime.CommandLine.run CivilTime.machineFiles arguments
  outcome.output.forM CivilTime.printOutput
  outcome.errors.forM fun line => IO.eprintln line
  outcome.reason.forM fun reason => IO.eprintln s!"Error: {reason}"
  pure outcome.code.toUInt32
