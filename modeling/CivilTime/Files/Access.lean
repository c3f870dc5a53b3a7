import CivilTime.Text.Utf8

/-! Access to files, as far as sources and artifacts need it.
The operations work in any monad, so that the same program runs on the files of the machine and on a
tree of files in memory.
-/

namespace CivilTime

/-- Why a file cannot be read or written. -/
inductive FileError where
  | notFound
  | isDirectory
  /-- A part of the path in front of the last one is no directory. -/
  | notDirectory
  | notUtf8
  /-- A directory holds no sources of the database. -/
  | noSources (path : String)
  /-- A failure that only the machine can describe. -/
  | other (description : String)
  deriving DecidableEq, Repr, Inhabited

/-- The wording of a failure. -/
def FileError.message : FileError → String
  | notFound => "No such file or directory (os error 2)"
  | isDirectory => "Is a directory (os error 21)"
  | notDirectory => "Not a directory (os error 20)"
  | notUtf8 => "stream did not contain valid UTF-8"
  | noSources path => s!"{path} is not a tzdata directory"
  | other description => description

/-- The operations on files that programs of the library use. -/
structure FileAccess (m : Type → Type) where
  isDirectory : String → m Bool
  isFile : String → m Bool
  readBytes : String → m (Except FileError (List UInt8))
  writeBytes : String → List UInt8 → m (Except FileError Unit)

namespace FileAccess

/-- Reads a file as text. -/
def readText [Monad m] (files : FileAccess m) (path : String)
    : m (Except FileError String) := do
  match ← files.readBytes path with
  | .error error => pure (.error error)
  | .ok bytes =>
    match Text.decode? bytes with
    | some text => pure (.ok text)
    | none => pure (.error .notUtf8)

end FileAccess

/-- The path of a file in a directory. -/
def pathIn (directory file : String) : String :=
  if directory.isEmpty || directory.toList.getLast? == some '/' then directory ++ file
  else directory ++ "/" ++ file

end CivilTime
