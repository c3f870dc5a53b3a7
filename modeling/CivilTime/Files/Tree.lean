import CivilTime.Files.Access

/-! A tree of files in memory.
Paths are relative to its root. A path is followed part by part, so every part in front of a `..`
has to be a directory that exists, and nothing outside of the root is found.
-/

namespace CivilTime

/-- A file with its bytes, or a directory. -/
inductive FileNode where
  | file (bytes : List UInt8)
  | directory
  deriving DecidableEq, Repr, Inhabited

/-- The nodes below the root by the parts of their paths. -/
abbrev FileTree := List (List String × FileNode)

namespace FileTree

/-- The node at a place, the root being a directory. -/
def nodeAt? (tree : FileTree) (place : List String) : Option FileNode :=
  if place.isEmpty then some .directory else List.lookup place tree

/-- Sets the node at a place. -/
def put (place : List String) (node : FileNode) : FileTree → FileTree
  | [] => [(place, node)]
  | (other, old) :: rest =>
    if other = place then (place, node) :: rest else (other, old) :: put place node rest

/-- Makes the directories that lead from a place down the given parts. -/
def makeDirectories (place : List String) : List String → FileTree → FileTree
  | [], tree => tree
  | part :: rest, tree =>
    let place := place ++ [part]
    let tree := if (tree.nodeAt? place).isSome then tree else tree.put place .directory
    makeDirectories place rest tree

/-- The parts of a path. -/
def parts (path : String) : List String :=
  (path.toList.splitOnP (· == '/')).map String.ofList

/-- Adds a file, or an empty directory where no bytes are given, and all that leads to it. -/
def plant (tree : FileTree) (path : String) (bytes : Option (List UInt8)) : FileTree :=
  let place := parts path
  match bytes with
  | none => makeDirectories [] place tree
  | some bytes => (makeDirectories [] place.dropLast tree).put place (.file bytes)

/-- What a path leads to. -/
inductive Target where
  | found (place : List String) (node : FileNode)
  /-- Nothing stands at the place, whose directory exists. -/
  | vacant (place : List String)
  /-- As before, but the path asks for a directory. -/
  | vacantDirectory
  | failed (error : FileError)
  deriving Repr, Inhabited

/-- Follows the parts of a path from a directory. -/
def followFrom (tree : FileTree) (place : List String) : List String → Target
  | [] => .found place .directory
  | part :: rest =>
    if part = "" ∨ part = "." then followFrom tree place rest
    else if part = ".." then
      if place.isEmpty then .failed .notFound else followFrom tree place.dropLast rest
    else
      let next := place ++ [part]
      match tree.nodeAt? next with
      | some .directory => followFrom tree next rest
      | some (.file bytes) =>
        if rest.isEmpty then .found next (.file bytes) else .failed .notDirectory
      | none =>
        if rest.isEmpty then .vacant next
        else if rest.all (·.isEmpty) then .vacantDirectory
        else .failed .notFound

/-- Follows a path from the root. -/
def follow (tree : FileTree) (path : String) : Target :=
  if path.isEmpty || path.toList.head? == some '/' then .failed .notFound
  else followFrom tree [] (parts path)

/-- Whether a path leads to a directory. -/
def isDirectory (tree : FileTree) (path : String) : Bool :=
  match tree.follow path with
  | .found _ .directory => true
  | _ => false

/-- Whether a path leads to a file. -/
def isFile (tree : FileTree) (path : String) : Bool :=
  match tree.follow path with
  | .found _ (.file _) => true
  | _ => false

/-- The bytes of a file. -/
def read (tree : FileTree) (path : String) : Except FileError (List UInt8) :=
  match tree.follow path with
  | .found _ (.file bytes) => .ok bytes
  | .found _ .directory => .error .isDirectory
  | .failed error => .error error
  | _ => .error .notFound

/-- The tree with a file written to a path. -/
def write (tree : FileTree) (path : String) (bytes : List UInt8) : Except FileError FileTree :=
  match tree.follow path with
  | .found place (.file _) => .ok (tree.put place (.file bytes))
  | .vacant place => .ok (tree.put place (.file bytes))
  | .found _ .directory => .error .isDirectory
  | .vacantDirectory => .error .isDirectory
  | .failed error => .error error

/-- The files of a tree that is carried along. -/
def access : FileAccess (StateM FileTree) where
  isDirectory path := do return (← get).isDirectory path
  isFile path := do return (← get).isFile path
  readBytes path := do return (← get).read path
  writeBytes path bytes := do
    match (← get).write path bytes with
    | .ok tree => do
      set tree
      pure (.ok ())
    | .error error => pure (.error error)

end FileTree

end CivilTime
