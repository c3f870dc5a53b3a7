import CivilTime.CommandLine.Run
import CivilTime.Proofs.Files.Tree

/-! What commands do to the files of a tree.
Sources and artifacts are only read. A compilation that succeeds has written one file, from which
the artifact of its build is loaded back, and any other command leaves the tree as it is.
-/

namespace CivilTime

namespace FileTree

variable {α β : Type}

/-- A program that changes no file. -/
def ReadsOnly (program : StateM FileTree α) : Prop := ∀ tree, (program.run tree).2 = tree

theorem ReadsOnly.pure (value : α) : ReadsOnly (pure value) := fun _ => rfl

theorem ReadsOnly.bind {program : StateM FileTree α} {rest : α → StateM FileTree β}
    (first : ReadsOnly program) (later : ∀ value, ReadsOnly (rest value))
    : ReadsOnly (program >>= rest) := by
  intro tree
  change ((rest (program.run tree).1).run (program.run tree).2).2 = tree
  rw [later, first]

/-- A program that reads only has its rest run on the same tree. -/
theorem ReadsOnly.run_bind {program : StateM FileTree α} (first : ReadsOnly program)
    (rest : α → StateM FileTree β) (tree : FileTree)
    : (program >>= rest).run tree = (rest (program.run tree).1).run tree := by
  change (rest (program.run tree).1).run (program.run tree).2 = _
  rw [first]

theorem readsOnly_readBytes (path : String) : ReadsOnly (access.readBytes path) := fun _ => rfl

theorem readsOnly_isFile (path : String) : ReadsOnly (access.isFile path) := fun _ => rfl

theorem readsOnly_isDirectory (path : String) : ReadsOnly (access.isDirectory path) := fun _ => rfl

theorem readsOnly_readText (path : String) : ReadsOnly (access.readText path) := by
  refine (readsOnly_readBytes path).bind fun outcome => ?_
  cases outcome with
  | error error => exact .pure _
  | ok bytes =>
      dsimp only
      cases Text.decode? bytes <;> exact .pure _

/-- A write changes the tree if it succeeds. -/
theorem run_writeBytes (tree : FileTree) (path : String) (bytes : List UInt8)
    : (access.writeBytes path bytes).run tree
      = match tree.write path bytes with
        | .ok after => (.ok (), after)
        | .error error => (.error error, tree) := by
  rw [access, StateT.run_bind, StateT.run_get, pure_bind]
  cases tree.write path bytes <;> rfl

end FileTree

open FileTree (ReadsOnly access)

namespace Build

/-- Reading files changes none, by induction on their paths. -/
theorem readsOnly_addFiles (sources : Sources) (paths : List String)
    : ReadsOnly (addFiles access sources paths) := by
  induction paths generalizing sources with
  | nil => exact .pure _
  | cons path rest ih =>
      refine (FileTree.readsOnly_readText path).bind fun outcome => ?_
      cases outcome with
      | error error => exact .pure _
      | ok contents => exact ih _

/-- Looking for files changes none, by induction on their paths. -/
theorem readsOnly_allFiles (paths : List String) : ReadsOnly (allFiles access paths) := by
  induction paths with
  | nil => exact .pure _
  | cons path rest ih =>
      refine (FileTree.readsOnly_isFile path).bind fun found => ?_
      cases found with
      | false => exact .pure _
      | true => exact ih

theorem readsOnly_addPath (sources : Sources) (path : String)
    : ReadsOnly (addPath access sources path) := by
  refine (FileTree.readsOnly_isDirectory path).bind fun directory => ?_
  cases directory with
  | false => exact readsOnly_addFiles sources [path]
  | true =>
      refine (readsOnly_allFiles _).bind fun regions => ?_
      cases regions with
      | true => exact readsOnly_addFiles sources _
      | false =>
          refine (FileTree.readsOnly_isFile _).bind fun compact => ?_
          cases compact with
          | true => exact readsOnly_addFiles sources _
          | false => exact .pure _

end Build

theorem Atlas.readsOnly_load (path : String) : ReadsOnly (Atlas.load access path) := by
  refine (FileTree.readsOnly_readBytes path).bind fun outcome => ?_
  cases outcome <;> exact .pure _

/-- An artifact is loaded from the bytes of its file. -/
theorem Atlas.run_load {tree : FileTree} {path : String} {bytes : List UInt8}
    (stored : tree.read path = .ok bytes)
    : (Atlas.load access path).run tree = (Atlas.ofBytes bytes, tree) := by
  have bytes_read : (access.readBytes path).run tree = (tree.read path, tree) := rfl
  rw [Atlas.load, StateT.run_bind, bytes_read, stored]
  rfl

namespace CommandLine

/-- Reading the inputs changes no file, by induction on them. -/
theorem readsOnly_readInputs (sources : Build.Sources) (paths : List String)
    : ReadsOnly (readInputs access sources paths) := by
  induction paths generalizing sources with
  | nil => exact .pure _
  | cons path rest ih =>
      refine (Build.readsOnly_addPath sources path).bind fun outcome => ?_
      obtain ⟨sources, outcome⟩ := outcome
      cases outcome with
      | error error => exact .pure _
      | ok added => exact ih sources

theorem readsOnly_withAtlas (verbosity : Nat) (artifact : String)
    (query : Atlas → List Output × Except QueryError Unit)
    : ReadsOnly (withAtlas access verbosity artifact query) := by
  refine (Atlas.readsOnly_load artifact).bind fun outcome => ?_
  cases outcome <;> exact .pure _

/-- The artifact of a build is written as a whole, or the tree is left as it is. -/
theorem run_writeTo (built : Build.Output) (path : String) (tree : FileTree)
    : (built.writeTo access path).run tree
      = match tree.write path built.bytes with
        | .ok after => (.ok built.bytes.length, after)
        | .error error => (.error error, tree) := by
  rw [Build.Output.writeTo, StateT.run_bind, FileTree.run_writeBytes]
  cases tree.write path built.bytes <;> rfl

/-- Sources are built into an artifact that is written, or the build fails and leaves the tree as it
is. -/
theorem run_buildSources (verbosity : Nat) (sources : Build.Sources) (options : Build.Options)
    (output : String) (strict : Bool) (tree : FileTree)
    : ∃ outcome after,
        (buildSources access verbosity sources options output strict).run tree = (outcome, after)
        ∧ ((outcome.code = success
            ∧ tree.write output (Build.run options sources).bytes = .ok after)
          ∨ (outcome.code = failure ∧ after = tree)) := by
  unfold buildSources
  dsimp only
  split
  · exact ⟨_, _, rfl, .inr ⟨rfl, rfl⟩⟩
  · rw [StateT.run_bind, run_writeTo]
    cases wrote : tree.write output (Build.run options sources).bytes with
    | ok after => exact ⟨_, after, rfl, .inl ⟨rfl, rfl⟩⟩
    | error error => exact ⟨_, tree, rfl, .inr ⟨rfl, rfl⟩⟩

/-- The options of a compilation. -/
def buildOptions (serial : Bool) (zones : List String) : Build.Options :=
  { parallel := !serial, requested := if zones.isEmpty then none else some zones }

/-- A compilation has read its sources from a tree and has written the artifact of their build. The
artifact is loaded back from its path, and the paths that lead elsewhere read the files that they
have read. -/
structure Compiled (inputs : List String) (output : String) (options : Build.Options)
    (sources : Build.Sources) (tree after : FileTree) : Prop where
  read : ((readInputs access [] inputs).run tree).1 = .ok sources
  loads
    : (Atlas.load access output).run after
      = (Atlas.ofBytes (Build.run options sources).bytes, after)
  elsewhere
    : ∀ other,
        ¬ tree.Together output other
        → ∀ found, after.read other = .ok found ↔ tree.read other = .ok found

/-- A compilation writes the artifact of what it has read, or fails and leaves the tree as it is. -/
theorem run_compile (verbosity : Nat) (inputs : List String) (output : String) (serial : Bool)
    (zones : List String) (strict : Bool) (tree : FileTree)
    : ∃ outcome after,
        (runCommand access verbosity (.compile inputs output serial zones strict)).run tree
          = (outcome, after)
        ∧ ((outcome.code = success
            ∧ ∃ sources, Compiled inputs output (buildOptions serial zones) sources tree after)
          ∨ (outcome.code = failure ∧ after = tree)) := by
  rw [runCommand, (readsOnly_readInputs [] inputs).run_bind]
  cases read : ((readInputs access [] inputs).run tree).1 with
  | error error => exact ⟨_, tree, rfl, .inr ⟨rfl, rfl⟩⟩
  | ok sources =>
      obtain ⟨outcome, after, built, ended⟩ :=
        run_buildSources verbosity sources (buildOptions serial zones) output strict tree
      refine ⟨outcome, after, built, ended.imp_left ?_⟩
      intro ⟨succeeded, wrote⟩
      exact ⟨succeeded, sources, {
        read
        loads := Atlas.run_load (FileTree.read_written wrote)
        elsewhere := fun other => (FileTree.read_after_write wrote other).2
      }⟩

/-- Whatever the arguments of the program are, it changes no file but the output of a compilation
that succeeds. -/
theorem run_files (arguments : List String) (tree : FileTree)
    : ∃ outcome after,
        (run access arguments).run tree = (outcome, after)
        ∧ (after = tree
          ∨ ∃ verbosity inputs output serial zones strict sources,
              parse arguments
                = .ok { verbosity, command := .compile inputs output serial zones strict }
              ∧ outcome.code = success
              ∧ Compiled inputs output (buildOptions serial zones) sources tree after) := by
  unfold run
  split
  case h_1 invocation parsed =>
    obtain ⟨verbosity, command⟩ := invocation
    cases command with
    | compile inputs output serial zones strict =>
        obtain ⟨outcome, after, ran, ended⟩ :=
          run_compile verbosity inputs output serial zones strict tree
        refine ⟨outcome, after, ran, ?_⟩
        rcases ended with ⟨succeeded, sources, compiled⟩ | ⟨_, same⟩
        · exact .inr ⟨verbosity, inputs, output, serial, zones, strict, sources, parsed, succeeded,
            compiled⟩
        · exact .inl same
    | lookup artifact zone subject choice =>
        exact ⟨_, _, rfl, .inl (readsOnly_withAtlas verbosity artifact _ tree)⟩
    | dump artifact zone =>
        exact ⟨_, _, rfl, .inl (readsOnly_withAtlas verbosity artifact _ tree)⟩
  all_goals exact ⟨_, tree, rfl, .inl rfl⟩

end CommandLine

end CivilTime
