import CivilTime.Files.Tree

/-! A file that has been written to a tree is read back, and no other file changes.
A path can be written to if it leads to a file or to a vacant place. Directories stay what they are,
so what led to a file before does so behind the write, and what leads to one behind it led to the
same place before. A file that a tree is set up with is read as well, if its path names it and all
directories on the way.
-/

namespace CivilTime.FileTree

/-- The place that a path leads to if a file stands there or can be put there. -/
def Target.place? : Target → Option (List String)
  | .found place (.file _) => some place
  | .vacant place => some place
  | .found _ .directory | .vacantDirectory | .failed _ => none

/-- Two paths lead to one place, where a file stands or can be put. -/
def Together (tree : FileTree) (path other : String) : Prop :=
  ∃ place, (tree.follow path).place? = some place ∧ (tree.follow other).place? = some place

/-- What a path leads to in front of a write and behind it. A path through a vacant place meets the
file that is put there, which is no directory. -/
inductive Rewritten (spot : List String) (bytes : List UInt8) : Target → Target → Prop where
  | written {target : Target} (leads : target.place? = some spot)
    : Rewritten spot bytes target (.found spot (.file bytes))
  | kept {target : Target} (elsewhere : target.place? ≠ some spot)
    : Rewritten spot bytes target target
  | through : Rewritten spot bytes (.failed .notFound) (.failed .notDirectory)
  | throughLast : Rewritten spot bytes .vacantDirectory (.failed .notDirectory)

variable {tree after : FileTree} {place spot steps : List String} {node : FileNode}
  {path other : String} {bytes found : List UInt8}

-----------------------------------------------------------------------------------------
-- Nodes
-----------------------------------------------------------------------------------------

/-- A node that has been put is the entry of its place, by induction on the tree. -/
theorem lookup_put (tree : FileTree) (spot : List String) (node : FileNode) (place : List String)
    : List.lookup place (tree.put spot node)
      = if place = spot then some node else List.lookup place tree := by
  induction tree with
  | nil =>
      rw [put, List.lookup_cons, List.lookup_nil]
      by_cases same : place = spot
      · simp [same]
      · rw [beq_false_of_ne same, if_neg same]
  | cons entry rest ih =>
      obtain ⟨stands, old⟩ := entry
      unfold put
      split
      case isTrue replaced =>
        subst replaced
        rw [List.lookup_cons, List.lookup_cons]
        by_cases same : place = stands
        · simp [same]
        · rw [beq_false_of_ne same, if_neg same]
      case isFalse kept =>
        rw [List.lookup_cons, List.lookup_cons, ih]
        by_cases same : place = stands
        · simp [same, kept]
        · rw [beq_false_of_ne same]

/-- A node that has been put below the root is found in its place, and all others are found as
before. -/
theorem nodeAt?_put (below : spot ≠ []) (tree : FileTree) (node : FileNode) (place : List String)
    : (tree.put spot node).nodeAt? place
      = if place = spot then some node else tree.nodeAt? place := by
  unfold nodeAt?
  cases place with
  | nil =>
      rw [if_neg below.symm]
      rfl
  | cons part rest => exact lookup_put tree spot node (part :: rest)

/-- A place without a directory is below the root. -/
theorem ne_nil_of_nodeAt?_ne (free : tree.nodeAt? spot ≠ some .directory) : spot ≠ [] := by
  rintro rfl
  exact free rfl

-----------------------------------------------------------------------------------------
-- Paths
-----------------------------------------------------------------------------------------

/-- No directory stands where a file does or can be put. The induction follows the path. -/
theorem nodeAt?_ne_directory (leads : (tree.followFrom place steps).place? = some spot)
    : tree.nodeAt? spot ≠ some .directory := by
  fun_induction followFrom tree place steps with
  | case1 | case3 | case7 | case9 | case10 => cases leads
  | case2 _ _ _ _ ih | case4 _ _ _ _ ih | case5 _ _ _ _ _ _ _ ih => exact ih leads
  | case6 _ _ _ _ _ _ _ node_eq | case8 _ _ _ _ _ _ node_eq =>
      obtain rfl := Option.some.inj leads
      simp [node_eq]

/-- What the paths lead to behind a write. The induction follows the path, and each part of it that
is looked up stands where the file is put, or finds what it did. -/
theorem followFrom_put (free : tree.nodeAt? spot ≠ some .directory)
    : Rewritten spot bytes (tree.followFrom place steps)
        ((tree.put spot (.file bytes)).followFrom place steps) := by
  have below := ne_nil_of_nodeAt?_ne free
  fun_induction followFrom tree place steps with
  | case1 => exact .kept nofun
  | case2 place part rest skipped ih =>
      rw [followFrom, if_pos skipped]
      exact ih
  | case3 place rest at_root named =>
      rw [followFrom, if_neg named, if_pos rfl, if_pos at_root]
      exact .kept nofun
  | case4 place rest deeper named ih =>
      rw [followFrom, if_neg named, if_pos rfl, if_neg deeper]
      exact ih
  | case5 place part rest named inside next node_eq ih =>
      have other : next ≠ spot := fun same => free (same ▸ node_eq)
      rw [followFrom, if_neg named, if_neg inside]
      simp only [nodeAt?_put below, if_neg other, node_eq, next]
      exact ih
  | case6 place part rest named inside next _ node_eq last
  | case8 place part rest named inside next node_eq last =>
      rw [followFrom, if_neg named, if_neg inside]
      by_cases same : next = spot
      · simp only [nodeAt?_put below, next, same, if_true, last]
        exact .written rfl
      · simp only [nodeAt?_put below, if_neg same, node_eq, next, last, if_true]
        exact .kept (by simpa [Target.place?] using same)
  | case7 place part rest named inside next old node_eq more =>
      rw [followFrom, if_neg named, if_neg inside]
      by_cases same : next = spot
      · simp only [nodeAt?_put below, next, same, if_true, if_neg more]
        exact .kept nofun
      · simp only [nodeAt?_put below, if_neg same, node_eq, next, if_neg more]
        exact .kept nofun
  | case9 place part rest named inside next node_eq more ending =>
      rw [followFrom, if_neg named, if_neg inside]
      by_cases same : next = spot
      · simp only [nodeAt?_put below, next, same, if_true, if_neg more]
        exact .throughLast
      · simp only [nodeAt?_put below, if_neg same, node_eq, next, if_neg more, if_pos ending]
        exact .kept nofun
  | case10 place part rest named inside next node_eq more going =>
      rw [followFrom, if_neg named, if_neg inside]
      by_cases same : next = spot
      · simp only [nodeAt?_put below, next, same, if_true, if_neg more]
        exact .through
      · simp only [nodeAt?_put below, if_neg same, node_eq, next, if_neg more, if_neg going]
        exact .kept nofun

-----------------------------------------------------------------------------------------
-- Writes
-----------------------------------------------------------------------------------------

variable {target result : Target}

/-- What leads to the place of a write leads to the file behind it. -/
theorem Rewritten.eq_found (rewritten : Rewritten spot bytes target result)
    (leads : target.place? = some spot)
    : result = .found spot (.file bytes) := by
  cases rewritten with
  | written => rfl
  | kept elsewhere => exact absurd leads elsewhere
  | through | throughLast => cases leads

/-- What leads elsewhere leads to the same files as before. -/
theorem Rewritten.eq_found_iff (rewritten : Rewritten spot bytes target result)
    (elsewhere : target.place? ≠ some spot)
    : result = .found place (.file found) ↔ target = .found place (.file found) := by
  cases rewritten with
  | written leads => exact absurd leads elsewhere
  | kept => rfl
  | through | throughLast => exact iff_of_false nofun nofun

/-- What a path leads to from the root behind a write. -/
theorem follow_put (free : tree.nodeAt? spot ≠ some .directory) (path : String)
    : Rewritten spot bytes (tree.follow path) ((tree.put spot (.file bytes)).follow path) := by
  unfold follow
  split
  · exact .kept nofun
  · exact followFrom_put free

/-- A write puts the file to the place that its path leads to. -/
theorem write_eq_ok_iff
    : tree.write path bytes = .ok after
      ↔ ∃ spot, (tree.follow path).place? = some spot ∧ after = tree.put spot (.file bytes) := by
  unfold write
  split <;> rename_i target_eq <;> simp [target_eq, Target.place?, eq_comm]

/-- A file is read if a path leads to it. -/
theorem read_eq_ok_iff
    : tree.read path = .ok found ↔ ∃ place, tree.follow path = .found place (.file found) := by
  unfold read
  split
  case h_4 no_file _ _ =>
    exact iff_of_false nofun fun ⟨place, target_eq⟩ => no_file place found target_eq
  all_goals
    rename_i target_eq
    simp [target_eq]

/-- No directory stands where a path from the root leads to a file or to a vacant place. -/
theorem nodeAt?_ne_directory_of_follow (leads : (tree.follow path).place? = some spot)
    : tree.nodeAt? spot ≠ some .directory := by
  unfold follow at leads
  split at leads
  · cases leads
  · exact nodeAt?_ne_directory leads

/-- Behind a write, the paths that lead to its place read what has been written, and all others read
the files that they have read. -/
theorem read_after_write (wrote : tree.write path bytes = .ok after) (other : String)
    : (tree.Together path other → after.read other = .ok bytes)
      ∧ (¬ tree.Together path other
        → ∀ found, after.read other = .ok found ↔ tree.read other = .ok found) := by
  obtain ⟨spot, leads, rfl⟩ := write_eq_ok_iff.mp wrote
  have rewritten : Rewritten spot bytes (tree.follow other) _ :=
    follow_put (nodeAt?_ne_directory_of_follow leads) other
  constructor
  · rintro ⟨place, also_leads, other_leads⟩
    obtain rfl := Option.some.inj (leads.symm.trans also_leads)
    exact read_eq_ok_iff.mpr ⟨spot, rewritten.eq_found other_leads⟩
  · intro apart found
    have elsewhere : (tree.follow other).place? ≠ some spot :=
      fun other_leads => apart ⟨spot, leads, other_leads⟩
    rw [read_eq_ok_iff, read_eq_ok_iff]
    exact exists_congr fun place => rewritten.eq_found_iff elsewhere

/-- What has been written is read back. -/
theorem read_written (wrote : tree.write path bytes = .ok after) : after.read path = .ok bytes := by
  obtain ⟨spot, leads, _⟩ := write_eq_ok_iff.mp wrote
  exact (read_after_write wrote path).1 ⟨spot, leads, leads⟩

-----------------------------------------------------------------------------------------
-- Files of a new tree
-----------------------------------------------------------------------------------------

/-- A part of a path that names what stands in a directory. -/
def Names (part : String) : Prop := part ≠ "" ∧ part ≠ "." ∧ part ≠ ".."

/-- No file stands on the way from a place down the given parts. -/
def Passable (tree : FileTree) (place steps : List String) : Prop :=
  ∀ front, front <+: steps → ∀ bytes, tree.nodeAt? (place ++ front) ≠ some (.file bytes)

variable {front rest : List String} {part : String}

/-- Making directories keeps the nodes that there are, by induction on the parts. -/
theorem nodeAt?_makeDirectories_of_some (stands : tree.nodeAt? spot = some node)
    : (makeDirectories place steps tree).nodeAt? spot = some node := by
  induction steps generalizing place tree with
  | nil => exact stands
  | cons part rest ih =>
      unfold makeDirectories
      dsimp only
      split
      case isTrue => exact ih stands
      case isFalse missing =>
        refine ih ?_
        have other : spot ≠ place ++ [part] := by
          rintro rfl
          simp [stands] at missing
        rw [nodeAt?_put (by simp), if_neg other]
        exact stands

/-- The first step of making directories: what stands in the place is a directory then, and the way
on from there is as free as before. -/
theorem passable_of_cons (passable : tree.Passable place (part :: rest))
    : let next := place ++ [part]
      let made := if (tree.nodeAt? next).isSome then tree else tree.put next .directory
      made.nodeAt? next = some .directory ∧ made.Passable next rest := by
  have onward (front : List String) (begins : front <+: rest) (bytes : List UInt8)
      : tree.nodeAt? (place ++ [part] ++ front) ≠ some (.file bytes) := by
    rw [List.append_assoc]
    exact passable _ (List.cons_prefix_cons.mpr ⟨rfl, begins⟩) bytes
  dsimp only
  split
  case isTrue stands =>
    refine ⟨?_, onward⟩
    obtain ⟨node, node_eq⟩ := Option.isSome_iff_exists.mp stands
    cases node with
    | directory => exact node_eq
    | file bytes => exact absurd node_eq (passable [part] (List.prefix_append [part] rest) bytes)
  case isFalse =>
    have below : place ++ [part] ≠ [] := by simp
    constructor
    · rw [nodeAt?_put below, if_pos rfl]
    · intro front begins bytes
      rw [nodeAt?_put below]
      split
      · nofun
      · exact onward front begins bytes

/-- The directories that lead down some parts are made, by induction on the parts. -/
theorem nodeAt?_makeDirectories (passable : tree.Passable place steps)
    (root : tree.nodeAt? place = some .directory) (begins : front <+: steps)
    : (makeDirectories place steps tree).nodeAt? (place ++ front) = some .directory := by
  induction steps generalizing place tree front with
  | nil =>
      obtain rfl := List.prefix_nil.mp begins
      simpa [makeDirectories] using root
  | cons part rest ih =>
      cases front with
      | nil =>
          rw [List.append_nil]
          exact nodeAt?_makeDirectories_of_some root
      | cons first later =>
          obtain ⟨rfl, later_begins⟩ := List.cons_prefix_cons.mp begins
          obtain ⟨made, onward⟩ := passable_of_cons passable
          have found := ih onward made later_begins
          rwa [List.append_assoc] at found

/-- Directories are followed part by part, by induction on the parts. -/
theorem followFrom_directories (named : ∀ part ∈ steps, Names part)
    (directories : ∀ front, front <+: steps → tree.nodeAt? (place ++ front) = some .directory)
    (rest : List String)
    : tree.followFrom place (steps ++ rest) = tree.followFrom (place ++ steps) rest := by
  induction steps generalizing place with
  | nil => simp
  | cons part steps ih =>
      obtain ⟨⟨some_name, not_here, not_up⟩, named⟩ := List.forall_mem_cons.mp named
      have here := directories [part] (List.prefix_append [part] steps)
      rw [List.cons_append, followFrom, if_neg (not_or.mpr ⟨some_name, not_here⟩), if_neg not_up]
      simp only [here]
      rw [ih named fun front begins => ?_, List.append_assoc]
      · rfl
      · rw [List.append_assoc]
        exact directories (part :: front) (List.cons_prefix_cons.mpr ⟨rfl, begins⟩)

/-- A path without parts of no text is followed from the root, since it neither is empty nor starts
with a slash. -/
theorem follow_of_names (named : ∀ part ∈ parts path, Names part)
    : tree.follow path = tree.followFrom [] (parts path) := by
  have relative : ¬ (path.isEmpty || path.toList.head? == some '/') = true := by
    intro absolute
    refine (named "" ?_).1 rfl
    unfold parts
    cases text : path.toList with
    | nil => simp
    | cons c rest =>
        have slash : c = '/' := by
          simpa [← String.toList_eq_nil_iff, text] using absolute
        simp [List.splitOnP_cons_eq_if_modifyHead, slash]
  rw [follow, if_neg relative]

/-- A file that has been planted is read. Its path consists of names, on the way down which no other
file stands. -/
theorem read_plant (named : ∀ part ∈ parts path, Names part)
    (passable : tree.Passable [] (parts path).dropLast)
    : (tree.plant path (some bytes)).read path = .ok bytes := by
  refine read_eq_ok_iff.mpr ⟨parts path, ?_⟩
  rw [follow_of_names named, plant]
  have some_part : parts path ≠ [] := by simp [parts]
  obtain ⟨front, last, parts_eq⟩ : ∃ front last, parts path = front ++ [last] :=
    ⟨_, _, (List.dropLast_concat_getLast some_part).symm⟩
  rw [parts_eq] at named passable ⊢
  rw [List.dropLast_concat] at passable ⊢
  have below : front ++ [last] ≠ [] := by simp
  have directories (way : List String) (begins : way <+: front)
      : ((makeDirectories [] front tree).put (front ++ [last]) (.file bytes)).nodeAt? ([] ++ way)
        = some .directory := by
    have shorter : [] ++ way ≠ front ++ [last] := by
      intro same
      have := congrArg List.length same
      have := begins.length_le
      simp only [List.nil_append, List.length_append, List.length_singleton] at *
      omega
    rw [nodeAt?_put below, if_neg shorter]
    exact nodeAt?_makeDirectories passable rfl begins
  rw [followFrom_directories (fun part member => named part (by simp [member])) directories]
  obtain ⟨some_name, not_here, not_up⟩ := named last (by simp)
  rw [followFrom, if_neg (not_or.mpr ⟨some_name, not_here⟩), if_neg not_up]
  simp [nodeAt?_put below]

end CivilTime.FileTree
