import CivilTime.Atlas.Basic
import CivilTime.Proofs.Build.Artifact
import CivilTime.Proofs.Text.LowerCase

/-! The names of an atlas and the lookups that find them.
An atlas keeps its names as they are spelled, and looks them up by keys that forget the case of
ASCII letters. The last of the names with one key is found, and the others are out of reach.
-/

namespace CivilTime

/-- The last of the members of an increasing list that pass a test is the greatest of them. -/
theorem getLast?_filter_eq_some_iff {members : List String} (ordered : members.Pairwise (· < ·))
    (test : String → Bool) (last : String)
    : (members.filter test).getLast? = some last
      ↔ last ∈ members
        ∧ test last = true
        ∧ ∀ other ∈ members, test other = true → other ≤ last := by
  have greatest {found : String} (is_last : (members.filter test).getLast? = some found)
      : ∀ other ∈ members, test other = true → other ≤ found := by
    intro other member passes
    obtain ⟨front, split⟩ := List.getLast?_eq_some_iff.mp is_last
    have kept := List.mem_filter.mpr ⟨member, passes⟩
    have below := List.pairwise_append.mp (split ▸ ordered.filter test)
    rw [split] at kept
    rcases List.mem_append.mp kept with before | same
    · exact (below.2.2 other before found (List.mem_singleton_self _)).le
    · exact (List.mem_singleton.mp same).le
  constructor
  · intro is_last
    obtain ⟨member, passes⟩ := List.mem_filter.mp (List.mem_of_getLast? is_last)
    exact ⟨member, passes, greatest is_last⟩
  · rintro ⟨member, passes, above⟩
    have nonempty : (members.filter test).getLast?.isSome := by
      rw [List.getLast?_isSome]
      exact List.ne_nil_of_mem (List.mem_filter.mpr ⟨member, passes⟩)
    obtain ⟨found, is_last⟩ := Option.isSome_iff_exists.mp nonempty
    obtain ⟨found_member, found_passes⟩ := List.mem_filter.mp (List.mem_of_getLast? is_last)
    have same := le_antisymm (above found found_member found_passes)
      (greatest is_last last member passes)
    rw [is_last, same]

namespace NameLookup

variable {names : List String} {key name : String} {position : Nat}

/-- The builder refuses keys exactly if they are not all ASCII. -/
def Builder.TakesAscii (build : Builder) : Prop :=
  ∀ keys, (build keys).isSome = keys.names.all isAscii

/-- What is built finds the positions of the keys in lower case that bytes spell, and no others. -/
def Builder.FindsKeys (build : Builder) : Prop :=
  ∀ {keys lookup}, build keys = some lookup → keys.names.Pairwise (· < ·)
    → (∀ key ∈ keys.names, Text.lowercase key = key)
    → ∀ bytes position,
      lookup bytes = some position
        ↔ ∃ key, (key, position) ∈ keys ∧ Text.encode key = bytes.map Text.foldByte

theorem ascii_takesAscii : Builder.TakesAscii ascii := by
  intro keys
  rw [ascii]
  split
  case isTrue all => rw [all, Option.isSome_some]
  case isFalse some_other => rw [Bool.eq_false_of_not_eq_true some_other, Option.isSome_none]

theorem ascii_findsKeys : Builder.FindsKeys ascii := by
  intro keys lookup built ordered _ bytes position
  have nodup : keys.names.Nodup := ordered.imp fun lt => lt.ne
  rw [ascii] at built
  split at built
  case isFalse => cases built
  case isTrue =>
    cases built
    rw [Option.map_eq_some_iff]
    constructor
    · rintro ⟨entry, found, rfl⟩
      exact ⟨entry.1, List.mem_of_find?_eq_some found, by simpa using List.find?_some found⟩
    · rintro ⟨key, member, spelled⟩
      have present
          : (keys.find? fun entry => Text.encode entry.1 == bytes.map Text.foldByte).isSome := by
        rw [List.find?_isSome]
        exact ⟨_, member, beq_iff_eq.mpr spelled⟩
      obtain ⟨⟨other, there⟩, found⟩ := Option.isSome_iff_exists.mp present
      have other_spelled : Text.encode other = bytes.map Text.foldByte := by
        simpa using List.find?_some found
      obtain rfl := Text.encode_injective (other_spelled.trans spelled.symm)
      have at_key := Table.get?_of_mem nodup member
      rw [Table.get?_of_mem nodup (List.mem_of_find?_eq_some found)] at at_key
      exact ⟨_, found, Option.some.inj at_key⟩

-----------------------------------------------------------------------------------------
-- Keys
-----------------------------------------------------------------------------------------

theorem mem_names_keysOf
    : key ∈ (keysOf names).names ↔ ∃ name ∈ names, Text.lowercase name = key := by
  rw [keysOf, Table.mem_names_sorted, Table.names, List.map_map]
  change key ∈ names.zipIdx.map (Text.lowercase ∘ Prod.fst) ↔ _
  rw [← List.map_map, List.zipIdx_map_fst, List.mem_map]

theorem lowercase_of_mem_keysOf (member : key ∈ (keysOf names).names)
    : Text.lowercase key = key := by
  obtain ⟨name, _, rfl⟩ := mem_names_keysOf.mp member
  exact Text.lowercase_lowercase name

theorem isAscii_lowercase (name : String) : isAscii (Text.lowercase name) = isAscii name := by
  rw [isAscii, isAscii, Text.lowercase, String.toList_ofList, Text.foldCase, List.all_map]
  refine List.all_congr rfl fun c => ?_
  rw [Function.comp_apply, Text.toNat_toLower]
  split
  · rw [decide_eq_true (by omega), decide_eq_true (by omega)]
  · rfl

/-- The keys of names are ASCII if the names are. -/
theorem all_isAscii_keysOf (names : List String)
    : (keysOf names).names.all isAscii = names.all isAscii := by
  rw [Bool.eq_iff_iff, List.all_eq_true, List.all_eq_true]
  constructor
  · intro ascii_keys name member
    rw [← isAscii_lowercase]
    exact ascii_keys _ (mem_names_keysOf.mpr ⟨name, member, rfl⟩)
  · intro ascii_names key member
    obtain ⟨name, name_member, rfl⟩ := mem_names_keysOf.mp member
    rw [isAscii_lowercase]
    exact ascii_names name name_member

theorem keysOf_concat (names : List String) (name : String)
    : keysOf (names ++ [name])
      = Table.insertSorted (Text.lowercase name) names.length (keysOf names) := by
  rw [keysOf, List.zipIdx_append, List.map_append]
  simp only [List.zipIdx_singleton, List.map_singleton, Nat.zero_add]
  exact Table.sorted_append ..

theorem lt_of_get?_keysOf (found : (keysOf names).get? key = some position)
    : position < names.length := by
  induction names using List.reverseRecOn generalizing position with
  | nil => cases found
  | append_singleton front name ih =>
      rw [keysOf_concat, Table.get?_insertSorted] at found
      rw [List.length_append, List.length_singleton]
      split at found
      · cases found
        omega
      · have := ih found
        omega

/-- A key stands for the last name that has it, by induction from the last name. -/
theorem nameAt_keysOf (names : List String) (key : String)
    : ((keysOf names).get? key).bind (fun position => names[position]?)
      = (names.filter fun name => Text.lowercase name = key).getLast? := by
  induction names using List.reverseRecOn with
  | nil => rfl
  | append_singleton front name ih =>
      rw [keysOf_concat, Table.get?_insertSorted, List.filter_append]
      by_cases same : Text.lowercase name = key
      · simp [same]
      · have kept
            : ∀ position ∈ (keysOf front).get? key,
              (front ++ [name])[position]? = front[position]? := fun position found =>
          List.getElem?_append_left (lt_of_get?_keysOf found)
        rw [if_neg (Ne.symm same), Option.bind_congr kept, ih]
        simp [same]

/-- Bytes find the last of the names that they spell. -/
theorem nameAt_lookup {build : Builder} (finds : build.FindsKeys) {lookup : NameLookup}
    (built : build (keysOf names) = some lookup) (bytes : List UInt8)
    : (lookup bytes).bind (fun position => names[position]?)
      = (names.filter fun name =>
          (Text.encode name).map Text.foldByte = bytes.map Text.foldByte).getLast? := by
  have ordered : (keysOf names).names.Pairwise (· < ·) := Table.pairwise_sorted _
  have finds_keys := finds built ordered (fun key => lowercase_of_mem_keysOf) bytes
  by_cases spelled : ∃ key, Text.encode key = bytes.map Text.foldByte
  · obtain ⟨key, key_spelled⟩ := spelled
    have at_key : lookup bytes = (keysOf names).get? key := by
      refine Option.ext fun position => (finds_keys position).trans ?_
      constructor
      · rintro ⟨other, member, other_spelled⟩
        rw [Text.encode_injective (key_spelled.trans other_spelled.symm)]
        exact Table.get?_of_mem (ordered.imp fun lt => lt.ne) member
      · exact fun found => ⟨key, Table.mem_of_get? found, key_spelled⟩
    rw [at_key, nameAt_keysOf]
    congr 1
    refine List.filter_congr fun name _ => decide_eq_decide.mpr ?_
    rw [← key_spelled, ← Text.encode_lowercase]
    exact ⟨congrArg Text.encode, Text.encode_injective⟩
  · -- no key has the bytes of a name in lower case
    have not_found : lookup bytes = none := by
      refine Option.eq_none_iff_forall_ne_some.mpr fun position found => ?_
      obtain ⟨key, _, key_spelled⟩ := (finds_keys position).mp found
      exact spelled ⟨key, key_spelled⟩
    have none_spelled
        : (names.filter fun name =>
            (Text.encode name).map Text.foldByte = bytes.map Text.foldByte) = [] := by
      refine List.filter_eq_nil_iff.mpr fun name _ same => ?_
      exact spelled
        ⟨Text.lowercase name, (Text.encode_lowercase name).trans (of_decide_eq_true same)⟩
    rw [not_found, none_spelled]
    rfl

end NameLookup

-----------------------------------------------------------------------------------------
-- Atlases
-----------------------------------------------------------------------------------------

namespace Atlas

variable {build : NameLookup.Builder} {index : ZoneIndex} {atlas : Atlas}

theorem ofIndexWith_eq_ok
    : ofIndexWith build index = .ok atlas
      ↔ ∃ lookup,
          build (NameLookup.keysOf index.names) = some lookup
          ∧ atlas = { index, names := index.names, lookup } := by
  rw [ofIndexWith]
  cases build (NameLookup.keysOf index.names) with
  | none => simp
  | some lookup => simp [eq_comm]

/-- An index has an atlas exactly if its names are ASCII. -/
theorem ofIndexWith_of_takesAscii (takes : build.TakesAscii) (index : ZoneIndex)
    : (index.names.all NameLookup.isAscii = true
        → ∃ atlas, ofIndexWith build index = .ok atlas ∧ atlas.names = index.names)
      ∧ (index.names.all NameLookup.isAscii = false
        → ofIndexWith build index = .error (.data .unindexableName)) := by
  have taken := takes (NameLookup.keysOf index.names)
  rw [NameLookup.all_isAscii_keysOf] at taken
  rw [← taken, ofIndexWith]
  cases build (NameLookup.keysOf index.names) with
  | none => simp
  | some lookup => simp

/-- The last name that bytes spell is the one in the data. -/
theorem normalizeBytes_eq_ok (finds : build.FindsKeys)
    (made : ofIndexWith build index = .ok atlas) (ordered : index.names.Pairwise (· < ·))
    {bytes : List UInt8} {name : String}
    : atlas.normalizeBytes bytes = .ok name
      ↔ name ∈ index.names
        ∧ (Text.encode name).map Text.foldByte = bytes.map Text.foldByte
        ∧ ∀ other ∈ index.names,
            (Text.encode other).map Text.foldByte = bytes.map Text.foldByte → other ≤ name := by
  obtain ⟨lookup, built, rfl⟩ := ofIndexWith_eq_ok.mp made
  have found := NameLookup.nameAt_lookup finds built bytes
  have last := getLast?_filter_eq_some_iff ordered
    (fun name => (Text.encode name).map Text.foldByte = bytes.map Text.foldByte) name
  simp only [decide_eq_true_eq] at last
  rw [← last, ← found, normalizeBytes]
  split
  case h_1 name' at_lookup => rw [at_lookup, Except.ok.injEq, Option.some.injEq]
  case h_2 at_lookup => rw [at_lookup]; simp

-----------------------------------------------------------------------------------------
-- Stored names
-----------------------------------------------------------------------------------------

/-- The zone of a text is the one stored under the name that it spells. -/
theorem zone_of_normalize {text name : String} {shared : SharedZone}
    (made : ofIndexWith build index = .ok atlas) (spelled : atlas.normalize text = .ok name)
    (stored : index.get? name = some shared)
    : atlas.zone text = .ok shared.zone := by
  obtain ⟨lookup, _, rfl⟩ := ofIndexWith_eq_ok.mp made
  simp only [zone, spelled, bind, Except.bind, stored, pure, Except.pure]

/-- Of the stored names that are equal up to the case of ASCII letters the last one is found, under
any of their spellings, with the zone that is stored under it. A stored name is therefore its own
spelling exactly if it is the last of them, and bytes that spell no other stored name find it.
-/
theorem normalize_stored (finds : build.FindsKeys) (ordered : index.names.Pairwise (· < ·))
    (made : ofIndexWith build index = .ok atlas) {name : String} {shared : SharedZone}
    (stored : index.get? name = some shared)
    : (∃ last shown,
        index.get? last = some shown
        ∧ Text.lowercase last = Text.lowercase name
        ∧ (∀ other ∈ index.names, Text.lowercase other = Text.lowercase name → other ≤ last)
        ∧ ∀ text, Text.lowercase text = Text.lowercase name
            → atlas.normalize text = .ok last ∧ atlas.zone text = .ok shown.zone)
      ∧ (atlas.normalize name = .ok name
          ↔ ∀ other ∈ index.names, Text.lowercase other = Text.lowercase name → other ≤ name)
      ∧ ∀ bytes : List UInt8,
          bytes.map Text.foldByte = (Text.encode name).map Text.foldByte
          → (∀ other ∈ index.names,
              (Text.encode other).map Text.foldByte = bytes.map Text.foldByte → other = name)
          → atlas.normalizeBytes bytes = .ok name
            ∧ ∀ text, Text.encode text = bytes → atlas.zone text = .ok shared.zone := by
  have member : name ∈ index.names := List.mem_map_of_mem (Table.mem_of_get? stored)
  have normalize_eq_ok {text last : String}
      : atlas.normalize text = .ok last
        ↔ last ∈ index.names
          ∧ Text.lowercase last = Text.lowercase text
          ∧ ∀ other ∈ index.names, Text.lowercase other = Text.lowercase text → other ≤ last := by
    rw [normalize, normalizeBytes_eq_ok finds made ordered]
    simp only [Text.map_foldByte_eq_iff]
  refine ⟨?_, ?_, ?_⟩
  · have spelled
        : ((index.names.filter fun other =>
            Text.lowercase other = Text.lowercase name).getLast?).isSome := by
      rw [List.getLast?_isSome]
      exact List.ne_nil_of_mem (List.mem_filter.mpr ⟨member, decide_eq_true rfl⟩)
    obtain ⟨last, is_last⟩ := Option.isSome_iff_exists.mp spelled
    obtain ⟨last_member, same, above⟩ := (getLast?_filter_eq_some_iff ordered _ last).mp is_last
    simp only [decide_eq_true_eq] at same above
    obtain ⟨shown, last_stored⟩ := Option.isSome_iff_exists.mp (Table.contains_iff.mpr last_member)
    refine ⟨last, shown, last_stored, same, above, fun text text_same => ?_⟩
    have found : atlas.normalize text = .ok last := by
      rw [normalize_eq_ok, text_same]
      exact ⟨last_member, same, above⟩
    exact ⟨found, zone_of_normalize made found last_stored⟩
  · rw [normalize_eq_ok]
    exact ⟨fun found => found.2.2, fun above => ⟨member, rfl, above⟩⟩
  · intro bytes spells alone
    have found : atlas.normalizeBytes bytes = .ok name :=
      (normalizeBytes_eq_ok finds made ordered).mpr
        ⟨member, spells.symm, fun other inside same => (alone other inside same).le⟩
    refine ⟨found, ?_⟩
    rintro text rfl
    exact zone_of_normalize made found stored

/-- A source with two zones whose names differ in the case of letters only. -/
def casedSources : Build.Sources := [{ name := "f", contents := "Z Abc 0 - A\nZ ABC 1 - B\n" }]

/-- Witness: the last one of the two names is found. -/
theorem normalize_stored_cased
    : ∃ atlas,
        ofIndexWith NameLookup.ascii (Build.run .standard casedSources).index = .ok atlas
        ∧ atlas.normalize "Abc" = .ok "Abc" := by
  have ordered : (Build.run .standard casedSources).index.names.Pairwise (· < ·) :=
    Build.pairwise_index
  have stored
      : (Build.run .standard casedSources).index.get? "Abc"
        = some { token := 0, zone := Build.endlessZone "A" 0 } := by
    decide +kernel
  obtain ⟨atlas, made, _⟩ := (ofIndexWith_of_takesAscii NameLookup.ascii_takesAscii
    (Build.run .standard casedSources).index).1 (by decide +kernel)
  obtain ⟨_, own_spelling, _⟩ :=
    normalize_stored NameLookup.ascii_findsKeys ordered made stored
  exact ⟨atlas, made, own_spelling.mpr (by decide +kernel)⟩

/-- The other one is stored as well, and yet it is not its own spelling and shows another zone. -/
theorem normalize_cased_lost
    : (Build.run .standard casedSources).index
        = [("ABC", { token := 1, zone := Build.endlessZone "B" 3600 }),
          ("Abc", { token := 0, zone := Build.endlessZone "A" 0 })]
      ∧ (ofIndexWith NameLookup.ascii (Build.run .standard casedSources).index).bind
          (·.normalize "ABC")
        = .ok "Abc"
      ∧ (ofIndexWith NameLookup.ascii (Build.run .standard casedSources).index).bind (·.zone "ABC")
        = .ok (Build.endlessZone "A" 0) := by
  refine ⟨?_, ?_, ?_⟩ <;> decide +kernel

end Atlas

-----------------------------------------------------------------------------------------
-- Artifacts of builds
-----------------------------------------------------------------------------------------

namespace Build

/-- The artifact of a build is loaded with the names of what has been built exactly if all of them
are ASCII. Otherwise it is refused as a whole.
-/
theorem run_loads {build : NameLookup.Builder} (takes : build.TakesAscii) {options : Options}
    {sources : Sources} (short : (run options sources).bytes.length < 2 ^ 64)
    : ((run options sources).index.names.all NameLookup.isAscii = true
        → ∃ atlas,
          Atlas.ofBytesWith build (run options sources).bytes = .ok atlas
          ∧ atlas.names = (run options sources).index.names)
      ∧ ((run options sources).index.names.all NameLookup.isAscii = false
        → Atlas.ofBytesWith build (run options sources).bytes
          = .error (.data .unindexableName)) := by
  obtain ⟨index, read_eq, agree⟩ := read_bytes short
  rw [Atlas.ofBytesWith, read_eq, ← Table.names_eq_of_agree agree]
  exact Atlas.ofIndexWith_of_takesAscii takes index

/-- Witness: an artifact with a zone and its aliases is loaded. -/
theorem run_loads_chained
    : ∃ atlas,
        Atlas.ofBytes (run .standard chainedSources).bytes = .ok atlas
        ∧ atlas.names = ["X", "Y", "Z"] := by
  have short : (run .standard chainedSources).bytes.length < 2 ^ 64 := by decide +kernel
  have names_eq : (run .standard chainedSources).index.names = ["X", "Y", "Z"] := by
    decide +kernel
  obtain ⟨atlas, loaded, atlas_names⟩ :=
    (run_loads NameLookup.ascii_takesAscii short).1 (by rw [names_eq]; decide)
  exact ⟨atlas, loaded, atlas_names.trans names_eq⟩

/-- A source with a zone whose name is not ASCII. -/
def accentedSources : Sources := [{ name := "f", contents := "Z A 0 - A\nZ É 0 - B\n" }]

/-- Both zones are built without a complaint, and then neither of them can be loaded. -/
theorem run_not_loaded
    : NameLookup.ascii.TakesAscii
      ∧ (run .standard accentedSources).index.names = ["A", "É"]
      ∧ (run .standard accentedSources).report.diagnostics = []
      ∧ (Atlas.ofBytes (run .standard accentedSources).bytes).map (·.names)
        = .error (.data .unindexableName) := by
  refine ⟨NameLookup.ascii_takesAscii, ?_, ?_, ?_⟩ <;> decide +kernel

end Build

end CivilTime
