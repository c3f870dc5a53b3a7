import CivilTime.Proofs.Artifact.RoundTrip
import CivilTime.Proofs.Zone.Consistency

/-! Names share a zone in an artifact as they did when their zones were added.
Every zone takes at least one byte, so two zones never stand at the same place, and a zone that has
been written keeps its place. The place of a zone thus tells it apart as well as its token did.
-/

namespace CivilTime.Artifact

-----------------------------------------------------------------------------------------
-- Tokens and places
-----------------------------------------------------------------------------------------

/-- A zone takes at least one byte. -/
theorem zone_length_pos (z : CompiledZone) (strings : Strings)
    : 0 < ((Encoder.zone z).run strings).1.length := by
  have some_byte := writeVarint_length_pos z.intervals.length
  simp only [bytes_zone, List.length_append]
  omega

namespace Writer

/-- The places of an artifact tell the zones that have been added to it apart as their tokens do,
and the directory leads from each name to the place of the last token of the name. -/
structure Separates (w : Writer) (added : ZoneIndex) : Prop where
  size_eq : w.size = w.blob.length
  before_end : ∀ entry ∈ w.places, entry.2 < w.size
  apart : ∀ entry ∈ w.places, ∀ other ∈ w.places, entry.1 = other.1 ↔ entry.2 = other.2
  directory
    : List.Forall₂ (Table.Agree fun place shared => (shared.token, place) ∈ w.places)
        w.directory added.sorted

/-- The empty artifact has no places. -/
theorem separates_empty : empty.Separates [] where
  size_eq := rfl
  before_end _ member := nomatch member
  apart _ member := nomatch member
  directory := .nil

variable {w : Writer} {added : ZoneIndex} {name : String} {shared : SharedZone} {place : Nat}

/-- A name can be given to a zone that has a place already. -/
theorem Separates.point (separates : w.Separates added)
    (placed : (shared.token, place) ∈ w.places)
    : (w.point name place).Separates (added ++ [(name, shared)]) where
  size_eq := separates.size_eq
  before_end := separates.before_end
  apart := separates.apart
  directory := by
    rw [Table.sorted_append]
    exact Table.forall₂_insertSorted separates.directory name placed

/-- A zone with a new token is written at a new place, behind all others. -/
theorem Separates.write (separates : w.Separates added)
    (new : ∀ entry ∈ w.places, shared.token ≠ entry.1)
    : ((w.writeZone shared).point name w.size).Separates (added ++ [(name, shared)]) where
  size_eq := by
    change w.size + ((Encoder.zone shared.zone).run w.strings).1.length
      = (w.writeZone shared).blob.length
    rw [blob_writeZone, List.length_append, separates.size_eq]
  before_end entry member := by
    have some_byte := zone_length_pos shared.zone w.strings
    change entry.2 < w.size + ((Encoder.zone shared.zone).run w.strings).1.length
    rcases List.mem_cons.mp member with rfl | earlier
    · exact Nat.lt_add_of_pos_right some_byte
    · exact Nat.lt_add_right _ (separates.before_end entry earlier)
  apart entry member other other_member := by
    rcases List.mem_cons.mp member with rfl | earlier
    · rcases List.mem_cons.mp other_member with rfl | other_earlier
      · exact iff_of_true rfl rfl
      · have other_before := separates.before_end other other_earlier
        exact iff_of_false (new other other_earlier) other_before.ne'
    · have before := separates.before_end entry earlier
      rcases List.mem_cons.mp other_member with rfl | other_earlier
      · exact iff_of_false (Ne.symm (new entry earlier)) before.ne
      · exact separates.apart entry earlier other other_earlier
  directory := by
    rw [Table.sorted_append]
    refine Table.forall₂_insertSorted (separates.directory.imp fun _ _ agree => ?_) name ?_
    · exact ⟨agree.1, List.mem_cons_of_mem _ agree.2⟩
    · exact List.mem_cons_self ..

/-- Adding a zone keeps tokens and places in step, whether it is written or has a place already. -/
theorem Separates.add (separates : w.Separates added)
    : (w.add name shared).Separates (added ++ [(name, shared)]) := by
  unfold Writer.add
  split
  case h_1 place found =>
    obtain ⟨front, back, places_eq, _⟩ := List.lookup_eq_some_iff.mp found
    exact separates.point (by simp [places_eq])
  case h_2 absent =>
    refine separates.write fun entry member => ?_
    have differs := List.lookup_eq_none_iff.mp absent entry member
    simpa using differs

/-- The places of an artifact tell apart what has been added to it. The induction is on the zones,
from the last one on. -/
theorem separates_ofIndex (added : ZoneIndex) : (ofIndex added).Separates added := by
  induction added using List.reverseRecOn with
  | nil => exact separates_empty
  | append_singleton front last ih =>
      rw [ofIndex, List.foldl_append]
      exact ih.add

end Writer

-----------------------------------------------------------------------------------------
-- The tokens that are read
-----------------------------------------------------------------------------------------

/-- The tokens of an index that is read are the places that the directory refers to. The induction
is on the directory. -/
theorem index_tokens {s : Sections} {directory : List (Nat × Nat)} {entries places : Table Nat}
    {decoded : List (Nat × CompiledZone)} {index found : ZoneIndex}
    (refers : List.Forall₂ (Refers s.strings) directory entries)
    (tokens : List.Forall₂ (Table.Agree fun shared place => shared.token = place) index places)
    (indexed : s.index directory decoded index = .ok found)
    : List.Forall₂ (Table.Agree fun shared place => shared.token = place) found
        (entries.foldl (fun result (name, place) => Table.insertSorted name place result)
          places) := by
  induction refers generalizing decoded index places with
  | nil =>
      obtain rfl := Except.ok.inj indexed
      exact tokens
  | @cons indices entry directory entries here _ ih =>
      obtain ⟨name, place⟩ := entry
      obtain ⟨name_eq, rfl⟩ := here
      obtain ⟨_, same, indexed⟩ := bind_eq_ok.mp indexed
      obtain ⟨zone, _, indexed⟩ := bind_eq_ok.mp indexed
      obtain rfl := Except.ok.inj (name_eq.symm.trans same)
      exact ih (Table.forall₂_insertSorted tokens name rfl) indexed

/-- In an artifact that is read successfully, names share a zone exactly if the zones that have been
added under them last were one shared zone. -/
theorem read_ofIndex_token_eq {added index : ZoneIndex}
    (short : (Writer.ofIndex added).finish.length < 2 ^ 64)
    (read_eq : read (Writer.ofIndex added).finish = .ok index)
    : (∀ name, name ∈ index.names ↔ name ∈ added.names)
      ∧ ∀ a b,
          (index.get? a).map (·.token) = (index.get? b).map (·.token)
          ↔ (Table.get? added.reverse a).map (·.token)
            = (Table.get? added.reverse b).map (·.token) := by
  have separates := Writer.separates_ofIndex added
  generalize Writer.ofIndex added = w at *
  have inside : ∀ entry ∈ w.directory, entry.2 ≤ w.size := by
    refine ((List.forall₂_and_left _ _).mp (separates.directory.imp fun _ _ agree => ⟨?_, agree⟩)).1
    exact (separates.before_end _ agree.2).le
  obtain ⟨sections, sections_eq, -, -, refers, -⟩ := decode_sections separates.size_eq inside short
  obtain ⟨_, same, indexed⟩ := bind_eq_ok.mp read_eq
  obtain rfl := Except.ok.inj (sections_eq.symm.trans same)
  have ordered : w.directory.names.Pairwise (· < ·) := by
    rw [Table.names_eq_of_agree separates.directory]
    exact Table.pairwise_sorted added
  have tokens := index_tokens refers .nil indexed
  rw [show w.directory.foldl _ [] = w.directory from Table.sorted_eq ordered] at tokens
  have agree
      : List.Forall₂ (Table.Agree fun shared last => (last.token, shared.token) ∈ w.places)
          index added.sorted := by
    refine (forall₂_trans tokens separates.directory).imp fun _ _ between => ?_
    obtain ⟨_, ⟨name_eq, token_eq⟩, same, placed⟩ := between
    refine ⟨name_eq.trans same, ?_⟩
    dsimp only
    rwa [token_eq]
  refine ⟨fun name => ?_, fun a b => ?_⟩
  · rw [Table.names_eq_of_agree agree]
    exact Table.mem_names_sorted added name
  · have left := Table.get?_of_agree agree a
    have right := Table.get?_of_agree agree b
    rw [Table.get?_sorted] at left right
    generalize index.get? a = found, Table.get? added.reverse a = last at left ⊢
    generalize index.get? b = other_found, Table.get? added.reverse b = other_last at right ⊢
    cases left with
    | none => cases right <;> simp
    | some placed =>
        cases right with
        | none => simp
        | some other_placed =>
            have apart := separates.apart _ placed _ other_placed
            simpa using apart.symm

/-- Two names share a zone, a third one has an equal one of its own, and the last one has given up
the shared zone for it. -/
def movedNames : ZoneIndex :=
  [ ("A", ⟨0, summerTailZone⟩), ("B", ⟨0, summerTailZone⟩), ("D", ⟨0, summerTailZone⟩),
    ("C", ⟨1, summerTailZone⟩), ("D", ⟨1, summerTailZone⟩) ]

/-- Witness: of four names of equal zones, the first two share a zone and so do the last two. -/
theorem read_ofIndex_movedNames
    : (Writer.ofIndex movedNames).finish.length < 2 ^ 64
      ∧ ∃ index,
          read (Writer.ofIndex movedNames).finish = .ok index
          ∧ (index.get? "A").map (·.token) = (index.get? "B").map (·.token)
          ∧ (index.get? "C").map (·.token) = (index.get? "D").map (·.token)
          ∧ (index.get? "A").map (·.token) ≠ (index.get? "C").map (·.token) := by
  have short : (Writer.ofIndex movedNames).finish.length < 2 ^ 64 := by decide +kernel
  have read_some : (read (Writer.ofIndex movedNames).finish).toOption.isSome = true := by
    decide +kernel
  obtain ⟨index, found⟩ := Option.isSome_iff_exists.mp read_some
  have read_eq := mem_toOption.mp found
  obtain ⟨-, same_token⟩ := read_ofIndex_token_eq short read_eq
  refine ⟨short, index, read_eq, (same_token _ _).mpr ?_, (same_token _ _).mpr ?_,
    fun same => ?_⟩
  · decide +kernel
  · decide +kernel
  · revert same
    rw [same_token]
    decide +kernel

end CivilTime.Artifact
