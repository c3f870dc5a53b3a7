import CivilTime.Proofs.Artifact.Zone
import CivilTime.Proofs.Table

/-! What an artifact holds while zones are added to it.
The bytes of a zone that has been written stand at its place, and stay there when more strings and
zones are written behind them. A name therefore has the place of the zone that has been added under
it last, whether that zone has been written for the name or is shared with an earlier one.
-/

namespace CivilTime

/-- Entries with the same token hold the same zone. -/
def ZoneIndex.Shares (index : ZoneIndex) : Prop :=
  ∀ entry ∈ index, ∀ other ∈ index,
    entry.2.token = other.2.token → entry.2.zone = other.2.zone

instance (index : ZoneIndex) : Decidable index.Shares :=
  inferInstanceAs (Decidable (∀ entry ∈ index, ∀ other ∈ index, _ → _))

namespace Artifact.Writer

/-- The bytes of all zones in the order of their places. -/
def blob (w : Writer) : List UInt8 := w.newestFirst.reverse.flatten

/-- The bytes of a zone stand at a place, and the strings of the artifact begin with those behind
them. -/
def Stores (w : Writer) (place : Nat) (zone : CompiledZone) : Prop :=
  ∃ front strings back,
    w.blob = front ++ ((Encoder.zone zone).run strings).1 ++ back
    ∧ front.length = place
    ∧ ((Encoder.zone zone).run strings).2 <+: w.strings

variable {w later : Writer} {place : Nat} {zone : CompiledZone}

/-- A stored zone stays stored when strings and zones are added behind those that are there. -/
theorem Stores.mono (stored : w.Stores place zone) (strings : w.strings <+: later.strings)
    (blob : w.blob <+: later.blob)
    : later.Stores place zone := by
  obtain ⟨front, written, back, blob_eq, place_eq, within⟩ := stored
  obtain ⟨added, later_eq⟩ := blob
  refine ⟨front, written, back ++ added, ?_, place_eq, within.trans strings⟩
  rw [← later_eq, blob_eq, List.append_assoc _ back]

/-- A stored zone lies inside the bytes of all zones. -/
theorem Stores.inside (stored : w.Stores place zone) : place ≤ w.blob.length := by
  obtain ⟨front, written, back, blob_eq, rfl, _⟩ := stored
  rw [blob_eq, List.append_assoc, List.length_append]
  exact Nat.le_add_right _ _

/-- At the place of a stored zone the reader comes to what it makes of the bytes of the zone. -/
theorem Stores.decode {final : Strings} {outcome : Except DecodeError CompiledZone}
    (stored : w.Stores place zone) (comesTo : ZoneComesTo zone outcome)
    (within : w.strings <+: final) (fits : final.length < 2 ^ 64) (short : w.blob.length < 2 ^ 64)
    : (Decoder.zone final).decode (w.blob.drop place) = outcome := by
  obtain ⟨front, written, back, blob_eq, rfl, begins⟩ := stored
  rw [blob_eq] at short ⊢
  simp only [List.length_append] at short
  rw [List.append_assoc, List.drop_left]
  exact (comesTo written final (by omega) (begins.trans within) fits).decode_append back

/-- Writing a zone adds its bytes behind those that are there. -/
theorem blob_writeZone (w : Writer) (shared : SharedZone)
    : (w.writeZone shared).blob
      = w.blob ++ ((Encoder.zone shared.zone).run w.strings).1 := by
  change (_ :: w.newestFirst).reverse.flatten = _
  rw [List.reverse_cons, List.flatten_append, List.flatten_singleton]
  rfl

/-- Zones that are stored stay so when another one is written. -/
theorem Stores.writeZone (stored : w.Stores place zone) (shared : SharedZone)
    : (w.writeZone shared).Stores place zone := by
  refine stored.mono (keeps_zone shared.zone w.strings) ?_
  rw [blob_writeZone]
  exact List.prefix_append _ _

/-- A zone that has been written is stored behind the others. -/
theorem stores_writeZone (size_eq : w.size = w.blob.length) (shared : SharedZone)
    : (w.writeZone shared).Stores w.size shared.zone := by
  refine ⟨w.blob, w.strings, [], ?_, size_eq.symm, List.prefix_refl _⟩
  rw [blob_writeZone, List.append_nil]

/-- An artifact holds the zones that have been added to it, in the order in which they have been
added: the written ones stand at the places of their tokens, and the directory leads from each name
to the last zone of the name. -/
structure Holds (w : Writer) (added : ZoneIndex) : Prop where
  size_eq : w.size = w.blob.length
  places
    : ∀ token place,
        w.places.lookup token = some place
        → ∃ entry ∈ added, entry.2.token = token ∧ w.Stores place entry.2.zone
  directory
    : List.Forall₂ (Table.Agree fun place shared => w.Stores place shared.zone)
        w.directory added.sorted

/-- The empty artifact holds nothing. -/
theorem holds_empty : empty.Holds [] where
  size_eq := rfl
  places _ _ found := nomatch found
  directory := .nil

variable {added : ZoneIndex} {name : String} {shared : SharedZone}

/-- A zone that is shared with an earlier name is held under another one. -/
theorem Holds.point (holds : w.Holds added) (stored : w.Stores place shared.zone)
    : (w.point name place).Holds (added ++ [(name, shared)]) where
  size_eq := holds.size_eq
  places token place found := by
    obtain ⟨entry, member, same, entry_stored⟩ := holds.places token place found
    exact ⟨entry, List.mem_append_left _ member, same, entry_stored⟩
  directory := by
    rw [Table.sorted_append]
    exact Table.forall₂_insertSorted holds.directory name stored

/-- A zone with a new token is held after it has been written. -/
theorem Holds.write (holds : w.Holds added)
    : ((w.writeZone shared).point name w.size).Holds (added ++ [(name, shared)]) where
  size_eq := by
    change w.size + ((Encoder.zone shared.zone).run w.strings).1.length
      = (w.writeZone shared).blob.length
    rw [blob_writeZone, List.length_append, holds.size_eq]
  places token place found := by
    change List.lookup token ((shared.token, w.size) :: w.places) = some place at found
    rw [List.lookup_cons] at found
    split at found
    case h_1 same =>
      cases found
      refine ⟨(name, shared), by simp, (eq_of_beq same).symm, ?_⟩
      exact stores_writeZone holds.size_eq shared
    case h_2 =>
      obtain ⟨entry, member, same, stored⟩ := holds.places token place found
      exact ⟨entry, List.mem_append_left _ member, same, stored.writeZone shared⟩
  directory := by
    rw [Table.sorted_append]
    refine Table.forall₂_insertSorted (holds.directory.imp fun _ _ agree => ?_) name
      (stores_writeZone holds.size_eq shared)
    exact ⟨agree.1, agree.2.writeZone shared⟩

/-- A zone is held after it has been added, if it is the one that its token stands for. -/
theorem Holds.add (holds : w.Holds added)
    (shares : ∀ entry ∈ added, entry.2.token = shared.token → entry.2.zone = shared.zone)
    : (w.add name shared).Holds (added ++ [(name, shared)]) := by
  unfold Writer.add
  split
  case h_1 place found =>
    obtain ⟨entry, member, same, stored⟩ := holds.places _ _ found
    rw [shares entry member same] at stored
    exact holds.point stored
  case h_2 => exact holds.write

/-- An artifact holds the zones of the index that it is made of. The induction is on the zones, from
the last one on. -/
theorem holds_ofIndex {index : ZoneIndex} (shares : index.Shares)
    : (ofIndex index).Holds index := by
  induction index using List.reverseRecOn with
  | nil => exact holds_empty
  | append_singleton front last ih =>
      have front_shares : ZoneIndex.Shares front := fun entry member other other_member =>
        shares entry (List.mem_append_left _ member) other (List.mem_append_left _ other_member)
      have holds := ih front_shares
      rw [ofIndex, List.foldl_append]
      refine holds.add fun entry member => ?_
      exact shares entry (List.mem_append_left _ member) last (by simp)

end Artifact.Writer

end CivilTime
