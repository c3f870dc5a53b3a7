import CivilTime.Proofs.Artifact.Accepted
import CivilTime.Proofs.Artifact.RoundTrip

/-! An artifact that has been read can be written again.
Whatever bytes the zones of an index have been read from, they are read from the artifact of the
index as they are. The one zone that the format cannot express is the one with a tail at the end of
time: its last interval is written as an open one, and no tail is read behind such an interval.
-/

namespace CivilTime

namespace CompiledZone

variable {zone : CompiledZone}

/-- The tail of the zone starts at the end of time. -/
def TailAtEnd (zone : CompiledZone) : Prop := ∃ tail ∈ zone.tail, tail.start = endOfTime

instance (zone : CompiledZone) : Decidable zone.TailAtEnd :=
  inferInstanceAs (Decidable (∃ tail ∈ zone.tail, tail.start = endOfTime))

/-- No interval of the zone starts before the beginning of time. -/
theorem Accepted.start_ge (accepted : zone.Accepted) (rewritable : zone.Rewritable) {i : Interval}
    (member : i ∈ zone.intervals)
    : beginningOfTime ≤ i.start := by
  obtain ⟨first, first_eq, start_eq⟩ := Option.map_eq_some_iff.mp accepted.start_eq
  obtain ⟨rest, intervals_eq⟩ := List.head?_eq_some_iff.mp first_eq
  have increasing := rewritable.increasing
  rw [intervals_eq, List.map_cons, List.isChain_iff_pairwise] at increasing
  rw [intervals_eq] at member
  rcases List.mem_cons.mp member with rfl | later
  · exact start_eq.ge
  · have behind := (List.pairwise_cons.mp increasing).1 i.start (List.mem_map_of_mem later)
    omega

/-- The intervals of an accepted zone are read as they are written, if their wall clocks have
sixty-four bits as their offsets do. -/
theorem Accepted.storable (accepted : zone.Accepted) (rewritable : zone.Rewritable)
    (walls : ∀ i ∈ zone.intervals, Instant.Representable i.wallOffset)
    : Storable zone.intervals where
  start_eq := accepted.start_eq
  increasing := rewritable.increasing
  touching := accepted.touching
  ended last last_eq := by
    rcases accepted.forward last (List.mem_of_getLast? last_eq) with lt | ⟨_, stop_eq⟩
    · exact .inr lt
    · exact .inl (beq_iff_eq.mpr stop_eq)
  encodable i member := by
    have start_ge := accepted.start_ge rewritable member
    have stop_le := accepted.bounded i member
    have start_le : i.start ≤ i.stop := by
      rcases accepted.forward i member with lt | ⟨start_eq, stop_eq⟩
      · exact lt.le
      · omega
    exact {
      start := ⟨start_ge, start_le.trans stop_le⟩
      stop := ⟨start_ge.trans start_le, stop_le⟩
      stdOffset := (rewritable.offsets i member).1
      savings := (rewritable.offsets i member).2
      wallOffset := walls i member
    }

/-- What an accepted zone comes to when it is written and read. -/
def reread (zone : CompiledZone) : Except Artifact.DecodeError CompiledZone :=
  if zone.TailAtEnd then .error (.inconsistent .tailAfterOpenInterval) else .ok zone

/-- A zone whose tail is kept by writing its times as seconds is so itself. -/
theorem Rewritable.inSeconds_eq (rewritable : zone.Rewritable) : zone.inSeconds = zone := by
  obtain ⟨intervals, tail⟩ := zone
  cases tail with
  | none => rfl
  | some t => exact congrArg (CompiledZone.mk intervals <| some ·) (rewritable.tail t rfl).inSeconds

/-- An accepted zone is read as it is written, unless its tail starts at the end of time. -/
theorem Accepted.comesTo_reread (accepted : zone.Accepted) (rewritable : zone.Rewritable)
    (walls : ∀ i ∈ zone.intervals, Instant.Representable i.wallOffset)
    : Artifact.ZoneComesTo zone zone.reread := by
  have storable := accepted.storable rewritable walls
  unfold reread
  split
  case isTrue at_end =>
    obtain ⟨t, is_tail, start_eq⟩ := at_end
    refine Artifact.zone_comesTo_error storable is_tail ?_
    rw [← start_eq]
    exact accepted.adjoining t is_tail
  case isFalse apart =>
    have read := Artifact.zone_comesTo_inSeconds storable fun t is_tail => by
      refine ⟨accepted.adjoining t is_tail, (rewritable.tail t is_tail).encodable ?_⟩
      have start_le := accepted.room t is_tail
      have : t.start ≠ endOfTime := fun at_end => apart ⟨t, is_tail, at_end⟩
      omega
    rwa [rewritable.inSeconds_eq] at read

end CompiledZone

namespace Artifact

/-- An index that has been read is ordered by name, and its zones can be written again. They are
those at the places of their tokens, so equal tokens stand for equal zones. -/
theorem holds_of_read {bytes : List UInt8} {index : ZoneIndex} (read_eq : read bytes = .ok index)
    : index.Shares
      ∧ index.names.Pairwise (· < ·)
      ∧ ∀ entry ∈ index, entry.2.zone.Accepted ∧ entry.2.zone.Rewritable := by
  obtain ⟨sections, _, indexed⟩ := bind_eq_ok.mp read_eq
  have at_place :=
    Sections.index_all (P := fun place zone => sections.zoneAt place = .ok zone)
      (fun _ _ found => found) (by simp) (by simp) indexed
  refine ⟨fun entry member other other_member same => ?_, Sections.index_ordered .nil indexed,
    fun entry member => Sections.zoneAt_holds (at_place entry member)⟩
  have here := at_place entry member
  rw [same, at_place other other_member] at here
  exact (Except.ok.inj here).symm

/-- An index that has been read from any bytes is read again from its own artifact, in whatever
order its zones are added: the names are the same, and so are their zones. Only a tail that starts
at the end of time prevents this, and the whole artifact is rejected then. -/
theorem read_again {bytes : List UInt8} {index added : ZoneIndex}
    (read_eq : read bytes = .ok index) (every : added.Perm index)
    (walls : ∀ entry ∈ index, ∀ i ∈ entry.2.zone.intervals, Instant.Representable i.wallOffset)
    (short : (Writer.ofIndex added).finish.length < 2 ^ 64)
    : ((∀ entry ∈ index, ¬ entry.2.zone.TailAtEnd)
        → ∃ again,
            read (Writer.ofIndex added).finish = .ok again
            ∧ again.names = index.names
            ∧ ∀ name, (again.get? name).map (·.zone) = (index.get? name).map (·.zone))
      ∧ ((∃ entry ∈ index, entry.2.zone.TailAtEnd)
        → read (Writer.ofIndex added).finish
          = .error (.inconsistent .tailAfterOpenInterval)) := by
  obtain ⟨index_shares, ordered, each⟩ := holds_of_read read_eq
  have shares : added.Shares := fun entry member other other_member =>
    index_shares entry (every.mem_iff.mp member) other (every.mem_iff.mp other_member)
  have comesTo (entry : String × SharedZone) (member : entry ∈ added)
      : ZoneComesTo entry.2.zone entry.2.zone.reread := by
    have inside := every.mem_iff.mp member
    obtain ⟨accepted, rewritable⟩ := each entry inside
    exact accepted.comesTo_reread rewritable (walls entry inside)
  have sorted_eq : added.sorted = index := Table.sorted_eq_of_perm every ordered
  constructor
  · intro apart
    have read_all (entry : String × SharedZone) (member : entry ∈ added)
        : ZoneComesTo entry.2.zone (.ok entry.2.zone.inSeconds) := by
      have inside := every.mem_iff.mp member
      have comes := comesTo entry member
      rw [CompiledZone.reread, if_neg (apart entry inside)] at comes
      rwa [(each entry inside).2.inSeconds_eq]
    obtain ⟨again, again_eq, agree⟩ := read_finish_eq_ok shares read_all short
    rw [sorted_eq] at agree
    refine ⟨again, again_eq, Table.names_eq_of_agree agree, fun name => ?_⟩
    rw [Table.map_get?_of_agree agree name]
    cases found : index.get? name with
    | none => rfl
    | some shared =>
        exact congrArg some (each _ (Table.mem_of_get? found)).2.inSeconds_eq
  · intro at_end
    refine read_finish_eq_error shares comesTo short ?_ ?_
    · intro entry _ other failed
      unfold CompiledZone.reread at failed
      split at failed
      · exact (Except.error.inj failed).symm
      · cases failed
    · obtain ⟨entry, member, tail_at_end⟩ := at_end
      rw [sorted_eq]
      exact ⟨entry, member, _, if_pos tail_at_end⟩

/-- Witness: the zone with a tail is read again with the name that it has been read under. -/
theorem read_again_summer
    : ∃ index again,
        read summerBytes = .ok index
        ∧ index.names = ["X"]
        ∧ (index.get? "X").any (·.zone.tail.isSome) = true
        ∧ read (Writer.ofIndex index).finish = .ok again
        ∧ again.names = index.names
        ∧ ∀ name, (again.get? name).map (·.zone) = (index.get? name).map (·.zone) := by
  have held
      : ∃ index ∈ (read summerBytes).toOption,
          (index.names = ["X"] ∧ (index.get? "X").any (·.zone.tail.isSome) = true)
          ∧ (∀ entry ∈ index, ∀ i ∈ entry.2.zone.intervals, Instant.Representable i.wallOffset)
          ∧ (Writer.ofIndex index).finish.length < 2 ^ 64
          ∧ ∀ entry ∈ index, ¬ entry.2.zone.TailAtEnd := by
    decide +kernel
  obtain ⟨index, found, ⟨names_eq, has_tail⟩, walls, short, apart⟩ := held
  have read_eq := mem_toOption.mp found
  obtain ⟨again, again_eq, names_same, zones_same⟩ :=
    (read_again read_eq (List.Perm.refl index) walls short).1 apart
  exact ⟨index, again, read_eq, names_eq, has_tail, again_eq, names_same, zones_same⟩

/-- An index whose zone has a tail at the end of time is read, and rejected when it has been written
again. -/
theorem read_endlessTail_lost
    : ∃ index ∈ (read endlessTailBytes).toOption,
        (∀ entry ∈ index, ∀ i ∈ entry.2.zone.intervals, Instant.Representable i.wallOffset)
        ∧ (∃ entry ∈ index, entry.2.zone.TailAtEnd)
        ∧ read (Writer.ofIndex index).finish
          = .error (.inconsistent .tailAfterOpenInterval) := by
  decide +kernel

end Artifact

end CivilTime
