import CivilTime.Proofs.Artifact.Given
import CivilTime.Proofs.Table

/-! What the reader of artifacts accepts, whatever bytes it is given.
The intervals of an accepted zone begin at the beginning of time and leave no gaps, and a tail
follows the last of them. The end of time is the one place where the checks leave something out: an
open interval that starts there is empty, and a tail that starts there has no room.
-/

namespace CivilTime

namespace CompiledZone

/-- The intervals of the zone leave no gaps, and its tail has recurrences and room behind them. -/
structure WellFormed (zone : CompiledZone) : Prop extends zone.LaidOut where
  recurrences : ∀ tail ∈ zone.tail, tail.rules.recurrences ≠ []
  room : ∀ tail ∈ zone.tail, tail.start < endOfTime

/-- Something of the zone starts at the end of time. -/
def StartsAtEnd (zone : CompiledZone) : Prop :=
  (∃ i ∈ zone.intervals, i.start = endOfTime) ∨ ∃ tail ∈ zone.tail, tail.start = endOfTime

instance (zone : CompiledZone) : Decidable zone.WellFormed :=
  decidable_of_iff
    (zone.LaidOut
      ∧ (∀ tail ∈ zone.tail, tail.rules.recurrences ≠ [])
      ∧ ∀ tail ∈ zone.tail, tail.start < endOfTime)
    ⟨fun ⟨laidOut, recurrences, room⟩ => ⟨laidOut, recurrences, room⟩,
      fun ⟨laidOut, recurrences, room⟩ => ⟨laidOut, recurrences, room⟩⟩

instance (zone : CompiledZone) : Decidable zone.StartsAtEnd :=
  inferInstanceAs
    (Decidable ((∃ i ∈ zone.intervals, i.start = endOfTime)
      ∨ ∃ tail ∈ zone.tail, tail.start = endOfTime))

/-- The intervals of the zone leave no gaps and its tail has recurrences and follows them, but what
starts at the end of time is empty. -/
structure Accepted (zone : CompiledZone) : Prop where
  start_eq : zone.intervals.head?.map (·.start) = some beginningOfTime
  forward
    : ∀ i ∈ zone.intervals, i.start < i.stop ∨ (i.start = endOfTime ∧ i.stop = endOfTime)
  touching : zone.intervals.IsChain fun i j => i.stop = j.start
  recurrences : ∀ tail ∈ zone.tail, tail.rules.recurrences ≠ []
  adjoining : ∀ tail ∈ zone.tail, zone.intervals.getLast?.map (·.stop) = some tail.start
  room : ∀ tail ∈ zone.tail, tail.start ≤ endOfTime
  bounded : ∀ i ∈ zone.intervals, i.stop ≤ endOfTime

/-- An accepted zone is well formed unless something of it starts at the end of time. -/
theorem Accepted.wellFormed_iff {zone : CompiledZone} (accepted : zone.Accepted)
    : zone.WellFormed ↔ ¬ zone.StartsAtEnd := by
  constructor
  · rintro wellFormed (⟨i, member, at_end⟩ | ⟨tail, is_tail, at_end⟩)
    · have := wellFormed.contiguous.forward i member
      have := accepted.bounded i member
      omega
    · have := wellFormed.room tail is_tail
      omega
  · intro apart
    have forward (i : Interval) (member : i ∈ zone.intervals) : i.start < i.stop := by
      refine (accepted.forward i member).resolve_right fun at_end => ?_
      exact apart (.inl ⟨i, member, at_end.1⟩)
    have room (tail : Tail) (is_tail : tail ∈ zone.tail) : tail.start < endOfTime := by
      have := accepted.room tail is_tail
      have : tail.start ≠ endOfTime := fun at_end => apart (.inr ⟨tail, is_tail, at_end⟩)
      omega
    exact {
      contiguous := ⟨accepted.start_eq, forward, accepted.touching⟩
      adjoining := accepted.adjoining
      recurrences := accepted.recurrences
      room := room
    }

/-- A zone whose starts increase, with offsets that fit into an artifact and a tail that does so
where it has room. -/
structure Rewritable (zone : CompiledZone) : Prop where
  increasing : (zone.intervals.map (·.start)).IsChain (· < ·)
  offsets : ∀ i ∈ zone.intervals, i.OffsetsFit
  tail : ∀ t ∈ zone.tail, t.Rewritable

end CompiledZone

namespace Artifact

-----------------------------------------------------------------------------------------
-- Starts, intervals and ends
-----------------------------------------------------------------------------------------

/-- The last start of a zone, given those behind the beginning of time. -/
def lastStart (start : Int) (later : List Int) : Int := later.getLast?.getD start

/-- Starts increase from a first one on and are instants. -/
structure Ascends (start : Int) (later : List Int) : Prop where
  increasing : (start :: later).IsChain (· < ·)
  bounded : ∀ t ∈ later, t ≤ endOfTime

/-- Intervals begin one behind the other at the given starts, and the last of them has the given
end. -/
inductive Spans (stop : Int) : Int → List Int → List Interval → Prop where
  | last {i : Interval} (stop_eq : i.stop = stop) : Spans stop i.start [] [i]
  | next {i : Interval} {later : List Int} {others : List Interval}
      (behind : Spans stop i.stop later others)
      : Spans stop i.start (i.stop :: later) (i :: others)

variable {stop start : Int} {later : List Int} {is : List Interval}

/-- The last start is one of the starts, and no later than the end of time. -/
theorem Ascends.lastStart_le (ascends : Ascends start later) (le : start ≤ endOfTime)
    : lastStart start later ≤ endOfTime := by
  unfold lastStart
  cases found : later.getLast? with
  | none => exact le
  | some t => exact ascends.bounded t (List.mem_of_getLast? found)

/-- The first interval begins at the first start. -/
theorem Spans.head (spans : Spans stop start later is)
    : ∃ i others, is = i :: others ∧ i.start = start := by
  cases spans with
  | last => exact ⟨_, [], rfl, rfl⟩
  | next => exact ⟨_, _, rfl, rfl⟩

/-- Every interval ends where the next one starts. -/
theorem Spans.touching (spans : Spans stop start later is)
    : is.IsChain fun i j => i.stop = j.start := by
  induction spans with
  | last => exact .singleton _
  | next behind ih =>
      obtain ⟨j, others, rfl, start_eq⟩ := behind.head
      exact List.isChain_cons_cons.mpr ⟨start_eq.symm, ih⟩

/-- The last interval ends at the end. -/
theorem Spans.getLast_stop (spans : Spans stop start later is)
    : is.getLast?.map (·.stop) = some stop := by
  induction spans with
  | last stop_eq => exact congrArg some stop_eq
  | next behind ih =>
      obtain ⟨j, others, rfl, _⟩ := behind.head
      rw [List.getLast?_cons_cons]
      exact ih

/-- Between increasing starts no interval is empty but possibly the last one. -/
theorem Spans.forward (spans : Spans stop start later is) (ascends : Ascends start later)
    {i : Interval} (member : i ∈ is)
    : i.start < i.stop ∨ (i.start = lastStart start later ∧ i.stop = stop) := by
  induction spans with
  | last stop_eq =>
      obtain rfl := List.mem_singleton.mp member
      exact .inr ⟨rfl, stop_eq⟩
  | @next j later others behind ih =>
      obtain ⟨first, increasing⟩ := List.isChain_cons_cons.mp ascends.increasing
      rcases List.mem_cons.mp member with rfl | member
      · exact .inl first
      · have last_eq : lastStart j.start (j.stop :: later) = lastStart j.stop later := by
          rw [lastStart, List.getLast?_cons]
          rfl
        rw [last_eq]
        exact ih ⟨increasing, fun t here => ascends.bounded t (List.mem_cons_of_mem _ here)⟩ member

/-- Every interval ends at a start or at the end. -/
theorem Spans.stop_le (spans : Spans stop start later is) (ascends : Ascends start later)
    (le : stop ≤ endOfTime) {i : Interval} (member : i ∈ is)
    : i.stop ≤ endOfTime := by
  induction spans with
  | last stop_eq =>
      obtain rfl := List.mem_singleton.mp member
      omega
  | @next j later others behind ih =>
      rcases List.mem_cons.mp member with rfl | member
      · exact ascends.bounded _ (by simp)
      · exact ih ⟨(List.isChain_cons_cons.mp ascends.increasing).2,
          fun t here => ascends.bounded t (List.mem_cons_of_mem _ here)⟩ member

/-- Ending the last interval elsewhere keeps all starts. -/
theorem Spans.endLast {other : Int} (spans : Spans other start later is) (stop : Int)
    : Spans stop start later (Decoder.endLast stop is) := by
  induction spans with
  | @last i _ => exact .last (i := { i with stop }) rfl
  | next behind ih =>
      obtain ⟨j, others, rfl, _⟩ := behind.head
      exact .next ih

/-- The intervals begin at the starts. -/
theorem Spans.starts (spans : Spans stop start later is)
    : is.map (·.start) = start :: later := by
  induction spans with
  | last => rfl
  | next _ ih => exact congrArg _ ih

/-- Intervals between increasing starts make up a zone that can be written again, if their offsets
and the tail can be. -/
theorem Spans.rewritable (spans : Spans stop start later is) (ascends : Ascends start later)
    {tail : Option Tail} (offsets : ∀ i ∈ is, i.OffsetsFit)
    (tail_rewritable : ∀ t ∈ tail, t.Rewritable)
    : CompiledZone.Rewritable { intervals := is, tail } where
  increasing := by
    rw [spans.starts]
    exact ascends.increasing
  offsets := offsets
  tail := tail_rewritable

/-- Ending the last interval elsewhere keeps all offsets. -/
theorem offsets_endLast (stop : Int) (offsets : ∀ i ∈ is, i.OffsetsFit)
    : ∀ i ∈ Decoder.endLast stop is, i.OffsetsFit := by
  rcases List.eq_nil_or_concat is with rfl | ⟨front, last, rfl⟩
  · exact offsets
  · rw [List.concat_eq_append, endLast_concat]
    intro i member
    rcases List.mem_append.mp member with earlier | ended
    · exact offsets i (by simp [earlier])
    · rw [List.mem_singleton.mp ended]
      exact offsets last (by simp)

/-- Intervals between increasing starts make up an accepted zone with a tail behind their end. -/
theorem Spans.accepted (spans : Spans stop beginningOfTime later is)
    (ascends : Ascends beginningOfTime later) (le : stop ≤ endOfTime)
    (behind : lastStart beginningOfTime later < stop ∨ stop = endOfTime) {tail : Option Tail}
    (follows : ∀ t ∈ tail, stop = t.start ∧ t.rules.recurrences ≠ [])
    : CompiledZone.Accepted { intervals := is, tail } where
  start_eq := by
    obtain ⟨i, others, rfl, start_eq⟩ := spans.head
    exact congrArg some start_eq
  forward i member := by
    have last_le := ascends.lastStart_le (by decide)
    rcases spans.forward ascends member with lt | ⟨start_eq, stop_eq⟩
    · exact .inl lt
    · omega
  touching := spans.touching
  recurrences t is_tail := (follows t is_tail).2
  adjoining t is_tail := by
    rw [← (follows t is_tail).1]
    exact spans.getLast_stop
  room t is_tail := by
    rw [← (follows t is_tail).1]
    exact le
  bounded i member := spans.stop_le ascends le member

namespace Decoder

variable {strings : Strings}

/-- The starts of the later intervals increase. The induction is on their number. -/
theorem gives_starts (base last : Int) (taken : List Int) (count : Nat)
    : Gives (starts base last taken count) fun found =>
        ∃ later, found = taken.reverse ++ later ∧ Ascends last later := by
  induction count generalizing base last taken with
  | zero => exact gives_pure ⟨[], by simp, .singleton _, by simp⟩
  | succ count ih =>
      refine gives_bind fun difference => ?_
      have le := (Instant.representable_wrap (base + difference)).2
      generalize Instant.wrap (base + difference) = start at le
      dsimp only
      split
      · exact gives_fail _
      · rename_i behind
        intro c found rest run
        obtain ⟨later, rfl, ascends⟩ := ih start start (start :: taken) c found rest run
        refine ⟨start :: later, by simp, ?_, List.forall_mem_cons.mpr ⟨le, ascends.bounded⟩⟩
        exact List.isChain_cons_cons.mpr ⟨by omega, ascends.increasing⟩

/-- The intervals begin at the starts, and the last one is open. Their offsets have sixty-four bits.
The induction is on the starts. -/
theorem gives_intervals (start : Int) (taken : List Interval) (later : List Int)
    : Gives (intervals strings start taken later) fun found =>
        ∃ is, found = taken.reverse ++ is ∧ Spans endOfTime start later is
          ∧ ∀ i ∈ is, i.OffsetsFit := by
  induction later generalizing start taken with
  | nil =>
      refine (gives_interval strings start endOfTime).bind fun i ⟨⟨start_eq, stop_eq⟩, fits⟩ => ?_
      subst start_eq
      exact gives_pure ⟨[i], by simp, .last stop_eq, by simpa using fits⟩
  | cons next later ih =>
      refine (gives_interval strings start next).bind fun i ⟨⟨start_eq, stop_eq⟩, fits⟩ => ?_
      subst start_eq stop_eq
      intro c found rest run
      obtain ⟨is, rfl, spans, others_fit⟩ := ih i.stop (i :: taken) c found rest run
      exact ⟨i :: is, by simp, .next spans, List.forall_mem_cons.mpr ⟨fits, others_fit⟩⟩

/-- The end of the last interval lies behind its start. -/
theorem gives_coverage (later : List Int)
    : Gives (coverage later) fun found =>
        ∀ stop ∈ found, lastStart beginningOfTime later < stop ∧ stop ≤ endOfTime := by
  refine gives_bind fun tag => ?_
  split
  · exact gives_pure (by simp)
  · refine gives_bind fun difference => ?_
    dsimp only
    split
    · exact gives_fail _
    · rename_i behind
      refine gives_pure fun stop found => ?_
      obtain rfl := Option.some.inj found
      exact ⟨Int.not_le.mp behind, (Instant.representable_wrap _).2⟩
  · exact gives_fail _

/-- A tail is read behind an end only. -/
theorem gives_optionalTail (strings : Strings) (stop : Option Int)
    : Gives (optionalTail strings stop) fun found =>
        ∀ t ∈ found, stop = some t.start ∧ t.rules.recurrences ≠ [] ∧ t.Rewritable := by
  refine gives_bind fun tag => ?_
  split
  · exact gives_pure (by simp)
  · cases stop with
    | none => exact gives_fail _
    | some stop =>
        refine (gives_tail strings stop).map fun t ⟨start_eq, holds⟩ other found => ?_
        obtain rfl := Option.some.inj found
        exact ⟨by rw [start_eq], holds⟩
  · exact gives_fail _

/-- Every zone that is read is accepted, and it can be written again. -/
theorem gives_zone (strings : Strings)
    : Gives (zone strings) fun zone => zone.Accepted ∧ zone.Rewritable := by
  refine gives_bind fun count => ?_
  cases count with
  | zero => exact gives_fail _
  | succ count =>
      refine (gives_starts 0 beginningOfTime [] count).bind ?_
      rintro later ⟨_, rfl, ascends⟩
      refine (gives_intervals beginningOfTime [] later).bind ?_
      rintro is ⟨_, rfl, spans, offsets⟩
      refine (gives_coverage later).bind fun stop ends => ?_
      refine (gives_optionalTail strings stop).bind fun tail follows => gives_pure ?_
      cases stop with
      | none =>
          have open_end : ∀ t ∈ tail, endOfTime = t.start ∧ t.rules.recurrences ≠ [] := by
            intro t is_tail
            exact absurd (follows t is_tail).1 (by simp)
          refine ⟨spans.accepted ascends (Int.le_refl _) (.inr rfl) open_end, ?_⟩
          exact spans.rewritable ascends offsets fun t is_tail => (follows t is_tail).2.2
      | some stop =>
          obtain ⟨behind, le⟩ := ends stop rfl
          have adjoining : ∀ t ∈ tail, stop = t.start ∧ t.rules.recurrences ≠ [] := by
            intro t is_tail
            obtain ⟨stop_eq, recurrences, _⟩ := follows t is_tail
            exact ⟨Option.some.inj stop_eq, recurrences⟩
          have ended := spans.endLast stop
          refine ⟨ended.accepted ascends le (.inl behind) adjoining, ?_⟩
          exact ended.rewritable ascends (offsets_endLast stop offsets)
            fun t is_tail => (follows t is_tail).2.2

end Decoder

-----------------------------------------------------------------------------------------
-- The zones of an artifact
-----------------------------------------------------------------------------------------

variable {s : Sections} {index found : ZoneIndex}

/-- What holds of every zone that is read at a place holds of the zones of a directory, if it does
of those that have been read. The induction is on the directory. -/
theorem Sections.index_all {P : Nat → CompiledZone → Prop} {directory : List (Nat × Nat)}
    {decoded : List (Nat × CompiledZone)}
    (holds : ∀ place zone, s.zoneAt place = .ok zone → P place zone)
    (decoded_hold : ∀ entry ∈ decoded, P entry.1 entry.2)
    (index_hold : ∀ entry ∈ index, P entry.2.token entry.2.zone)
    (indexed : s.index directory decoded index = .ok found)
    : ∀ entry ∈ found, P entry.2.token entry.2.zone := by
  induction directory generalizing decoded index with
  | nil =>
      obtain rfl := Except.ok.inj indexed
      exact index_hold
  | cons reference rest ih =>
      obtain ⟨nameIndex, place⟩ := reference
      obtain ⟨name, _, indexed⟩ := bind_eq_ok.mp indexed
      obtain ⟨zone, read, indexed⟩ := bind_eq_ok.mp indexed
      have zone_holds : P place zone := by
        unfold zoneOnce at read
        split at read
        · rename_i known
          obtain rfl := Except.ok.inj read
          obtain ⟨front, back, rfl, _⟩ := List.lookup_eq_some_iff.mp known
          exact decoded_hold (place, _) (by simp)
        · exact holds place zone read
      refine ih (List.forall_mem_cons.mpr ⟨zone_holds, decoded_hold⟩) ?_ indexed
      intro entry member
      rcases Table.eq_or_mem_of_insertSorted member with rfl | former
      · exact zone_holds
      · exact index_hold entry former

/-- A zone that is read at a place is accepted, and it can be written again. -/
theorem Sections.zoneAt_holds {place : Nat} {zone : CompiledZone}
    (read : s.zoneAt place = .ok zone)
    : zone.Accepted ∧ zone.Rewritable := by
  unfold zoneAt at read
  split at read
  · cases read
  · exact (Decoder.gives_zone s.strings).decode read

/-- The zones that are read for a directory are accepted, if those that have been read are. -/
theorem Sections.index_accepted {directory : List (Nat × Nat)}
    {decoded : List (Nat × CompiledZone)}
    (decoded_accepted : ∀ entry ∈ decoded, entry.2.Accepted)
    (accepted : ∀ entry ∈ index, entry.2.zone.Accepted)
    (indexed : s.index directory decoded index = .ok found)
    : ∀ entry ∈ found, entry.2.zone.Accepted :=
  index_all (P := fun _ zone => zone.Accepted) (fun _ _ read => (zoneAt_holds read).1)
    decoded_accepted accepted indexed

/-- The zones that are read for a directory are ordered by name. The induction is on the directory.
-/
theorem Sections.index_ordered {directory : List (Nat × Nat)}
    {decoded : List (Nat × CompiledZone)} (ordered : index.names.Pairwise (· < ·))
    (indexed : s.index directory decoded index = .ok found)
    : found.names.Pairwise (· < ·) := by
  induction directory generalizing decoded index with
  | nil =>
      obtain rfl := Except.ok.inj indexed
      exact ordered
  | cons reference rest ih =>
      obtain ⟨name, _, indexed⟩ := bind_eq_ok.mp indexed
      obtain ⟨zone, _, indexed⟩ := bind_eq_ok.mp indexed
      exact ih (Table.pairwise_insertSorted ordered name _) indexed

/-- Every zone that is read from an artifact is accepted, and it is well formed unless something of
it starts at the end of time. -/
theorem read_accepted {bytes : List UInt8} {name : String} {shared : SharedZone}
    (read : Artifact.read bytes = .ok found) (member : (name, shared) ∈ found)
    : shared.zone.Accepted ∧ (shared.zone.WellFormed ↔ ¬ shared.zone.StartsAtEnd) := by
  obtain ⟨sections, _, indexed⟩ := bind_eq_ok.mp read
  have accepted := Sections.index_accepted (by simp) (by simp) indexed _ member
  exact ⟨accepted, accepted.wellFormed_iff⟩

/-- An artifact of a zone with two intervals and a tail behind them. -/
def summerBytes : List UInt8 :=
  [ 84, 90, 68, 67, 1, 5, 1, 83, 1, 68, 3, 37, 115, 84, 1, 82, 1, 88, 1, 4, 0, 50, 2, 128, 246,
    226, 139, 7, 0, 0, 0, 160, 56, 160, 56, 1, 1, 128, 254, 151, 20, 1, 0, 2, 0, 1, 2, 3, 1, 160,
    31, 2, 3, 0, 1, 0, 2, 160, 56, 2, 3, 1, 160, 31, 2, 11, 0, 1, 0, 2, 0, 1 ]

/-- A zone with a tail behind its intervals is accepted and well formed. -/
theorem read_accepted_summer
    : ∃ found shared,
        Artifact.read summerBytes = .ok found
        ∧ ("X", shared) ∈ found
        ∧ shared.zone.tail.isSome = true
        ∧ shared.zone.Accepted
        ∧ shared.zone.WellFormed := by
  have held
      : ∃ found ∈ (Artifact.read summerBytes).toOption, ∃ entry ∈ found,
          entry.1 = "X"
          ∧ entry.2.zone.tail.isSome = true
          ∧ ¬ entry.2.zone.StartsAtEnd := by
    decide +kernel
  obtain ⟨found, read, ⟨_, shared⟩, member, rfl, has_tail, apart⟩ := held
  have read := mem_toOption.mp read
  obtain ⟨accepted, wellFormed_iff⟩ := read_accepted read member
  exact ⟨found, shared, read, member, has_tail, accepted, wellFormed_iff.mpr apart⟩

/-- An artifact of a zone whose second interval starts at the end of time and never ends. -/
def emptyIntervalBytes : List UInt8 :=
  [ 84, 90, 68, 67, 1, 3, 1, 65, 1, 66, 1, 88, 1, 2, 0, 20, 2, 254, 255, 255, 255, 255, 255, 255,
    255, 255, 1, 0, 0, 0, 160, 56, 0, 1, 0, 0 ]

/-- An artifact of a zone whose only interval is ended at the end of time, with a tail behind it. -/
def endlessTailBytes : List UInt8 :=
  [ 84, 90, 68, 67, 1, 6, 1, 65, 3, 37, 115, 84, 1, 83, 1, 82, 1, 68, 1, 88, 1, 5, 0, 46, 1, 0,
    0, 0, 1, 254, 255, 255, 255, 255, 255, 255, 255, 255, 1, 1, 0, 1, 0, 3, 2, 3, 1, 160, 31, 2,
    3, 0, 1, 0, 2, 160, 56, 5, 3, 1, 160, 31, 2, 11, 0, 1, 0, 2, 0, 3 ]

/-- The reader accepts an interval that is empty, and a tail without room behind an interval that
never ends. -/
theorem read_not_wellFormed
    : (∃ found ∈ (Artifact.read emptyIntervalBytes).toOption,
        ∃ entry ∈ found, ¬ entry.2.zone.WellFormed)
      ∧ ∃ found ∈ (Artifact.read endlessTailBytes).toOption,
          ∃ entry ∈ found, ¬ entry.2.zone.WellFormed := by
  decide +kernel

end Artifact

end CivilTime
