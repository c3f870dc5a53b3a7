import CivilTime.Proofs.Artifact.Sharing

/-! An artifact that has been cut short is noticed, and what stands behind one is not looked at.
The reader takes all sections before it looks into a zone, and it decides on each value by the bytes
up to its end. Of a part of these bytes it can therefore only say that they end too early.
-/

namespace CivilTime.Artifact

variable {α β : Type} {decoder : Decoder α} {next : α → Decoder β} {bytes others : List UInt8}
  {value : α} {result : β}

/-- A decoder finds that the bytes end too early wherever they are only a part of some bytes. -/
def RunsOut (decoder : Decoder α) (bytes : List UInt8) : Prop :=
  ∀ c,
    c.Consistent
    → c.rest <+: bytes
    → c.rest ≠ bytes
    → decoder.run c = .error (.unexpectedEnd c.size)

/-- A decoder takes a value from some bytes, whatever follows them, and from no part of them. -/
structure Takes (decoder : Decoder α) (bytes : List UInt8) (value : α) : Prop where
  decodes : Decodes decoder bytes value
  runsOut : RunsOut decoder bytes

/-- Every value that a decoder gives is taken from the bytes in front of those that it leaves. -/
def Exact (decoder : Decoder α) : Prop :=
  ∀ c value left,
    c.Consistent
    → decoder.run c = .ok (value, left)
    → ∃ bytes, c.rest = bytes ++ left.rest ∧ Takes decoder bytes value

-----------------------------------------------------------------------------------------
-- Sequences of decoders
-----------------------------------------------------------------------------------------

/-- There is no part of no bytes. -/
theorem takes_pure (value : α) : Takes (pure value) [] value where
  decodes := decodes_pure value
  runsOut _ _ begins shorter := absurd (List.prefix_nil.mp begins) shorter

/-- A part of the bytes of a sequence stops in those of the first decoder or in those of the second
one. -/
theorem Takes.bind (first : Takes decoder bytes value) (later : Takes (next value) others result)
    : Takes (decoder >>= next) (bytes ++ others) result where
  decodes := first.decodes.bind later.decodes
  runsOut c consistent begins shorter := by
    rw [StateT.run_bind]
    by_cases reached : bytes <+: c.rest
    · obtain ⟨part, rest_eq⟩ := reached
      rw [← rest_eq, List.prefix_append_right_inj] at begins
      rw [first.decodes c part consistent rest_eq.symm]
      refine later.runsOut _ (consistent.behind rest_eq.symm) begins ?_
      rintro rfl
      exact shorter rest_eq.symm
    · have inside : c.rest <+: bytes :=
        (List.prefix_or_prefix_of_prefix begins (List.prefix_append bytes others)).resolve_right
          reached
      have stops : c.rest ≠ bytes := fun whole => reached (whole ▸ List.prefix_refl bytes)
      rw [first.runsOut c consistent inside stops]
      rfl

/-- A look at the cursor takes no bytes. -/
theorem takes_get {next : Cursor → Decoder β} (later : ∀ c, Takes (next c) bytes result)
    : Takes (get >>= next) bytes result where
  decodes := decodes_get fun c => (later c).decodes
  runsOut c := (later c).runsOut c

theorem exact_pure (value : α) : Exact (pure value) := by
  intro c result left _ taken
  obtain ⟨rfl, rfl⟩ := Prod.mk.inj (pure_eq_ok.mp taken)
  exact ⟨[], rfl, takes_pure value⟩

/-- A decoder that fails gives nothing, whatever is meant to follow it. -/
theorem exact_fail_bind (error : DecodeError) (next : α → Decoder β)
    : Exact (Decoder.fail error >>= next) := by
  intro c value left _ taken
  cases taken

/-- An exact decoder leaves a consistent cursor. -/
theorem Exact.consistent (exact_decoder : Exact decoder) {c left : Cursor}
    (consistent : c.Consistent) (taken : decoder.run c = .ok (value, left))
    : left.Consistent := by
  obtain ⟨bytes, rest_eq, takes⟩ := exact_decoder c value left consistent taken
  have stopped := takes.decodes c left.rest consistent rest_eq
  obtain ⟨-, left_eq⟩ := Prod.mk.inj (Except.ok.inj (taken.symm.trans stopped))
  rw [left_eq]
  exact consistent.behind rest_eq

theorem Exact.bind (first : Exact decoder) (later : ∀ value, Exact (next value))
    : Exact (decoder >>= next) := by
  intro c result left consistent taken
  rw [StateT.run_bind] at taken
  obtain ⟨⟨value, between⟩, first_taken, taken⟩ := bind_eq_ok.mp taken
  obtain ⟨bytes, rest_eq, takes⟩ := first c value between consistent first_taken
  obtain ⟨others, left_eq, later_takes⟩ :=
    later value between result left (first.consistent consistent first_taken) taken
  refine ⟨bytes ++ others, ?_, takes.bind later_takes⟩
  rw [rest_eq, left_eq, List.append_assoc]

/-- A value that is taken from some bytes is taken from no part of them by an exact decoder. -/
theorem Exact.takes (exact_decoder : Exact decoder) (taken : Decodes decoder bytes value)
    : Takes decoder bytes value := by
  have consistent := Cursor.consistent_ofBytes bytes
  have whole := taken (.ofBytes bytes) [] consistent (List.append_nil bytes).symm
  obtain ⟨used, bytes_eq, takes⟩ := exact_decoder _ value _ consistent whole
  obtain rfl : bytes = used := bytes_eq.trans (List.append_nil used)
  exact takes

/-- A part of the bytes of a value is found to end too early. -/
theorem Takes.decode_part (takes : Takes decoder bytes value) {part : List UInt8}
    (begins : part <+: bytes) (shorter : part ≠ bytes)
    : decoder.decode part = .error (.unexpectedEnd part.length) := by
  rw [Decoder.decode, takes.runsOut _ (Cursor.consistent_ofBytes part) begins shorter]
  rfl

-----------------------------------------------------------------------------------------
-- The decoders of the sections
-----------------------------------------------------------------------------------------

namespace Decoder

theorem exact_byte : Exact byte := by
  intro c value left consistent taken
  obtain ⟨rest, position, size⟩ := c
  cases rest with
  | nil => cases taken
  | cons b rest =>
      obtain ⟨rfl, rfl⟩ := Prod.mk.inj (Except.ok.inj taken)
      refine ⟨[b], rfl, decodes_byte rfl, fun other _ begins shorter => ?_⟩
      obtain ⟨rest, position, size⟩ := other
      rcases List.prefix_cons_iff.mp begins with rfl | ⟨others, rfl, nothing⟩
      · rfl
      · exact absurd (congrArg _ (List.prefix_nil.mp nothing)) shorter

theorem exact_take (count : Nat) : Exact (take count) := by
  intro c value left consistent taken
  by_cases inside : c.position + count ≤ c.size
  · have length_eq : (c.rest.take count).length = count := by
      rw [List.length_take]
      unfold Cursor.Consistent at consistent
      omega
    have split_eq : c.rest = c.rest.take count ++ c.rest.drop count :=
      (List.take_append_drop count c.rest).symm
    have decodes := decodes_take (c.rest.take count)
    rw [length_eq] at decodes
    rw [decodes c _ consistent split_eq] at taken
    obtain ⟨rfl, rfl⟩ := Prod.mk.inj (Except.ok.inj taken)
    refine ⟨_, split_eq, decodes, fun other consistent begins shorter => ?_⟩
    have shorter_length : other.rest.length < count := by
      refine Nat.lt_of_le_of_ne (length_eq ▸ begins.length_le) fun same => shorter ?_
      exact begins.eq_of_length (same.trans length_eq.symm)
    have beyond : ¬ other.position + count ≤ other.size := by
      unfold Cursor.Consistent at consistent
      omega
    rw [take, StateT.run_bind, StateT.run_get, pure_bind, if_neg beyond]
    rfl
  · rw [take, StateT.run_bind, StateT.run_get, pure_bind, if_neg inside] at taken
    cases taken

theorem exact_varint : Exact varint := by
  intro c value left consistent taken
  rw [varint, StateT.run_bind, StateT.run_get, pure_bind] at taken
  split at taken
  case h_1 => cases taken
  case h_2 => cases taken
  case h_3 n size rest read =>
    obtain ⟨rfl, rfl⟩ := Prod.mk.inj (Except.ok.inj taken)
    obtain ⟨front, rest_eq, size_eq, onward, ended⟩ := readGroups_number read
    refine ⟨front, rest_eq, fun other rest _ rest_eq => ?_, fun other _ begins shorter => ?_⟩
    · rw [varint, StateT.run_bind, StateT.run_get, pure_bind, readVarint, rest_eq, onward]
      rw [size_eq, Nat.zero_add]
      rfl
    · rw [varint, StateT.run_bind, StateT.run_get, pure_bind, readVarint, ended _ begins shorter]
      rfl

/-- The values of a list are taken one behind the other. The induction is on their number. -/
theorem exact_takeMany (each : Exact decoder) (taken : List α) (count : Nat)
    : Exact (takeMany decoder taken count) := by
  induction count generalizing taken with
  | zero => exact exact_pure _
  | succ count ih => exact each.bind fun value => ih (value :: taken)

theorem exact_entry : Exact entry :=
  exact_varint.bind fun _ => exact_varint.bind fun _ => exact_pure _

/-- A string is taken from its length and its bytes. Its position matters only if it is refused. -/
theorem exact_text : Exact text := by
  intro c value left consistent taken
  rw [text, StateT.run_bind] at taken
  obtain ⟨⟨length, between⟩, length_taken, taken⟩ := bind_eq_ok.mp taken
  obtain ⟨front, rest_eq, takes_length⟩ := exact_varint c length between consistent length_taken
  rw [StateT.run_bind, StateT.run_get, pure_bind, StateT.run_bind] at taken
  obtain ⟨⟨bytes, behind⟩, bytes_taken, taken⟩ := bind_eq_ok.mp taken
  obtain ⟨back, between_eq, takes_bytes⟩ := exact_take length between bytes behind
    (exact_varint.consistent consistent length_taken) bytes_taken
  dsimp only at taken
  cases decoded : Text.decode? bytes with
  | none => simp only [decoded] at taken; cases taken
  | some s =>
      simp only [decoded] at taken
      obtain ⟨rfl, rfl⟩ := Prod.mk.inj (pure_eq_ok.mp taken)
      refine ⟨front ++ (back ++ []), ?_,
        takes_length.bind (takes_get fun c => takes_bytes.bind ?_)⟩
      · rw [rest_eq, between_eq, List.append_nil, List.append_assoc]
      · simp only [decoded]
        exact takes_pure s

/-- The sections of an artifact are taken one behind the other. -/
theorem exact_sections : Exact sections := by
  refine (exact_take _).bind fun start => ?_
  split
  case isTrue => exact exact_fail_bind _ _
  case isFalse =>
    refine exact_byte.bind fun found => ?_
    split
    case isTrue => exact exact_fail_bind _ _
    case isFalse =>
      refine exact_varint.bind fun strings => (exact_takeMany exact_text _ _).bind fun _ => ?_
      refine exact_varint.bind fun entries => (exact_takeMany exact_entry _ _).bind fun _ => ?_
      exact exact_varint.bind fun length => (exact_take length).bind fun _ => exact_pure _

end Decoder

-----------------------------------------------------------------------------------------
-- Artifacts
-----------------------------------------------------------------------------------------

/-- The places in a directory lie inside the bytes of all zones. -/
theorem Writer.Separates.inside {w : Writer} {added : ZoneIndex} (separates : w.Separates added)
    : ∀ entry ∈ w.directory, entry.2 ≤ w.size := by
  refine ((List.forall₂_and_left _ _).mp (separates.directory.imp fun _ _ agree => ⟨?_, agree⟩)).1
  exact (separates.before_end _ agree.2).le

/-- Every part of an artifact is found to end too early, at the end of the part, and bytes behind an
artifact change nothing. The zones need not be ones that the reader accepts. -/
theorem read_ofIndex_cut {added : ZoneIndex}
    (short : (Writer.ofIndex added).finish.length < 2 ^ 64)
    : (∀ part,
        part <+: (Writer.ofIndex added).finish
        → part ≠ (Writer.ofIndex added).finish
        → read part = .error (.unexpectedEnd part.length))
      ∧ ∀ others,
          read ((Writer.ofIndex added).finish ++ others) = read (Writer.ofIndex added).finish := by
  have separates := Writer.separates_ofIndex added
  obtain ⟨sections, taken, -⟩ := decodes_sections separates.size_eq separates.inside short
  refine ⟨fun part begins shorter => ?_, fun others => ?_⟩
  · rw [read, (Decoder.exact_sections.takes taken).decode_part begins shorter]
    rfl
  · have whole := taken.decode_append []
    rw [List.append_nil] at whole
    rw [read, read, taken.decode_append others, whole]

/-- A zone of two intervals with the same start, which the reader rejects. -/
def stalledZone : CompiledZone :=
  { intervals :=
      [ { start := beginningOfTime, stop := 0, stdOffset := 3600, savings := 0, name := "CET" },
        { start := beginningOfTime, stop := 0, stdOffset := 0, savings := 0, name := "GMT" } ]
    tail := none }

/-- Witness: without its last byte an artifact ends too early, and only the whole of it shows that a
zone is rejected. -/
theorem read_ofIndex_cut_stalled
    : (Writer.ofIndex [("A", ⟨0, stalledZone⟩)]).finish.length < 2 ^ 64
      ∧ read (Writer.ofIndex [("A", ⟨0, stalledZone⟩)]).finish.dropLast
        = .error (.unexpectedEnd 49)
      ∧ read ((Writer.ofIndex [("A", ⟨0, stalledZone⟩)]).finish ++ [0xff])
        = .error (.inconsistent .startsNotIncreasing) := by
  have short : (Writer.ofIndex [("A", ⟨0, stalledZone⟩)]).finish.length < 2 ^ 64 := by
    decide +kernel
  obtain ⟨ends_early, ignores⟩ := read_ofIndex_cut short
  refine ⟨short, ?_, ?_⟩
  · rw [ends_early _ (List.dropLast_prefix _) (by decide +kernel)]
    decide +kernel
  · rw [ignores]
    decide +kernel

end CivilTime.Artifact
