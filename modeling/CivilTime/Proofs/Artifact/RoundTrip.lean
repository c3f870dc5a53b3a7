import CivilTime.Proofs.Artifact.Writer

/-! An artifact is read as the zones that have been added to it.
The strings at the end of the writing begin with those of every zone, the directory refers to them
and to the places of the zones, and at its place each zone is read. A zone that is rejected there
takes the whole artifact with it.
-/

namespace CivilTime.Artifact

-----------------------------------------------------------------------------------------
-- The sections
-----------------------------------------------------------------------------------------

/-- Related values have values between them, one for each pair. -/
theorem exists_between {α β γ : Type} {R : α → β → Prop} {S : β → γ → Prop} {front : List α}
    {back : List γ} (related : List.Forall₂ (fun a c => ∃ b, R a b ∧ S b c) front back)
    : ∃ middle, List.Forall₂ R front middle ∧ List.Forall₂ S middle back := by
  induction related with
  | nil => exact ⟨[], .nil, .nil⟩
  | cons here _ ih =>
      obtain ⟨b, left, right⟩ := here
      obtain ⟨middle, lefts, rights⟩ := ih
      exact ⟨b :: middle, .cons left lefts, .cons right rights⟩

/-- Values that are related over others, one for each of those between. -/
theorem forall₂_trans {α β γ : Type} {R : α → β → Prop} {S : β → γ → Prop} {front : List α}
    {middle : List β} {back : List γ} (lefts : List.Forall₂ R front middle)
    (rights : List.Forall₂ S middle back)
    : List.Forall₂ (fun a c => ∃ b, R a b ∧ S b c) front back := by
  induction lefts generalizing back with
  | nil =>
      cases rights
      exact .nil
  | cons left _ ih =>
      cases rights with
      | cons right rights => exact .cons ⟨_, left, right⟩ (ih rights)

/-- A directory entry of an artifact leads from a name to a place, under the strings of the
artifact. -/
def Refers (strings : Strings) (indices : Nat × Nat) (entry : String × Nat) : Prop :=
  Decoder.stringAt strings indices.1 = .ok entry.1 ∧ indices.2 = entry.2

/-- Writing a directory entry keeps the strings. -/
theorem keeps_entry (entry : String × Nat) : Keeps (Writer.entryBytes entry) :=
  keeps_intern entry.1

/-- A directory entry takes at least one byte. -/
theorem entry_length_pos (entry : String × Nat) (strings : Strings)
    : 0 < ((Writer.entryBytes entry).run strings).1.length := by
  have some_byte := writeVarint_length_pos entry.2
  change 0 < (_ ++ writeVarint entry.2).length
  rw [List.length_append]
  omega

/-- A directory entry is read as one that refers to the name and the place. -/
theorem decodes_entry {entry : String × Nat} {strings final : Strings}
    (place_fits : entry.2 < 2 ^ 64)
    (within : ((Writer.entryBytes entry).run strings).2 <+: final) (fits : final.length < 2 ^ 64)
    : ∃ indices,
        Decodes Decoder.entry ((Writer.entryBytes entry).run strings).1 indices
        ∧ Refers final indices entry := by
  obtain ⟨inside, found⟩ := intern_within entry.1 within
  refine ⟨(((Encoder.intern entry.1).run strings).1, entry.2), ?_, found, rfl⟩
  refine (Decoder.decodes_varint (inside.trans fits)).bind ?_
  exact (Decoder.decodes_varint place_fits).bind_nil (decodes_pure _)

/-- A string takes at least one byte, and its text no more bytes than it. -/
theorem stringBytes_length (s : String)
    : 0 < (Writer.stringBytes s).length
      ∧ (Text.encode s).length ≤ (Writer.stringBytes s).length := by
  have some_byte := writeVarint_length_pos (Text.encode s).length
  unfold Writer.stringBytes
  rw [List.length_append]
  omega

/-- Strings are no more than their bytes, by induction on the strings. -/
theorem length_le_stringBytes (strings : Strings)
    : strings.length ≤ (strings.flatMap Writer.stringBytes).length := by
  induction strings with
  | nil => exact Nat.le_refl 0
  | cons s rest ih =>
      have some_byte := (stringBytes_length s).1
      rw [List.flatMap_cons, List.length_append, List.length_cons]
      omega

/-- Strings whose bytes can be counted are read as they are written. -/
theorem decodes_strings {strings : Strings}
    (short : (strings.flatMap Writer.stringBytes).length < 2 ^ 64)
    : Decodes (Decoder.many strings.length Decoder.text) (strings.flatMap Writer.stringBytes)
        strings := by
  rw [List.flatMap_def] at short ⊢
  refine Decoder.decodes_many (List.forall₂_map_left_iff.mpr (List.forall₂_same.mpr ?_))
  intro s member
  have listed : Writer.stringBytes s ∈ strings.map Writer.stringBytes :=
    List.mem_map_of_mem member
  have part := (List.sublist_flatten_of_mem listed).length_le
  exact Decoder.decodes_text s
    (Nat.lt_of_le_of_lt ((stringBytes_length s).2.trans part) short)

/-- The bytes of an artifact are those of its sections. -/
theorem Writer.finish_eq (w : Writer)
    : w.finish
      = magic ++ [version]
        ++ writeVarint ((Encoder.each entryBytes w.directory).run w.strings).2.length
        ++ ((Encoder.each entryBytes w.directory).run w.strings).2.flatMap stringBytes
        ++ writeVarint w.directory.length
        ++ ((Encoder.each entryBytes w.directory).run w.strings).1
        ++ writeVarint w.size ++ w.blob :=
  rfl

/-- The bytes of the zones are among those of the artifact. -/
theorem Writer.blob_length_le (w : Writer) : w.blob.length ≤ w.finish.length := by
  rw [w.finish_eq, List.length_append]
  exact Nat.le_add_left _ _

/-- The sections of an artifact whose bytes can be counted are taken from them as they are written.
-/
theorem decodes_sections {w : Writer} (size_eq : w.size = w.blob.length)
    (inside : ∀ entry ∈ w.directory, entry.2 ≤ w.size) (short : w.finish.length < 2 ^ 64)
    : ∃ sections,
        Decodes Decoder.sections w.finish sections
        ∧ w.strings <+: sections.strings
        ∧ sections.strings.length < 2 ^ 64
        ∧ List.Forall₂ (Refers sections.strings) sections.directory w.directory
        ∧ sections.zones = w.blob := by
  rw [w.finish_eq] at short ⊢
  have entries_length := length_le_each entry_length_pos w.directory w.strings
  have within := keeps_each keeps_entry w.directory w.strings
  generalize written_eq : (Encoder.each Writer.entryBytes w.directory).run w.strings = written at *
  obtain ⟨entries, final⟩ := written
  simp only [List.length_append] at short entries_length within
  have strings_fit : final.length < 2 ^ 64 :=
    Nat.lt_of_le_of_lt (length_le_stringBytes final) (by omega)
  have strings : Decodes (Decoder.many final.length Decoder.text) _ final :=
    decodes_strings (by omega)
  obtain ⟨parts, parts_eq, related⟩ :=
    each_parts
      (R := fun part entry =>
        ∃ indices, Decodes Decoder.entry part indices ∧ Refers final indices entry)
      keeps_entry
      (fun entry member strings within => by
        refine decodes_entry ?_ within strings_fit
        have := inside entry member
        omega)
      w.strings (by simp only [written_eq, List.prefix_refl])
  obtain ⟨directory, decoded, refers⟩ := exists_between related
  refine ⟨⟨final, directory, w.blob⟩, ?_, within, strings_fit, refers, rfl⟩
  have entry_list := Decoder.decodes_many decoded
  rw [refers.length_eq, ← parts_eq, written_eq] at entry_list
  have zones := Decoder.decodes_take w.blob
  rw [← size_eq] at zones
  have read
      : Decodes Decoder.sections
          (magic ++ ([version] ++ (writeVarint final.length
            ++ (final.flatMap Writer.stringBytes ++ (writeVarint w.directory.length
            ++ (entries ++ (writeVarint w.size ++ w.blob)))))))
          ⟨final, directory, w.blob⟩ := by
    refine (Decoder.decodes_take magic).bind ?_
    simp only [ne_eq, not_true_eq_false, if_false]
    refine (Decoder.decodes_byte rfl).bind ?_
    simp only [not_true_eq_false, if_false]
    refine (Decoder.decodes_varint strings_fit).bind (strings.bind ?_)
    refine (Decoder.decodes_varint (by omega)).bind (entry_list.bind ?_)
    exact (Decoder.decodes_varint (by omega)).bind (zones.bind_nil (decodes_pure _))
  simpa only [List.append_assoc] using read

/-- The sections of an artifact whose bytes can be counted are read as they are written. -/
theorem decode_sections {w : Writer} (size_eq : w.size = w.blob.length)
    (inside : ∀ entry ∈ w.directory, entry.2 ≤ w.size) (short : w.finish.length < 2 ^ 64)
    : ∃ sections,
        Decoder.sections.decode w.finish = .ok sections
        ∧ w.strings <+: sections.strings
        ∧ sections.strings.length < 2 ^ 64
        ∧ List.Forall₂ (Refers sections.strings) sections.directory w.directory
        ∧ sections.zones = w.blob := by
  obtain ⟨sections, taken, kept⟩ := decodes_sections size_eq inside short
  have whole := taken.decode_append []
  rw [List.append_nil] at whole
  exact ⟨sections, whole, kept⟩

-----------------------------------------------------------------------------------------
-- The index
-----------------------------------------------------------------------------------------

/-- A directory entry leads to a name and to the zone that stands at the place. -/
def Sections.Leads (s : Sections) (indices : Nat × Nat) (entry : String × SharedZone) : Prop :=
  Decoder.stringAt s.strings indices.1 = .ok entry.1
  ∧ indices.2 = entry.2.token
  ∧ s.zoneAt indices.2 = .ok entry.2.zone

/-- A zone that has been read is the one at its place, so it need not be read again. -/
theorem zoneOnce_eq {s : Sections} {decoded : List (Nat × CompiledZone)}
    (consistent : ∀ entry ∈ decoded, s.zoneAt entry.1 = .ok entry.2) (place : Nat)
    : s.zoneOnce decoded place = s.zoneAt place := by
  unfold Sections.zoneOnce
  split
  case h_1 zone found =>
    obtain ⟨front, back, rfl, _⟩ := List.lookup_eq_some_iff.mp found
    exact (consistent (place, zone) (by simp)).symm
  case h_2 => rfl

/-- The zones are indexed under the names of their directory entries. The induction is on the
entries, with the zones that have been read. -/
theorem index_eq {s : Sections} {directory : List (Nat × Nat)} {entries : ZoneIndex}
    {decoded : List (Nat × CompiledZone)} (index : ZoneIndex)
    (leads : List.Forall₂ s.Leads directory entries)
    (consistent : ∀ entry ∈ decoded, s.zoneAt entry.1 = .ok entry.2)
    : s.index directory decoded index
      = .ok
          (entries.foldl (fun result (name, shared) => result.insertSorted name shared) index) := by
  induction leads generalizing decoded index with
  | nil => rfl
  | @cons indices entry directory entries here _ ih =>
      obtain ⟨number, place⟩ := indices
      obtain ⟨name, token, zone⟩ := entry
      obtain ⟨name_eq, place_eq, at_place⟩ := here
      dsimp only at name_eq place_eq at_place
      subst place_eq
      rw [Sections.index, name_eq, zoneOnce_eq consistent, at_place]
      refine ih _ fun entry member => ?_
      rcases List.mem_cons.mp member with rfl | earlier
      · exact at_place
      · exact consistent entry earlier

/-- If the zones of a directory are rejected for one reason only, the first one that is rejected
ends the reading with it. The induction is on the entries, with the zones that have been read. -/
theorem index_eq_error {s : Sections} {directory : List (Nat × Nat)} {entries : ZoneIndex}
    {outcome : CompiledZone → Except DecodeError CompiledZone} {error : DecodeError}
    {decoded : List (Nat × CompiledZone)} (index : ZoneIndex)
    (related
      : List.Forall₂
          (fun indices stored =>
            Decoder.stringAt s.strings indices.1 = .ok stored.1
            ∧ s.zoneAt indices.2 = outcome stored.2.zone)
          directory entries)
    (alone : ∀ entry ∈ entries, ∀ other, outcome entry.2.zone = .error other → other = error)
    (rejected : ∃ entry ∈ entries, ∃ other, outcome entry.2.zone = .error other)
    (consistent : ∀ entry ∈ decoded, s.zoneAt entry.1 = .ok entry.2)
    : s.index directory decoded index = .error error := by
  induction related generalizing decoded index with
  | nil =>
      obtain ⟨entry, member, _⟩ := rejected
      cases member
  | @cons indices entry directory entries here _ ih =>
      obtain ⟨number, place⟩ := indices
      obtain ⟨name_eq, at_place⟩ := here
      obtain ⟨alone_here, alone⟩ := List.forall_mem_cons.mp alone
      dsimp only at name_eq at_place
      rw [Sections.index, name_eq, zoneOnce_eq consistent, at_place]
      cases result : outcome entry.2.zone with
      | error other =>
          rw [alone_here other result]
          rfl
      | ok zone =>
          refine ih _ alone ?_ (List.forall_mem_cons.mpr ⟨at_place.trans result, consistent⟩)
          obtain ⟨found, member, other, failed⟩ := rejected
          rcases List.mem_cons.mp member with rfl | later
          · rw [result] at failed
            cases failed
          · exact ⟨found, later, other, failed⟩

-----------------------------------------------------------------------------------------
-- The artifact
-----------------------------------------------------------------------------------------

/-- The directory of an artifact that can be measured in sixty-four bits leads from the names that
have been added, in their order, to what the reader comes to on their zones. -/
theorem decode_finish {added : ZoneIndex} (outcome : CompiledZone → Except DecodeError CompiledZone)
    (shares : added.Shares)
    (comesTo : ∀ entry ∈ added, ZoneComesTo entry.2.zone (outcome entry.2.zone))
    (short : (Writer.ofIndex added).finish.length < 2 ^ 64)
    : ∃ sections,
        Decoder.sections.decode (Writer.ofIndex added).finish = .ok sections
        ∧ List.Forall₂
            (fun indices stored =>
              Decoder.stringAt sections.strings indices.1 = .ok stored.1
              ∧ sections.zoneAt indices.2 = outcome stored.2.zone)
            sections.directory added.sorted := by
  have holds := Writer.holds_ofIndex shares
  generalize Writer.ofIndex added = w at *
  have inside : ∀ entry ∈ w.directory, entry.2 ≤ w.size := by
    rw [holds.size_eq]
    exact ((List.forall₂_and_left _ _).mp
      (holds.directory.imp fun _ _ agree => ⟨agree.2.inside, agree⟩)).1
  obtain ⟨sections, sections_eq, within, fits, refers, zones_eq⟩ :=
    decode_sections holds.size_eq inside short
  have blob_short := Nat.lt_of_le_of_lt w.blob_length_le short
  refine ⟨sections, sections_eq, ?_⟩
  have agree
      : List.Forall₂
          (fun stored place =>
            ZoneComesTo stored.2.zone (outcome stored.2.zone)
            ∧ Table.Agree (fun place shared => w.Stores place shared.zone) place stored)
          added.sorted w.directory :=
    (List.forall₂_and_left _ _).mpr
      ⟨fun stored member => comesTo stored (Table.mem_of_mem_sorted member), holds.directory.flip⟩
  refine (forall₂_trans refers agree.flip).imp fun indices stored between => ?_
  obtain ⟨entry, ⟨name_eq, place_eq⟩, comes, same, stores⟩ := between
  rw [← same]
  refine ⟨name_eq, ?_⟩
  rw [Sections.zoneAt, zones_eq, place_eq, if_neg (Nat.not_lt.mpr stores.inside)]
  exact stores.decode comes within fits blob_short

/-- An artifact whose zones are all read is read as the zones that have been added to it, in the
order of their names and up to the form of their times. -/
theorem read_finish_eq_ok {added : ZoneIndex} (shares : added.Shares)
    (comesTo : ∀ entry ∈ added, ZoneComesTo entry.2.zone (.ok entry.2.zone.inSeconds))
    (short : (Writer.ofIndex added).finish.length < 2 ^ 64)
    : ∃ index,
        read (Writer.ofIndex added).finish = .ok index
        ∧ List.Forall₂ (Table.Agree fun shared stored => shared.zone = stored.zone.inSeconds)
            index added.sorted := by
  obtain ⟨sections, sections_eq, related⟩ := decode_finish (.ok ·.inSeconds) shares comesTo short
  have leading
      : List.Forall₂
          (fun indices stored =>
            ∃ entry, sections.Leads indices entry
              ∧ Table.Agree (fun shared stored => shared.zone = stored.zone.inSeconds) entry stored)
          sections.directory added.sorted := by
    refine related.imp fun indices stored ⟨name_eq, at_place⟩ => ?_
    exact ⟨(stored.1, ⟨indices.2, _⟩), ⟨name_eq, rfl, at_place⟩, rfl, rfl⟩
  obtain ⟨entries, leads, agree⟩ := exists_between leading
  refine ⟨entries, ?_, agree⟩
  have ordered : (Table.names entries).Pairwise (· < ·) := by
    rw [Table.names_eq_of_agree agree]
    exact Table.pairwise_sorted added
  rw [read, sections_eq]
  refine (index_eq [] leads (by simp)).trans ?_
  exact congrArg Except.ok (Table.sorted_eq ordered)

/-- An artifact of which a zone is rejected is rejected, if all zones that are so have one reason.
-/
theorem read_finish_eq_error {added : ZoneIndex}
    {outcome : CompiledZone → Except DecodeError CompiledZone} {error : DecodeError}
    (shares : added.Shares)
    (comesTo : ∀ entry ∈ added, ZoneComesTo entry.2.zone (outcome entry.2.zone))
    (short : (Writer.ofIndex added).finish.length < 2 ^ 64)
    (alone : ∀ entry ∈ added.sorted, ∀ other, outcome entry.2.zone = .error other → other = error)
    (rejected : ∃ entry ∈ added.sorted, ∃ other, outcome entry.2.zone = .error other)
    : read (Writer.ofIndex added).finish = .error error := by
  obtain ⟨sections, sections_eq, related⟩ := decode_finish outcome shares comesTo short
  rw [read, sections_eq]
  exact index_eq_error [] related alone rejected (by simp)

/-- An artifact that can be measured in sixty-four bits is read as the zones that have been added to
it, in the order of their names and up to the form of their times. -/
theorem read_finish {added : ZoneIndex} (shares : added.Shares)
    (encodable : ∀ entry ∈ added, entry.2.zone.Encodable)
    (short : (Writer.ofIndex added).finish.length < 2 ^ 64)
    : ∃ index,
        read (Writer.ofIndex added).finish = .ok index
        ∧ List.Forall₂ (Table.Agree fun shared stored => shared.zone = stored.zone.inSeconds)
            index added.sorted :=
  read_finish_eq_ok shares
    (fun entry member => zone_comesTo_of_encodable (encodable entry member)) short

/-- An artifact that can be measured in sixty-four bits is read as a table of exactly the names that
have been added to it. Each stands for the zone that has been added under it last, and nothing of
the zone but the form of the times in its tail is lost. -/
theorem read_ofIndex {added : ZoneIndex} (shares : added.Shares)
    (encodable : ∀ entry ∈ added, entry.2.zone.Encodable)
    (short : (Writer.ofIndex added).finish.length < 2 ^ 64)
    : ∃ index,
        read (Writer.ofIndex added).finish = .ok index
        ∧ index.names.Pairwise (· < ·)
        ∧ (∀ name, name ∈ index.names ↔ name ∈ added.names)
        ∧ ∀ name,
            (index.get? name).map (·.zone)
              = (Table.get? added.reverse name).map (·.zone.inSeconds) := by
  obtain ⟨index, read_eq, agree⟩ := read_finish shares encodable short
  have names_eq : index.names = added.sorted.names := Table.names_eq_of_agree agree
  refine ⟨index, read_eq, ?_, fun name => ?_, fun name => ?_⟩
  · rw [names_eq]
    exact Table.pairwise_sorted added
  · rw [names_eq]
    exact Table.mem_names_sorted added name
  · rw [← Table.get?_sorted]
    exact Table.map_get?_of_agree agree name

/-- A zone whose tail changes the clock every year, at a negative zero. -/
def negativeZeroZone : CompiledZone :=
  { intervals :=
      [{ start := beginningOfTime, stop := 0, stdOffset := 3600, savings := 0, name := "CET" }]
    tail :=
      some
        { start := 0
          stdOffset := 3600
          format := .ofSource "CE%sT"
          initialSavings := 0
          initialLetter := none
          rules :=
            { name := "EU"
              recurrences :=
                [{ name := "EU"
                   first := .year 1970
                   last := .latest
                   month := .mar
                   day := .last .sun
                   time := { mode := .universal, time := { ClockTime.zero with negative := true } }
                   save := .zero
                   letter := some "S" }] } } }

/-- Two names share a zone with a negative zero, which is read as a zero under both of them. -/
theorem read_ofIndex_negativeZero
    : ∃ index,
        read (Writer.ofIndex [("B", ⟨0, negativeZeroZone⟩), ("A", ⟨0, negativeZeroZone⟩)]).finish
          = .ok index
        ∧ (index.get? "A").map (·.zone) = some negativeZeroZone.inSeconds
        ∧ (index.get? "B").map (·.zone) = some negativeZeroZone.inSeconds := by
  have encodable : negativeZeroZone.Encodable :=
    { contiguous := ⟨rfl, by decide, by decide⟩
      intervals := fun i member => by
        rw [List.mem_singleton.mp member]
        constructor <;> decide
      tail := fun t member => by
        cases member
        exact
          ⟨rfl,
            { start_lt := by decide
              stdOffset := by decide
              initialSavings := by decide
              format := ⟨"CE%sT", rfl⟩
              named := rfl
              recurrences := fun r member => by
                rw [List.mem_singleton.mp member]
                exact ⟨by decide, by decide, fun day named => nomatch named⟩ }⟩ }
  have shares : ZoneIndex.Shares [("B", ⟨0, negativeZeroZone⟩), ("A", ⟨0, negativeZeroZone⟩)] := by
    decide
  obtain ⟨index, read_eq, -, -, values⟩ :=
    read_ofIndex shares (by simpa using encodable) (by decide +kernel)
  exact ⟨index, read_eq, values "A", values "B"⟩

end CivilTime.Artifact
