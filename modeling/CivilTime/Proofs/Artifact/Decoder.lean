import CivilTime.Artifact.Reader
import CivilTime.Proofs.Artifact.Varint
import CivilTime.Proofs.Outcome
import CivilTime.Proofs.Text.Utf8
import Mathlib.Data.List.Forall2

/-! What decoders take from the bytes that are written for them.
A decoder that takes a value from its bytes does so wherever they stand and whatever follows them,
so a sequence of decoders takes its values from the bytes of each, one behind the other. Bytes that
are rejected wherever they stand are so behind the values in front of them.
-/

namespace CivilTime.Artifact

/-- The bytes that are left are those behind the position. -/
def Cursor.Consistent (c : Cursor) : Prop := c.position + c.rest.length = c.size

/-- The cursor behind some bytes, in front of the rest. -/
def Cursor.behind (c : Cursor) (bytes rest : List UInt8) : Cursor :=
  { c with rest, position := c.position + bytes.length }

variable {α β : Type}

/-- A decoder takes a value from the bytes that write it, whatever follows them. -/
def Decodes (decoder : Decoder α) (bytes : List UInt8) (value : α) : Prop :=
  ∀ c rest,
    c.Consistent → c.rest = bytes ++ rest → decoder.run c = .ok (value, c.behind bytes rest)

/-- A decoder comes to a value or an error on some bytes, whatever follows them. -/
def ComesTo (decoder : Decoder α) (bytes : List UInt8) (outcome : Except DecodeError α) : Prop :=
  ∀ c rest,
    c.Consistent
    → c.rest = bytes ++ rest
    → decoder.run c = outcome.map fun value => (value, c.behind bytes rest)

variable {decoder : Decoder α} {next : α → Decoder β} {bytes others : List UInt8} {value : α}
  {result : β} {outcome : Except DecodeError α} {later_outcome : Except DecodeError β}

/-- Behind bytes that a consistent cursor begins with, it is consistent. -/
theorem Cursor.Consistent.behind {c : Cursor} {rest : List UInt8} (consistent : c.Consistent)
    (rest_eq : c.rest = bytes ++ rest)
    : (c.behind bytes rest).Consistent := by
  simp only [Consistent, rest_eq, List.length_append, Cursor.behind] at *
  omega

/-- The start of a sequence of bytes is in front of all of them. -/
theorem Cursor.consistent_ofBytes (bytes : List UInt8) : (Cursor.ofBytes bytes).Consistent := by
  simp [Consistent, ofBytes]

/-- A decoder that looks at no bytes gives its value. -/
theorem decodes_pure (value : α) : Decodes (pure value) [] value := by
  intro c rest _ rest_eq
  obtain ⟨left, position, size⟩ := c
  cases rest_eq
  rfl

/-- A decoder that takes a value comes to it. -/
theorem Decodes.comesTo (taken : Decodes decoder bytes value) : ComesTo decoder bytes (.ok value) :=
  taken

/-- Behind a decoder that takes its value, a sequence comes to what the second one comes to. -/
theorem Decodes.bind_comesTo (first : Decodes decoder bytes value)
    (later : ComesTo (next value) others later_outcome)
    : ComesTo (decoder >>= next) (bytes ++ others) later_outcome := by
  intro c rest consistent rest_eq
  rw [List.append_assoc] at rest_eq
  rw [StateT.run_bind, first c (others ++ rest) consistent rest_eq]
  refine (later _ rest (consistent.behind rest_eq) rfl).trans ?_
  simp only [Cursor.behind, List.length_append, Nat.add_assoc]

/-- A sequence of decoders takes the bytes of both. -/
theorem Decodes.bind (first : Decodes decoder bytes value)
    (later : Decodes (next value) others result)
    : Decodes (decoder >>= next) (bytes ++ others) result :=
  first.bind_comesTo later.comesTo

/-- Behind a decoder, what takes no bytes goes on with its value. -/
theorem Decodes.bind_nil (first : Decodes decoder bytes value)
    (later : Decodes (next value) [] result)
    : Decodes (decoder >>= next) bytes result := by
  have taken := first.bind later
  rwa [List.append_nil] at taken

/-- A decoder whose value is changed afterwards gives the changed value. -/
theorem Decodes.map (first : Decodes decoder bytes value) (change : α → β)
    : Decodes (change <$> decoder) bytes (change value) := by
  rw [← bind_pure_comp]
  exact first.bind_nil (decodes_pure _)

/-- Where the value is changed afterwards, an error stays as it is. -/
theorem ComesTo.bind_pure (comesTo : ComesTo decoder bytes outcome) (change : α → β)
    : ComesTo (decoder >>= fun value => pure (change value)) bytes (outcome.map change) := by
  intro c rest consistent rest_eq
  rw [StateT.run_bind, comesTo c rest consistent rest_eq]
  cases outcome <;> rfl

/-- A decoder that fails comes to its error. -/
theorem comesTo_fail (error : DecodeError) (bytes : List UInt8)
    : ComesTo (Decoder.fail error : Decoder α) bytes (.error error) :=
  fun _ _ _ _ => rfl

/-- A look at the cursor takes no bytes. -/
theorem decodes_get {next : Cursor → Decoder β}
    (later : ∀ c, Decodes (next c) bytes result)
    : Decodes (get >>= next) bytes result :=
  fun c rest consistent rest_eq => later c c rest consistent rest_eq

/-- What a sequence of bytes comes to is decided at its front. -/
theorem ComesTo.decode_append (comesTo : ComesTo decoder bytes outcome) (rest : List UInt8)
    : decoder.decode (bytes ++ rest) = outcome := by
  rw [Decoder.decode, comesTo _ rest (Cursor.consistent_ofBytes _) rfl]
  cases outcome <;> rfl

/-- A sequence of bytes is decoded from its front. -/
theorem Decodes.decode_append (taken : Decodes decoder bytes value) (rest : List UInt8)
    : decoder.decode (bytes ++ rest) = .ok value :=
  taken.comesTo.decode_append rest

/-- A check that succeeds gives its value without taking bytes. -/
theorem decodes_ok {outcome : Except DecodeError α} (checked : outcome = .ok value)
    : Decodes (liftM outcome) [] value := by
  rw [checked]
  exact decodes_pure value

namespace Decoder

variable {n : Nat}

/-- A byte is taken as a number. -/
theorem decodes_byte {b : UInt8} (number : b.toNat = n) : Decodes byte [b] n := by
  intro c rest _ rest_eq
  obtain ⟨left, position, size⟩ := c
  cases rest_eq
  rw [← number]
  rfl

/-- As many bytes are taken as are asked for. -/
theorem decodes_take (bytes : List UInt8) : Decodes (take bytes.length) bytes bytes := by
  intro c rest consistent rest_eq
  have inside : c.position + bytes.length ≤ c.size := by
    simp only [Cursor.Consistent, rest_eq, List.length_append] at consistent
    omega
  obtain ⟨left, position, size⟩ := c
  obtain rfl : left = bytes ++ rest := rest_eq
  rw [take, StateT.run_bind, StateT.run_get, pure_bind, if_pos inside]
  simp only [Cursor.behind, StateT.run_bind, StateT.run_set, StateT.run_pure, pure_bind,
    List.drop_left, List.take_left]
  rfl

/-- A number of sixty-four bits is taken. -/
theorem decodes_varint (fits : n < 2 ^ 64) : Decodes varint (writeVarint n) n := by
  intro c rest _ rest_eq
  have read := readVarint_writeVarint fits rest
  rw [← rest_eq] at read
  rw [varint, StateT.run_bind, StateT.run_get, pure_bind, read]
  rfl

/-- A signed number of sixty-four bits is taken. -/
theorem decodes_signed {n : Int} (representable : Instant.Representable n)
    : Decodes signed (writeSigned n) n := by
  have taken := (decodes_varint (foldSign_lt representable)).map unfoldSign
  rwa [unfoldSign_foldSign] at taken

/-- The values of a list are taken one behind the other, from the bytes of each. The induction is on
the values. -/
theorem decodes_takeMany {decoder : Decoder α} {parts : List (List UInt8)} {values : List α}
    (each : List.Forall₂ (Decodes decoder) parts values) (taken : List α)
    : Decodes (takeMany decoder taken values.length) parts.flatten (taken.reverse ++ values) := by
  induction each generalizing taken with
  | nil =>
      rw [List.append_nil]
      exact decodes_pure _
  | @cons bytes value parts values first _ ih =>
      have later := ih (value :: taken)
      rw [List.reverse_cons, List.append_assoc, List.singleton_append] at later
      exact first.bind later

/-- The values of a list are taken, if their number has sixty-four bits. -/
theorem decodes_many {decoder : Decoder α} {parts : List (List UInt8)} {values : List α}
    (each : List.Forall₂ (Decodes decoder) parts values)
    : Decodes (many values.length decoder) parts.flatten values :=
  decodes_takeMany each []

/-- A string is taken from its length and its bytes. -/
theorem decodes_text (s : String) (fits : (Text.encode s).length < 2 ^ 64)
    : Decodes text (Writer.stringBytes s) s := by
  unfold Writer.stringBytes text
  refine (decodes_varint fits).bind (decodes_get fun c => ?_)
  refine (decodes_take (Text.encode s)).bind_nil ?_
  rw [Text.decode?_encode]
  exact decodes_pure s

end Decoder

end CivilTime.Artifact
