import CivilTime.Text.Utf8

/-! The bytes of a text are read as the text. -/

namespace CivilTime.Text

/-- The bytes from a position on are listed behind the ones in front of it. -/
theorem byteArray_toList_loop (bytes : ByteArray) (position : Nat) (listed : List UInt8)
    : ByteArray.toList.loop bytes position listed
      = listed.reverse ++ bytes.data.toList.drop position := by
  induction position, listed using ByteArray.toList.loop.induct bytes with
  | case1 position listed inside ih =>
      have bound : position < bytes.data.toList.length := by simpa using inside
      have here : bytes.get! position = bytes.data.toList[position] := by
        simp only [ByteArray.get!, Array.getElem_toList]
        exact getElem!_pos bytes.data position (by simpa using inside)
      rw [ByteArray.toList.loop, if_pos inside, ih, List.drop_eq_getElem_cons bound, here,
        List.reverse_cons, List.append_assoc, List.singleton_append]
  | case2 position listed behind =>
      have none_left : bytes.data.toList.length ≤ position := by simpa using behind
      rw [ByteArray.toList.loop, if_neg behind, List.drop_eq_nil_of_le none_left, List.append_nil]

theorem encode_eq_toByteArray (text : String) : encode text = text.toByteArray.data.toList := by
  rw [encode, String.toUTF8_eq_toByteArray, ByteArray.toList, byteArray_toList_loop]
  rfl

/-- The bytes of a text are those of its characters. -/
theorem encode_eq_flatMap (text : String)
    : encode text = text.toList.flatMap String.utf8EncodeChar := by
  rw [encode_eq_toByteArray, ← String.utf8Encode_toList, List.utf8Encode, List.data_toByteArray]

/-- The bytes of a text are well formed and stand for it. -/
theorem decode?_encode (text : String) : decode? (encode text) = some text := by
  have bytes_eq : (⟨(encode text).toArray⟩ : ByteArray) = text.toByteArray := by
    rw [encode_eq_toByteArray]
  rw [decode?, bytes_eq, String.fromUTF8?, dif_pos text.isValidUTF8]
  rfl

theorem encode_injective {text other : String} (same : encode text = encode other)
    : text = other := by
  have decoded := congrArg decode? same
  rw [decode?_encode, decode?_encode] at decoded
  exact Option.some.inj decoded

end CivilTime.Text
