import Chronicle.Text.Utf8

/-!
# Bytes that are a text

The symbols of a byte sequence are the characters of a text just if the bytes are the text's (`symbols_eq_iff`): no two
byte sequences encode the same characters.
-/

namespace Chronicle.Text

variable {bytes : ByteArray} {text : List Char}

theorem extract_of_symbolsFrom {i : Nat} (hi : i ≤ bytes.size) (h : symbolsFrom bytes i = symbolsOf text) :
    bytes.extract i bytes.size = text.utf8Encode := by
  induction text generalizing i with
  | nil =>
    have hend : i = bytes.size := by
      rw [symbolsFrom] at h
      split at h
      · split at h <;> cases h
      · omega
    subst hend
    simp
  | cons c text ih =>
    rw [symbolsFrom] at h
    split at h
    · split at h
      · rename_i d hd
        obtain ⟨hc, htail⟩ := List.cons.inj h
        obtain rfl : d = c := Option.some.inj hc
        have hle := ByteArray.le_size_of_utf8DecodeChar?_eq_some hd
        rw [ByteArray.utf8DecodeChar?_eq_utf8DecodeChar?_extract] at hd
        have hrest : (bytes.extract i bytes.size).extract d.utf8Size (bytes.extract i bytes.size).size =
            bytes.extract (i + d.utf8Size) bytes.size := by
          rw [ByteArray.extract_extract, ByteArray.size_extract, Nat.min_self, Nat.add_sub_cancel' hi, Nat.min_self]
        have he := ByteArray.eq_of_utf8DecodeChar?_eq_some hd
        rw [hrest, ih hle htail] at he
        rw [he, ← List.singleton_append, List.utf8Encode_append]
        simp [List.utf8Encode]
      · cases h
    · cases h

/-- Bytes have the symbols of a text just if they are its bytes. -/
theorem symbols_eq_iff : symbols bytes = symbolsOf text ↔ bytes = (String.ofList text).toUTF8 := by
  constructor
  · intro h
    have he := extract_of_symbolsFrom (Nat.zero_le _) h
    rw [ByteArray.extract_zero_size] at he
    simpa using he
  · rintro rfl
    exact symbols_toUTF8 text

end Chronicle.Text
