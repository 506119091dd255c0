/-!
# Characters in a sequence of bytes

A byte sequence is read as a list of symbols: the characters of its valid UTF-8 parts, and `none` for each byte that
belongs to no character. Nothing is dropped, so a reader of symbols can say where a text stops being one.
The symbols of an encoded text are its characters (`symbols_toUTF8`).
-/

namespace Chronicle.Text

/-- A character, or a byte that belongs to none. -/
abbrev Symbol := Option Char

/-- The symbols of the bytes from position `i` on. -/
def symbolsFrom (bytes : ByteArray) (i : Nat) : List Symbol :=
  if i < bytes.size then
    match bytes.utf8DecodeChar? i with
    | some c => some c :: symbolsFrom bytes (i + c.utf8Size)
    | none => none :: symbolsFrom bytes (i + 1)
  else []
termination_by bytes.size - i
decreasing_by
  · have := c.utf8Size_pos
    omega
  · omega

/-- The symbols of a byte sequence. -/
def symbols (bytes : ByteArray) : List Symbol := symbolsFrom bytes 0

/-- The symbols of a text: its characters. -/
def symbolsOf (text : List Char) : List Symbol := text.map some

/-- The number of bytes that a symbol stands for. -/
def Symbol.width : Symbol → Nat
  | some c => c.utf8Size
  | none => 1

/-- The number of bytes that symbols stand for. -/
def width : List Symbol → Nat
  | [] => 0
  | s :: rest => s.width + width rest

/-- The bytes of a text. -/
def utf8 (text : String) : List UInt8 := text.toUTF8.toList

theorem symbolsOf_cons (c : Char) (text : List Char) : symbolsOf (c :: text) = some c :: symbolsOf text := rfl

theorem symbolsOf_append (a b : List Char) : symbolsOf (a ++ b) = symbolsOf a ++ symbolsOf b := List.map_append

/-- A text has at least as many bytes as characters. -/
theorem length_le_width (text : List Char) : text.length ≤ width (symbolsOf text) := by
  induction text with
  | nil => exact Nat.zero_le _
  | cons c text ih =>
    have := c.utf8Size_pos
    simp only [List.length_cons, symbolsOf_cons, width, Symbol.width]
    omega

theorem size_utf8Encode_singleton (c : Char) : [c].utf8Encode.size = c.utf8Size := by
  simp [List.utf8Encode]

theorem symbolsFrom_utf8Encode (before text : List Char) :
    symbolsFrom (before.utf8Encode ++ text.utf8Encode) before.utf8Encode.size = symbolsOf text := by
  induction text generalizing before with
  | nil =>
    rw [symbolsFrom]
    simp [symbolsOf]
  | cons c text ih =>
    have hc : (c :: text).utf8Encode = [c].utf8Encode ++ text.utf8Encode := List.utf8Encode_append (l := [c])
    have hd : (before.utf8Encode ++ (c :: text).utf8Encode).utf8DecodeChar? before.utf8Encode.size = some c := by
      rw [ByteArray.utf8DecodeChar?_eq_utf8DecodeChar?_extract,
        ByteArray.extract_append_eq_right rfl (by rw [ByteArray.size_append]), List.utf8DecodeChar?_utf8Encode_cons]
    have hs : before.utf8Encode.size < (before.utf8Encode ++ (c :: text).utf8Encode).size := by
      rw [hc, ByteArray.size_append, ByteArray.size_append, size_utf8Encode_singleton]
      have := c.utf8Size_pos
      omega
    have hn := ih (before ++ [c])
    rw [List.utf8Encode_append, ByteArray.append_assoc, ByteArray.size_append, size_utf8Encode_singleton, ← hc] at hn
    rw [symbolsFrom, if_pos hs, hd]
    simp only [hn]
    rfl

theorem symbols_toUTF8 (text : List Char) : symbols (String.ofList text).toUTF8 = symbolsOf text := by
  simpa [symbols] using symbolsFrom_utf8Encode [] text

end Chronicle.Text
