import Chronicle.Json.Printer
import Chronicle.Json.Reader
import Chronicle.Proofs.Except

/-!
# Strings in JSON texts

A character is read back from what stands for it in a string (`readStringRest_escape`), and so is a whole string
(`readString_quoted`).
-/

namespace Chronicle.Json

open Text (Symbol hexDigit hexValue? symbolsOf symbolsOf_cons symbolsOf_append)

theorem hexValue?_hexDigit : ∀ n < 16, hexValue? (hexDigit n) = some n := by decide

/-- Four hexadecimal digits of a number below 256 stand for the character of that number. -/
theorem readStringRest_code {n : Nat} (hn : n < 0x20) (done : List Char) (rest : List Symbol) :
    readStringRest .escaped done true
      (some 'u' :: some '0' :: some '0' :: some (hexDigit (n / 16)) :: some (hexDigit (n % 16)) :: rest) =
    readStringRest .plain (Char.ofNat n :: done) true rest := by
  have h0 : hexValue? '0' = some 0 := by decide
  have h1 := hexValue?_hexDigit (n / 16) (by omega)
  have h2 := hexValue?_hexDigit (n % 16) (by omega)
  have hc : codeUnit ((((0 * 16 + 0) * 16 + 0) * 16 + n / 16) * 16 + n % 16) none = .ok (.inl (Char.ofNat n)) := by
    rw [show (((0 * 16 + 0) * 16 + 0) * 16 + n / 16) * 16 + n % 16 = n by omega]
    simp only [codeUnit]
    rw [if_neg (by omega), if_neg (by omega)]
  simp only [readStringRest, ↓reduceIte, Option.bind_some, h0, h1, h2, hc, Nat.reduceAdd, Nat.reduceLT]

/-- A character is read back from what stands for it. -/
theorem readStringRest_escape (c : Char) (done : List Char) (rest : List Symbol) :
    readStringRest .plain done true (symbolsOf (escape c) ++ rest) = readStringRest .plain (c :: done) true rest := by
  unfold escape
  split
  · rename_i h; subst h; rfl
  split
  · rename_i h; subst h; rfl
  split
  · rename_i h; subst h; rfl
  split
  · rename_i h; subst h; rfl
  split
  · rename_i h; subst h; rfl
  split
  · rename_i h; subst h; rfl
  split
  · rename_i h; subst h; rfl
  split
  · rename_i hc
    have := readStringRest_code hc done rest
    rw [Char.ofNat_toNat] at this
    exact this
  · rename_i hc
    simp only [symbolsOf_cons, List.cons_append, readStringRest, if_neg hc]
    rfl

theorem readStringRest_flatMap (cs done : List Char) (rest : List Symbol) :
    readStringRest .plain done true (symbolsOf (cs.flatMap escape) ++ rest) =
    readStringRest .plain (cs.reverse ++ done) true rest := by
  induction cs generalizing done with
  | nil => rfl
  | cons c cs ih =>
    rw [List.flatMap_cons, symbolsOf_append, List.append_assoc, readStringRest_escape, ih, List.reverse_cons,
      List.append_assoc]
    rfl

/-- A string is read back from behind its opening quote. -/
theorem readString_quoted (s : String) (rest : List Symbol) :
    readString (symbolsOf (s.toList.flatMap escape ++ ['"']) ++ rest) = .ok (s, rest) := by
  rw [readString, symbolsOf_append, List.append_assoc, readStringRest_flatMap]
  simp [symbolsOf, readStringRest]

end Chronicle.Json
