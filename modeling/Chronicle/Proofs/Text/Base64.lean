import Chronicle.Proofs.Except
import Chronicle.Text.Base64

/-!
# Base64 is read back

Every byte sequence is read back from its Base64 text (`decode_encode`). A group of four symbols in front of others is
read on its own (`decodeGroups_cons`); the last group stands for one, two or three bytes (`decodeLast_one`,
`decodeLast_two`, `decodeLast_three`).

No other text is read (`decode_eq_ok_iff`): every symbol has its one number, the padding fills the last group, and no
bit is left over.
-/

namespace Chronicle

namespace Text

/-! ## The bytes of ASCII text -/

/-- Collecting the bytes from a place on, by the number of bytes that are left. -/
theorem toList_loop (bytes : ByteArray) {left i : Nat} (h : i + left = bytes.size) (done : List UInt8) :
    ByteArray.toList.loop bytes i done = done.reverse ++ bytes.data.toList.drop i := by
  induction left generalizing i done with
  | zero =>
    have hlen : bytes.data.toList.length ≤ i := by
      rw [Array.length_toList]
      exact Nat.le_of_eq h.symm
    rw [ByteArray.toList.loop, if_neg (by omega), List.drop_of_length_le hlen, List.append_nil]
  | succ left ih =>
    have hi : i < bytes.data.size := Nat.lt_of_lt_of_eq (Nat.lt_add_of_pos_right (Nat.succ_pos left)) h
    have hb : bytes.get! i = bytes.data[i] := getElem!_pos bytes.data i hi
    have hd : bytes.data.toList.drop i = bytes.data[i] :: bytes.data.toList.drop (i + 1) :=
      List.drop_eq_getElem_cons hi
    rw [ByteArray.toList.loop, if_pos (show i < bytes.size from hi), ih (by omega), List.reverse_cons,
      List.append_assoc, hb, hd]
    rfl

/-- The byte of a character of ASCII. -/
def byteOf (c : Char) : UInt8 := UInt8.ofNat c.toNat

theorem utf8EncodeChar_of_ascii {c : Char} (h : c.toNat < 128) : String.utf8EncodeChar c = [byteOf c] := by
  have hs : c.utf8Size = 1 := by
    unfold Char.utf8Size
    rw [if_pos]
    exact UInt32.le_iff_toNat_le.2 (Nat.le_of_lt_succ h)
  rw [String.utf8EncodeChar_eq_singleton hs]
  rfl

/-- A text of ASCII has one byte for each character. -/
theorem utf8_ofList {text : List Char} (h : ∀ c ∈ text, c.toNat < 128) :
    utf8 (String.ofList text) = text.map byteOf := by
  have hf : text.flatMap String.utf8EncodeChar = text.map byteOf := by
    induction text with
    | nil => rfl
    | cons c text ih =>
      obtain ⟨hc, h⟩ := List.forall_mem_cons.1 h
      rw [List.flatMap_cons, List.map_cons, ih h, utf8EncodeChar_of_ascii hc]
      rfl
  have hb : (String.ofList text).toUTF8 = (text.map byteOf).toByteArray := by
    rw [← hf]
    simp [List.utf8Encode]
  rw [utf8, hb, ByteArray.toList, toList_loop _ (Nat.zero_add _)]
  simp

theorem toList_injective {a b : ByteArray} (h : a.toList = b.toList) : a = b := by
  rw [ByteArray.toList, ByteArray.toList, toList_loop a (Nat.zero_add _), toList_loop b (Nat.zero_add _)] at h
  exact ByteArray.ext (Array.ext' (by simpa using h))

theorem utf8_injective {a b : String} (h : utf8 a = utf8 b) : a = b :=
  String.toByteArray_inj.1 (toList_injective h)

end Text

namespace Base64

open Text (byteOf utf8 utf8_ofList)

/-! ## Symbols -/

/-- A symbol is a character of ASCII that stands for its number and does not pad. -/
theorem symbol_spec : ∀ n < 64, (symbol n).toNat < 128 ∧ symbolValue? (byteOf (symbol n)) = some n ∧
    byteOf (symbol n) ≠ pad := by decide

theorem symbolAt_symbol (start : Nat) {n : Nat} (h : n < 64) : symbolAt start (byteOf (symbol n)) = .ok n := by
  rw [symbolAt, (symbol_spec n h).2.1]

/-- A symbol of the last group, before any padding. -/
theorem lastGroup_symbol (start index : Nat) (values : List (Nat × UInt8)) {n : Nat} (h : n < 64)
    (rest : List UInt8) :
    lastGroup start index values none (byteOf (symbol n) :: rest) =
    lastGroup start (index + 1) ((n, byteOf (symbol n)) :: values) none rest := by
  rw [lastGroup]
  simp [(symbol_spec n h).2.2, symbolAt_symbol _ h]

/-- The bytes of a 24-bit number. -/
theorem threeBytes_eq (a b c : UInt8) :
    threeBytes (a.toNat * 65536 + b.toNat * 256 + c.toNat) = [a, b, c] := by
  have ha := a.toNat_lt
  have hb := b.toNat_lt
  have hc := c.toNat_lt
  simp only [threeBytes, List.cons.injEq, and_true, ← UInt8.toNat_inj, UInt8.toNat_ofNat']
  omega

/-- A number of 24 bits is made of its four symbols. -/
theorem regroup (n : Nat) :
    n / 262144 * 262144 + n / 4096 % 64 * 4096 + n / 64 % 64 * 64 + n % 64 = n := by
  have h1 : n / 4096 = n / 262144 * 64 + n / 4096 % 64 := by omega
  have h2 : n / 64 = n / 4096 * 64 + n / 64 % 64 := by omega
  have h3 : n = n / 64 * 64 + n % 64 := by omega
  generalize n / 262144 = q₁, n / 4096 % 64 = r₁, n / 4096 = q₂, n / 64 % 64 = r₂, n / 64 = q₃, n % 64 = r₃ at *
  omega

/-! ## The last group -/

/-- The bytes of the symbols of some numbers. -/
def symbolBytes (ns : List Nat) : List UInt8 := ns.map fun n => byteOf (symbol n)

theorem symbolBytes_pads (ns : List Nat) (k : Nat) :
    (ns.map symbol ++ List.replicate k '=').map byteOf = symbolBytes ns ++ List.replicate k pad := by
  rw [List.map_append, List.map_map, List.map_replicate]
  rfl

/-- The symbols of the last group, before any padding. -/
theorem lastGroup_symbols (start : Nat) {ns : List Nat} (h : ∀ n ∈ ns, n < 64) (index : Nat)
    (values : List (Nat × UInt8)) (rest : List UInt8) :
    lastGroup start index values none (symbolBytes ns ++ rest) =
    lastGroup start (index + ns.length) ((ns.map fun n => (n, byteOf (symbol n))).reverse ++ values) none rest := by
  induction ns generalizing index values with
  | nil => rfl
  | cons n ns ih =>
    obtain ⟨hn, h⟩ := List.forall_mem_cons.1 h
    have hs : symbolBytes (n :: ns) ++ rest = byteOf (symbol n) :: (symbolBytes ns ++ rest) := rfl
    rw [hs, lastGroup_symbol _ _ _ hn, ih h, List.map_cons, List.reverse_cons, List.append_assoc, List.length_cons,
      Nat.add_assoc, Nat.add_comm 1]
    rfl

/-- The padding behind the symbols is counted. -/
theorem lastGroup_pads (start : Nat) {index : Nat} (hi : 2 ≤ index) (values : List (Nat × UInt8))
    (padding : Option (Nat × Nat)) (k : Nat) :
    lastGroup start index values padding (List.replicate k pad) =
    .ok (values, (padding.map Prod.snd).getD 0 + k) := by
  induction k generalizing index padding with
  | zero => rfl
  | succ k ih =>
    rw [List.replicate_succ, lastGroup, if_pos rfl, if_neg (Nat.not_lt.2 hi)]
    cases padding with
    | none => exact (ih (Nat.le_succ_of_le hi) _).trans (by simp [Nat.add_comm])
    | some p => exact (ih (Nat.le_succ_of_le hi) _).trans (by simp [Nat.add_comm, Nat.add_left_comm])

/-- A last group of symbols and padding stands for the bytes of the number that its symbols make, if no bit behind
them is set. -/
theorem decodeLast_symbols (start : Nat) {ns : List Nat} (h : ∀ n ∈ ns, n < 64) {count k : Nat}
    (hc : ns.length = count) (hl : 2 ≤ count) (hk : (k + count) % 4 = 0) {n : Nat}
    (hn : ns.foldl (fun n v => n * 64 + v) 0 * Nat.pow 64 (4 - count) = n)
    (hz : n % Nat.pow 256 (3 - count * 6 / 8) = 0) :
    decodeLast start ((ns.map symbol ++ List.replicate k '=').map byteOf) =
    .ok ((threeBytes n).take (count * 6 / 8)) := by
  have hg := lastGroup_symbols start h 0 [] (List.replicate k pad)
  rw [lastGroup_pads start (by omega), List.append_nil] at hg
  have hv : (ns.map fun n => (n, byteOf (symbol n))).reverse.length = count := by simp [hc]
  have hf : (ns.map fun n => (n, byteOf (symbol n))).reverse.reverse.foldl (fun n v => n * 64 + v.1) 0 =
      ns.foldl (fun n v => n * 64 + v) 0 := by
    rw [List.reverse_reverse, List.foldl_map]
  rw [symbolBytes_pads, decodeLast, hg, Except.ok_bind]
  simp only [hv, hf, hn, Option.map_none, Option.getD_none, Nat.zero_add]
  rw [if_neg (Nat.not_lt.2 hl), if_neg (not_not_intro hk), if_neg (not_not_intro hz)]
  rfl

section

variable (start : Nat) {n : Nat}

theorem decodeLast_four_symbols (hn : n < 16777216) :
    decodeLast start
      (([n / 262144, n / 4096 % 64, n / 64 % 64, n % 64].map symbol ++ List.replicate 0 '=').map byteOf) =
    .ok (threeBytes n) := by
  have hs : ∀ m ∈ [n / 262144, n / 4096 % 64, n / 64 % 64, n % 64], m < 64 := by
    simp only [List.forall_mem_cons]
    exact ⟨by omega, by omega, by omega, by omega, by simp⟩
  have hv : (((0 * 64 + n / 262144) * 64 + n / 4096 % 64) * 64 + n / 64 % 64) * 64 + n % 64 = n := by omega
  exact decodeLast_symbols start hs (show _ = 4 from rfl) (by decide) rfl ((Nat.mul_one _).trans hv) (Nat.mod_one n)

theorem decodeLast_three_symbols (hn : n < 16777216) (hz : n % 256 = 0) :
    decodeLast start (([n / 262144, n / 4096 % 64, n / 64 % 64].map symbol ++ List.replicate 1 '=').map byteOf) =
    .ok ((threeBytes n).take 2) := by
  have hs : ∀ m ∈ [n / 262144, n / 4096 % 64, n / 64 % 64], m < 64 := by
    simp only [List.forall_mem_cons]
    exact ⟨by omega, by omega, by omega, by simp⟩
  have hv : (((0 * 64 + n / 262144) * 64 + n / 4096 % 64) * 64 + n / 64 % 64) * 64 = n := by omega
  exact decodeLast_symbols start hs (show _ = 3 from rfl) (by decide) rfl hv hz

theorem decodeLast_two_symbols (hn : n < 16777216) (hz : n % 65536 = 0) :
    decodeLast start (([n / 262144, n / 4096 % 64].map symbol ++ List.replicate 2 '=').map byteOf) =
    .ok ((threeBytes n).take 1) := by
  have hs : ∀ m ∈ [n / 262144, n / 4096 % 64], m < 64 := by
    simp only [List.forall_mem_cons]
    exact ⟨by omega, by omega, by simp⟩
  have hv : ((0 * 64 + n / 262144) * 64 + n / 4096 % 64) * 4096 = n := by omega
  exact decodeLast_symbols start hs (show _ = 2 from rfl) (by decide) rfl hv hz

end

theorem decodeLast_three (start : Nat) (a b c : UInt8) :
    decodeLast start ((encode [a, b, c]).map byteOf) = .ok [a, b, c] := by
  have ha := a.toNat_lt
  have hb := b.toNat_lt
  have hc := c.toNat_lt
  have h := decodeLast_four_symbols start (show a.toNat * 65536 + b.toNat * 256 + c.toNat < 16777216 by omega)
  rw [threeBytes_eq] at h
  exact h

theorem decodeLast_two (start : Nat) (a b : UInt8) : decodeLast start ((encode [a, b]).map byteOf) = .ok [a, b] := by
  have ha := a.toNat_lt
  have hb := b.toNat_lt
  have ht := threeBytes_eq a b 0
  rw [UInt8.toNat_zero, Nat.add_zero] at ht
  have h := decodeLast_three_symbols start (show a.toNat * 65536 + b.toNat * 256 < 16777216 by omega) (by omega)
  rw [ht] at h
  exact h

theorem decodeLast_one (start : Nat) (a : UInt8) : decodeLast start ((encode [a]).map byteOf) = .ok [a] := by
  have ha := a.toNat_lt
  have ht := threeBytes_eq a 0 0
  rw [UInt8.toNat_zero, Nat.zero_mul, Nat.add_zero] at ht
  have h := decodeLast_two_symbols start (show a.toNat * 65536 < 16777216 by omega) (by omega)
  rw [ht] at h
  exact h

/-! ## All groups -/

/-- Four symbols in front of others stand for three bytes. -/
theorem decodeGroups_cons (start : Nat) (a b c : UInt8) {rest : List UInt8} (hr : rest ≠ []) :
    decodeGroups start ((encode [a, b, c]).map byteOf ++ rest) =
    decodeGroups (start + 4) rest >>= fun bytes => .ok ([a, b, c] ++ bytes) := by
  have ha := a.toNat_lt
  have hb := b.toNat_lt
  have hc := c.toNat_lt
  have ht := threeBytes_eq a b c
  obtain ⟨e, rest, rfl⟩ := List.exists_cons_of_ne_nil hr
  simp only [encode, List.map_cons, List.map_nil, List.cons_append, List.nil_append, decodeGroups]
  generalize hn : a.toNat * 65536 + b.toNat * 256 + c.toNat = n at *
  rw [symbolAt_symbol _ (by omega), symbolAt_symbol _ (by omega), symbolAt_symbol _ (by omega),
    symbolAt_symbol _ (by omega)]
  simp only [Except.ok_bind, regroup, ht]
  rfl

theorem decodeGroups_encode (start : Nat) (bytes : List UInt8) :
    decodeGroups start ((encode bytes).map byteOf) = .ok bytes := by
  fun_induction encode bytes generalizing start with
  | case1 => rfl
  | case2 a => exact decodeLast_one start a
  | case3 a b => exact decodeLast_two start a b
  | case4 a b c rest n ih =>
    by_cases hr : rest = []
    · subst hr
      exact decodeLast_three start a b c
    · have hne : (encode rest).map byteOf ≠ [] := by
        match rest, hr with
        | [_], _ => simp [encode]
        | [_, _], _ => simp [encode]
        | _ :: _ :: _ :: _, _ => simp [encode]
      have := decodeGroups_cons start a b c hne
      rw [ih, Except.ok_bind] at this
      exact this

/-- The text of a byte sequence is of whole groups. -/
theorem length_encode_mod (bytes : List UInt8) : (encode bytes).length % 4 = 0 := by
  fun_induction encode bytes with
  | case1 => rfl
  | case2 => simp
  | case3 => simp
  | case4 a b c rest n ih => simp only [List.length_cons]; omega

theorem encode_ascii (bytes : List UInt8) : ∀ c ∈ encode bytes, c.toNat < 128 := by
  have hp : '='.toNat < 128 := by decide
  have hs (n : Nat) (hn : n < 64) := (symbol_spec n hn).1
  fun_induction encode bytes with
  | case1 => simp
  | case2 a n =>
    have ha := a.toNat_lt
    simp only [List.forall_mem_cons]
    exact ⟨hs _ (by omega), hs _ (by omega), hp, hp, by simp⟩
  | case3 a b n =>
    have ha := a.toNat_lt
    have hb := b.toNat_lt
    simp only [List.forall_mem_cons]
    exact ⟨hs _ (by omega), hs _ (by omega), hs _ (by omega), hp, by simp⟩
  | case4 a b c rest n ih =>
    have ha := a.toNat_lt
    have hb := b.toNat_lt
    have hc := c.toNat_lt
    simp only [List.forall_mem_cons]
    exact ⟨hs _ (by omega), hs _ (by omega), hs _ (by omega), hs _ (by omega), ih⟩

/-- **Reading back**: every byte sequence is read back from its text. -/
theorem decode_encode (bytes : List UInt8) : decode (utf8 (String.ofList (encode bytes))) = .ok bytes := by
  rw [utf8_ofList (encode_ascii bytes), decode]
  have hl := length_encode_mod bytes
  rw [List.length_map, if_neg (by omega)]
  exact decodeGroups_encode 0 bytes

/-! ## Only what is written is read -/

theorem symbolValue?_spec : ∀ b < 256, ∀ n ∈ symbolValue? (UInt8.ofNat b),
    n < 64 ∧ byteOf (symbol n) = UInt8.ofNat b := by decide +kernel

theorem of_symbolAt {start n : Nat} {b : UInt8} (h : symbolAt start b = .ok n) : n < 64 ∧ b = byteOf (symbol n) := by
  rw [symbolAt] at h
  split at h
  · rename_i m hm
    cases h
    rw [← UInt8.ofNat_toNat (x := b)] at hm ⊢
    obtain ⟨hn, hb⟩ := symbolValue?_spec b.toNat b.toNat_lt n hm
    exact ⟨hn, hb.symm⟩
  · cases h

/-- Behind padding there is only padding. -/
theorem of_lastGroup_some {start index first count : Nat} {values values' : List (Nat × UInt8)} {group : List UInt8}
    {padding : Nat} (h : lastGroup start index values (some (first, count)) group = .ok (values', padding)) :
    values' = values ∧ ∃ k, group = List.replicate k pad ∧ padding = count + k := by
  induction group generalizing index count with
  | nil =>
    cases h
    exact ⟨rfl, 0, rfl, rfl⟩
  | cons b group ih =>
    rw [lastGroup] at h
    dsimp only at h
    split at h
    · rename_i hb
      by_cases hi : index < 2
      · rw [if_pos hi] at h
        cases h
      · rw [if_neg hi] at h
        obtain ⟨hv, k, rfl, rfl⟩ := ih h
        refine ⟨hv, k + 1, ?_, ?_⟩
        · rw [hb, List.replicate_succ]
        · rw [Option.getD_some]
          omega
    · cases h

/-- The last group is made of symbols, two at least if padding follows. -/
theorem of_lastGroup {start index : Nat} {values values' : List (Nat × UInt8)} {group : List UInt8} {padding : Nat}
    (h : lastGroup start index values none group = .ok (values', padding)) :
    ∃ ns k, (∀ n ∈ ns, n < 64) ∧ group = symbolBytes ns ++ List.replicate k pad ∧ padding = k ∧
      values' = (ns.map fun n => (n, byteOf (symbol n))).reverse ++ values := by
  induction group generalizing index values with
  | nil =>
    cases h
    exact ⟨[], 0, nofun, rfl, rfl, rfl⟩
  | cons b group ih =>
    rw [lastGroup] at h
    dsimp only at h
    split at h
    · rename_i hb
      by_cases hi : index < 2
      · rw [if_pos hi] at h
        cases h
      · rw [if_neg hi] at h
        obtain ⟨hv, k, rfl, rfl⟩ := of_lastGroup_some h
        refine ⟨[], k + 1, nofun, ?_, ?_, hv⟩
        · rw [hb, List.replicate_succ]
          rfl
        · rw [Option.getD_none]
          omega
    · obtain ⟨n, hn, h⟩ := Except.bind_eq_ok_iff.1 h
      obtain ⟨hlt, rfl⟩ := of_symbolAt hn
      obtain ⟨ns, k, hns, rfl, hk, rfl⟩ := ih h
      refine ⟨n :: ns, k, List.forall_mem_cons.2 ⟨hlt, hns⟩, rfl, hk, ?_⟩
      simp

/-- The number of three bytes, of which the last ones may be zero. -/
theorem number_threeBytes {n : Nat} (hn : n < 16777216) :
    (UInt8.ofNat (n / 65536)).toNat * 65536 + (UInt8.ofNat (n / 256)).toNat * 256 + (UInt8.ofNat n).toNat = n := by
  simp only [UInt8.toNat_ofNat']
  omega

theorem encode_twoBytes {n : Nat} (hn : n < 16777216) (hz : n % 256 = 0) :
    encode ((threeBytes n).take 2) = [symbol (n / 262144), symbol (n / 4096 % 64), symbol (n / 64 % 64), '='] := by
  have hnum : (UInt8.ofNat (n / 65536)).toNat * 65536 + (UInt8.ofNat (n / 256)).toNat * 256 = n := by
    simp only [UInt8.toNat_ofNat']
    omega
  simp only [threeBytes, List.take_succ_cons, List.take_zero, encode, hnum]

theorem encode_oneByte {n : Nat} (hn : n < 16777216) (hz : n % 65536 = 0) :
    encode ((threeBytes n).take 1) = [symbol (n / 262144), symbol (n / 4096 % 64), '=', '='] := by
  have hnum : (UInt8.ofNat (n / 65536)).toNat * 65536 = n := by
    simp only [UInt8.toNat_ofNat']
    omega
  simp only [threeBytes, List.take_succ_cons, List.take_zero, encode, hnum]

/-- The last group has at least two symbols, padding up to four, and no bits that no byte takes up. -/
theorem exists_of_decodeLast {start : Nat} {group bytes : List UInt8} (h : decodeLast start group = .ok bytes) :
    ∃ (ns : List Nat) (k : Nat), (∀ n ∈ ns, n < 64) ∧
      group = (ns.map symbol ++ List.replicate k '=').map byteOf ∧ 2 ≤ ns.length ∧ (k + ns.length) % 4 = 0 ∧
      (ns.foldl (fun n v => n * 64 + v) 0 * Nat.pow 64 (4 - ns.length)) % Nat.pow 256 (3 - ns.length * 6 / 8) = 0 := by
  obtain ⟨⟨values, padding⟩, hl, h⟩ := Except.bind_eq_ok_iff.1 h
  obtain ⟨ns, k, hns, rfl, rfl, rfl⟩ := of_lastGroup hl
  have hcount : ((ns.map fun n => (n, byteOf (symbol n))).reverse ++ []).length = ns.length := by simp
  have hfold : ((ns.map fun n => (n, byteOf (symbol n))).reverse ++ []).reverse.foldl
      (fun (n : Nat) (v : Nat × UInt8) => n * 64 + v.1) 0 = ns.foldl (fun n v => n * 64 + v) 0 := by
    rw [List.append_nil, List.reverse_reverse, List.foldl_map]
  dsimp only at h
  rw [hcount, hfold] at h
  by_cases htwo : ns.length < 2
  · rw [if_pos htwo] at h
    cases h
  rw [if_neg htwo] at h
  by_cases hfour : (padding + ns.length) % 4 ≠ 0
  · rw [if_pos hfour] at h
    cases h
  rw [if_neg hfour] at h
  refine ⟨ns, padding, hns, (symbolBytes_pads ns padding).symm, Nat.le_of_not_lt htwo, Decidable.not_not.1 hfour,
    Decidable.byContradiction fun hbits => ?_⟩
  rw [if_pos hbits] at h
  split at h <;> cases h

section

variable {p q r t : Nat} (hp : p < 64) (hq : q < 64)

include hp hq

theorem encode_two_symbols (hz : (p * 64 + q) * 4096 % 65536 = 0) :
    encode ((threeBytes ((p * 64 + q) * 4096)).take 1) = [symbol p, symbol q, '=', '='] := by
  have h := encode_oneByte (n := (p * 64 + q) * 4096) (by omega) hz
  rwa [show (p * 64 + q) * 4096 / 262144 = p by omega, show (p * 64 + q) * 4096 / 4096 % 64 = q by omega] at h

theorem encode_three_symbols (hr : r < 64) (hz : ((p * 64 + q) * 64 + r) * 64 % 256 = 0) :
    encode ((threeBytes (((p * 64 + q) * 64 + r) * 64)).take 2) = [symbol p, symbol q, symbol r, '='] := by
  have h := encode_twoBytes (n := ((p * 64 + q) * 64 + r) * 64) (by omega) hz
  rwa [show ((p * 64 + q) * 64 + r) * 64 / 262144 = p by omega,
    show ((p * 64 + q) * 64 + r) * 64 / 4096 % 64 = q by omega,
    show ((p * 64 + q) * 64 + r) * 64 / 64 % 64 = r by omega] at h

theorem encode_four_symbols (hr : r < 64) (ht : t < 64) (rest : List UInt8) :
    encode (threeBytes (p * 262144 + q * 4096 + r * 64 + t) ++ rest) =
    symbol p :: symbol q :: symbol r :: symbol t :: encode rest := by
  have hn : p * 262144 + q * 4096 + r * 64 + t < 16777216 := by omega
  simp only [threeBytes, List.cons_append, List.nil_append, encode, number_threeBytes hn]
  rw [show (p * 262144 + q * 4096 + r * 64 + t) / 262144 = p by omega,
    show (p * 262144 + q * 4096 + r * 64 + t) / 4096 % 64 = q by omega,
    show (p * 262144 + q * 4096 + r * 64 + t) / 64 % 64 = r by omega,
    show (p * 262144 + q * 4096 + r * 64 + t) % 64 = t by omega]

end

/-- The last group is what is written for its bytes. -/
theorem of_decodeLast {start : Nat} {group bytes : List UInt8} (hg : group.length ≤ 4)
    (h : decodeLast start group = .ok bytes) : group = (encode bytes).map byteOf := by
  obtain ⟨ns, k, hns, rfl, htwo, hfour, hbits⟩ := exists_of_decodeLast h
  simp only [List.length_map, List.length_append, List.length_replicate] at hg
  generalize hc : ns.length = count at *
  rw [decodeLast_symbols start hns hc htwo hfour rfl hbits] at h
  cases h
  refine congrArg (List.map byteOf) ?_
  rcases ns with _ | ⟨p, _ | ⟨q, _ | ⟨r, _ | ⟨t, _ | ⟨u, ns⟩⟩⟩⟩⟩ <;>
    simp only [List.length_cons, List.length_nil, List.forall_mem_cons] at hc hns
  · omega
  · omega
  · obtain ⟨rfl, rfl⟩ : count = 2 ∧ k = 2 := by omega
    have hz : ((0 * 64 + p) * 64 + q) * 4096 % 65536 = 0 := hbits
    have hv : (0 * 64 + p) * 64 + q = p * 64 + q := by omega
    rw [hv] at hz
    refine (encode_two_symbols hns.1 hns.2.1 hz).symm.trans ?_
    rw [← hv]
    rfl
  · obtain ⟨rfl, rfl⟩ : count = 3 ∧ k = 1 := by omega
    have hz : (((0 * 64 + p) * 64 + q) * 64 + r) * 64 % 256 = 0 := hbits
    have hv : ((0 * 64 + p) * 64 + q) * 64 + r = (p * 64 + q) * 64 + r := by omega
    rw [hv] at hz
    refine (encode_three_symbols hns.1 hns.2.1 hns.2.2.1 hz).symm.trans ?_
    rw [← hv]
    rfl
  · obtain ⟨rfl, rfl⟩ : count = 4 ∧ k = 0 := by omega
    have hv : ((((0 * 64 + p) * 64 + q) * 64 + r) * 64 + t) * 1 = p * 262144 + q * 4096 + r * 64 + t := by omega
    refine (encode_four_symbols hns.1 hns.2.1 hns.2.2.1 hns.2.2.2.1 []).symm.trans ?_
    rw [List.append_nil, ← hv]
    rfl
  · omega

theorem of_decodeGroups {start : Nat} {text bytes : List UInt8} (h : decodeGroups start text = .ok bytes) :
    text = (encode bytes).map byteOf := by
  fun_induction decodeGroups start text generalizing bytes with
  | case1 start a b c d e rest ih =>
    obtain ⟨p, hp, h⟩ := Except.bind_eq_ok_iff.1 h
    obtain ⟨q, hq, h⟩ := Except.bind_eq_ok_iff.1 h
    obtain ⟨r, hr, h⟩ := Except.bind_eq_ok_iff.1 h
    obtain ⟨t, ht, h⟩ := Except.bind_eq_ok_iff.1 h
    obtain ⟨bytes, hrest, h⟩ := Except.bind_eq_ok_iff.1 h
    cases h
    obtain ⟨hp64, rfl⟩ := of_symbolAt hp
    obtain ⟨hq64, rfl⟩ := of_symbolAt hq
    obtain ⟨hr64, rfl⟩ := of_symbolAt hr
    obtain ⟨ht64, rfl⟩ := of_symbolAt ht
    rw [encode_four_symbols hp64 hq64 hr64 ht64, ih hrest]
    rfl
  | case2 =>
    cases h
    rfl
  | case3 start group hlong hne => 
    refine of_decodeLast (Nat.le_of_not_lt fun hl => ?_) h
    match group, hl with
    | a :: b :: c :: d :: e :: rest, _ => exact hlong a b c d e rest rfl

/-- **Base64**: a text is read just if it is the one that is written for the bytes. -/
theorem decode_eq_ok_iff {text bytes : List UInt8} : decode text = .ok bytes ↔ text = (encode bytes).map byteOf := by
  constructor
  · intro h
    have hg : decodeGroups 0 text = .ok bytes := by
      rw [decode] at h
      split at h
      · split at h
        · split at h
          · obtain ⟨-, -, h⟩ := Except.bind_eq_ok_iff.1 h
            exact h
          · exact h
        · exact h
      · exact h
    exact of_decodeGroups hg
  · rintro rfl
    have h := decode_encode bytes
    rwa [utf8_ofList (encode_ascii bytes)] at h

theorem decode_utf8_eq_ok_iff {text : String} {bytes : List UInt8} :
    decode (utf8 text) = .ok bytes ↔ text = String.ofList (encode bytes) := by
  rw [decode_eq_ok_iff, ← utf8_ofList (encode_ascii bytes)]
  exact ⟨fun h => Text.utf8_injective h, fun h => h ▸ rfl⟩

end Base64

end Chronicle
