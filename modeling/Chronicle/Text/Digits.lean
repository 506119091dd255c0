/-!
# Digits

Natural numbers in base ten and base sixteen, as lists of characters.

* `digits n` writes `n` without leading zeros, `padded w n` fills up with zeros to `w` places, and `value` reads
  digits back (`value_digits`, `value_padded`).
* `all_isDigit_digits`: only the ten digits are written.
-/

namespace Chronicle.Text

/-- The digit of a number below ten. -/
def digit (n : Nat) : Char := Char.ofNat (48 + n % 10)

/-- The number that a decimal digit stands for. -/
def digitValue (c : Char) : Nat := c.toNat - 48

/-- Whether a character is one of the ten decimal digits. -/
def isDigit (c : Char) : Bool := '0' ≤ c && c ≤ '9'

/-- The decimal digits of a number, the most significant first. -/
def digits (n : Nat) : List Char :=
  if n < 10 then [digit n] else digits (n / 10) ++ [digit (n % 10)]
termination_by n

/-- The decimal digits of a number, filled up with leading zeros to at least `width` places. -/
def padded (width n : Nat) : List Char :=
  List.replicate (width - (digits n).length) '0' ++ digits n

/-- The number that a list of decimal digits stands for. -/
def value (ds : List Char) : Nat :=
  ds.foldl (fun n c => n * 10 + digitValue c) 0

/-- The decimal digits of an integer, with a minus sign in front of a negative one. -/
def signed (n : Int) : List Char :=
  if n < 0 then '-' :: digits n.natAbs else digits n.natAbs

/-- The number that a non-empty text of decimal digits stands for. -/
def natural? (s : List Char) : Option Nat :=
  if s.isEmpty || !s.all isDigit then none else some (value s)

/-- The integer that decimal digits with an optional sign stand for. -/
def integer? : List Char → Option Int
  | '+' :: ds => (natural? ds).map Int.ofNat
  | '-' :: ds => (natural? ds).map fun n => -(n : Int)
  | ds => (natural? ds).map Int.ofNat

/-- A signed 64-bit integer, if 64 bits hold it. -/
def int64OfInt? (n : Int) : Option Int64 :=
  if -0x8000000000000000 ≤ n ∧ n < 0x8000000000000000 then some (Int64.ofInt n) else none

/-- The signed 64-bit integer that decimal digits with an optional sign stand for. -/
def int64? (s : List Char) : Option Int64 := integer? s >>= int64OfInt?

/-- The unsigned 64-bit number that decimal digits with an optional plus sign stand for. -/
def unsigned64? (s : List Char) : Option Nat :=
  let n := match s with
    | '+' :: ds => natural? ds
    | ds => natural? ds
  n.filter (· < 0x10000000000000000)

/-- An ASCII letter in lower case; other characters stay. -/
def lowerAscii (c : Char) : Char :=
  if 'A' ≤ c && c ≤ 'Z' then Char.ofNat (c.toNat + 32) else c

/-- The lower-case hexadecimal digit of a number below sixteen. -/
def hexDigit (n : Nat) : Char :=
  if n % 16 < 10 then Char.ofNat (48 + n % 16) else Char.ofNat (87 + n % 16)

/-- The number that a hexadecimal digit, in either case, stands for. -/
def hexValue? (c : Char) : Option Nat :=
  if '0' ≤ c && c ≤ '9' then some (c.toNat - 48)
  else if 'a' ≤ c && c ≤ 'f' then some (c.toNat - 87)
  else if 'A' ≤ c && c ≤ 'F' then some (c.toNat - 55)
  else none

/-- A byte as two hexadecimal digits. -/
def hexByte (b : UInt8) : List Char :=
  [hexDigit (b.toNat / 16), hexDigit (b.toNat % 16)]

/-- Bytes as hexadecimal text. -/
def hex (bytes : List UInt8) : List Char :=
  bytes.flatMap hexByte

/-- The bytes that a hexadecimal text of even length stands for. -/
def ofHex? : List Char → Option (List UInt8)
  | [] => some []
  | [_] => none
  | a :: b :: rest => do
    let high ← hexValue? a
    let low ← hexValue? b
    let bytes ← ofHex? rest
    return UInt8.ofNat (16 * high + low) :: bytes

/-! ## Reading back what is written -/

theorem isDigit_digit (n : Nat) : isDigit (digit n) = true := by
  have h : n % 10 < 10 := Nat.mod_lt _ (by decide)
  unfold digit
  generalize n % 10 = d at h
  revert d
  decide

theorem digitValue_digit (n : Nat) : digitValue (digit n) = n % 10 := by
  have h : n % 10 < 10 := Nat.mod_lt _ (by decide)
  unfold digit
  generalize n % 10 = d at h
  revert d
  decide

theorem digits_ne_nil (n : Nat) : digits n ≠ [] := by
  unfold digits
  split <;> simp

theorem all_isDigit_digits (n : Nat) : (digits n).all isDigit = true := by
  fun_induction digits n with
  | case1 n h => simp [isDigit_digit]
  | case2 n h ih => simp [ih, isDigit_digit]

/-- Only zero is written with a leading zero. -/
theorem eq_zero_of_digits_eq {n : Nat} {tail : List Char} (h : digits n = '0' :: tail) : n = 0 := by
  fun_induction digits n generalizing tail with
  | case1 n hn =>
    have hd := digitValue_digit n
    rw [(List.cons.inj h).1, show digitValue '0' = 0 from rfl] at hd
    omega
  | case2 n hn ih =>
    cases hd : digits (n / 10) with
    | nil => exact absurd hd (digits_ne_nil _)
    | cons c tail' =>
      rw [hd] at h
      obtain ⟨rfl, -⟩ := List.cons.inj h
      have := ih hd
      omega

theorem value_append_singleton (ds : List Char) (c : Char) : value (ds ++ [c]) = value ds * 10 + digitValue c := by
  simp [value]

theorem value_digits (n : Nat) : value (digits n) = n := by
  fun_induction digits n with
  | case1 n h => simp [value, digitValue_digit, Nat.mod_eq_of_lt h]
  | case2 n h ih =>
    rw [value_append_singleton, ih, digitValue_digit]
    omega

theorem value_padded (width n : Nat) : value (padded width n) = n := by
  have zeros : ∀ k, (List.replicate k '0').foldl (fun n c => n * 10 + digitValue c) 0 = 0 := by
    intro k
    induction k with
    | zero => rfl
    | succ k ih => simpa [List.replicate_succ, digitValue] using ih
  have h := value_digits n
  unfold value padded at *
  rw [List.foldl_append, zeros, h]

theorem length_digits_le {n width : Nat} (hw : 0 < width) (hn : n < Nat.pow 10 width) : (digits n).length ≤ width := by
  fun_induction digits n generalizing width with
  | case1 n h => exact hw
  | case2 n h ih =>
    obtain ⟨width, rfl⟩ : ∃ k, width = k + 1 := ⟨width - 1, by omega⟩
    have hpos : 0 < width := by
      apply Nat.pos_of_ne_zero
      rintro rfl
      exact h (by simpa using hn)
    have hstep : Nat.pow 10 (width + 1) = Nat.pow 10 width * 10 := rfl
    have := ih hpos (by omega)
    simpa using this

theorem length_padded {n width : Nat} (hw : 0 < width) (hn : n < Nat.pow 10 width) : (padded width n).length = width := by
  have := length_digits_le hw hn
  simp only [padded, List.length_append, List.length_replicate]
  omega

theorem le_length_padded (width n : Nat) : width ≤ (padded width n).length := by
  simp only [padded, List.length_append, List.length_replicate]
  omega

theorem all_isDigit_padded (width n : Nat) : (padded width n).all isDigit = true := by
  rw [padded, List.all_append, all_isDigit_digits, Bool.and_true]
  exact List.all_eq_true.2 fun c hc => by rw [List.eq_of_mem_replicate hc]; decide

theorem padded_two {n : Nat} (h : n < 100) : padded 2 n = [digit (n / 10), digit (n % 10)] := by
  unfold padded digits
  split
  · have hq : n / 10 = 0 := by omega
    have hr : n % 10 = n := by omega
    rw [hq, hr]
    rfl
  · rw [digits, if_pos (by omega)]
    rfl

end Chronicle.Text
