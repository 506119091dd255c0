import Chronicle.Decimal.Shortest
import Chronicle.Proofs.Decimal.Rounding
import Chronicle.Proofs.Time.Reading

/-!
# The number that shortest digits stand for

The digits that are found for a double stand for a number between the double and the one next to it, half-way at most
(`value_shortest_le`); of the digits themselves this is all that matters here, besides their form (`proper_shortest`).
Finite doubles have mantissas of 53 bits and no place above `2 ^ 971` (`parts_bounds`).
-/

namespace Chronicle.Decimal

open Text (digits isDigit value value_append value_zeros)

/-! ## The value of digits -/

/-- The number that digits stand for. -/
def Digits.value (d : Digits) : ℚ := Text.value d.digits * 10 ^ (d.exponent + 1 - d.digits.length)

/-- Digits without a leading zero. Zero itself is one zero or no digit at all, without an exponent. -/
structure Digits.Proper (d : Digits) : Prop where
  digits : ∀ c ∈ d.digits, isDigit c = true
  leading : ∀ rest, d.digits = '0' :: rest → rest = [] ∧ d.exponent = 0
  zero : d.digits = [] → d.exponent = 0

/-! ## Digits on a grid -/

/-- The digits of `c · 10 ^ e`. -/
def gridDigits (c : Nat) (e : Int) : Digits := ⟨trimZeros (digits c), e + (digits c).length - 1⟩

/-- Only zeros are trimmed. -/
theorem exists_trimZeros (ds : List Char) : ∃ k, ds = trimZeros ds ++ List.replicate k '0' := by
  induction ds using List.reverseRecOn with
  | nil => exact ⟨0, rfl⟩
  | append_singleton ds c ih =>
    by_cases hc : c = '0'
    · obtain ⟨k, hk⟩ := ih
      have htrim : trimZeros (ds ++ [c]) = trimZeros ds := by simp [trimZeros, hc]
      refine ⟨k + 1, ?_⟩
      rw [htrim, List.replicate_succ', ← List.append_assoc, ← hk, hc]
    · exact ⟨0, by simp [trimZeros, hc]⟩

theorem value_gridDigits (c : Nat) (e : Int) : (gridDigits c e).value = c * 10 ^ e := by
  obtain ⟨k, hk⟩ := exists_trimZeros (digits c)
  have hc : c = value (trimZeros (digits c)) * 10 ^ k := by
    have := congrArg value hk
    rwa [Text.value_digits, value_append, value_zeros, List.length_replicate, add_zero] at this
  have hlen : (digits c).length = (trimZeros (digits c)).length + k := by
    have := congrArg List.length hk
    rwa [List.length_append, List.length_replicate] at this
  have hexp : e + (digits c).length - 1 + 1 - (trimZeros (digits c)).length = k + e := by
    omega
  have hc : (c : ℚ) = value (trimZeros (digits c)) * 10 ^ k := by exact_mod_cast hc
  unfold Digits.value gridDigits
  dsimp only
  rw [hexp, zpow_add₀ (by norm_num), zpow_natCast, ← mul_assoc, ← hc]

theorem proper_gridDigits {c : Nat} (h : 0 < c) (e : Int) : (gridDigits c e).Proper := by
  obtain ⟨k, hk⟩ := exists_trimZeros (digits c)
  have hzero (rest : List Char) : digits c ≠ '0' :: rest := fun hr => h.ne' (Text.eq_zero_of_digits_eq hr)
  refine ⟨fun d hd => ?_, fun rest hr => ?_, fun hnil => ?_⟩
  · apply List.all_eq_true.1 (Text.all_isDigit_digits c)
    rw [hk]
    exact List.mem_append_left _ hd
  · change trimZeros (digits c) = '0' :: rest at hr
    rw [hr] at hk
    exact absurd hk (hzero _)
  · change trimZeros (digits c) = [] at hnil
    rw [hnil, List.nil_append] at hk
    cases k with
    | zero => exact absurd hk (Text.digits_ne_nil c)
    | succ k => exact absurd hk (hzero _)

/-! ## Candidates -/

theorem Interval.contains_of_onGrid? {i : Interval} {e : Int} {c : Nat} (h : i.onGrid? e = some c) :
    i.contains (c * (i.den * powerOfTen e)) (powerOfTen (-e)) = true := by
  unfold Interval.onGrid? at h
  dsimp only at h
  split at h
  · rename_i hbelow habove
    split at h
    · cases h
      exact hbelow
    · cases h
      exact habove
  · rename_i hbelow _
    cases h
    exact hbelow
  · rename_i _ habove
    cases h
    exact habove
  · cases h

theorem Interval.bounds_of_contains {i : Interval} {num den : Nat} (h : i.contains num den = true) :
    i.low * den ≤ num ∧ num ≤ i.high * den := by
  unfold Interval.contains at h
  split at h
  · rw [Bool.and_eq_true, decide_eq_true_iff, decide_eq_true_iff] at h
    exact h
  · rw [Bool.and_eq_true, decide_eq_true_iff, decide_eq_true_iff] at h
    exact ⟨h.1.le, h.2.le⟩

theorem zpow_eq_div {b : ℚ} (hb : b ≠ 0) (e : Int) : b ^ e = b ^ e.toNat / b ^ (-e).toNat := by
  rw [← zpow_natCast, ← zpow_natCast, ← zpow_sub₀ hb, Int.toNat_sub_toNat_neg]

/-- A candidate lies between the double and the next one, half-way at most. -/
theorem Parts.candidate_le {p : Parts} {e : Int} {c : Nat} (h : p.interval.onGrid? e = some c) :
    (c : ℚ) * 10 ^ e ≤ (p.m + 1 / 2) * 2 ^ p.q := by
  obtain ⟨-, hle⟩ := Interval.bounds_of_contains (Interval.contains_of_onGrid? h)
  have hle : (c : ℚ) * (2 ^ (2 - p.q).toNat * 10 ^ e.toNat) ≤
      (4 * p.m + 2) * 2 ^ (p.q - 2).toNat * 10 ^ (-e).toNat := by
    exact_mod_cast hle
  have hq : (p.m + 1 / 2) * (2 : ℚ) ^ p.q = (4 * p.m + 2) * 2 ^ (p.q - 2) := by
    rw [zpow_sub₀ two_ne_zero]
    ring
  rw [hq, zpow_eq_div (b := 10) (by norm_num), zpow_eq_div (b := 2) two_ne_zero, neg_sub, ← mul_div_assoc,
    ← mul_div_assoc, div_le_div_iff₀ (by positivity) (by positivity)]
  linarith

/-- A candidate for a positive double is positive. -/
theorem Parts.candidate_pos {p : Parts} (hm : 0 < p.m) {e : Int} {c : Nat} (h : p.interval.onGrid? e = some c) :
    0 < c := by
  obtain ⟨hle, -⟩ := Interval.bounds_of_contains (Interval.contains_of_onGrid? h)
  have hlow : 0 < p.interval.low := by
    apply Nat.mul_pos _ (Nat.two_pow_pos _)
    split <;> omega
  have hpos : 0 < p.interval.low * powerOfTen (-e) := Nat.mul_pos hlow (Nat.pow_pos (by norm_num))
  exact Nat.pos_of_mul_pos_right (hpos.trans_le hle)

/-! ## The digits that are found -/

theorem shortest_cases (p : Parts) :
    (∃ c e, p.interval.onGrid? e = some c ∧ shortest p = gridDigits c e) ∨ shortest p = ⟨[], 0⟩ := by
  unfold shortest
  dsimp only
  generalize hk : magnitude p.interval.value p.interval.den = k
  cases hfound : (List.range 17).findSome? fun (n : Nat) => (p.interval.onGrid? (k - n)).map fun c => (c, k - (n : Int)) with
  | none =>
    have hzero : digits 0 = ['0'] := by
      rw [digits]
      rfl
    right
    simp only [Option.getD_none, hzero]
    rfl
  | some r =>
    obtain ⟨n, -, hn⟩ := List.exists_of_findSome?_eq_some hfound
    obtain ⟨c, hc, rfl⟩ := Option.map_eq_some_iff.1 hn
    exact .inl ⟨c, k - n, hc, rfl⟩

theorem proper_shortest {p : Parts} (hm : 0 < p.m) : (shortest p).Proper := by
  rcases shortest_cases p with ⟨c, e, hc, hs⟩ | hs
  · rw [hs]
    exact proper_gridDigits (p.candidate_pos hm hc) e
  · rw [hs]
    exact ⟨List.forall_mem_nil _, fun _ hr => (by cases hr), fun _ => rfl⟩

/-- **Shortest digits** stand for a number between the double and the next one, half-way at most. -/
theorem value_shortest_le (p : Parts) : (shortest p).value ≤ (p.m + 1 / 2) * 2 ^ p.q := by
  rcases shortest_cases p with ⟨c, e, hc, hs⟩ | hs
  · rw [hs, value_gridDigits]
    exact p.candidate_le hc
  · rw [hs]
    have hzero : (Digits.mk [] 0).value = 0 := by
      simp [Digits.value, Text.value]
    rw [hzero]
    positivity

/-! ## The parts of finite doubles -/

open Float.Model Float.Model.UnpackedFloat in
theorem toNat_unpackExponent (b : BitVec Format.binary64.numBits) :
    (unpackExponent b).toNat = b.toNat / 0x10000000000000 % 2048 := by
  unfold unpackExponent
  simp [Nat.shiftRight_eq_div_pow]

/-- The mantissa has 53 bits, and the last place is at most `2 ^ 971`. -/
theorem parts_bounds {x : Float} (h : x.isFinite = true) : (parts x).m < 2 ^ 53 ∧ (parts x).q ≤ 971 := by
  have hexponent : x.toBits.toNat / 0x10000000000000 % 2048 ≠ 2047 := by
    intro he
    apply isFinite_unpack_iff.1 h
    apply BitVec.eq_of_toNat_eq
    rw [toNat_unpackExponent]
    exact he
  have hfraction : x.toBits.toNat % 0x10000000000000 < 0x10000000000000 := Nat.mod_lt _ (by norm_num)
  unfold parts
  dsimp only
  split
  · dsimp only
    omega
  · dsimp only
    omega

/-- The gap below a double is narrow only at a power of two. -/
theorem narrow_parts {x : Float} (h : (parts x).m ≠ 2 ^ 52) : (parts x).narrow = false := by
  unfold parts at h ⊢
  dsimp only at h ⊢
  split
  · rfl
  · rename_i he
    rw [if_neg he] at h
    apply decide_eq_false
    rintro ⟨hfraction, -⟩
    apply h
    dsimp only
    omega

end Chronicle.Decimal
