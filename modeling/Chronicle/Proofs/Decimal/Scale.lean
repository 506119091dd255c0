import Chronicle.Decimal.Scale
import Chronicle.Proofs.Decimal.Rounding

/-!
# Doubles that can be scaled

A significand of 64 bits and a power of ten have a double unless their product is too great: the significand, the power
and their product are each rounded, and every time the number grows by one part in `2 ^ 53` at most, so that a product
up to `scalable` stays below the numbers that are rounded to infinity (`scaled?_isFinite`). Quotients never overflow
(`isFinite_divided`).
-/

namespace Chronicle.Decimal

open Float.Model Float.Model.UnpackedFloat

/-! ## The bounds of doubles -/

/-- The mantissa of a double has 53 bits, and its last place is at most `2 ^ 971`. -/
theorem unpack_bounds {b : BitVec Format.binary64.numBits} {s : Sign} {m : Nat} {e : Int} {h : 0 < m}
    (hb : UnpackedFloat.unpack .binary64 b = .finite s m e h) : m < 2 ^ 53 ∧ e ≤ 971 := by
  have hbias : (Format.binary64.exponentBias : Int) = 1023 := by decide
  have hm : (unpackMantissa b).toNat < 2 ^ 52 := (unpackMantissa b).isLt
  have he : (unpackExponent b).toNat < 2 ^ 11 := (unpackExponent b).isLt
  unfold UnpackedFloat.unpack at hb
  dsimp only at hb
  split at hb
  · split at hb <;> cases hb
  · rename_i hones
    have hne : (unpackExponent b).toNat ≠ 2 ^ 11 - 1 := fun hn => hones (BitVec.eq_of_toNat_eq hn)
    have hmax : ((unpackExponent b).toNat : Int) - (1023 + (52 : Nat)) ≤ 971 := by omega
    split at hb
    · rename_i hzero
      split at hb
      · cases hb
      · cases hb
        rw [hzero, hbias]
        exact ⟨hm.trans (by norm_num), by decide⟩
    · cases hb
      rw [hbias]
      exact ⟨(1#1 ++ unpackMantissa b).isLt, hmax⟩

/-! ## Products and quotients -/

section

variable {x y : Float.Model} {l k : Int} {a b : ℚ}

theorem Normal.mono (h : Normal x l a) (hl : k ≤ l) : Normal x k a := by
  obtain ⟨m, e, hm, hx, hm52, he, ha⟩ := h
  exact ⟨m, e, hm, hx, hm52, hl.trans he, ha⟩

theorem Normal.isFinite (h : Normal x l a) : x.isFinite = true := by
  obtain ⟨m, e, hm, hx, -⟩ := h
  rw [Float.Model.isFinite, hx]
  rfl

/-- A product that is not too great is finite. -/
theorem isFinite_mul (hx : Normal x l a) (hy : Normal y k b) (hab : a * b < overflow) :
    (x.mul y).isFinite = true := by
  obtain ⟨m, e, hm, hx, hm52, -, ha⟩ := hx
  obtain ⟨m', e', hm', hy, hm52', -, hb⟩ := hy
  have hlt : ((m * m' : Nat) : ℚ) * 2 ^ (e + e') < overflow := by
    have hle : (m * 2 ^ e) * (m' * 2 ^ e') ≤ a * b :=
      mul_le_mul ha hb (by positivity) (le_trans (by positivity) ha)
    refine lt_of_eq_of_lt ?_ (hle.trans_lt hab)
    rw [zpow_add₀ two_ne_zero]
    push_cast
    ring
  have hlog : 104 ≤ (m * m').log2 := by
    rw [Nat.le_log2 (Nat.mul_pos hm hm').ne', show 104 = 52 + 52 from rfl, pow_add]
    exact Nat.mul_le_mul hm52 hm52'
  have he := log2_add_le (Nat.mul_pos hm hm').ne' hlt
  rw [Float.Model.mul, hx, hy]
  exact isFinite_round _ (by omega) hlt

/-- Where the last place of a quotient is. -/
theorem divCore_eq (m m' : Nat) (e e' : Int) :
    divCore .binary64 m e m' e' =
      let t := min (e - e') (max ((m.log2 + e) - (m'.log2 + e') - 53) (-1074))
      let n := m <<< (e - e' - t).toNat
      (n / m', t, accuracyOfFraction (n % m') m') := by
  have htotal : totalExponent m e - totalExponent m' e' = (m.log2 + e) - (m'.log2 + e') := by
    rw [totalExponent, totalExponent]
    omega
  rw [divCore, targetExponent_eq, htotal]

/-- A quotient has no more bits than the mantissas leave to it. -/
theorem log2_div_le {m m' : Nat} (hm' : m' ≠ 0) (k : Nat) :
    (m <<< k / m').log2 ≤ m.log2 + k - m'.log2 := by
  by_cases h0 : m <<< k / m' = 0
  · rw [h0, Nat.log2_zero]
    exact Nat.zero_le _
  · have hlt : m <<< k / m' < 2 ^ (m.log2 + k + 1 - m'.log2) := by
      refine Nat.div_lt_of_lt_mul ?_
      calc m <<< k = m * 2 ^ k := Nat.shiftLeft_eq m k
        _ < 2 ^ (m.log2 + 1) * 2 ^ k := Nat.mul_lt_mul_of_pos_right Nat.lt_log2_self (Nat.two_pow_pos k)
        _ = 2 ^ (m.log2 + 1 + k) := (pow_add 2 _ k).symm
        _ ≤ 2 ^ (m'.log2 + (m.log2 + k + 1 - m'.log2)) := Nat.pow_le_pow_right Nat.two_pos (by omega)
        _ = 2 ^ m'.log2 * 2 ^ (m.log2 + k + 1 - m'.log2) := pow_add 2 _ _
        _ ≤ m' * 2 ^ (m.log2 + k + 1 - m'.log2) := Nat.mul_le_mul_right _ (Nat.log2_self_le hm')
    have := (Nat.log2_lt h0).2 hlt
    omega

/-- A quotient by a number of at least one half is finite. -/
theorem isFinite_div (hx : x.isFinite = true) (hy : Normal y (-51) b) : (x.div y).isFinite = true := by
  obtain ⟨m', e', hm', hy, hm52', he', -⟩ := hy
  rw [Float.Model.isFinite] at hx
  rw [Float.Model.div, hy]
  cases hu : x.unpack with
  | notANumber => rw [hu] at hx; cases hx
  | infinity s => rw [hu] at hx; cases hx
  | zero s => exact isFinite_pack_zero _
  | finite s m e hm =>
    obtain ⟨hm53, he⟩ := unpack_bounds hu
    have hlog : m.log2 ≤ 52 := Nat.lt_succ_iff.1 ((Nat.log2_lt hm.ne').2 hm53)
    have hlog' : 52 ≤ m'.log2 := (Nat.le_log2 hm'.ne').2 hm52'
    have hcore := divCore_eq m m' e e'
    dsimp only at hcore
    generalize ht : min (e - e') (max ((m.log2 + e) - (m'.log2 + e') - 53) (-1074)) = t at hcore
    generalize hk : (e - e' - t).toNat = k at hcore
    have hquotient := log2_div_le (m := m) hm'.ne' k
    have hs := add_shift (m <<< k / m') t
    change (Float.Model.pack (roundWithAccuracy .binary64 (s / .positive) (divCore .binary64 m e m' e').1
      (divCore .binary64 m e m' e').2.1 (divCore .binary64 m e m' e').2.2)).isFinite = true
    rw [hcore]
    exact isFinite_roundWithAccuracy _ (by dsimp only; omega) fun hmax => by dsimp only at hmax; omega

end

/-! ## Powers of ten and significands -/

theorem power_eq (n : Nat) : power n = .ofModel (Float.Model.ofScientific 1 n) := by
  by_cases h : n ≤ 22
  · -- the powers that a double holds exactly come from a table
    have : ∀ n ≤ 22, power n = .ofModel (Float.Model.ofScientific 1 n) := by decide +kernel
    exact this n h
  · rw [power, Float.ofScientific, dif_neg fun hn => h hn.2]
    rfl

theorem cast_lt_overflow {n : Nat} (h : 2 * n + 2 ^ 971 < 2 ^ 54 * 2 ^ 971) : (n : ℚ) < overflow := by
  have h : 2 * (n : ℚ) + 2 ^ 971 < 2 ^ 54 * 2 ^ 971 := by exact_mod_cast h
  rw [overflow]
  generalize (2 : ℚ) ^ 971 = p at h ⊢
  linarith

/-- The powers of ten that are looked up are normal. -/
theorem normal_power {n : Nat} (h : n ≤ maxExponent) :
    Normal (power n).toModel ((10 ^ n).log2 - 52) (10 ^ n * (1 + 1 / 2 ^ 53)) := by
  have hpos : 0 < 10 ^ n := Nat.pow_pos (by norm_num)
  have hlog : ((2 ^ 53 * 10 ^ n).log2 : Int) = (10 ^ n).log2 + 53 := by
    rw [mul_comm, ← Nat.shiftLeft_eq, log2_shiftLeft hpos.ne']
    rfl
  have hvalue : ((2 ^ 53 * 10 ^ n : Nat) : ℚ) * 2 ^ (-53 : Int) = 10 ^ n := by
    push_cast
    rw [mul_right_comm, zpow_neg]
    norm_num
  have hlt : (10 : ℚ) ^ n < overflow := by
    calc (10 : ℚ) ^ n = (10 ^ n : Nat) := by push_cast; rfl
      _ ≤ (10 ^ maxExponent : Nat) := Nat.cast_le.2 (Nat.pow_le_pow_right (by norm_num) h)
      _ < overflow := cast_lt_overflow (by decide +kernel)
  have hn := normal_roundWithAccuracy (m := 2 ^ 53 * 10 ^ n) (e := -53) (by omega) (by omega) (hvalue ▸ hlt)
  rw [hvalue, hlog] at hn
  have hmodel : (power n).toModel =
      Float.Model.pack (roundWithAccuracy .binary64 .positive (2 ^ 53 * 10 ^ n) (-53) .exact) := by
    have hle : (n : Int) ≤ 308 := by exact_mod_cast h
    have hbits : (2 : Int) ^ Format.binary64.exponentBits = 2048 := by decide
    rw [power_eq]
    change Float.Model.ofScientific 1 (n : Int) = _
    unfold Float.Model.ofScientific UnpackedFloat.ofScientific
    rw [dif_neg one_ne_zero, if_neg (by omega), if_neg (by omega), if_pos (Int.natCast_nonneg n)]
    rfl
  rw [hmodel]
  convert hn using 2
  omega

/-- A significand is rounded to a normal number. -/
theorem normal_toFloat {s : Nat} (h0 : 0 < s) (h : s < 2 ^ 64) :
    Normal (UInt64.ofNat s).toFloat.toModel (s.log2 - 52) (s * (1 + 1 / 2 ^ 53)) := by
  have hlt : (s : ℚ) * 2 ^ (0 : Int) < overflow := by
    rw [zpow_zero, mul_one]
    calc (s : ℚ) < (2 ^ 64 : Nat) := by exact_mod_cast h
      _ < overflow := cast_lt_overflow (by decide +kernel)
  have hn := normal_round (m := s) (e := 0) h0.ne' (by omega) hlt
  rw [zpow_zero, mul_one, add_zero] at hn
  have hmodel : (UInt64.ofNat s).toFloat.toModel = Float.Model.pack (UnpackedFloat.round .binary64 .positive s 0) := by
    change Float.Model.pack (UnpackedFloat.normalize .binary64 ((UInt64.ofNat s).toNat : Int) 0 .positive) = _
    rw [UInt64.toNat_ofNat_of_lt' h, UnpackedFloat.normalize, Int.compare_eq_gt.2 (by omega)]
    rfl
  rw [hmodel]
  exact hn

/-! ## Scaling -/

/-- Up to here a product is rounded to a double, whatever is added when its factors are rounded. -/
def scalable : ℚ := (2 ^ 53 - 5 / 2) * 2 ^ 971

theorem finite?_eq_some {x : Float} (h : x.isFinite = true) : finite? x = some x := if_pos h

/-- A power of ten from ten on can be divided by. -/
theorem normal_divisor {n : Nat} (h1 : 1 ≤ n) (h : n ≤ maxExponent) :
    Normal (power n).toModel (-51) (10 ^ n * (1 + 1 / 2 ^ 53)) := by
  have hlog : 1 ≤ (10 ^ n).log2 := by
    rw [Nat.le_log2 (Nat.pow_pos (by norm_num)).ne']
    exact (show 2 ^ 1 ≤ 10 ^ 1 by norm_num).trans (Nat.pow_le_pow_right (by norm_num) h1)
  exact (normal_power h).mono (by omega)

/-- **Quotients**: a finite double divided by a power of ten is finite. -/
theorem isFinite_divided {x : Float} {n : Nat} (hx : x.isFinite = true) (hn : 1 ≤ n) :
    (divided x n).isFinite = true := by
  fun_induction divided x n with
  | case1 x n hle => exact isFinite_div hx (normal_divisor hn hle)
  | case2 x n hgt h0 => exact hx
  | case3 x n hgt h0 ih => exact ih (isFinite_div hx (normal_divisor (by decide) le_rfl)) (by omega)

/-- Products in range. -/
theorem mul_lt_overflow {a b : ℚ} (h : a * b ≤ scalable) :
    a * (1 + 1 / 2 ^ 53) * (b * (1 + 1 / 2 ^ 53)) < overflow := by
  have hp : (0 : ℚ) < 2 ^ 971 := pow_pos two_pos _
  unfold scalable at h
  unfold overflow
  generalize (2 : ℚ) ^ 971 = p at h hp ⊢
  calc a * (1 + 1 / 2 ^ 53) * (b * (1 + 1 / 2 ^ 53)) = a * b * (1 + 1 / 2 ^ 53) ^ 2 := by ring
    _ ≤ (2 ^ 53 - 5 / 2) * p * (1 + 1 / 2 ^ 53) ^ 2 := by gcongr
    _ = (2 ^ 53 - 5 / 2) * (1 + 1 / 2 ^ 53) ^ 2 * p := by ring
    _ < (2 ^ 53 - 1 / 2) * p := by
      gcongr
      norm_num

theorem isFinite_neg {x : Float} (h : x.isFinite = true) : (-x).isFinite = true := by
  change x.toModel.unpack.isFinite = true at h
  change (Float.Model.pack x.toModel.unpack.neg).isFinite = true
  cases hu : x.toModel.unpack with
  | notANumber => rw [hu] at h; cases h
  | infinity s => rw [hu] at h; cases h
  | zero s => exact isFinite_pack_zero _
  | finite s m e hm => exact isFinite_pack _ hm (unpack_bounds hu).2

/-- Zero times a power of ten. -/
theorem isFinite_zero_mul {y : Float.Model} {l : Int} {a : ℚ} (hy : Normal y l a) : ((UInt64.ofNat 0).toFloat.toModel.mul y).isFinite = true := by
  obtain ⟨m, e, hm, hy, -⟩ := hy
  have hzero : (UInt64.ofNat 0).toFloat.toModel.unpack = .zero .positive := rfl
  rw [Float.Model.mul, hzero, hy]
  exact isFinite_pack_zero _

/-- A positive number in range has no great power of ten. -/
theorem le_maxExponent {s n : Nat} (hs : s ≠ 0) (h : (s : ℚ) * 10 ^ n ≤ scalable) : n ≤ maxExponent := by
  by_contra hn
  have hlt : (2 ^ 54 * 2 ^ 971 : Nat) < (s * 10 ^ n : Nat) := by
    calc 2 ^ 54 * 2 ^ 971 < 10 ^ 309 := by decide +kernel
      _ ≤ 10 ^ n := Nat.pow_le_pow_right (by norm_num) (not_le.1 hn)
      _ ≤ s * 10 ^ n := Nat.le_mul_of_pos_left _ (Nat.pos_of_ne_zero hs)
  have hlt : (2 : ℚ) ^ 54 * 2 ^ 971 < s * 10 ^ n := by exact_mod_cast hlt
  have hp : (0 : ℚ) < 2 ^ 971 := pow_pos two_pos _
  unfold scalable at h
  generalize (2 : ℚ) ^ 971 = p at h hp hlt
  linarith

/-- **Scaling**: a number that is not too great has a double. -/
theorem scaled?_isFinite {s : Nat} {e : Int} (hs : s < 2 ^ 64) (h : (s : ℚ) * 10 ^ e ≤ scalable) :
    ∃ x, scaled? s e = some x ∧ x.isFinite = true := by
  have hx : (UInt64.ofNat s).toFloat.isFinite = true := by
    rcases Nat.eq_zero_or_pos s with rfl | h0
    · rfl
    · exact (normal_toFloat h0 hs).isFinite
  unfold scaled?
  dsimp only
  split
  · have hq := isFinite_divided hx (n := e.natAbs) (by omega)
    exact ⟨_, finite?_eq_some hq, hq⟩
  · rename_i he
    obtain ⟨n, rfl⟩ := Int.eq_ofNat_of_zero_le (not_lt.1 he)
    rw [zpow_natCast] at h
    rw [Int.natAbs_natCast]
    rcases Nat.eq_zero_or_pos s with rfl | h0
    · split
      · rename_i hn
        have hm : ((UInt64.ofNat 0).toFloat * power n).isFinite = true := isFinite_zero_mul (normal_power hn)
        exact ⟨_, finite?_eq_some hm, hm⟩
      · exact ⟨_, if_pos rfl, rfl⟩
    · have hn := le_maxExponent h0.ne' h
      have hm : ((UInt64.ofNat s).toFloat * power n).isFinite = true :=
        isFinite_mul (normal_toFloat h0 hs) (normal_power hn) (mul_lt_overflow h)
      rw [if_pos hn]
      exact ⟨_, finite?_eq_some hm, hm⟩

end Chronicle.Decimal
