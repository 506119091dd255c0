import Mathlib

/-!
# Rounding to doubles

Products and quotients of doubles are computed exactly and then rounded to the nearest double: the mantissa is shifted
to 53 bits, rounded, and shifted once more if that made it too long (`roundWithAccuracy_eq`). Rounding adds at most half
a unit in the last place (`rounded_le`). So a result is finite unless it lies beyond the greatest double by half a unit
or more (`isFinite_round`), and a normal one exceeds what it was rounded from by at most one part in `2 ^ 53`
(`normal_round`).
-/

namespace Chronicle.Decimal

open Float.Model Float.Model.UnpackedFloat

/-! ## Shifting -/

/-- What an extended mantissa stands for is at least this: its mantissa, and a half if the round bit is set. -/
def AtLeast (em : ExtendedMantissa) (x : ℚ) : Prop := (em.mantissa : ℚ) + (if em.roundBit then 1 / 2 else 0) ≤ x

theorem AtLeast.exact (m : ℕ) : AtLeast (.ofMantissaAndAccuracy m .exact) m := by
  simp [AtLeast, ExtendedMantissa.ofMantissaAndAccuracy]

theorem AtLeast.shiftRightOne {em : ExtendedMantissa} {x : ℚ} (h : AtLeast em x) : AtLeast em.shiftRightOne (x / 2) := by
  have hm : (em.mantissa : ℚ) ≤ x := by
    refine le_trans ?_ h
    split <;> simp
  have hd : ((em.mantissa / 2 : ℕ) : ℚ) * 2 + ((em.mantissa % 2 : ℕ) : ℚ) = em.mantissa := by
    exact_mod_cast Nat.div_add_mod' em.mantissa 2
  unfold AtLeast ExtendedMantissa.shiftRightOne
  rcases Nat.mod_two_eq_zero_or_one em.mantissa with h2 | h2
  · rw [h2] at hd
    simp only [h2, bne_self_eq_false, Bool.false_eq_true, ↓reduceIte]
    push_cast at hd
    linarith
  · rw [h2] at hd
    simp only [h2, bne_iff_ne, ne_eq, one_ne_zero, not_false_eq_true, ↓reduceIte]
    push_cast at hd
    linarith

theorem AtLeast.shiftRight {em : ExtendedMantissa} {x : ℚ} (h : AtLeast em x) (k : ℕ) : AtLeast (em >>> k) (x / 2 ^ k) := by
  change AtLeast (k.repeat ExtendedMantissa.shiftRightOne em) (x / 2 ^ k)
  induction k with
  | zero => simpa [Nat.repeat] using h
  | succ k ih =>
    rw [Nat.repeat, pow_succ, ← div_div]
    exact ih.shiftRightOne

theorem roundedMantissa_cases (em : ExtendedMantissa) :
    em.roundedMantissa = em.mantissa ∨ em.roundBit = true ∧ em.roundedMantissa ≤ em.mantissa + 1 := by
  rcases em with ⟨m, _ | _, _ | _⟩
  · exact .inl rfl
  · exact .inl rfl
  · have hm : m % 2 ≤ 1 := Nat.lt_succ_iff.1 (Nat.mod_lt m Nat.two_pos)
    exact .inr ⟨rfl, Nat.add_le_add_left hm m⟩
  · exact .inr ⟨rfl, le_rfl⟩

theorem mantissa_le_roundedMantissa (em : ExtendedMantissa) : em.mantissa ≤ em.roundedMantissa := by
  rcases em with ⟨m, _ | _, _ | _⟩
  · exact le_rfl
  · exact le_rfl
  · exact Nat.le_add_right m (m % 2)
  · exact Nat.le_succ m

/-- Rounding adds half a unit at most. -/
theorem AtLeast.roundedMantissa_le {em : ExtendedMantissa} {x : ℚ} (h : AtLeast em x) :
    (em.roundedMantissa : ℚ) ≤ x + 1 / 2 := by
  unfold AtLeast at h
  rcases roundedMantissa_cases em with hr | ⟨hb, hr⟩
  · rw [hr]
    split at h <;> linarith
  · rw [if_pos hb] at h
    have hr : (em.roundedMantissa : ℚ) ≤ em.mantissa + 1 := by exact_mod_cast hr
    linarith

theorem mantissa_shiftRight (em : ExtendedMantissa) (k : ℕ) : (em >>> k).mantissa = em.mantissa / 2 ^ k := by
  change (k.repeat ExtendedMantissa.shiftRightOne em).mantissa = em.mantissa / 2 ^ k
  induction k with
  | zero => simp [Nat.repeat]
  | succ k ih =>
    rw [Nat.repeat, pow_succ, ← Nat.div_div_eq_div_mul, ← ih]
    rfl

/-! ## Rounding a mantissa -/

/-- How far a mantissa is shifted. -/
def shift (m : Nat) (e : Int) : Nat := (Format.binary64.targetExponent (totalExponent m e) - e).toNat

/-- The mantissa after the first shift, rounded. -/
def rounded (m : Nat) (e : Int) (a : Accuracy) : Nat :=
  (ExtendedMantissa.ofMantissaAndAccuracy m a >>> shift m e).roundedMantissa

theorem targetExponent_eq (total : Int) : Format.binary64.targetExponent total = max (total - 53) (-1074) := by
  rw [Format.targetExponent]
  rfl

theorem add_shift (m : Nat) (e : Int) : e + shift m e = max e (max (m.log2 + e - 52) (-1074)) := by
  rw [shift, targetExponent_eq, totalExponent]
  omega

theorem mantissa_ofMantissaAndAccuracy (m : Nat) (a : Accuracy) :
    (ExtendedMantissa.ofMantissaAndAccuracy m a).mantissa = m := by
  rcases a with _ | _ | _ | _ <;> rfl

/-- Rounding cuts bits off and adds one at most. -/
theorem rounded_bounds (m : Nat) (e : Int) (a : Accuracy) :
    m / 2 ^ shift m e ≤ rounded m e a ∧ rounded m e a ≤ m / 2 ^ shift m e + 1 := by
  have hl := mantissa_le_roundedMantissa (ExtendedMantissa.ofMantissaAndAccuracy m a >>> shift m e)
  have hc := roundedMantissa_cases (ExtendedMantissa.ofMantissaAndAccuracy m a >>> shift m e)
  rw [mantissa_shiftRight, mantissa_ofMantissaAndAccuracy] at hl hc
  refine ⟨hl, ?_⟩
  rcases hc with hc | ⟨-, hc⟩
  · exact hc.trans_le (Nat.le_succ _)
  · exact hc

/-- Rounding adds half a unit at most. -/
theorem rounded_le (m : Nat) (e : Int) : (rounded m e .exact : ℚ) ≤ m / 2 ^ shift m e + 1 / 2 :=
  ((AtLeast.exact m).shiftRight (shift m e)).roundedMantissa_le

/-- The mantissa is rounded to 53 bits, or to the power of two behind them. -/
theorem rounded_le_two_pow (m : Nat) (e : Int) (a : Accuracy) : rounded m e a ≤ 2 ^ 53 := by
  have hs := add_shift m e
  have hm : m < 2 ^ (53 + shift m e) :=
    lt_of_lt_of_le Nat.lt_log2_self (Nat.pow_le_pow_right Nat.two_pos (by omega))
  have hd : m / 2 ^ shift m e < 2 ^ 53 := by
    rw [Nat.div_lt_iff_lt_mul (Nat.two_pow_pos _), ← pow_add]
    exact hm
  exact (rounded_bounds m e a).2.trans hd

/-- A mantissa of at least 53 bits is rounded to that many. -/
theorem two_pow_le_rounded {m : Nat} {e : Int} (hs : shift m e + 52 ≤ m.log2) (a : Accuracy) :
    2 ^ 52 ≤ rounded m e a := by
  have hne : m ≠ 0 := by
    rintro rfl
    simp at hs
  have hd : 2 ^ 52 ≤ m / 2 ^ shift m e := by
    rw [Nat.le_div_iff_mul_le (Nat.two_pow_pos _), ← pow_add]
    exact (Nat.pow_le_pow_right Nat.two_pos (by omega)).trans (Nat.log2_self_le hne)
  exact hd.trans (rounded_bounds m e a).1

/-- What a mantissa is rounded to. -/
theorem roundWithAccuracy_eq (s : Sign) (m : Nat) (e : Int) (a : Accuracy) :
    roundWithAccuracy .binary64 s m e a =
      if h : rounded m e a = 0 then .zero s
      else if rounded m e a < 2 ^ 53 then .finite s (rounded m e a) (e + shift m e) (Nat.pos_of_ne_zero h)
      else .finite s (2 ^ 52) (e + shift m e + 1) (by decide) := by
  have hfirst : shiftToTargetExponent .binary64 m e a =
      (ExtendedMantissa.ofMantissaAndAccuracy m a >>> shift m e, e + shift m e) := rfl
  have hmin : -1074 ≤ e + shift m e := by
    rw [add_shift]
    omega
  generalize hr : rounded m e a = r
  generalize he : e + shift m e = e₁ at *
  have hround : (ExtendedMantissa.ofMantissaAndAccuracy m a >>> shift m e).roundedMantissa = r := hr
  have hsecond : shiftToTargetExponent .binary64 r e₁ .exact =
      (ExtendedMantissa.ofMantissaAndAccuracy r .exact >>> shift r e₁, e₁ + shift r e₁) := rfl
  rw [roundWithAccuracy, hfirst]
  dsimp only
  rw [hround, hsecond]
  dsimp only
  have hle : r ≤ 2 ^ 53 := hr ▸ rounded_le_two_pow m e a
  have hs := add_shift r e₁
  by_cases hlt : r < 2 ^ 53
  · -- a mantissa of 53 bits is not shifted again
    have hz : shift r e₁ = 0 := by
      have hlog : r.log2 ≤ 52 := by
        by_cases h0 : r = 0
        · simp [h0]
        · exact Nat.lt_succ_iff.1 ((Nat.log2_lt h0).2 hlt)
      omega
    have hm : (ExtendedMantissa.ofMantissaAndAccuracy r .exact >>> 0).mantissa = r := rfl
    simp only [hz, hm, Nat.cast_zero, add_zero, if_pos hlt]
  · obtain rfl : r = 2 ^ 53 := le_antisymm hle (not_lt.1 hlt)
    have hone : shift (2 ^ 53) e₁ = 1 := by
      rw [Nat.log2_two_pow] at hs
      omega
    rw [hone]
    rfl

/-! ## Finite results -/

theorem isFinite_unpack_iff {b : BitVec Format.binary64.numBits} :
    (UnpackedFloat.unpack .binary64 b).isFinite = true ↔ unpackExponent b ≠ (-1#11) := by
  unfold UnpackedFloat.unpack
  dsimp only
  split
  · rename_i h
    refine iff_of_false ?_ (not_not_intro h)
    split <;> exact Bool.false_ne_true
  · rename_i h
    refine iff_of_true ?_ h
    split
    · split <;> rfl
    · rfl

theorem isFinite_pack (s : Sign) {m : Nat} {e : Int} (hm : 0 < m) (he : e ≤ 971) :
    (Float.Model.pack (.finite s m e hm)).isFinite = true := by
  change (UnpackedFloat.unpack .binary64 (UnpackedFloat.pack .binary64 (.finite s m e hm))).isFinite = true
  rw [isFinite_unpack_iff, UnpackedFloat.pack]
  have hb : (Format.binary64.exponentBias : Int) = 1023 := by decide
  simp only [hb]
  rw [if_neg (by norm_num; omega)]
  split
  · rw [unpackExponent_packComponents]
    intro h
    have hn := congrArg BitVec.toNat h
    simp at hn
    omega
  · rw [unpackExponent_packComponents]
    decide

theorem isFinite_pack_zero (s : Sign) : (Float.Model.pack (.zero s)).isFinite = true := by
  cases s <;> rfl

/-- A rounded number is finite if its last place is not too high. -/
theorem isFinite_roundWithAccuracy (s : Sign) {m : Nat} {e : Int} {a : Accuracy} (he : e + shift m e ≤ 971)
    (hr : e + shift m e = 971 → rounded m e a < 2 ^ 53) :
    (Float.Model.pack (roundWithAccuracy .binary64 s m e a)).isFinite = true := by
  rw [roundWithAccuracy_eq]
  split
  · exact isFinite_pack_zero s
  · split
    · exact isFinite_pack s _ he
    · refine isFinite_pack s _ ?_
      omega

/-- The least number that is rounded to infinity. -/
def overflow : ℚ := (2 ^ 53 - 1 / 2) * 2 ^ 971

theorem two_zpow_log2_le {m : Nat} (hm : m ≠ 0) (e : Int) : (2 : ℚ) ^ (m.log2 + e) ≤ m * 2 ^ e := by
  rw [zpow_add₀ two_ne_zero, zpow_natCast]
  have hl : (2 : ℚ) ^ m.log2 ≤ m := by exact_mod_cast Nat.log2_self_le hm
  exact mul_le_mul_of_nonneg_right hl (zpow_nonneg zero_le_two e)

theorem overflow_lt : overflow < (2 : ℚ) ^ (1024 : Int) := by
  have hp : (2 : ℚ) ^ (1024 : Int) = 2 ^ 53 * 2 ^ 971 := by
    rw [← pow_add]
    rfl
  rw [hp, overflow]
  exact mul_lt_mul_of_pos_right (by norm_num) (pow_pos two_pos _)

theorem log2_add_le {m : Nat} {e : Int} (hm : m ≠ 0) (h : (m : ℚ) * 2 ^ e < overflow) : m.log2 + e ≤ 1023 := by
  have hp := ((two_zpow_log2_le hm e).trans_lt h).trans overflow_lt
  exact Int.lt_add_one_iff.1 ((zpow_lt_zpow_iff_right₀ one_lt_two).1 hp)

/-- In the highest place a number in range is not rounded up to the next power of two. -/
theorem rounded_lt_two_pow {m : Nat} {e : Int} (hmax : e + shift m e = 971) (h : (m : ℚ) * 2 ^ e < overflow) :
    rounded m e .exact < 2 ^ 53 := by
  by_contra hr
  have hr : (2 : ℚ) ^ 53 ≤ rounded m e .exact := by exact_mod_cast not_lt.1 hr
  have hm : ((2 : ℚ) ^ 53 - 1 / 2) ≤ m / 2 ^ shift m e := by
    have := rounded_le m e
    linarith
  have hpow : (2 : ℚ) ^ 971 = 2 ^ shift m e * 2 ^ e := by
    rw [← zpow_natCast, ← zpow_natCast, ← zpow_add₀ two_ne_zero, add_comm, hmax]
    rfl
  have hle : overflow ≤ m * 2 ^ e := by
    rw [overflow, hpow, ← mul_assoc]
    refine mul_le_mul_of_nonneg_right ?_ (zpow_nonneg zero_le_two e)
    rwa [le_div_iff₀ (pow_pos two_pos _)] at hm
  exact absurd h (not_lt.2 hle)

/-- **Rounding in range**: a number below the greatest double and half a unit is rounded to a finite one. -/
theorem isFinite_round (s : Sign) {m : Nat} {e : Int} (he : e ≤ 971) (h : (m : ℚ) * 2 ^ e < overflow) :
    (Float.Model.pack (roundWithAccuracy .binary64 s m e .exact)).isFinite = true := by
  have hs := add_shift m e
  have hlog : m.log2 + e ≤ 1023 := by
    by_cases hm : m = 0
    · rw [hm, Nat.log2_zero]
      omega
    · exact log2_add_le hm h
  exact isFinite_roundWithAccuracy s (by omega) fun hmax => rounded_lt_two_pow hmax h

/-! ## Normal results -/

theorem unpack_pack {m : Nat} {e : Int} (hm : 0 < m) (hlog : m.log2 = 52) (hmin : -1074 ≤ e) (hmax : e ≤ 971) :
    (Float.Model.pack (.finite .positive m e hm)).unpack = .finite .positive m e hm := by
  have hb : (Format.binary64.exponentBias : Int) = 1023 := by decide
  have hbits : m.log2 + 1 = Format.binary64.mantissaBits := by
    rw [hlog]
    rfl
  have hexponent : (BitVec.ofNat 11 (e + 1023 + (52 : Nat)).toNat).toNat = (e + 1075).toNat := by
    rw [BitVec.toNat_ofNat, Nat.mod_eq_of_lt (by norm_num; omega)]
    omega
  have hones : BitVec.ofNat 11 (e + 1023 + (52 : Nat)).toNat ≠ -1#11 := by
    intro h
    have hn := congrArg BitVec.toNat h
    rw [hexponent] at hn
    norm_num at hn
    omega
  have hzero : BitVec.ofNat 11 (e + 1023 + (52 : Nat)).toNat ≠ 0#11 := by
    intro h
    have hn := congrArg BitVec.toNat h
    rw [hexponent] at hn
    norm_num at hn
    omega
  have hmantissa : (1#1 ++ BitVec.ofNat 52 m).toNat = m := by
    obtain ⟨hl, hr⟩ := (Nat.log2_eq_iff hm.ne').1 hlog
    rw [BitVec.toNat_append, ← Nat.shiftLeft_add_eq_or_of_lt (BitVec.isLt _), BitVec.toNat_ofNat, BitVec.toNat_ofNat,
      Nat.shiftLeft_eq]
    omega
  change UnpackedFloat.unpack .binary64 (UnpackedFloat.pack .binary64 (.finite .positive m e hm)) = _
  rw [UnpackedFloat.pack]
  simp only [hb]
  rw [if_neg (by norm_num; omega), if_pos hbits, UnpackedFloat.unpack]
  simp only [unpackExponent_packComponents, unpackMantissa_packComponents, unpackSign_packComponents]
  rw [if_neg hones, if_neg hzero]
  simp only [hmantissa, hexponent, hb]
  congr 1
  push_cast
  omega

/-- A positive double of 53 bits, whose last place is at least `2 ^ l` and which is at most `a`. -/
def Normal (x : Float.Model) (l : Int) (a : ℚ) : Prop :=
  ∃ m e h, x.unpack = .finite .positive m e h ∧ 2 ^ 52 ≤ m ∧ l ≤ e ∧ (m : ℚ) * 2 ^ e ≤ a

/-- **Rounding error**: rounding makes a normal number greater by one part in `2 ^ 53` at most. -/
theorem normal_roundWithAccuracy {m : Nat} {e : Int} (hm : 52 ≤ m.log2) (hmin : -1022 ≤ m.log2 + e)
    (h : (m : ℚ) * 2 ^ e < overflow) :
    Normal (Float.Model.pack (roundWithAccuracy .binary64 .positive m e .exact)) (m.log2 + e - 52)
      (m * 2 ^ e * (1 + 1 / 2 ^ 53)) := by
  have hne : m ≠ 0 := by
    rintro rfl
    simp at hm
  have hs := add_shift m e
  have hlog := log2_add_le hne h
  have hk : shift m e + 52 = m.log2 := by omega
  have hlow := two_pow_le_rounded hk.le .exact
  have hhigh := rounded_le_two_pow m e .exact
  have hle : (rounded m e .exact : ℚ) * 2 ^ (e + shift m e) ≤ m * 2 ^ e * (1 + 1 / 2 ^ 53) := by
    have hr := rounded_le m e
    have hm2 : (2 : ℚ) ^ 52 * 2 ^ shift m e ≤ m := by
      rw [← pow_add, add_comm, hk]
      exact_mod_cast Nat.log2_self_le hne
    have hr2 : (rounded m e .exact : ℚ) * 2 ^ shift m e ≤ m * (1 + 1 / 2 ^ 53) := by
      have hp : (0 : ℚ) < 2 ^ shift m e := pow_pos two_pos _
      have hmul := mul_le_mul_of_nonneg_right hr hp.le
      rw [add_mul, div_mul_cancel₀ _ hp.ne'] at hmul
      linarith
    rw [zpow_add₀ two_ne_zero, zpow_natCast]
    have hmul := mul_le_mul_of_nonneg_right hr2 (zpow_nonneg zero_le_two e)
    linarith
  rw [roundWithAccuracy_eq, dif_neg (by omega)]
  split
  · rename_i hlt
    have hlog2 := (Nat.log2_eq_iff (by omega)).2 ⟨hlow, hlt⟩
    exact ⟨_, _, _, unpack_pack _ hlog2 (by omega) (by omega), hlow, by omega, hle⟩
  · rename_i hnlt
    have hr : rounded m e .exact = 2 ^ 53 := le_antisymm hhigh (not_lt.1 hnlt)
    have hmax : e + shift m e ≠ 971 := fun hmax => hnlt (rounded_lt_two_pow hmax h)
    refine ⟨_, _, _, unpack_pack _ Nat.log2_two_pow (by omega) (by omega), le_rfl, by omega, ?_⟩
    rw [hr] at hle
    refine le_trans (le_of_eq ?_) hle
    rw [zpow_add_one₀ two_ne_zero]
    push_cast
    ring

theorem log2_shiftLeft {m : Nat} (hm : m ≠ 0) (k : Nat) : (m <<< k).log2 = m.log2 + k := by
  obtain ⟨hl, hu⟩ := (Nat.log2_eq_iff hm).1 rfl
  have hp : m <<< k ≠ 0 := by
    rw [Nat.shiftLeft_eq]
    exact Nat.mul_ne_zero hm (Nat.two_pow_pos k).ne'
  refine (Nat.log2_eq_iff hp).2 ?_
  rw [Nat.shiftLeft_eq, pow_add, Nat.add_right_comm, pow_add _ _ k]
  exact ⟨Nat.mul_le_mul_right _ hl, Nat.mul_lt_mul_of_pos_right hu (Nat.two_pow_pos k)⟩

/-- A mantissa of any length is first made long enough. -/
theorem normal_round {m : Nat} {e : Int} (hm : m ≠ 0) (hmin : -1022 ≤ m.log2 + e) (h : (m : ℚ) * 2 ^ e < overflow) :
    Normal (Float.Model.pack (UnpackedFloat.round .binary64 .positive m e)) (m.log2 + e - 52) (m * 2 ^ e * (1 + 1 / 2 ^ 53)) := by
  have ht := targetExponent_eq (totalExponent m e)
  have htotal : totalExponent m e = m.log2 + 1 + e := rfl
  generalize hk : (e - Format.binary64.targetExponent (totalExponent m e)).toNat = k
  have hlog := log2_shiftLeft hm k
  have hvalue : ((m <<< k : Nat) : ℚ) * 2 ^ (e - k) = m * 2 ^ e := by
    rw [Nat.shiftLeft_eq, Nat.cast_mul, mul_assoc, Nat.cast_pow, Nat.cast_two, ← zpow_natCast, ← zpow_add₀ two_ne_zero]
    congr 2
    omega
  have hn := normal_roundWithAccuracy (m := m <<< k) (e := e - k) (by omega) (by omega) (hvalue ▸ h)
  rw [hvalue, hlog] at hn
  unfold UnpackedFloat.round decreaseExponent
  dsimp only
  rw [hk]
  convert hn using 2
  omega

end Chronicle.Decimal
