import Chronicle.Json.Printer
import Chronicle.Proofs.Decimal.Scale
import Chronicle.Proofs.Decimal.Shortest
import Chronicle.Proofs.Json.Grammar

/-!
# The texts of doubles are read

The text of a double is a numeral with a fraction or an exponent (`fractionalText_layout`), so it is never taken for an
integer. It stands for a number that is close enough to the double to be in range, and so it is read as some double
(`Double.exists_numeral`), although not always as the same one. The two greatest doubles are too near to the end of the
range for this argument (`le_scalable_or`); what is read of their texts is computed.
-/

namespace Chronicle.Json

open Text (isDigit digitValue digits value symbolsOf value_append value_cons value_zeros)
open Decimal (Digits Parts scalable scaled? shortest)

/-! ## Numerals in range -/

/-- The number that a numeral stands for, without its sign. -/
def Numeral.magnitude (n : Numeral) : ℚ :=
  value (n.whole ++ n.fraction) * 10 ^ (n.exponent.getD 0 - n.fraction.length)

section

variable {s : Nat} {ds : List Char}

/-- The digits that are left over only make the number greater. -/
theorem absorb_le (hs : s < 0x10000000000000000) (ds : List Char) :
    (absorb s ds).1 < 0x10000000000000000 ∧ (absorb s ds).2.length ≤ ds.length ∧
      (absorb s ds).1 * 10 ^ (absorb s ds).2.length ≤ s * 10 ^ ds.length + value ds := by
  induction ds generalizing s with
  | nil => exact ⟨hs, le_rfl, le_rfl⟩
  | cons d ds ih =>
    unfold absorb
    dsimp only
    split
    · rename_i hnext
      obtain ⟨h64, hlen, hle⟩ := ih hnext
      refine ⟨h64, hlen.trans (Nat.le_succ _), hle.trans_eq ?_⟩
      rw [value_cons, List.length_cons, pow_succ]
      ring
    · exact ⟨hs, le_rfl, Nat.le_add_right _ _⟩

/-- Digits that fit are all absorbed. -/
theorem absorb_eq (ds : List Char) (h : s * 10 ^ ds.length + value ds < 0x10000000000000000) :
    absorb s ds = (s * 10 ^ ds.length + value ds, []) := by
  induction ds generalizing s with
  | nil => simp [absorb, value]
  | cons d ds ih =>
    have heq : s * 10 ^ (d :: ds).length + value (d :: ds) = (s * 10 + digitValue d) * 10 ^ ds.length + value ds := by
      rw [value_cons, List.length_cons, pow_succ]
      ring
    have hnext : s * 10 + digitValue d < 0x10000000000000000 := by
      have : s * 10 + digitValue d ≤ (s * 10 + digitValue d) * 10 ^ ds.length := Nat.le_mul_of_pos_right _ (by positivity)
      omega
    rw [heq] at h ⊢
    rw [absorb, if_pos hnext, ih h]

end

/-- A numeral in range has a double. -/
theorem Numeral.exists_double? {n : Numeral} (hw : value n.whole < 0x10000000000000000) (h : n.magnitude ≤ scalable) :
    ∃ x, n.double? = some x := by
  have hwhole : absorb 0 n.whole = (value n.whole, []) := by
    have := absorb_eq (s := 0) n.whole (by omega)
    rwa [Nat.zero_mul, Nat.zero_add] at this
  obtain ⟨h64, hlen, hle⟩ := absorb_le hw n.fraction
  unfold Numeral.double?
  rw [hwhole]
  dsimp only
  generalize hr : absorb (value n.whole) n.fraction = r at h64 hlen hle
  obtain ⟨s, left⟩ := r
  dsimp only at h64 hlen hle ⊢
  rw [← value_append] at hle
  have hscaled : (s : ℚ) * 10 ^ (((([] : List Char).length : Int) - (n.fraction.length - left.length : Nat)) +
      n.exponent.getD 0) ≤ scalable := by
    refine le_trans ?_ h
    have hexp : (([] : List Char).length : Int) - (n.fraction.length - left.length : Nat) + n.exponent.getD 0 =
        left.length + (n.exponent.getD 0 - n.fraction.length) := by
      rw [List.length_nil]
      omega
    have hle : (s : ℚ) * 10 ^ left.length ≤ value (n.whole ++ n.fraction) := by exact_mod_cast hle
    rw [hexp, zpow_add₀ (by norm_num), zpow_natCast, ← mul_assoc, Numeral.magnitude]
    exact mul_le_mul_of_nonneg_right hle (by positivity)
  obtain ⟨x, hx, hfinite⟩ := Decimal.scaled?_isFinite h64 hscaled
  have hsigned : (if n.negative then -x else x).isFinite = true := by
    split
    · exact Decimal.isFinite_neg hfinite
    · exact hfinite
  refine ⟨⟨_, hsigned⟩, ?_⟩
  rw [hx]
  exact dif_pos hsigned

/-! ## The form of the texts -/

/-- A numeral that is no integer, of at most 16 digits before the point. -/
structure Numeral.Fractional (n : Numeral) : Prop where
  mark : n.fraction ≠ [] ∨ n.exponent ≠ none
  short : n.whole.length ≤ 16
  digits : ∀ c ∈ n.whole, isDigit c = true

theorem Numeral.Fractional.integer? {n : Numeral} (h : n.Fractional) : n.integer? = none := by
  refine if_neg ?_
  rintro ⟨hf, he⟩
  rcases h.mark with hm | hm
  · exact hm (List.isEmpty_iff.1 hf)
  · exact hm (Option.isNone_iff_eq_none.1 he)

theorem Numeral.Fractional.value_whole_lt {n : Numeral} (h : n.Fractional) : value n.whole < 0x10000000000000000 := by
  calc value n.whole < 10 ^ n.whole.length := Text.value_lt (List.all_eq_true.2 h.digits)
    _ ≤ 10 ^ 16 := Nat.pow_le_pow_right (by norm_num) h.short
    _ < 0x10000000000000000 := by norm_num

/-- A text for a number without a sign, as a numeral that is no integer. -/
def FractionalText (t : List Char) (v : ℚ) : Prop :=
  ∃ n, NumeralText t n ∧ n.negative = false ∧ n.Fractional ∧ n.magnitude = v

theorem FractionalText.mk {whole fraction exponent ds : List Char} {e : Option Int} {v : ℚ} (hw : IsWhole whole)
    (hf : FractionText fraction ds) (he : ExponentText exponent e) (hmark : ds ≠ [] ∨ e ≠ none)
    (hshort : whole.length ≤ 16) (hv : value (whole ++ ds) * (10 : ℚ) ^ (e.getD 0 - ds.length) = v) :
    FractionalText (whole ++ (fraction ++ exponent)) v :=
  ⟨⟨false, whole, ds, e⟩, .mk .absent hw hf he, rfl, ⟨hmark, hshort, hw.1.2⟩, hv⟩

theorem isWhole_singleton {c : Char} (h : isDigit c = true) : IsWhole [c] := by
  refine ⟨⟨List.cons_ne_nil _ _, ?_⟩, fun rest hr => ?_⟩
  · rwa [List.forall_mem_singleton]
  · cases hr
    rfl

theorem isDigit_of_mem_zeros {k : Nat} {c : Char} (h : c ∈ List.replicate k '0') : isDigit c = true := by
  rw [List.eq_of_mem_replicate h]
  rfl

section

variable {d : Digits}

/-- Digits behind the point. -/
theorem fractionalText_small (h : d.Proper) (he : d.exponent < 0) :
    FractionalText ('0' :: '.' :: (List.replicate (-d.exponent - 1).toNat '0' ++ d.digits)) d.value := by
  have hne : d.digits ≠ [] := fun hnil => he.ne (h.zero hnil)
  generalize hk : (-d.exponent - 1).toNat = k
  have hdigits : IsDigits (List.replicate k '0' ++ d.digits) := by
    refine ⟨List.append_ne_nil_of_right_ne_nil _ hne, fun c hc => ?_⟩
    rcases List.mem_append.1 hc with hc | hc
    · exact isDigit_of_mem_zeros hc
    · exact h.digits c hc
  have hv : value (['0'] ++ (List.replicate k '0' ++ d.digits)) * (10 : ℚ) ^
      ((none : Option Int).getD 0 - (List.replicate k '0' ++ d.digits).length) = d.value := by
    have hzero : value ['0'] = 0 := rfl
    have hexp : 0 - ((k + d.digits.length : Nat) : Int) = d.exponent + 1 - d.digits.length := by omega
    rw [value_append, value_append, hzero, value_zeros, Nat.zero_mul, Nat.zero_mul, Nat.zero_add, Nat.zero_add,
      List.length_append, List.length_replicate, Option.getD_none, hexp, Digits.value]
  have := FractionalText.mk (isWhole_singleton rfl) (.present hdigits) .absent (.inl hdigits.1) (by simp) hv
  rwa [List.append_nil] at this

/-- Digits on both sides of the point. -/
theorem fractionalText_middle (h : d.Proper) {k : Nat} (he : d.exponent = k) (hk : k < 16)
    (hlen : k + 1 < d.digits.length) :
    FractionalText (d.digits.take (k + 1) ++ '.' :: d.digits.drop (k + 1)) d.value := by
  have hlength : (d.digits.take (k + 1)).length = k + 1 := List.length_take_of_le hlen.le
  have hwhole : IsWhole (d.digits.take (k + 1)) := by
    refine ⟨⟨?_, fun c hc => h.digits c (List.mem_of_mem_take hc)⟩, fun rest hr => ?_⟩
    · exact List.ne_nil_of_length_eq_add_one hlength
    · -- a number of several digits has no leading zero
      have hd : d.digits = '0' :: (rest ++ d.digits.drop (k + 1)) := by
        rw [← List.cons_append, ← hr, List.take_append_drop]
      have hone := congrArg List.length hd
      rw [(h.leading _ hd).1, List.length_singleton] at hone
      omega
  have hdigits : IsDigits (d.digits.drop (k + 1)) := by
    refine ⟨?_, fun c hc => h.digits c (List.mem_of_mem_drop hc)⟩
    intro hnil
    have := congrArg List.length hnil
    rw [List.length_drop, List.length_nil] at this
    omega
  have hv : value (d.digits.take (k + 1) ++ d.digits.drop (k + 1)) * (10 : ℚ) ^
      ((none : Option Int).getD 0 - (d.digits.drop (k + 1)).length) = d.value := by
    have hexp : 0 - ((d.digits.length - (k + 1) : Nat) : Int) = d.exponent + 1 - d.digits.length := by omega
    rw [List.take_append_drop, List.length_drop, Option.getD_none, hexp, Digits.value]
  have := FractionalText.mk hwhole (.present hdigits) .absent (.inl hdigits.1) (by omega) hv
  rwa [List.append_nil] at this

/-- Digits before the point, filled up with zeros. -/
theorem fractionalText_whole (h : d.Proper) {k : Nat} (he : d.exponent = k) (hk : k < 16)
    (hlen : d.digits.length ≤ k + 1) :
    FractionalText (d.digits ++ List.replicate (k + 1 - d.digits.length) '0' ++ ['.', '0']) d.value := by
  generalize hz : k + 1 - d.digits.length = z
  have hlength : (d.digits ++ List.replicate z '0').length = k + 1 := by
    rw [List.length_append, List.length_replicate]
    omega
  have hwhole : IsWhole (d.digits ++ List.replicate z '0') := by
    refine ⟨⟨List.ne_nil_of_length_eq_add_one hlength, fun c hc => ?_⟩, fun rest hr => ?_⟩
    · rcases List.mem_append.1 hc with hc | hc
      · exact h.digits c hc
      · exact isDigit_of_mem_zeros hc
    · have hzero : d.exponent = 0 := by
        cases hd : d.digits with
        | nil => exact h.zero hd
        | cons c tail =>
          rw [hd, List.cons_append] at hr
          cases hr
          exact (h.leading tail hd).2
      rw [hr, List.length_cons] at hlength
      exact List.eq_nil_of_length_eq_zero (by omega)
  have hdigits : IsDigits ['0'] := (isWhole_singleton rfl).1
  have hv : value (d.digits ++ List.replicate z '0' ++ ['0']) * (10 : ℚ) ^
      ((none : Option Int).getD 0 - (['0'] : List Char).length) = d.value := by
    have hexp : d.exponent + 1 - d.digits.length = z := by omega
    have htenth : (10 : ℚ) ^ ((none : Option Int).getD 0 - (['0'] : List Char).length) = 1 / 10 := by
      norm_num
    rw [htenth, List.append_assoc, ← List.replicate_succ', value_append, value_zeros, List.length_replicate,
      Digits.value, hexp, Nat.add_zero, Nat.cast_mul, Nat.cast_pow, pow_succ, zpow_natCast]
    push_cast
    ring
  have := FractionalText.mk hwhole (.present hdigits) .absent (.inl hdigits.1) (by omega) hv
  rwa [List.append_nil] at this

/-- One digit before the point, and an exponent. -/
theorem fractionalText_scientific (h : d.Proper) (hne : d.digits ≠ []) :
    FractionalText (Decimal.scientific d) d.value := by
  obtain ⟨ds, e⟩ := d
  obtain ⟨c, tail, rfl⟩ := List.exists_cons_of_ne_nil hne
  obtain ⟨hc, htail⟩ := List.forall_mem_cons.1 h.digits
  have hfraction : FractionText (if tail.isEmpty then [] else '.' :: tail) tail := by
    cases tail with
    | nil => exact .absent
    | cons d tail => exact .present ⟨List.cons_ne_nil d tail, htail⟩
  have hdigits : IsDigits (digits e.natAbs) :=
    ⟨Text.digits_ne_nil _, List.all_eq_true.1 (Text.all_isDigit_digits _)⟩
  have hexponent : ExponentText ('e' :: (if e < 0 then '-' else '+') :: digits e.natAbs) (some e) := by
    by_cases he : e < 0
    · have := ExponentText.present (.inl rfl) (.minus .present) hdigits
      rw [if_pos rfl, Text.value_digits, Int.ofNat_natAbs_of_nonpos he.le, neg_neg] at this
      rw [if_pos he]
      exact this
    · have := ExponentText.present (.inl rfl) .plus hdigits
      rw [if_neg Bool.false_ne_true, Text.value_digits, Int.natAbs_of_nonneg (not_lt.1 he)] at this
      rw [if_neg he]
      exact this
  have hv : value ([c] ++ tail) * (10 : ℚ) ^ ((some e).getD 0 - tail.length) = (Digits.mk (c :: tail) e).value := by
    have hexp : e + 1 - (c :: tail).length = e - tail.length := by
      rw [List.length_cons]
      omega
    rw [Digits.value, hexp]
    rfl
  exact .mk (isWhole_singleton hc) hfraction hexponent (.inr (Option.some_ne_none e)) (by simp) hv

/-- **The text of digits** as doubles are laid out. -/
theorem fractionalText_layout (h : d.Proper) :
    FractionalText (if doubleLayout.positional d.exponent then doubleLayout.plain d else Decimal.scientific d)
      d.value := by
  split
  · rename_i hpos
    have hlt : d.exponent < 16 := of_decide_eq_true (Bool.and_eq_true_iff.1 hpos).2
    unfold Decimal.Layout.plain
    dsimp only
    split
    · rename_i he
      exact fractionalText_small h he
    · rename_i he
      obtain ⟨k, hk⟩ := Int.eq_ofNat_of_zero_le (not_lt.1 he)
      have hk16 : k < 16 := by omega
      rw [hk, Int.toNat_natCast]
      split
      · rename_i hlen
        exact fractionalText_middle h hk hk16 hlen
      · rename_i hlen
        exact fractionalText_whole h hk hk16 (not_lt.1 hlen)
  · rename_i hpos
    apply fractionalText_scientific h
    intro hnil
    rw [h.zero hnil] at hpos
    exact hpos rfl

end

/-! ## Reading doubles -/

/-- The digits of a double. -/
def partsDigits (p : Parts) : Digits := if p.m = 0 then ⟨['0'], 0⟩ else shortest p

/-- The text of a double. -/
def partsText (p : Parts) : List Char :=
  (if p.negative then ['-'] else []) ++
    (if doubleLayout.positional (partsDigits p).exponent then doubleLayout.plain (partsDigits p)
      else Decimal.scientific (partsDigits p))

theorem Double.text_eq (x : Double) : x.text = partsText (Decimal.parts x.val) := rfl

theorem proper_partsDigits (p : Parts) : (partsDigits p).Proper := by
  unfold partsDigits
  split
  · exact ⟨List.forall_mem_singleton.2 rfl, fun rest hr => by cases hr; exact ⟨rfl, rfl⟩, fun _ => rfl⟩
  · rename_i hm
    exact Decimal.proper_shortest (Nat.pos_of_ne_zero hm)

theorem value_partsDigits_le (p : Parts) : (partsDigits p).value ≤ (p.m + 1 / 2) * 2 ^ p.q := by
  unfold partsDigits
  split
  · have hzero : (Digits.mk ['0'] 0).value = 0 := by
      simp [Digits.value, Text.value, digitValue]
    rw [hzero]
    positivity
  · exact Decimal.value_shortest_le p

theorem NumeralText.minus {t : List Char} {n : Numeral} (h : NumeralText t n) (hn : n.negative = false) :
    NumeralText ('-' :: t) { n with negative := true } := by
  cases h with
  | mk hm hw hf he =>
    cases hn
    cases hm
    exact .mk .present hw hf he

/-- The text of a double is a numeral that stands for its digits. -/
theorem exists_numeralText (p : Parts) :
    ∃ n, NumeralText (partsText p) n ∧ n.Fractional ∧ n.magnitude = (partsDigits p).value := by
  obtain ⟨n, ht, hn, hf, hm⟩ := fractionalText_layout (proper_partsDigits p)
  unfold partsText
  split
  · exact ⟨{ n with negative := true }, ht.minus hn, ⟨hf.mark, hf.short, hf.digits⟩, hm⟩
  · exact ⟨n, ht, hf, hm⟩

/-- Only the two greatest doubles are too near to the end of the range to be read whatever their digits are. -/
theorem le_scalable_or {p : Parts} (hm : p.m < 2 ^ 53) (hq : p.q ≤ 971) :
    (p.m + 1 / 2) * (2 : ℚ) ^ p.q ≤ scalable ∨ p.q = 971 ∧ (p.m = 0x1FFFFFFFFFFFFE ∨ p.m = 0x1FFFFFFFFFFFFF) := by
  unfold scalable
  rcases hq.lt_or_eq with hq | hq
  · left
    have hm : (p.m : ℚ) ≤ 2 ^ 53 - 1 := by
      rw [le_sub_iff_add_le]
      exact_mod_cast hm
    have hpow : (2 : ℚ) ^ p.q ≤ 2 ^ 970 := by
      rw [← zpow_natCast]
      exact zpow_le_zpow_right₀ one_le_two (Int.lt_add_one_iff.1 hq)
    calc (p.m + 1 / 2) * (2 : ℚ) ^ p.q ≤ (2 ^ 53 - 1 / 2) * 2 ^ 970 :=
          mul_le_mul (by linarith) hpow (by positivity) (by norm_num)
      _ ≤ (2 ^ 53 - 5 / 2) * 2 * 2 ^ 970 :=
          mul_le_mul_of_nonneg_right (by norm_num) (pow_nonneg zero_le_two 970)
      _ = (2 ^ 53 - 5 / 2) * 2 ^ 971 := by rw [mul_assoc, ← pow_succ']
  · by_cases hm3 : p.m ≤ 2 ^ 53 - 3
    · left
      have hm3 : (p.m : ℚ) ≤ 2 ^ 53 - 3 := by
        rw [le_sub_iff_add_le]
        exact_mod_cast (show p.m + 3 ≤ 2 ^ 53 by omega)
      rw [hq]
      exact mul_le_mul_of_nonneg_right (by linarith) (by positivity)
    · right
      exact ⟨hq, by omega⟩

/-- The two greatest mantissas in the highest place. -/
theorem double?_greatest (negative : Bool) {m : Nat} (hm : m = 0x1FFFFFFFFFFFFE ∨ m = 0x1FFFFFFFFFFFFF) :
    (readNumeral (symbolsOf (partsText ⟨negative, m, 971, false⟩))).map (fun r => r.1.double?.isSome) = .ok true := by
  rcases hm with rfl | rfl <;> cases negative <;> decide +kernel

/-- **Doubles are read**: the text of a double is a numeral that stands for some double. -/
theorem Double.exists_numeral (x : Double) :
    ∃ n y, NumeralText x.text n ∧ n.value? = some (.double y) := by
  rw [Double.text_eq]
  obtain ⟨n, ht, hf, hmagnitude⟩ := exists_numeralText (Decimal.parts x.val)
  obtain ⟨hm, hq⟩ := Decimal.parts_bounds x.finite
  suffices h : ∃ y, n.double? = some y by
    obtain ⟨y, hy⟩ := h
    refine ⟨n, y, ht, ?_⟩
    rw [Numeral.value?, hf.integer?, hy]
    rfl
  rcases le_scalable_or hm hq with hle | ⟨hq, hm⟩
  · apply Numeral.exists_double? hf.value_whole_lt
    rw [hmagnitude]
    exact (value_partsDigits_le _).trans hle
  · have hnarrow := Decimal.narrow_parts (x := x.val) (by omega)
    have hgreatest := double?_greatest (Decimal.parts x.val).negative hm
    rw [← hq, ← hnarrow] at hgreatest
    have hread := readNumeral_complete ht .nil
    rw [List.append_nil] at hread
    rw [hread] at hgreatest
    exact Option.isSome_iff_exists.1 (Except.ok.inj hgreatest)

end Chronicle.Json
