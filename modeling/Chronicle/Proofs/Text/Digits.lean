import Chronicle.Text.Digits
import Mathlib.Data.List.Induction
import Mathlib.Tactic.Ring

/-!
# The order of digits

Digits stand for a sum of their values (`value_append`, `value_cons`), and for a number with as many places
(`value_lt`). So texts of equally many digits are in the order of their numbers (`lt_iff_value_lt`), and a number that
is filled up with zeros decides the order of two texts before what is behind it does (`padded_append_lt_iff`).
-/

namespace Chronicle.Text

/-! ## The value of digits -/

theorem digitValue_lt {c : Char} (h : isDigit c = true) : digitValue c < 10 := by
  simp only [isDigit, Bool.and_eq_true, decide_eq_true_eq] at h
  have h9 : c.toNat ≤ '9'.toNat := h.2
  have : '9'.toNat = 57 := rfl
  unfold digitValue
  omega

theorem value_append (ds es : List Char) : value (ds ++ es) = value ds * 10 ^ es.length + value es := by
  induction es using List.reverseRecOn with
  | nil => simp [value]
  | append_singleton es c ih =>
    rw [← List.append_assoc, value_append_singleton, value_append_singleton, ih, List.length_append,
      List.length_singleton, pow_succ]
    ring

theorem value_cons (d : Char) (ds : List Char) : value (d :: ds) = digitValue d * 10 ^ ds.length + value ds := by
  have hd : value [d] = digitValue d := by simp [value]
  rw [← List.singleton_append, value_append, hd]

theorem value_zeros (k : Nat) : value (List.replicate k '0') = 0 := by
  induction k with
  | zero => rfl
  | succ k ih => rw [List.replicate_succ', value_append_singleton, ih]; rfl

/-- Digits stand for a number with so many places. -/
theorem value_lt {ds : List Char} (h : ds.all isDigit = true) : value ds < 10 ^ ds.length := by
  induction ds using List.reverseRecOn with
  | nil => decide
  | append_singleton ds c ih =>
    rw [List.all_append, Bool.and_eq_true] at h
    have hd := ih h.1
    have hc := digitValue_lt (List.all_eq_true.1 h.2 c List.mem_cons_self)
    rw [value_append_singleton, List.length_append, List.length_singleton, Nat.pow_succ]
    omega

/-! ## Texts in order -/

theorem le_toNat_of_isDigit {c : Char} (h : isDigit c = true) : 48 ≤ c.toNat := by
  simp only [isDigit, Bool.and_eq_true, decide_eq_true_eq] at h
  exact h.1

theorem lt_iff_digitValue_lt {c d : Char} (hc : isDigit c = true) (hd : isDigit d = true) :
    c < d ↔ digitValue c < digitValue d := by
  have hc0 := le_toNat_of_isDigit hc
  have hd0 := le_toNat_of_isDigit hd
  have hlt : c < d ↔ c.toNat < d.toNat := Iff.rfl
  rw [hlt, digitValue, digitValue]
  omega

theorem eq_iff_digitValue_eq {c d : Char} (hc : isDigit c = true) (hd : isDigit d = true) :
    c = d ↔ digitValue c = digitValue d := by
  have hc0 := le_toNat_of_isDigit hc
  have hd0 := le_toNat_of_isDigit hd
  rw [← Char.toNat_inj, digitValue, digitValue]
  omega

/-- The place of the highest value decides before the others. -/
theorem mul_add_lt_iff {base a b x y : Nat} (hx : x < base) (hy : y < base) :
    a * base + x < b * base + y ↔ a < b ∨ a = b ∧ x < y := by
  rcases Nat.lt_trichotomy a b with h | rfl | h
  · have : (a + 1) * base ≤ b * base := Nat.mul_le_mul_right base h
    rw [Nat.add_mul] at this
    omega
  · omega
  · have : (b + 1) * base ≤ a * base := Nat.mul_le_mul_right base h
    rw [Nat.add_mul] at this
    omega

/-- Texts of equally many digits are in the order of their numbers. -/
theorem lt_iff_value_lt {ds es : List Char} (hds : ds.all isDigit = true) (hes : es.all isDigit = true)
    (hl : ds.length = es.length) : ds < es ↔ value ds < value es := by
  induction ds generalizing es with
  | nil =>
    cases es with
    | nil => simp
    | cons e es => cases hl
  | cons d ds ih =>
    cases es with
    | nil => cases hl
    | cons e es =>
      obtain ⟨hd, hds⟩ := Bool.and_eq_true_iff.1 hds
      obtain ⟨he, hes⟩ := Bool.and_eq_true_iff.1 hes
      have hl : ds.length = es.length := Nat.succ.inj hl
      have hx := value_lt hds
      rw [hl] at hx
      rw [List.cons_lt_cons_iff, ih hds hes hl, value_cons, value_cons, hl, mul_add_lt_iff hx (value_lt hes),
        lt_iff_digitValue_lt hd he, eq_iff_digitValue_eq hd he]

/-- Beginnings of one length decide the order before what is behind them. -/
theorem append_lt_append_iff {a b x y : List Char} (hl : a.length = b.length) :
    a ++ x < b ++ y ↔ a < b ∨ a = b ∧ x < y := by
  induction a generalizing b with
  | nil =>
    cases b with
    | nil => simp
    | cons c b => cases hl
  | cons c a ih =>
    cases b with
    | nil => cases hl
    | cons d b =>
      rw [List.cons_append, List.cons_append, List.cons_lt_cons_iff, List.cons_lt_cons_iff, List.cons.injEq,
        ih (Nat.succ.inj hl)]
      tauto

theorem cons_lt_cons_self_iff {c : Char} {x y : List Char} : c :: x < c :: y ↔ x < y := by
  rw [List.cons_lt_cons_iff]
  simp

variable {width m n : Nat}

theorem padded_inj : padded width m = padded width n ↔ m = n := by
  constructor
  · intro h
    rw [← value_padded width m, h, value_padded]
  · rintro rfl
    rfl

/-- Numbers of one width decide the order before what is behind them. -/
theorem padded_append_lt_iff (hw : 0 < width) (hm : m < 10 ^ width) (hn : n < 10 ^ width) {x y : List Char} :
    padded width m ++ x < padded width n ++ y ↔ m < n ∨ m = n ∧ x < y := by
  have hl : (padded width m).length = (padded width n).length := by rw [length_padded hw hm, length_padded hw hn]
  rw [append_lt_append_iff hl, lt_iff_value_lt (all_isDigit_padded _ _) (all_isDigit_padded _ _) hl, value_padded,
    value_padded, padded_inj]

end Chronicle.Text
