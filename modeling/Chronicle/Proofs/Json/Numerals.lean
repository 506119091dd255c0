import Chronicle.Json.Printer
import Chronicle.Json.Reader
import Chronicle.Proofs.Except

/-!
# Numbers in JSON texts

The reader of numbers takes as much as it can. So a number that is read from a whole text is read in the same way in
front of anything that does not go on with it (`readNumber_append`), and every integer is read back from its text
(`readNumber_integer`). Of doubles, `Double.ReadsBack` says that the reader gives back what the printer wrote; the
reader rounds more than once, so this is a property of the double.
-/

namespace Chronicle.Json

open Text (Symbol isDigit digitValue digits value signed symbolsOf)

/-- A text does not go on with a number. -/
def NumberEnds (rest : List Symbol) : Prop :=
  ∀ c tail, rest = some c :: tail → isDigit c = false ∧ c ≠ '.' ∧ c ≠ 'e' ∧ c ≠ 'E'

/-- A double is read back from the text that is written for it. -/
def Double.ReadsBack (x : Double) : Prop := readNumber (symbolsOf x.text) = .ok (.double x, [])

theorem NumberEnds.nil : NumberEnds [] := fun _ _ h => by cases h

theorem NumberEnds.cons {c : Char} (tail : List Symbol) (h : c = ',' ∨ c = ']' ∨ c = '}') :
    NumberEnds (some c :: tail) := by
  intro d tail' hd
  cases hd
  rcases h with rfl | rfl | rfl <;> decide

/-! ## In front of something else -/

section Append

variable {s rest r : List Symbol}

theorem spanDigits_append (hr : NumberEnds rest) :
    spanDigits (s ++ rest) = ((spanDigits s).1, (spanDigits s).2 ++ rest) := by
  fun_induction spanDigits s with
  | case1 c s hc ds s' hs ih => simp [spanDigits, hc, ih, hs]
  | case2 c s hc => simp [spanDigits, hc]
  | case3 s hs =>
    match s with
    | [] =>
      match rest, hr with
      | [], _ => rfl
      | none :: _, _ => rfl
      | some c :: tail, hr => simp [spanDigits, (hr c tail rfl).1]
    | none :: s => rfl
    | some c :: s => exact absurd rfl (hs c s)

/-- What the reader of digits accepts. -/
theorem readDigits_eq_ok_iff {ds : List Char} : readDigits s = .ok (ds, r) ↔ spanDigits s = (ds, r) ∧ ds ≠ [] := by
  unfold readDigits
  obtain ⟨ds', r'⟩ := spanDigits s
  match ds', r' with
  | [], [] => simp; grind
  | [], _ :: _ => simp; grind
  | d :: ds', r' => simp; grind

theorem readDigits_append {ds : List Char} (hr : NumberEnds rest) (h : readDigits s = .ok (ds, r)) :
    readDigits (s ++ rest) = .ok (ds, r ++ rest) := by
  rw [readDigits_eq_ok_iff] at h ⊢
  rw [spanDigits_append hr, h.1]
  exact ⟨rfl, h.2⟩

theorem readWhole_append {ds : List Char} (hr : NumberEnds rest) (h : readWhole s = .ok (ds, r)) :
    readWhole (s ++ rest) = .ok (ds, r ++ rest) := by
  obtain ⟨⟨ds', r'⟩, hd, h⟩ := Except.bind_eq_ok_iff.1 h
  refine Except.bind_eq_ok_iff.2 ⟨_, readDigits_append hr hd, ?_⟩
  dsimp only at h ⊢
  split at h
  · cases h
  · cases h; rfl

theorem readFraction_append {ds : List Char} (hr : NumberEnds rest) (h : readFraction s = .ok (ds, r)) :
    readFraction (s ++ rest) = .ok (ds, r ++ rest) := by
  unfold readFraction at h
  split at h
  · exact readDigits_append hr h
  · rename_i hs
    cases h
    unfold readFraction
    split
    · rename_i tail heq
      cases s with
      | nil => exact absurd rfl (hr _ _ heq).2.1
      | cons c s => cases heq; exact absurd rfl (hs s)
    · rfl

/-- A sign is taken off in the same way, if something follows. -/
theorem spanMinus_append (hs : s ≠ []) : spanMinus (s ++ rest) = ((spanMinus s).1, (spanMinus s).2 ++ rest) := by
  cases s with
  | nil => exact absurd rfl hs
  | cons c s => unfold spanMinus; grind

theorem spanSign_append (hs : s ≠ []) : spanSign (s ++ rest) = ((spanSign s).1, (spanSign s).2 ++ rest) := by
  have hm : spanMinus (s ++ rest) = ((spanMinus s).1, (spanMinus s).2 ++ rest) := spanMinus_append hs
  cases s with
  | nil => exact absurd rfl hs
  | cons c s => unfold spanSign; grind

theorem readExponent_append {n : Option Int} (hr : NumberEnds rest) (h : readExponent s = .ok (n, r)) :
    readExponent (s ++ rest) = .ok (n, r ++ rest) := by
  match s, h with
  | [], h =>
    cases h
    match rest, hr with
    | [], _ => rfl
    | none :: _, _ => rfl
    | some c :: tail, hr =>
      have hc : ¬(c = 'e' ∨ c = 'E') := not_or.2 (hr c tail rfl).2.2
      simp [readExponent, hc]
  | none :: s, h => cases h; rfl
  | some c :: s, h =>
    unfold readExponent at h ⊢
    dsimp only [List.cons_append] at h ⊢
    split at h
    · rename_i hc
      obtain ⟨⟨ds, r'⟩, hd, h⟩ := Except.bind_eq_ok_iff.1 h
      have hs : s ≠ [] := by
        rintro rfl
        cases hd
      rw [if_pos hc, spanSign_append hs]
      refine Except.bind_eq_ok_iff.2 ⟨_, readDigits_append hr hd, ?_⟩
      cases h
      rfl
    · rename_i hc
      cases h
      rw [if_neg hc]
      rfl

theorem readNumeral_append {n : Numeral} (hr : NumberEnds rest) (h : readNumeral s = .ok (n, r)) :
    readNumeral (s ++ rest) = .ok (n, r ++ rest) := by
  obtain ⟨⟨whole, s₁⟩, hw, h⟩ := Except.bind_eq_ok_iff.1 h
  obtain ⟨⟨fraction, s₂⟩, hf, h⟩ := Except.bind_eq_ok_iff.1 h
  obtain ⟨⟨exponent, s₃⟩, he, h⟩ := Except.bind_eq_ok_iff.1 h
  have hs : s ≠ [] := by
    rintro rfl
    cases hw
  unfold readNumeral
  rw [spanMinus_append hs]
  refine Except.bind_eq_ok_iff.2 ⟨_, readWhole_append hr hw, ?_⟩
  refine Except.bind_eq_ok_iff.2 ⟨_, readFraction_append hr hf, ?_⟩
  refine Except.bind_eq_ok_iff.2 ⟨_, readExponent_append hr he, ?_⟩
  cases h
  rfl

/-- A number is read in the same way in front of anything that does not go on with it. -/
theorem readNumber_append {v : Json} (hr : NumberEnds rest) (h : readNumber s = .ok (v, r)) :
    readNumber (s ++ rest) = .ok (v, r ++ rest) := by
  obtain ⟨⟨n, s'⟩, hn, h⟩ := Except.bind_eq_ok_iff.1 h
  refine Except.bind_eq_ok_iff.2 ⟨_, readNumeral_append hr hn, ?_⟩
  dsimp only at h ⊢
  split at h
  · cases h; rfl
  · cases h

end Append

/-! ## Integers and doubles -/

theorem spanDigits_symbolsOf {ds : List Char} {rest : List Symbol} (hd : ∀ c ∈ ds, isDigit c = true)
    (hr : NumberEnds rest) : spanDigits (symbolsOf ds ++ rest) = (ds, rest) := by
  induction ds with
  | nil => simpa [symbolsOf, spanDigits] using spanDigits_append (s := []) hr
  | cons c ds ih =>
    obtain ⟨hc, hd⟩ := List.forall_mem_cons.1 hd
    simp only [symbolsOf, List.map_cons, List.cons_append] at ih ⊢
    simp [spanDigits, hc, ih hd]

/-- The digits of a number are read as the digits before the point. -/
theorem readWhole_digits (m : Nat) {rest : List Symbol} (hr : NumberEnds rest) :
    readWhole (symbolsOf (digits m) ++ rest) = .ok (digits m, rest) := by
  have hd : readDigits (symbolsOf (digits m) ++ rest) = .ok (digits m, rest) :=
    readDigits_eq_ok_iff.2
      ⟨spanDigits_symbolsOf (List.all_eq_true.1 (Text.all_isDigit_digits m)) hr, Text.digits_ne_nil m⟩
  refine Except.bind_eq_ok_iff.2 ⟨_, hd, ?_⟩
  dsimp only
  split
  · rename_i a tail heq
    rw [Text.eq_zero_of_digits_eq heq, Text.digits] at heq
    cases heq
  · rfl

theorem readFraction_of_ends {rest : List Symbol} (hr : NumberEnds rest) : readFraction rest = .ok ([], rest) := by
  simpa using readFraction_append (s := []) hr rfl

theorem readExponent_of_ends {rest : List Symbol} (hr : NumberEnds rest) : readExponent rest = .ok (none, rest) := by
  simpa using readExponent_append (s := []) hr rfl

theorem spanMinus_of_ne {c : Char} (tail : List Symbol) (hc : c ≠ '-') :
    spanMinus (some c :: tail) = (false, some c :: tail) := by
  unfold spanMinus
  split
  · rename_i heq
    cases heq
    exact absurd rfl hc
  · rfl

/-- The text of an integer is read as its sign and its digits. -/
theorem readNumeral_signed (n : Int) {rest : List Symbol} (hr : NumberEnds rest) :
    readNumeral (symbolsOf (signed n) ++ rest) = .ok (⟨decide (n < 0), digits n.natAbs, [], none⟩, rest) := by
  have hs : spanMinus (symbolsOf (signed n) ++ rest) = (decide (n < 0), symbolsOf (digits n.natAbs) ++ rest) := by
    unfold signed
    split
    · rename_i hn
      simp [symbolsOf, spanMinus, hn]
    · rename_i hn
      cases hd : digits n.natAbs with
      | nil => exact absurd hd (Text.digits_ne_nil _)
      | cons c tail =>
        have hc := List.all_eq_true.1 (Text.all_isDigit_digits n.natAbs) c (by rw [hd]; exact List.mem_cons_self)
        have hm : c ≠ '-' := by
          rintro rfl
          cases hc
        simp [symbolsOf, spanMinus_of_ne _ hm, hn]
  unfold readNumeral
  rw [hs]
  refine Except.bind_eq_ok_iff.2 ⟨_, readWhole_digits _ hr, ?_⟩
  refine Except.bind_eq_ok_iff.2 ⟨_, readFraction_of_ends hr, ?_⟩
  exact Except.bind_eq_ok_iff.2 ⟨_, readExponent_of_ends hr, rfl⟩

theorem integer?_signed (n : Integer) :
    Numeral.integer? ⟨decide (n.val < 0), digits n.val.natAbs, [], none⟩ = some n := by
  obtain ⟨n, hl, hu⟩ := n
  simp only [Numeral.integer?, Text.value_digits, List.isEmpty_nil, Option.isNone_none, and_self, ↓reduceIte,
    decide_eq_true_eq]
  by_cases hn : n < 0
  · have he : -(n.natAbs : Int) = n := by omega
    rw [if_pos hn, if_pos (by omega), he, Integer.ofInt?, dif_pos ⟨hl, hu⟩]
  · have he : (n.natAbs : Int) = n := by omega
    rw [if_neg hn, he, Integer.ofInt?, dif_pos ⟨hl, hu⟩]

/-- Every integer is read back. -/
theorem readNumber_integer (n : Integer) {rest : List Symbol} (hr : NumberEnds rest) :
    readNumber (symbolsOf n.text ++ rest) = .ok (.integer n, rest) := by
  refine Except.bind_eq_ok_iff.2 ⟨_, readNumeral_signed n.val hr, ?_⟩
  simp only [Numeral.value?, integer?_signed]

/-- A number starts with a minus sign or a digit. -/
theorem head_of_readNumber {s r : List Symbol} {v : Json} (h : readNumber s = .ok (v, r)) :
    ∃ c tail, s = some c :: tail ∧ (c = '-' ∨ isDigit c = true) := by
  obtain ⟨⟨n, s'⟩, hn, -⟩ := Except.bind_eq_ok_iff.1 h
  obtain ⟨⟨whole, s₁⟩, hw, -⟩ := Except.bind_eq_ok_iff.1 hn
  obtain ⟨⟨ds, s₂⟩, hd, -⟩ := Except.bind_eq_ok_iff.1 hw
  have hd : spanDigits (spanMinus s).2 = (ds, s₂) ∧ ds ≠ [] := readDigits_eq_ok_iff.1 hd
  obtain ⟨hd, hne⟩ := hd
  match s, hd with
  | [], hd => cases hd; exact absurd rfl hne
  | none :: tail, hd => cases hd; exact absurd rfl hne
  | some c :: tail, hd =>
    refine ⟨c, tail, rfl, ?_⟩
    by_cases hm : c = '-'
    · exact .inl hm
    · rw [spanMinus_of_ne tail hm] at hd
      unfold spanDigits at hd
      split at hd
      · exact .inr ‹_›
      · cases hd
        exact absurd rfl hne

end Chronicle.Json
