import Chronicle.Proofs.Json.Numerals

/-!
# The grammar of JSON

What a strict JSON text is, as a relation between texts and values (`TextOf`): blanks only between tokens, no trailing
comma, at least one digit wherever digits may stand, no leading zero, four hexadecimal digits in an escape. The grammar
says nothing of how a text is read. Nesting is counted in the text, so that the values of repeated names count as well.

Numerals and escapes have a meaning apart from their form (`Meaning`): a numeral may be too large for a double, and half
of a surrogate pair is no character. `Meaning.standard` leaves such texts without a value.

Numerals are read by this grammar and no other (`readNumber_sound`, `readNumber_complete`).
-/

namespace Chronicle.Json

open Text (Symbol isDigit value hexValue? symbolsOf symbolsOf_cons symbolsOf_append)

/-! ## Numerals -/

/-- One decimal digit or more. -/
def IsDigits (ds : List Char) : Prop := ds ≠ [] ∧ ∀ c ∈ ds, isDigit c = true

/-- The digits before the point: a leading zero stands alone. -/
def IsWhole (ds : List Char) : Prop := IsDigits ds ∧ ∀ rest, ds = '0' :: rest → rest = []

/-- An optional minus sign. -/
inductive MinusText : List Char → Bool → Prop where
  | absent : MinusText [] false
  | present : MinusText ['-'] true

/-- An optional sign. -/
inductive SignText : List Char → Bool → Prop where
  | plus : SignText ['+'] false
  | minus {sign : List Char} {negative : Bool} (h : MinusText sign negative) : SignText sign negative

/-- An optional fraction, and its digits. -/
inductive FractionText : List Char → List Char → Prop where
  | absent : FractionText [] []
  | present {ds : List Char} (hd : IsDigits ds) : FractionText ('.' :: ds) ds

/-- An optional exponent, and its value. -/
inductive ExponentText : List Char → Option Int → Prop where
  | absent : ExponentText [] none
  | present {e : Char} {sign ds : List Char} {negative : Bool} (he : e = 'e' ∨ e = 'E')
      (hs : SignText sign negative) (hd : IsDigits ds) :
      ExponentText (e :: (sign ++ ds)) (some (if negative then -(value ds : Int) else value ds))

/-- A numeral. -/
inductive NumeralText : List Char → Numeral → Prop where
  | mk {minus whole fraction exponent ds : List Char} {negative : Bool} {n : Option Int}
      (hm : MinusText minus negative) (hw : IsWhole whole) (hf : FractionText fraction ds)
      (he : ExponentText exponent n) :
      NumeralText (minus ++ (whole ++ (fraction ++ exponent))) ⟨negative, whole, ds, n⟩

/-! ## Strings -/

/-- Four hexadecimal digits. -/
inductive HexText : List Char → Nat → Prop where
  | mk {a b c d : Char} {x y z w : Nat} (ha : hexValue? a = some x) (hb : hexValue? b = some y)
      (hc : hexValue? c = some z) (hd : hexValue? d = some w) :
      HexText [a, b, c, d] (((x * 16 + y) * 16 + z) * 16 + w)

/-- What stands between the quotes: characters, and numbers of escapes. -/
inductive StringText : List Char → List (Char ⊕ Nat) → Prop where
  | nil : StringText [] []
  | char {c : Char} {t : List Char} {us : List (Char ⊕ Nat)} (hc : 0x20 ≤ c.toNat) (hq : c ≠ '"') (hb : c ≠ '\\')
      (h : StringText t us) : StringText (c :: t) (.inl c :: us)
  | escape {c e : Char} {t : List Char} {us : List (Char ⊕ Nat)} (he : simpleEscape? c = some e)
      (h : StringText t us) : StringText ('\\' :: c :: t) (.inl e :: us)
  | unit {ds t : List Char} {n : Nat} {us : List (Char ⊕ Nat)} (hd : HexText ds n) (h : StringText t us) :
      StringText ('\\' :: 'u' :: (ds ++ t)) (.inr n :: us)

/-- The character of a surrogate pair. -/
def pairChar (high low : Nat) : Char := Char.ofNat (0x10000 + (high - 0xD800) * 0x400 + (low - 0xDC00))

/-- The characters that characters and numbers of escapes stand for: a number is a character or, together with the
next one, a surrogate pair. -/
inductive Spells : List (Char ⊕ Nat) → List Char → Prop where
  | nil : Spells [] []
  | char {c : Char} {us : List (Char ⊕ Nat)} {cs : List Char} (h : Spells us cs) : Spells (.inl c :: us) (c :: cs)
  | unit {n : Nat} {us : List (Char ⊕ Nat)} {cs : List Char} (hn : n < 0xD800 ∨ 0xDFFF < n) (h : Spells us cs) :
      Spells (.inr n :: us) (Char.ofNat n :: cs)
  | pair {high low : Nat} {us : List (Char ⊕ Nat)} {cs : List Char} (hh : 0xD800 ≤ high ∧ high ≤ 0xDBFF)
      (hl : 0xDC00 ≤ low ∧ low ≤ 0xDFFF) (h : Spells us cs) :
      Spells (.inr high :: .inr low :: us) (pairChar high low :: cs)

/-! ## Values -/

/-- What numerals, and the characters and escapes of strings, stand for. -/
structure Meaning where
  number : Numeral → Json → Prop
  string : List (Char ⊕ Nat) → List Char → Prop

/-- A number out of range and half of a surrogate pair stand for nothing. -/
def Meaning.standard : Meaning := ⟨fun n v => n.value? = some v, Spells⟩

/-- The integer zero. -/
def Integer.zero : Integer := ⟨0, by decide, by decide⟩

/-- Where numerals and strings stand for nothing they may stand for anything, and `-0` for the integer. -/
def Meaning.lenient : Meaning where
  number n v := n.value? = some v ∨ n.value? = none ∨ (n = ⟨true, ['0'], [], none⟩ ∧ v = .integer .zero)
  string us cs := Spells us cs ∨ ∀ cs, ¬Spells us cs

/-- Blanks, which may stand between tokens. -/
def IsBlanks (s : List Char) : Prop := ∀ c ∈ s, c = ' ' ∨ c = '\t' ∨ c = '\n' ∨ c = '\r'

section

variable {α : Type}

/-- A text of a kind, and blanks around it. -/
inductive Around (P : List Char → α → Prop) : List Char → α → Prop where
  | mk {before t after : List Char} {v : α} (hb : IsBlanks before) (ht : P t v) (ha : IsBlanks after) :
      Around P (before ++ (t ++ after)) v

/-- Texts of a kind, with commas between them. -/
inductive Separated (P : List Char → α → Prop) : List Char → List α → Prop where
  | one {t : List Char} {v : α} (h : P t v) : Separated P t [v]
  | more {t rest : List Char} {v : α} {vs : List α} (h : P t v) (hr : Separated P rest vs) :
      Separated P (t ++ ',' :: rest) (v :: vs)

end

/-- The name of a member, the colon and its value. -/
inductive MemberText (M : Meaning) (P : List Char → Json → Prop) : List Char → String × Json → Prop where
  | mk {before name gap t cs : List Char} {us : List (Char ⊕ Nat)} {v : Json} (hb : IsBlanks before)
      (hn : StringText name us) (hs : M.string us cs) (hg : IsBlanks gap) (hv : Around P t v) :
      MemberText M P (before ++ '"' :: (name ++ '"' :: (gap ++ ':' :: t))) (String.ofList cs, v)

/-- A value whose arrays and objects hold values of a grammar; without it there are none. -/
inductive ValueTextWith (M : Meaning) (P? : Option (List Char → Json → Prop)) : List Char → Json → Prop where
  | null : ValueTextWith M P? ['n', 'u', 'l', 'l'] .null
  | true : ValueTextWith M P? ['t', 'r', 'u', 'e'] (.bool true)
  | false : ValueTextWith M P? ['f', 'a', 'l', 's', 'e'] (.bool false)
  | number {t : List Char} {n : Numeral} {v : Json} (hn : NumeralText t n) (hv : M.number n v) : ValueTextWith M P? t v
  | string {t cs : List Char} {us : List (Char ⊕ Nat)} (ht : StringText t us) (hs : M.string us cs) :
      ValueTextWith M P? ('"' :: (t ++ ['"'])) (.string (String.ofList cs))
  | emptyArray {P : List Char → Json → Prop} {t : List Char} (hP : P? = some P) (ht : IsBlanks t) :
      ValueTextWith M P? ('[' :: (t ++ [']'])) (.array [])
  | array {P : List Char → Json → Prop} {t : List Char} {vs : List Json} (hP : P? = some P)
      (ht : Separated (Around P) t vs) : ValueTextWith M P? ('[' :: (t ++ [']'])) (.array vs)
  | emptyObject {P : List Char → Json → Prop} {t : List Char} (hP : P? = some P) (ht : IsBlanks t) :
      ValueTextWith M P? ('{' :: (t ++ ['}'])) (.object [])
  | object {P : List Char → Json → Prop} {t : List Char} {ms : List (String × Json)} (hP : P? = some P)
      (ht : Separated (MemberText M P) t ms) : ValueTextWith M P? ('{' :: (t ++ ['}'])) (.object (Fields.ofList ms))

/-- A value that nests at most `levels` deep. -/
def ValueText (M : Meaning) : (levels : Nat) → List Char → Json → Prop
  | 0 => ValueTextWith M none
  | levels + 1 => ValueTextWith M (some (ValueText M levels))

/-- A JSON text that nests at most `levels` deep, and the value that it stands for. A repeated name keeps its first
place and takes its last value. -/
def TextOf (M : Meaning) (levels : Nat) : List Char → Json → Prop := Around (ValueText M levels)

/-! ## Objects without blanks -/

/-- Characters that stand for themselves in a string. -/
def IsPlain (cs : List Char) : Prop := ∀ c ∈ cs, 0x20 ≤ c.toNat ∧ c ≠ '"' ∧ c ≠ '\\'

instance (cs : List Char) : Decidable (IsPlain cs) :=
  List.decidableBAll (fun c : Char => 0x20 ≤ c.toNat ∧ c ≠ '"' ∧ c ≠ '\\') cs

/-- The text of an object whose names stand for themselves. -/
def objectText (fs : List (List Char × List Char)) : List Char :=
  '{' :: ([','].intercalate (fs.map fun f => '"' :: (f.1 ++ '"' :: ':' :: f.2)) ++ ['}'])

section

variable {M : Meaning} {levels : Nat} (hM : ∀ {us cs}, Spells us cs → M.string us cs)

theorem IsPlain.stringText {cs : List Char} (h : IsPlain cs) : StringText cs (cs.map .inl) := by
  induction cs with
  | nil => exact .nil
  | cons c cs ih =>
    obtain ⟨⟨hc, hq, hb⟩, h⟩ := List.forall_mem_cons.1 h
    exact .char hc hq hb (ih h)

theorem spells_plain (cs : List Char) : Spells (cs.map .inl) cs := by
  induction cs with
  | nil => exact .nil
  | cons c cs ih => exact .char ih

theorem isBlanks_nil : IsBlanks [] := fun _ h => absurd h List.not_mem_nil

theorem Around.of {α : Type} {P : List Char → α → Prop} {t : List Char} {v : α} (h : P t v) : Around P t v := by
  have := Around.mk isBlanks_nil h isBlanks_nil
  rwa [List.nil_append, List.append_nil] at this

/-- Numerals and strings do not depend on how deep they stand. -/
theorem ValueText.number {t : List Char} {n : Numeral} {v : Json} (hn : NumeralText t n) (hv : M.number n v) :
    ValueText M levels t v := by
  cases levels with
  | zero => exact ValueTextWith.number hn hv
  | succ levels => exact ValueTextWith.number hn hv

theorem ValueText.string {t cs : List Char} {us : List (Char ⊕ Nat)} (ht : StringText t us) (hs : M.string us cs) :
    ValueText M levels ('"' :: (t ++ ['"'])) (.string (String.ofList cs)) := by
  cases levels with
  | zero => exact ValueTextWith.string ht hs
  | succ levels => exact ValueTextWith.string ht hs

include hM

theorem IsPlain.valueText {cs : List Char} (h : IsPlain cs) :
    ValueText M levels ('"' :: (cs ++ ['"'])) (.string (String.ofList cs)) :=
  .string h.stringText (hM (spells_plain cs))

/-- Names that stand for themselves and values make up an object. -/
theorem textOf_objectText (fs : List (List Char × List Char × Json)) (hne : fs ≠ [])
    (hf : ∀ f ∈ fs, IsPlain f.1 ∧ ValueText M levels f.2.1 f.2.2) :
    TextOf M (levels + 1) (objectText (fs.map fun f => (f.1, f.2.1)))
      (.object (Fields.ofList (fs.map fun f => (String.ofList f.1, f.2.2)))) := by
  suffices h : Separated (MemberText M (ValueText M levels))
      ([','].intercalate ((fs.map fun f => (f.1, f.2.1)).map fun f => '"' :: (f.1 ++ '"' :: ':' :: f.2)))
      (fs.map fun f => (String.ofList f.1, f.2.2)) from
    Around.of (ValueTextWith.object rfl h)
  induction fs with
  | nil => exact absurd rfl hne
  | cons f fs ih =>
    obtain ⟨⟨hname, hvalue⟩, hf⟩ := List.forall_mem_cons.1 hf
    have hmember : MemberText M (ValueText M levels) ('"' :: (f.1 ++ '"' :: ':' :: f.2.1)) (String.ofList f.1, f.2.2) :=
      .mk isBlanks_nil hname.stringText (hM (spells_plain f.1)) isBlanks_nil (Around.of hvalue)
    cases fs with
    | nil => simpa only [List.map_cons, List.map_nil, List.intercalate_singleton] using Separated.one hmember
    | cons g fs =>
      simp only [List.map_cons, List.intercalate_cons_cons, List.append_assoc, List.singleton_append] at ih ⊢
      exact .more hmember (ih (List.cons_ne_nil _ _) hf)

end
/-! ## Reading numerals -/

section

variable {s rest : List Symbol} {t ds : List Char} {negative : Bool} {n : Option Int}

/-- Symbols that do not go on with digits. -/
def DigitsEnd (s : List Symbol) : Prop := ∀ c tail, s = some c :: tail → isDigit c = false

theorem NumberEnds.digitsEnd (h : NumberEnds rest) : DigitsEnd rest := fun c tail hr => (h c tail hr).1

/-- The digits that are taken are all that there are. -/
theorem spanDigits_eq_iff :
    spanDigits s = (ds, rest) ↔ s = symbolsOf ds ++ rest ∧ (∀ c ∈ ds, isDigit c = true) ∧ DigitsEnd rest := by
  constructor
  · intro h
    fun_induction spanDigits s generalizing ds with
    | case1 c s hc ds' rest' hs ih =>
      cases h
      obtain ⟨rfl, hd, hr⟩ := ih hs
      exact ⟨rfl, List.forall_mem_cons.2 ⟨hc, hd⟩, hr⟩
    | case2 c s hc =>
      cases h
      refine ⟨rfl, List.forall_mem_nil _, fun d tail hr => ?_⟩
      cases hr
      exact Bool.eq_false_iff.2 hc
    | case3 s hs =>
      cases h
      exact ⟨rfl, List.forall_mem_nil _, fun d tail hr => absurd hr (hs d tail)⟩
  · rintro ⟨rfl, hd, hr⟩
    induction ds with
    | nil =>
      rw [symbolsOf, List.map_nil, List.nil_append]
      unfold spanDigits
      split
      · rename_i c tail
        simp [hr c tail rfl]
      · rfl
    | cons c ds ih =>
      obtain ⟨hc, hd⟩ := List.forall_mem_cons.1 hd
      rw [symbolsOf_cons, List.cons_append, spanDigits, if_pos hc, ih hd]

theorem readDigits_iff : readDigits s = .ok (ds, rest) ↔ s = symbolsOf ds ++ rest ∧ IsDigits ds ∧ DigitsEnd rest := by
  rw [readDigits_eq_ok_iff, spanDigits_eq_iff]
  constructor
  · rintro ⟨⟨hs, hd, hr⟩, hne⟩
    exact ⟨hs, ⟨hne, hd⟩, hr⟩
  · rintro ⟨hs, ⟨hne, hd⟩, hr⟩
    exact ⟨⟨hs, hd, hr⟩, hne⟩

theorem readWhole_iff : readWhole s = .ok (ds, rest) ↔ s = symbolsOf ds ++ rest ∧ IsWhole ds ∧ DigitsEnd rest := by
  rw [readWhole, Except.bind_eq_ok_iff, IsWhole]
  constructor
  · rintro ⟨⟨ds', rest'⟩, hread, h⟩
    obtain ⟨rfl, hd, hr⟩ := readDigits_iff.1 hread
    dsimp only at h
    split at h
    · cases h
    · rename_i hz
      cases h
      refine ⟨rfl, ⟨hd, fun tail ht => ?_⟩, hr⟩
      cases tail with
      | nil => rfl
      | cons c tail => exact absurd ht (hz c tail)
  · rintro ⟨rfl, ⟨hd, hz⟩, hr⟩
    refine ⟨_, readDigits_iff.2 ⟨rfl, hd, hr⟩, ?_⟩
    dsimp only
    split
    · exact absurd (hz _ rfl) (by simp)
    · rfl

/-- Digits begin with none of the other characters of a numeral. -/
theorem IsDigits.head (h : IsDigits ds) :
    ∃ c tail, ds = c :: tail ∧ isDigit c = true ∧ c ≠ '-' ∧ c ≠ '+' := by
  obtain ⟨hne, hd⟩ := h
  cases ds with
  | nil => exact absurd rfl hne
  | cons c tail =>
    have hc := hd c List.mem_cons_self
    refine ⟨c, tail, rfl, hc, ?_, ?_⟩ <;> (rintro rfl; revert hc; decide)

theorem spanMinus_sound (h : spanMinus s = (negative, rest)) : ∃ t, s = symbolsOf t ++ rest ∧ MinusText t negative := by
  unfold spanMinus at h
  split at h
  · cases h
    exact ⟨['-'], rfl, .present⟩
  · cases h
    exact ⟨[], rfl, .absent⟩

theorem spanSign_sound (h : spanSign s = (negative, rest)) : ∃ t, s = symbolsOf t ++ rest ∧ SignText t negative := by
  unfold spanSign at h
  split at h
  · cases h
    exact ⟨['+'], rfl, .plus⟩
  · obtain ⟨t, hs, ht⟩ := spanMinus_sound h
    exact ⟨t, hs, .minus ht⟩

theorem spanMinus_complete (h : MinusText t negative) (hd : IsDigits ds) (rest : List Symbol) :
    spanMinus (symbolsOf (t ++ ds) ++ rest) = (negative, symbolsOf ds ++ rest) := by
  cases h with
  | present => rfl
  | absent =>
    obtain ⟨c, tail, rfl, -, hm, -⟩ := hd.head
    exact spanMinus_of_ne _ hm

theorem spanSign_complete (h : SignText t negative) (hd : IsDigits ds) (rest : List Symbol) :
    spanSign (symbolsOf (t ++ ds) ++ rest) = (negative, symbolsOf ds ++ rest) := by
  cases h with
  | plus => rfl
  | minus h =>
    rw [spanSign]
    · exact spanMinus_complete h hd rest
    · intro tail heq
      obtain ⟨c, tail', rfl, -, -, hp⟩ := hd.head
      cases h with
      | present => cases heq
      | absent =>
        cases heq
        exact hp rfl

theorem readFraction_sound (h : readFraction s = .ok (ds, rest)) :
    ∃ t, s = symbolsOf t ++ rest ∧ FractionText t ds := by
  unfold readFraction at h
  split at h
  · obtain ⟨rfl, hd, -⟩ := readDigits_iff.1 h
    exact ⟨'.' :: ds, rfl, .present hd⟩
  · cases h
    exact ⟨[], rfl, .absent⟩

theorem readFraction_complete (h : FractionText t ds) (hr : DigitsEnd rest) (hp : ∀ tail, rest ≠ some '.' :: tail) :
    readFraction (symbolsOf t ++ rest) = .ok (ds, rest) := by
  cases h with
  | present hd => exact readDigits_iff.2 ⟨rfl, hd, hr⟩
  | absent =>
    rw [symbolsOf, List.map_nil, List.nil_append]
    unfold readFraction
    split
    · exact absurd rfl (hp _)
    · rfl

theorem readExponent_sound (h : readExponent s = .ok (n, rest)) : ∃ t, s = symbolsOf t ++ rest ∧ ExponentText t n := by
  unfold readExponent at h
  split at h
  · rename_i c s
    split at h
    · rename_i hc
      cases hs : spanSign s with
      | mk negative s' =>
        rw [hs] at h
        obtain ⟨sign, rfl, hsign⟩ := spanSign_sound hs
        obtain ⟨⟨ds, rest'⟩, hread, hn⟩ := Except.bind_eq_ok_iff.1 h
        obtain ⟨rfl, hd, -⟩ := readDigits_iff.1 hread
        cases hn
        refine ⟨c :: (sign ++ ds), ?_, .present hc hsign hd⟩
        rw [symbolsOf_cons, symbolsOf_append, List.cons_append, List.append_assoc]
    · cases h
      exact ⟨[], rfl, .absent⟩
  · cases h
    exact ⟨[], rfl, .absent⟩

theorem readExponent_complete (h : ExponentText t n) (hr : NumberEnds rest) :
    readExponent (symbolsOf t ++ rest) = .ok (n, rest) := by
  cases h with
  | absent => exact readExponent_of_ends hr
  | present he hs hd =>
    rw [symbolsOf_cons, List.cons_append, readExponent, if_pos he, spanSign_complete hs hd]
    exact Except.bind_eq_ok_iff.2 ⟨_, readDigits_iff.2 ⟨rfl, hd, hr.digitsEnd⟩, rfl⟩

/-- Behind the digits before it, a numeral goes on with a point or an exponent. -/
theorem digitsEnd_exponent (h : ExponentText t n) (hr : NumberEnds rest) :
    DigitsEnd (symbolsOf t ++ rest) ∧ ∀ tail, symbolsOf t ++ rest ≠ some '.' :: tail := by
  cases h with
  | absent => exact ⟨hr.digitsEnd, fun tail ht => (hr _ _ ht).2.1 rfl⟩
  | present he hs hd =>
    rw [symbolsOf_cons, List.cons_append]
    constructor
    · intro c tail hc
      cases hc
      rcases he with rfl | rfl <;> decide
    · intro tail hc
      cases hc
      rcases he with he | he <;> cases he

theorem digitsEnd_fraction (h : FractionText t ds) {exponent : List Char} (he : ExponentText exponent n)
    (hr : NumberEnds rest) : DigitsEnd (symbolsOf t ++ (symbolsOf exponent ++ rest)) := by
  cases h with
  | absent => exact (digitsEnd_exponent he hr).1
  | present hd =>
    intro c tail hc
    cases hc
    rfl

end

section

variable {s rest : List Symbol} {t : List Char} {n : Numeral}

theorem readNumeral_sound (h : readNumeral s = .ok (n, rest)) : ∃ t, s = symbolsOf t ++ rest ∧ NumeralText t n := by
  cases hm : spanMinus s with
  | mk negative s₀ =>
    obtain ⟨minus, rfl, hminus⟩ := spanMinus_sound hm
    unfold readNumeral at h
    rw [hm] at h
    obtain ⟨⟨whole, s₁⟩, hw, h⟩ := Except.bind_eq_ok_iff.1 h
    obtain ⟨⟨ds, s₂⟩, hf, h⟩ := Except.bind_eq_ok_iff.1 h
    obtain ⟨⟨e, s₃⟩, he, h⟩ := Except.bind_eq_ok_iff.1 h
    obtain ⟨hs₀, hwhole, -⟩ := readWhole_iff.1 hw
    obtain ⟨fraction, hs₁, hfraction⟩ := readFraction_sound hf
    obtain ⟨exponent, hs₂, hexponent⟩ := readExponent_sound he
    cases h
    refine ⟨_, ?_, .mk hminus hwhole hfraction hexponent⟩
    simp only [hs₀, hs₁, hs₂, symbolsOf_append, List.append_assoc]

theorem numeralText_of_readNumeral {n : Numeral} (h : readNumeral (symbolsOf t) = .ok (n, [])) : NumeralText t n := by
  obtain ⟨t', ht, hn⟩ := readNumeral_sound h
  rw [List.append_nil] at ht
  rwa [List.map_inj_right (fun _ _ => Option.some.inj) |>.1 ht]

theorem readNumeral_complete (h : NumeralText t n) (hr : NumberEnds rest) :
    readNumeral (symbolsOf t ++ rest) = .ok (n, rest) := by
  cases h with
  | @mk minus whole fraction exponent ds negative e hm hw hf he =>
    have hs : symbolsOf (minus ++ (whole ++ (fraction ++ exponent))) ++ rest =
        symbolsOf (minus ++ whole) ++ (symbolsOf fraction ++ (symbolsOf exponent ++ rest)) := by
      simp only [symbolsOf_append, List.append_assoc]
    obtain ⟨hend, hpoint⟩ := digitsEnd_exponent he hr
    rw [hs, readNumeral, spanMinus_complete hm hw.1]
    refine Except.bind_eq_ok_iff.2 ⟨_, readWhole_iff.2 ⟨rfl, hw, digitsEnd_fraction hf he hr⟩, ?_⟩
    refine Except.bind_eq_ok_iff.2 ⟨_, readFraction_complete hf hend hpoint, ?_⟩
    exact Except.bind_eq_ok_iff.2 ⟨_, readExponent_complete he hr, rfl⟩

/-- A number is read just if a numeral stands there that has a value. -/
theorem readNumber_sound {v : Json} (h : readNumber s = .ok (v, rest)) :
    ∃ t n, s = symbolsOf t ++ rest ∧ NumeralText t n ∧ n.value? = some v := by
  obtain ⟨⟨n, s'⟩, hn, h⟩ := Except.bind_eq_ok_iff.1 h
  obtain ⟨t, hs, ht⟩ := readNumeral_sound hn
  dsimp only at h
  split at h
  · rename_i u hu
    cases h
    exact ⟨t, n, hs, ht, hu⟩
  · cases h

theorem readNumber_complete {v : Json} (h : NumeralText t n) (hv : n.value? = some v) (hr : NumberEnds rest) :
    readNumber (symbolsOf t ++ rest) = .ok (v, rest) := by
  refine Except.bind_eq_ok_iff.2 ⟨_, readNumeral_complete h hr, ?_⟩
  simp only [hv]

end

end Chronicle.Json
