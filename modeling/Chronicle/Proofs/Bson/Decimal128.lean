import Chronicle.Proofs.Bson.Forms
import Chronicle.Proofs.Text.Digits
import Mathlib.Data.List.TakeDrop

/-!
# Decimals come back from their text

Whatever the bits of a decimal are, they stand for one that can be represented (`representable_kind`), and such a one is
packed and taken apart again (`kind_pack`, `negative_pack`); its bytes are read as it (`ofBytes?_bytes`). What a decimal
is written as is read as the decimal in its normal form (`ofText?_text`), which is written the same way (`text_normal`).
So the form of a decimal in extended JSON comes back as it was just if its text is that of a decimal, or of none
(`Json.restored_decimalForm_eq_iff`), and what has come back once does not change again
(`Json.restored_restored_decimalForm`).
-/

namespace Chronicle

namespace Decimal128

open Decimal (Numeral numeral? splitSign)
open Text (digits integer? isDigit lowerAscii value)

/-! ## Bits -/

/-- What the bits of a decimal can stand for. -/
def Kind.Representable : Kind → Prop
  | .finite coefficient exponent => coefficient < 10 ^ maxDigits ∧ minExponent ≤ exponent ∧ exponent ≤ maxExponent
  | _ => True

theorem field_eq (d : Decimal128) (start width : Nat) : d.field start width = d.bits.toNat / 2 ^ start % 2 ^ width := by
  rw [field, BitVec.extractLsb'_toNat, Nat.shiftRight_eq_div_pow]

theorem Kind.representable_ofFields (coefficient : Nat) {exponent : Nat} (h : exponent < 12288) :
    (Kind.ofFields coefficient exponent).Representable := by
  refine ⟨?_, ?_, ?_⟩
  · split
    · assumption
    · exact Nat.pow_pos (by decide)
  · unfold minExponent
    omega
  · unfold minExponent maxExponent
    omega

/-- Whatever the bits are, they stand for something. -/
theorem representable_kind (d : Decimal128) : d.kind.Representable := by
  unfold kind
  simp only [field_eq]
  -- the two highest bits of an exponent are not both set
  split
  · split <;> trivial
  · split <;> exact Kind.representable_ofFields _ (by omega)

variable {k : Kind}

theorem Kind.bits_lt (h : k.Representable) : k.bits < 2 ^ 127 := by
  cases k with
  | nan signalling => cases signalling <;> decide
  | infinity => decide
  | finite c e =>
    obtain ⟨hc, hmin, hmax⟩ := h
    unfold Kind.bits
    unfold minExponent maxDigits maxExponent at *
    simp only [Nat.pow_eq]
    omega

theorem toNat_pack (h : k.Representable) (negative : Bool) :
    (pack negative k).bits.toNat = negative.toNat * 2 ^ 127 + k.bits := by
  have hbits := Kind.bits_lt h
  have hsign := negative.toNat_lt
  rw [pack, BitVec.toNat_ofNat, Nat.pow_eq]
  exact Nat.mod_eq_of_lt (by omega)

theorem negative_pack (h : k.Representable) (negative : Bool) : (pack negative k).negative = negative := by
  have hbits := Kind.bits_lt h
  rw [Decimal128.negative, BitVec.msb_eq_decide, toNat_pack h]
  cases negative with
  | false => exact decide_eq_false (by simp only [Bool.toNat_false]; omega)
  | true => exact decide_eq_true (by simp only [Bool.toNat_true]; omega)

theorem field_pack (h : k.Representable) (negative : Bool) (start width : Nat) :
    (pack negative k).field start width = (negative.toNat * 2 ^ 127 + k.bits) / 2 ^ start % 2 ^ width := by
  rw [field_eq, toNat_pack h]

/-- **Bits**: what can be represented is taken apart as it was put together. -/
theorem kind_pack (h : k.Representable) (negative : Bool) : (pack negative k).kind = k := by
  have hfield := field_pack h negative
  cases k with
  | nan signalling =>
    have hsignalling := signalling.toNat_lt
    simp only [Kind.bits, Nat.pow_eq] at hfield
    have hspecial : (pack negative (.nan signalling)).field 123 4 = 15 := by rw [hfield]; omega
    have hnan : (pack negative (.nan signalling)).field 122 1 = 1 := by rw [hfield]; omega
    have hkind : (pack negative (.nan signalling)).field 121 1 = signalling.toNat := by rw [hfield]; omega
    rw [kind, if_pos hspecial, if_pos hnan, hkind]
    cases signalling <;> rfl
  | infinity =>
    simp only [Kind.bits, Nat.pow_eq] at hfield
    have hspecial : (pack negative .infinity).field 123 4 = 15 := by rw [hfield]; omega
    have hnan : (pack negative .infinity).field 122 1 ≠ 1 := by rw [hfield]; omega
    rw [kind, if_pos hspecial, if_neg hnan]
  | finite c e =>
    obtain ⟨hc, hmin, hmax⟩ := h
    have hdigits : c < Nat.pow 10 maxDigits := hc
    simp only [Kind.bits, Nat.pow_eq] at hfield
    unfold maxDigits at hc
    unfold minExponent at hfield hmin
    unfold maxExponent at hmax
    have hspecial : (pack negative (.finite c e)).field 123 4 ≠ 15 := by rw [hfield]; omega
    have hsmall : (pack negative (.finite c e)).field 125 2 ≠ 3 := by rw [hfield]; omega
    have hcoefficient : (pack negative (.finite c e)).field 0 113 = c := by rw [hfield]; omega
    have hexponent : ((pack negative (.finite c e)).field 113 14 : Int) + minExponent = e := by
      rw [hfield, minExponent]
      omega
    rw [kind, if_neg hspecial, if_neg hsmall, hcoefficient, Kind.ofFields, if_pos hdigits, hexponent]

theorem foldr_bytes (n count : Nat) :
    ((List.range count).map fun i => UInt8.ofNat (n / 2 ^ (8 * i) % 2 ^ 8)).foldr (fun b m => b.toNat + 256 * m) 0 =
      n % 256 ^ count := by
  induction count generalizing n with
  | zero => simp [Nat.mod_one]
  | succ count ih =>
    have hshift (i : Nat) : n / 2 ^ (8 * (i + 1)) = n / 256 / 2 ^ (8 * i) := by
      rw [Nat.div_div_eq_div_mul, Nat.mul_succ, Nat.add_comm, Nat.pow_add]
    have hlow : (UInt8.ofNat (n / 2 ^ (8 * 0) % 2 ^ 8)).toNat = n % 256 := by simp
    have hmod : n % 256 ^ (count + 1) = n % 256 + 256 * (n / 256 % 256 ^ count) := by
      rw [Nat.pow_succ', Nat.mod_mul]
    rw [List.range_succ_eq_map, List.map_cons, List.map_map, List.foldr_cons, hlow, hmod, ← ih]
    simp only [Function.comp_def, Nat.succ_eq_add_one, hshift]

/-- **Bytes**: a decimal is read from its bytes. -/
theorem ofBytes?_bytes (d : Decimal128) : ofBytes? d.bytes = some d := by
  have hlength : d.bytes.length = 16 := by simp [bytes]
  have hbits : d.bytes.foldr (fun b m => b.toNat + 256 * m) 0 = d.bits.toNat := by
    simp only [bytes, field_eq]
    rw [foldr_bytes]
    exact Nat.mod_eq_of_lt d.bits.isLt
  rw [ofBytes?, if_pos hlength, hbits, BitVec.ofNat_toNat, BitVec.setWidth_eq]

/-! ## Numerals -/

/-- What may follow the digits of a numeral, and the exponent that it is. -/
inductive ExponentText : List Char → Int → Prop
  | absent : ExponentText [] 0
  | present {ds : List Char} {e : Int} (h : integer? ds = some e) : ExponentText ('E' :: ds) e

theorem span_append {α : Type} {p : α → Bool} {xs rest : List α} (h : ∀ x ∈ xs, p x = true)
    (hr : ∀ x ∈ rest.head?, p x = false) : (xs ++ rest).span p = (xs, rest) := by
  rw [List.span_eq_takeWhile_dropWhile, List.takeWhile_append_of_pos h, List.dropWhile_append_of_pos h]
  cases rest with
  | nil => simp
  | cons c rest => simp [hr c rfl]

theorem ne_of_isDigit {c d : Char} (hc : isDigit c = true) (hd : isDigit d = false) : c ≠ d := by
  rintro rfl
  rw [hc] at hd
  cases hd

theorem span_pointed {whole : List Char} (hw : ∀ c ∈ whole, isDigit c = true) (fraction : List Char) :
    ∃ rest, (pointed whole fraction).span (· ≠ '.') = (whole, rest) ∧ rest.drop 1 = fraction := by
  have hpoint : ∀ c ∈ whole, decide (c ≠ '.') = true := fun c hc => decide_eq_true (ne_of_isDigit (hw c hc) rfl)
  unfold pointed
  split
  · rename_i hf
    rw [List.isEmpty_iff.1 hf]
    have hnil : ∀ c ∈ ([] : List Char).head?, decide (c ≠ '.') = false := by simp
    exact ⟨[], by simpa using span_append hpoint hnil, rfl⟩
  · exact ⟨'.' :: fraction, span_append hpoint (by simp), rfl⟩

theorem isDigit_or_eq_of_mem_pointed {whole fraction : List Char} (hw : ∀ c ∈ whole, isDigit c = true)
    (hf : ∀ c ∈ fraction, isDigit c = true) {c : Char} (hc : c ∈ pointed whole fraction) :
    isDigit c = true ∨ c = '.' := by
  unfold pointed at hc
  split at hc
  · exact .inl (hw c hc)
  · rcases List.mem_append.1 hc with hc | hc
    · exact .inl (hw c hc)
    · exact (List.mem_cons.1 hc).symm.imp_left (hf c)

/-- Digits around a point are taken apart at the point, and an exponent behind them is read. -/
theorem numeral?_pointed {whole fraction tail : List Char} {e : Int} (hne : whole ≠ [])
    (hw : ∀ c ∈ whole, isDigit c = true) (hf : ∀ c ∈ fraction, isDigit c = true) (ht : ExponentText tail e) :
    numeral? (pointed whole fraction ++ tail) = some ⟨value (whole ++ fraction), fraction.length, e⟩ := by
  have hmantissa : (pointed whole fraction ++ tail).span (fun c => c ≠ 'e' && c ≠ 'E') = (pointed whole fraction, tail) := by
    refine span_append (fun c hc => ?_) fun c hc => ?_
    · rcases isDigit_or_eq_of_mem_pointed hw hf hc with hc | rfl
      · simp [ne_of_isDigit hc (d := 'e') rfl, ne_of_isDigit hc (d := 'E') rfl]
      · rfl
    · cases ht with
      | absent => cases hc
      | present h => cases hc; rfl
  obtain ⟨rest, hspan, hrest⟩ := span_pointed hw fraction
  have hdigits : Text.natural? (whole ++ fraction) = some (value (whole ++ fraction)) := by
    have hall : (whole ++ fraction).all isDigit = true :=
      List.all_eq_true.2 fun c hc => (List.mem_append.1 hc).elim (hw c) (hf c)
    simp [Text.natural?, hall, hne]
  rw [numeral?, hmantissa]
  simp only [hspan, hrest, hdigits]
  cases ht with
  | absent => rfl
  | present h =>
    simp only [h]
    rfl

/-! ## Texts of finite decimals -/

theorem isDigit_of_mem_digits {n : Nat} {c : Char} (h : c ∈ digits n) : isDigit c = true :=
  List.all_eq_true.1 (Text.all_isDigit_digits n) c h

theorem natural?_digits (n : Nat) : Text.natural? (digits n) = some n := by
  simp [Text.natural?, Text.all_isDigit_digits, Text.value_digits, Text.digits_ne_nil]

theorem integer?_minus (n : Nat) : integer? ('-' :: digits n) = some (-(n : Int)) := by
  rw [integer?, natural?_digits]
  rfl

theorem integer?_plus (n : Nat) : integer? ('+' :: digits n) = some (n : Int) := by
  rw [integer?, natural?_digits]
  rfl

/-- An exponent is read as it was written, with a plus sign if it is positive. -/
theorem integer?_exponent (e : Int) : integer? ((if 0 < e then ['+'] else []) ++ Text.signed e) = some e := by
  rcases lt_trichotomy e 0 with he | rfl | he
  · rw [if_neg he.not_gt, Text.signed, if_pos he, List.nil_append, integer?_minus]
    exact congrArg some (Int.neg_eq_comm.1 (Int.ofNat_natAbs_of_nonpos he.le).symm)
  · rw [Text.signed, Int.natAbs_zero, digits]
    rfl
  · rw [if_pos he, Text.signed, if_neg he.not_gt, List.singleton_append, integer?_plus]
    exact congrArg some (Int.natAbs_of_nonneg he.le)

/-- The digits of a number with a point behind the first `i` of them are a numeral. -/
theorem numeral?_split (n : Nat) {i : Nat} (hi : 0 < i) {tail : List Char} {e : Int} (ht : ExponentText tail e) :
    numeral? (pointed ((digits n).take i) ((digits n).drop i) ++ tail) = some ⟨n, (digits n).length - i, e⟩ := by
  have hne : (digits n).take i ≠ [] := by simp [Text.digits_ne_nil, hi.ne']
  have hw : ∀ c ∈ (digits n).take i, isDigit c = true := fun c hc => isDigit_of_mem_digits (List.mem_of_mem_take hc)
  have hf : ∀ c ∈ (digits n).drop i, isDigit c = true := fun c hc => isDigit_of_mem_digits (List.mem_of_mem_drop hc)
  rw [numeral?_pointed hne hw hf ht, List.take_append_drop, Text.value_digits, List.length_drop]

/-- Digits with a point among them are a numeral. -/
theorem numeral?_plain (n places : Nat) : numeral? (plain (digits n) places) = some ⟨n, places, 0⟩ := by
  unfold plain
  split
  · rename_i hle
    have hf : ∀ c ∈ List.replicate (places - (digits n).length) '0' ++ digits n, isDigit c = true := by
      intro c hc
      rcases List.mem_append.1 hc with hc | hc
      · rw [List.eq_of_mem_replicate hc]
        rfl
      · exact isDigit_of_mem_digits hc
    have hvalue : value (['0'] ++ (List.replicate (places - (digits n).length) '0' ++ digits n)) = n := by
      rw [← List.append_assoc, Text.value_append, List.singleton_append, ← List.replicate_succ, Text.value_zeros,
        Nat.zero_mul, Nat.zero_add, Text.value_digits]
    have hlength : (List.replicate (places - (digits n).length) '0' ++ digits n).length = places := by
      rw [List.length_append, List.length_replicate]
      omega
    have := numeral?_pointed (List.cons_ne_nil '0' []) (by simp [isDigit]) hf .absent
    rwa [List.append_nil, hvalue, hlength] at this
  · rename_i hlt
    have hpos : 0 < (digits n).length - places := by omega
    have hplaces : (digits n).length - ((digits n).length - places) = places := by omega
    have := numeral?_split n hpos .absent
    rwa [List.append_nil, hplaces] at this

/-- One digit before the point and an exponent are a numeral. -/
theorem numeral?_scientific (n : Nat) (e : Int) :
    numeral? (scientific (digits n) e) = some ⟨n, (digits n).length - 1, e⟩ :=
  numeral?_split n Nat.one_pos (.present (integer?_exponent e))

/-- What is in range fits as it is. -/
theorem fit?_of_representable {c : Nat} {e : Int} (h : (Kind.finite c e).Representable) :
    fit? c e = some (.finite c e) := by
  obtain ⟨hc, hmin, hmax⟩ := h
  have hlength := Text.length_digits_le (by decide) hc
  have hextra : (digits c).length - maxDigits = 0 := Nat.sub_eq_zero_of_le hlength
  have hlow : (minExponent - e).toNat = 0 := by omega
  have hhigh : (e - maxExponent).toNat = 0 := by omega
  have hint : int16? e = some e := by
    unfold minExponent at hmin
    unfold maxExponent at hmax
    exact if_pos (by omega)
  have hzeros (m : Nat) : dropZeros? 0 m = some m := by simp [dropZeros?, Nat.mod_one]
  have hzero : int16? 0 = some 0 := rfl
  simp [fit?, hextra, hzeros, hint, hzero, hlow, hmin, hmax, hhigh, hc]

theorem int16?_eq {n : Int} (h : -0x8000 ≤ n) (h' : n < 0x8000) : int16? n = some n := if_pos ⟨h, h'⟩

theorem readFinite?_of_numeral {s : List Char} {c places : Nat} {x e : Int} (hs : numeral? s = some ⟨c, places, x⟩)
    (hp : places < 0x4000) (he : x - places = e) (h : (Kind.finite c e).Representable) :
    readFinite? s = some (.finite c e) := by
  obtain ⟨hc, hmin, hmax⟩ := h
  unfold minExponent at hmin
  unfold maxExponent at hmax
  have hx : int16? x = some x := int16?_eq (by omega) (by omega)
  have hplaces : int16? places = some (places : Int) := int16?_eq (by omega) (by omega)
  have hdifference : int16? e = some e := int16?_eq (by omega) (by omega)
  simp [readFinite?, hs, hx, hplaces, he, hdifference, fit?_of_representable ⟨hc, hmin, hmax⟩]

/-- What is written for a finite decimal is read as it. -/
theorem readFinite?_finiteText {c : Nat} {e : Int} (h : (Kind.finite c e).Representable) :
    readFinite? (finiteText c e) = some (.finite c e) := by
  have hlength := Text.length_digits_le (by decide) h.1
  have hpos := List.length_pos_iff.2 (Text.digits_ne_nil c)
  unfold maxDigits at hlength
  unfold finiteText
  dsimp only
  split
  · refine readFinite?_of_numeral (numeral?_plain c _) ?_ ?_ h <;> omega
  · refine readFinite?_of_numeral (numeral?_scientific c _) ?_ ?_ h <;> omega

/-! ## Texts -/

/-- The decimal that the text of a kind is read as: what is no number is quiet and has no sign. -/
def Kind.normal (negative : Bool) : Kind → Decimal128
  | .nan _ => pack false (.nan false)
  | k => pack negative k

/-- A decimal in the bits that its text is read as. -/
def normal (d : Decimal128) : Decimal128 := d.kind.normal d.negative

theorem lowerAscii_of_isDigit {c : Char} (h : isDigit c = true) : lowerAscii c = c := by
  simp only [isDigit, Bool.and_eq_true, decide_eq_true_eq] at h
  have hupper : ¬ 'A' ≤ c := fun hA => absurd (Char.le_trans hA h.2) (by decide)
  simp [lowerAscii, hupper]

/-- No word starts with a digit. -/
theorem readWord?_of_isDigit {c : Char} (h : isDigit c = true) (s : List Char) : readWord? (c :: s) = none := by
  unfold readWord?
  rw [List.map_cons, lowerAscii_of_isDigit h]
  split
  case h_5 => rfl
  all_goals
    rename_i heq
    obtain ⟨rfl, -⟩ := List.cons.inj heq
    cases h

theorem splitSign_signedText {c : Char} (h : c ≠ '-') (h' : c ≠ '+') (negative : Bool) (s : List Char) :
    splitSign (signedText negative (c :: s)) = (negative, c :: s) := by
  cases negative with
  | true => rfl
  | false =>
    unfold signedText splitSign
    simp [h, h']

theorem exists_pointed_eq {whole fraction : List Char} (hne : whole ≠ []) (hw : ∀ c ∈ whole, isDigit c = true) :
    ∃ c s, pointed whole fraction = c :: s ∧ isDigit c = true := by
  obtain ⟨c, tail, rfl⟩ := List.exists_cons_of_ne_nil hne
  have hc := hw c List.mem_cons_self
  unfold pointed
  split
  · exact ⟨c, tail, rfl, hc⟩
  · exact ⟨c, tail ++ '.' :: fraction, rfl, hc⟩

theorem exists_split_eq (n : Nat) {i : Nat} (hi : 0 < i) (fraction : List Char) :
    ∃ c s, pointed ((digits n).take i) fraction = c :: s ∧ isDigit c = true := by
  refine exists_pointed_eq ?_ fun c hc => isDigit_of_mem_digits (List.mem_of_mem_take hc)
  simp [Text.digits_ne_nil, hi.ne']

/-- A finite decimal is written with a digit first. -/
theorem exists_finiteText_eq (n : Nat) (e : Int) : ∃ c s, finiteText n e = c :: s ∧ isDigit c = true := by
  unfold finiteText
  dsimp only
  split
  · unfold plain
    split
    · exact exists_pointed_eq (List.cons_ne_nil '0' []) (by simp [isDigit])
    · exact exists_split_eq n (by omega) _
  · obtain ⟨c, s, hs, hc⟩ := exists_split_eq n Nat.one_pos ((digits n).drop 1)
    unfold scientific
    rw [hs]
    exact ⟨c, _, rfl, hc⟩

theorem Kind.ofText?_text (h : k.Representable) (negative : Bool) :
    ofText? (String.ofList (k.text negative)) = some (k.normal negative) := by
  unfold ofText?
  rw [String.toList_ofList]
  cases k with
  | nan signalling =>
    have hsign : splitSign ['N', 'a', 'N'] = (false, ['N', 'a', 'N']) := rfl
    have hword : readWord? ['N', 'a', 'N'] = some (.nan false) := rfl
    simp only [Kind.text, hsign, hword]
    rfl
  | infinity =>
    have hsign := splitSign_signedText (c := 'I') (by decide) (by decide) negative ['n', 'f', 'i', 'n', 'i', 't', 'y']
    have hword : readWord? ['I', 'n', 'f', 'i', 'n', 'i', 't', 'y'] = some .infinity := rfl
    simp only [Kind.text, hsign, hword]
    rfl
  | finite n e =>
    obtain ⟨c, s, htext, hc⟩ := exists_finiteText_eq n e
    have hread := readFinite?_finiteText h
    have hsign := splitSign_signedText (ne_of_isDigit hc rfl) (ne_of_isDigit hc rfl) negative s
    rw [htext] at hread
    simp only [Kind.text, htext, hsign, readWord?_of_isDigit hc, hread]
    rfl

/-- **Texts**: a decimal is read from its text, in its normal form. -/
theorem ofText?_text (d : Decimal128) : ofText? d.text = some d.normal := Kind.ofText?_text d.representable_kind _

/-- A decimal and its normal form are written the same. -/
theorem text_normal (d : Decimal128) : d.normal.text = d.text := by
  have hr := d.representable_kind
  unfold normal text
  generalize d.kind = k at hr
  cases k with
  | nan signalling =>
    have hquiet : (Kind.nan false).Representable := trivial
    rw [Kind.normal, kind_pack hquiet, Kind.text, Kind.text]
  | infinity | finite =>
    unfold Kind.normal
    rw [kind_pack hr, negative_pack hr]

end Decimal128

/-! ## Extended JSON -/

namespace Json

/-- An object that is the form of a decimal, if the text is one. -/
def decimalForm (s : String) : Json := Bson.form "$numberDecimal" (.string s)

theorem restored_decimalForm (s : String) :
    (decimalForm s).restored = decimalForm (((Decimal128.ofText? s).map Decimal128.text).getD s) := by
  have hb : Bson.ofJson (decimalForm s) =
      .ok (((Decimal128.ofText? s).map .decimal128).getD (.document [("$numberDecimal", .string s)])) := rfl
  rw [restored_of_ofJson hb]
  cases Decimal128.ofText? s with
  | none => rfl
  | some d => rfl

/-- The form of a decimal comes back as it was just if its text is written for what it is read as. -/
theorem restored_decimalForm_eq_iff (s : String) :
    (decimalForm s).restored = decimalForm s ↔ ∀ d, Decimal128.ofText? s = some d → d.text = s := by
  rw [restored_decimalForm]
  cases Decimal128.ofText? s with
  | none => simp
  | some d => simp [decimalForm, Bson.form]

/-- What has come back once comes back as it is. -/
theorem restored_restored_decimalForm (s : String) :
    (decimalForm s).restored.restored = (decimalForm s).restored := by
  cases hs : Decimal128.ofText? s with
  | none => simp [restored_decimalForm, hs]
  | some d => simp [restored_decimalForm, hs, Decimal128.ofText?_text, Decimal128.text_normal]

/-- A text that is not written for its decimal: the form is changed. -/
example : (decimalForm "1E3").restored = decimalForm "1E+3" := by
  have h : (Decimal128.ofText? "1E3").map Decimal128.text = some "1E+3" := by decide +kernel
  rw [restored_decimalForm, h, Option.getD_some]

end Json

end Chronicle
