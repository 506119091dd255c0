import Chronicle.Proofs.Except
import Chronicle.Proofs.Time.Calendar
import Chronicle.Time.Rfc3339.Printer
import Chronicle.Time.Rfc3339.Reader

/-!
# Timestamps are read back

The RFC 3339 text of a timestamp is read as that timestamp (`ofRfc3339_rfc3339`), with its offset and its nanoseconds,
if the text has room for it (`Writable`): four digits for the year, whole minutes for the offset, and second 60 for a
leap second.
-/

namespace Chronicle.Timestamp

open Text (isDigit value padded width symbolsOf)

/-- A timestamp that its text does not change. -/
structure Writable (t : Timestamp) : Prop where
  offset : t.offset % 60 = 0
  year_nonneg : 0 ≤ t.date.year
  year_le : t.date.year ≤ 9999
  leap : 1000000000 ≤ t.nanos → t.localSecs % 60 = 59

/-! ## Numbers -/

theorem readDigits_append {ds : List Char} (h : ds.all isDigit = true) (rest : List Char) :
    readDigits ds.length (ds ++ rest) = .ok (ds, rest) := by
  induction ds with
  | nil => rfl
  | cons c ds ih =>
    obtain ⟨hc, h⟩ := Bool.and_eq_true_iff.1 h
    simp only [List.length_cons, List.cons_append, readDigits, hc, ih h]
    rfl

/-- A number is read back from as many places as it was given. -/
theorem readNumber_padded {n w : Nat} (hw : 0 < w) (hn : n < Nat.pow 10 w) (rest : List Char) :
    readNumber w (padded w n ++ rest) = .ok (n, rest) := by
  have h := readDigits_append (Text.all_isDigit_padded w n) rest
  rw [Text.length_padded hw hn] at h
  rw [readNumber, h, Except.ok_bind]
  simp only [Text.value_padded]
  rfl

theorem readNumber_two {n : Nat} (hn : n < 100) (rest : List Char) :
    readNumber 2 (padded 2 n ++ rest) = .ok (n, rest) :=
  readNumber_padded (by decide) hn rest

theorem readSeparator_self (c : Char) (rest : List Char) : readSeparator (fun d => d = c) (c :: rest) = .ok rest := by
  simp [readSeparator]

/-! ## Dates and times of day -/

theorem month_day_lt {d : Date} (h : d.isValid = true) : d.month < 100 ∧ d.day < 100 := by
  simp only [Date.isValid, Bool.and_eq_true, decide_eq_true_eq] at h
  have := Date.daysInMonth_le d.year d.month
  omega

theorem readDate_text {d : Date} (hv : d.isValid = true) (h0 : 0 ≤ d.year) (h9 : d.year ≤ 9999) (rest : List Char) :
    readDate (d.text ++ rest) = .ok (d, rest) := by
  obtain ⟨hm, hd⟩ := month_day_lt hv
  have hy : ((d.year.natAbs : Nat) : Int) = d.year := Int.natAbs_of_nonneg h0
  have hy4 := readNumber_padded (w := 4) (by decide) (show d.year.natAbs < 10000 by omega)
  have he : d.text ++ rest =
      padded 4 d.year.natAbs ++ '-' :: (padded 2 d.month ++ '-' :: (padded 2 d.day ++ rest)) := by
    simp [Date.text, Date.yearText, h0, h9]
  simp only [readDate, he, hy4, readNumber_two hm, readNumber_two hd, readSeparator_self, Except.ok_bind, hy, hv,
    ↓reduceIte]

/-- A fraction of a second has no finer digits than are written. -/
def Precision.Holds (p : Precision) (fraction : Nat) : Prop :=
  match p with
  | .millis => fraction % 1000000 = 0
  | .nanos => True

theorem readFraction_digits {ds rest : List Char} (hd : ds.all isDigit = true) (h0 : ds ≠ []) (h9 : ds.length ≤ 9)
    (hr : rest.takeWhile isDigit = []) :
    readFraction ('.' :: (ds ++ rest)) = .ok (value ds * Nat.pow 10 (9 - ds.length), rest) := by
  have hall := List.all_eq_true.1 hd
  have ht : ((ds ++ rest).takeWhile isDigit).take 9 = ds := by
    rw [List.takeWhile_append_of_pos hall, hr, List.append_nil, List.take_of_length_le h9]
  have hw : (ds ++ rest).dropWhile isDigit = rest := by
    rw [List.dropWhile_append_of_pos hall]
    cases rest with
    | nil => rfl
    | cons c rest =>
      have hc : isDigit c = false := by
        cases hc : isDigit c with
        | false => rfl
        | true => simp [hc] at hr
      simp [hc]
  cases ds with
  | nil => exact absurd rfl h0
  | cons d ds =>
    have hd := hall d List.mem_cons_self
    rw [List.cons_append] at ht hw ⊢
    simp only [readFraction, hd, ht, hw]
    rfl

theorem readFraction_text {p : Precision} {fraction : Nat} (hp : p.Holds fraction) (hf : fraction < 1000000000)
    {rest : List Char} (hr : rest.takeWhile isDigit = []) :
    readFraction (p.text fraction ++ rest) = .ok (fraction, rest) := by
  cases p with
  | millis =>
    have hl : (padded 3 (fraction / 1000000)).length = 3 := Text.length_padded (by decide) (show _ < 1000 by omega)
    have h := readFraction_digits (Text.all_isDigit_padded 3 (fraction / 1000000))
      (by intro h; rw [h] at hl; cases hl) (by omega) hr
    rw [hl, Text.value_padded] at h
    have hv : fraction / 1000000 * Nat.pow 10 (9 - 3) = fraction := Nat.div_mul_cancel (Nat.dvd_of_mod_eq_zero hp)
    rw [hv] at h
    exact h
  | nanos =>
    have hl : (padded 9 fraction).length = 9 := Text.length_padded (by decide) hf
    have h := readFraction_digits (Text.all_isDigit_padded 9 fraction)
      (by intro h; rw [h] at hl; cases hl) (by omega) hr
    rw [hl, Text.value_padded] at h
    have hv : fraction * Nat.pow 10 (9 - 9) = fraction := Nat.mul_one _
    rw [hv] at h
    exact h

/-- The second of the day that a clock shows. -/
def secondOfDay (t : Timestamp) : Nat := (t.localSecs % 86400).toNat

theorem secondOfDay_lt (t : Timestamp) : t.secondOfDay < 86400 := by
  unfold secondOfDay
  omega

theorem readClock_text {t : Timestamp} (hw : t.Writable) {p : Precision} (hp : p.Holds t.clock.nanos)
    {rest : List Char} (hr : rest.takeWhile isDigit = []) :
    readClock (t.clock.text ++ p.text t.clock.nanos ++ rest) = .ok ((t.secondOfDay, t.nanos), rest) := by
  have hn := t.secondOfDay_lt
  have hlt := t.nanos_lt
  have hl := hw.leap
  have hleap : 1000000000 ≤ t.nanos → t.secondOfDay % 60 = 59 := by
    unfold secondOfDay
    omega
  have hc : t.clock = ⟨t.secondOfDay / 3600, t.secondOfDay / 60 % 60, t.secondOfDay % 60 + t.nanos / 1000000000,
    t.nanos % 1000000000⟩ := rfl
  have he : t.clock.text ++ p.text t.clock.nanos ++ rest =
      padded 2 t.clock.hour ++ ':' :: (padded 2 t.clock.minute ++ ':' :: (padded 2 t.clock.second ++
        (p.text t.clock.nanos ++ rest))) := by
    simp [Clock.text]
  have hf := readFraction_text hp (Nat.mod_lt _ (by decide)) hr
  rw [he]
  rw [hc] at hf ⊢
  dsimp only at hf ⊢
  generalize t.secondOfDay = n at *
  have h1 : n / 3600 < 100 := by omega
  have h2 : n / 60 % 60 < 100 := by omega
  have h3 : n % 60 + t.nanos / 1000000000 < 100 := by omega
  simp only [readClock, hf, readNumber_two h1, readNumber_two h2, readNumber_two h3, readSeparator_self,
    Except.ok_bind]
  -- a leap second is written as second 60 of its minute and read as second 59
  have hs : (if n % 60 + t.nanos / 1000000000 = 60 then (59, t.nanos % 1000000000 + 1000000000)
      else (n % 60 + t.nanos / 1000000000, t.nanos % 1000000000)) = (n % 60, t.nanos) := by
    split <;> (rw [Prod.mk.injEq]; omega)
  have hn : n / 3600 * 3600 + n / 60 % 60 * 60 + n % 60 = n := by omega
  rw [hs, if_pos (by dsimp only; omega), hn]

/-! ## Offsets -/

theorem readPair_padded {n : Nat} (h : n < 100) (rest : List Char) :
    readPair (padded 2 n ++ rest) = .ok ((Text.digit (n / 10), Text.digit (n % 10)), rest) := by
  rw [Text.padded_two h]
  simp only [List.cons_append, List.nil_append, readPair, Text.isDigit_digit, Bool.and_self, ↓reduceIte]
  rw [if_neg]
  have := Text.length_le_width (Text.digit (n / 10) :: Text.digit (n % 10) :: rest)
  simp only [List.length_cons] at this
  omega

/-- A number of less than a day's minutes behind a sign. -/
theorem readZone_sign {c : Char} {negative : Bool} (hc : c = if negative then '-' else '+') {m : Nat} (hm : m < 1440) :
    readZone (c :: (padded 2 (m / 60) ++ ':' :: padded 2 (m % 60))) =
    .ok (if negative then -(m * 60 : Nat) else (m * 60 : Nat), []) := by
  have hh := readPair_padded (show m / 60 < 100 by omega) (':' :: padded 2 (m % 60))
  have hmin := readPair_padded (show m % 60 < 100 by omega) []
  rw [List.append_nil] at hmin
  have hs : readSign (c :: (padded 2 (m / 60) ++ ':' :: padded 2 (m % 60))) =
      .ok (negative, padded 2 (m / 60) ++ ':' :: padded 2 (m % 60)) := by
    subst hc
    cases negative <;> rfl
  unfold readZone
  split
  · rename_i heq; subst hc; cases negative <;> cases heq
  · rename_i heq; subst hc; cases negative <;> cases heq
  · simp only [hs, hh, hmin, Except.ok_bind, Text.digitValue_digit]
    rw [if_neg (by simp), if_neg (by omega), if_neg (by omega)]
    have he : ((10 * (m / 60 / 10 % 10) + m / 60 % 10 % 10 : Nat) : Int) * 3600 +
        ((10 * (m % 60 / 10 % 10) + m % 60 % 10 % 10 : Nat) : Int) * 60 = (m * 60 : Nat) := by omega
    rw [he]
    rfl

theorem readZone_zoneText {offset : Int} (hm : offset % 60 = 0) (hl : -86400 < offset) (hu : offset < 86400) :
    readZone (zoneText offset) = .ok (offset, []) := by
  unfold zoneText
  by_cases h0 : offset = 0
  · subst h0
    rfl
  · obtain ⟨m, hm⟩ : ∃ m : Nat, offset.natAbs = m * 60 := ⟨offset.natAbs / 60, by omega⟩
    have hmin : (offset.natAbs + 30) / 60 = m := by omega
    have hsign : (if offset < 0 then '-' else '+') = if decide (offset < 0) then '-' else '+' := by
      simp only [decide_eq_true_eq]
    rw [if_neg h0, hmin, readZone_sign hsign (show m < 1440 by omega)]
    simp only [decide_eq_true_eq]
    congr 2
    split <;> omega

theorem takeWhile_zoneText (offset : Int) : (zoneText offset).takeWhile isDigit = [] := by
  unfold zoneText
  split
  · rfl
  · split <;> rfl

/-! ## Timestamps -/

theorem date_isValid (t : Timestamp) : t.date.isValid = true := Date.isValid_ofDays _

theorem length_rfc3339 {t : Timestamp} (hw : t.Writable) (p : Precision) : 19 ≤ (t.rfc3339 p).toList.length := by
  have h4 := Text.le_length_padded 4 t.date.year.natAbs
  have h2 := Text.le_length_padded 2
  have := h2 t.date.month
  have := h2 t.date.day
  have := h2 t.clock.hour
  have := h2 t.clock.minute
  have := h2 t.clock.second
  simp only [rfc3339, String.toList_ofList, rfc3339Chars, Date.text, Date.yearText, hw.year_nonneg, hw.year_le,
    and_self, ↓reduceIte, Clock.text, List.length_append, List.length_cons]
  omega

/-- **Reading back**: a timestamp is read back from its text. -/
theorem ofRfc3339_rfc3339 {t : Timestamp} (hw : t.Writable) {p : Precision} (hp : p.Holds t.clock.nanos) :
    ofRfc3339 (t.rfc3339 p) = .ok t := by
  have hd : t.date.toDays = t.localSecs / 86400 := Date.toDays_ofDays _
  have hdate := readDate_text t.date_isValid hw.year_nonneg hw.year_le
    ('T' :: (t.clock.text ++ p.text t.clock.nanos ++ zoneText t.offset))
  have hclock := readClock_text hw hp (takeWhile_zoneText t.offset)
  have hzone := readZone_zoneText hw.offset t.neg_lt_offset t.offset_lt
  have he : (t.rfc3339 p).toList =
      t.date.text ++ 'T' :: (t.clock.text ++ p.text t.clock.nanos ++ zoneText t.offset) := by
    simp [rfc3339, rfc3339Chars]
  have hlong : ¬width (symbolsOf (t.rfc3339 p).toList) < 19 := by
    have := Text.length_le_width (t.rfc3339 p).toList
    have := length_rfc3339 hw p
    omega
  have hsep : ∀ s, readSeparator (fun c => c = 'T' || c = 't' || c = ' ') ('T' :: s) = .ok s :=
    fun s => by simp [readSeparator]
  unfold ofRfc3339 readRfc3339
  rw [if_neg hlong, he]
  simp only [Except.ok_bind, hdate, hclock, hzone, hsep]
  have hsecs : t.date.toDays * 86400 + t.secondOfDay - t.offset = t.secs := by
    rw [hd, secondOfDay]
    unfold localSecs
    omega
  rw [if_neg (by simp), hsecs, ofParts?, dif_pos ⟨t.nanos_lt, t.neg_lt_offset, t.offset_lt⟩]

end Chronicle.Timestamp
