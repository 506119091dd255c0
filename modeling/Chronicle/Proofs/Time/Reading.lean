import Chronicle.Proofs.Text.Digits
import Chronicle.Proofs.Time.Rfc3339

/-!
# Timestamps that are read

What is read as a timestamp can be written again: a text has no room for other years, for seconds of an offset, or for a
leap second in the middle of a minute (`writable_of_ofRfc3339`). So a timestamp comes back from its text only if it is
`Writable` (`ofRfc3339_rfc3339_iff`). The text of another year starts with a sign and is no timestamp
(`year_of_ofRfc3339`).
-/

namespace Chronicle

namespace Date

/-- The years of March of the days from 0000-01-01, which is in the year before, to 9999-12-31. -/
theorem MarchDay.Valid.year_range {m : MarchDay} (h : m.Valid) (hl : -60 ≤ m.count) (hu : m.count ≤ 3652364) :
    -1 ≤ m.year ∧ m.year ≤ 9999 ∧ (m.year = -1 → 306 ≤ m.day) ∧ (m.year = 9999 → m.day ≤ 305) := by
  obtain ⟨hc0, hc, hq0, hq, hs0, hs, hd0, hd, -, -⟩ := h
  unfold MarchDay.count at hl hu
  unfold MarchDay.year
  have hcycle : -1 ≤ m.cycle ∧ m.cycle ≤ 24 := by omega
  by_cases hneg : m.cycle = -1
  · -- only the last year of the last cycle before the year 0 reaches into it
    have hcentury : m.century = 3 := by omega
    have hquad : m.quad = 24 := by omega
    have hsingle : m.single = 3 := by omega
    omega
  · omega

/-- The date of a day of the years 0 to 9999 is one of these years. -/
theorem year_ofDays {days : Int} (hl : -719528 ≤ days) (hu : days ≤ 2932896) :
    0 ≤ (ofDays days).year ∧ (ofDays days).year ≤ 9999 := by
  have hv := MarchDay.valid_ofCount (days + epoch)
  have hc := MarchDay.count_ofCount (days + epoch)
  rw [ofDays_eq]
  generalize MarchDay.ofCount (days + epoch) = m at hv hc ⊢
  unfold epoch at hc
  obtain ⟨h0, h9, hfirst, hlast⟩ := hv.year_range (by omega) (by omega)
  have hd := hv.day_nonneg
  have hm : m.month = (5 * m.day + 2) / 153 := rfl
  unfold MarchDay.date
  split
  · dsimp only
    omega
  · dsimp only
    omega

theorem toDays_bounds {d : Date} (hv : d.isValid = true) (h0 : 0 ≤ d.year) (h9 : d.year ≤ 9999) :
    -719528 ≤ d.toDays ∧ d.toDays ≤ 2932896 := by
  simp only [isValid, Bool.and_eq_true, decide_eq_true_eq] at hv
  have hm := daysInMonth_le d.year d.month
  unfold toDays epoch
  by_cases h2 : d.month ≤ 2
  · simp only [if_pos h2]
    omega
  · simp only [if_neg h2]
    omega

end Date

namespace Timestamp

open Text (isDigit value padded width symbolsOf)

variable {s r : List Char} {t : Timestamp}

/-! ## What the readers give -/

theorem readDigits_sound {n : Nat} {ds : List Char} (h : readDigits n s = .ok (ds, r)) :
    ds.length = n ∧ ds.all isDigit = true := by
  induction n generalizing s ds r with
  | zero =>
    rw [readDigits] at h
    cases h
    exact ⟨rfl, rfl⟩
  | succ n ih =>
    cases s with
    | nil => cases h
    | cons c s =>
      rw [readDigits] at h
      split at h
      · cases h
      · rename_i hc
        obtain ⟨⟨ds', s'⟩, hd, h⟩ := Except.bind_eq_ok_iff.1 h
        cases h
        obtain ⟨hl, ha⟩ := ih hd
        exact ⟨congrArg (· + 1) hl, Bool.and_eq_true_iff.2 ⟨by simpa using hc, ha⟩⟩

theorem readNumber_lt {n m : Nat} (h : readNumber n s = .ok (m, r)) : m < 10 ^ n := by
  obtain ⟨⟨ds, s'⟩, hd, h⟩ := Except.bind_eq_ok_iff.1 h
  cases h
  obtain ⟨hl, ha⟩ := readDigits_sound hd
  exact hl ▸ Text.value_lt ha

/-- A date that is read is one of the calendar, in the years that four digits can name. -/
theorem readDate_sound {d : Date} (h : readDate s = .ok (d, r)) : d.isValid = true ∧ 0 ≤ d.year ∧ d.year ≤ 9999 := by
  obtain ⟨⟨year, s₁⟩, hy, h⟩ := Except.bind_eq_ok_iff.1 h
  obtain ⟨s₂, -, h⟩ := Except.bind_eq_ok_iff.1 h
  obtain ⟨⟨month, s₃⟩, -, h⟩ := Except.bind_eq_ok_iff.1 h
  obtain ⟨s₄, -, h⟩ := Except.bind_eq_ok_iff.1 h
  obtain ⟨⟨day, s₅⟩, -, h⟩ := Except.bind_eq_ok_iff.1 h
  have hy := readNumber_lt hy
  dsimp only at h
  split at h
  · rename_i hv
    cases h
    exact ⟨hv, Int.natCast_nonneg _, by dsimp only; omega⟩
  · cases h

/-- A fraction is less than a second, however many digits it has. -/
theorem readFraction_lt {n : Nat} (h : readFraction s = .ok (n, r)) : n < 1000000000 := by
  unfold readFraction at h
  split at h
  · split at h
    · cases h
    · split at h
      · cases h
      · rename_i tail c s' hc
        have hall : (((c :: s').takeWhile isDigit).take 9).all isDigit = true :=
          List.all_eq_true.2 fun d hd => List.all_eq_true.1 List.all_takeWhile d (List.mem_of_mem_take hd)
        have hv := Text.value_lt hall
        have hl := List.length_take_le 9 ((c :: s').takeWhile isDigit)
        generalize ((c :: s').takeWhile isDigit).take 9 = ds at h hv hl
        cases h
        calc value ds * 10 ^ (9 - ds.length)
            < 10 ^ ds.length * 10 ^ (9 - ds.length) := Nat.mul_lt_mul_of_pos_right hv (Nat.pow_pos (by decide))
          _ = 10 ^ 9 := by rw [← Nat.pow_add, Nat.add_sub_cancel' hl]
  · cases h
    decide

/-- A time of day that is read is within its day, and only its seconds 59 can be leap seconds. -/
theorem readClock_sound {second nanos : Nat} (h : readClock s = .ok ((second, nanos), r)) :
    second < 86400 ∧ (1000000000 ≤ nanos → second % 60 = 59) := by
  obtain ⟨⟨hour, s₁⟩, -, h⟩ := Except.bind_eq_ok_iff.1 h
  obtain ⟨s₂, -, h⟩ := Except.bind_eq_ok_iff.1 h
  obtain ⟨⟨minute, s₃⟩, -, h⟩ := Except.bind_eq_ok_iff.1 h
  obtain ⟨s₄, -, h⟩ := Except.bind_eq_ok_iff.1 h
  obtain ⟨⟨shown, s₅⟩, -, h⟩ := Except.bind_eq_ok_iff.1 h
  obtain ⟨⟨fraction, s₆⟩, hf, h⟩ := Except.bind_eq_ok_iff.1 h
  have hn := readFraction_lt hf
  dsimp only at h
  by_cases hleap : shown = 60
  · simp only [if_pos hleap] at h
    split at h
    · cases h
      omega
    · cases h
  · simp only [if_neg hleap] at h
    split at h
    · cases h
      omega
    · cases h

/-- An offset that is read is one of whole minutes. -/
theorem readZone_sound {offset : Int} (h : readZone s = .ok (offset, r)) : offset % 60 = 0 := by
  unfold readZone at h
  split at h
  · cases h
    rfl
  · cases h
    rfl
  · obtain ⟨⟨negative, s₁⟩, -, h⟩ := Except.bind_eq_ok_iff.1 h
    obtain ⟨⟨⟨a, b⟩, s₂⟩, -, h⟩ := Except.bind_eq_ok_iff.1 h
    dsimp only at h
    split at h
    · cases h
    · split at h
      · cases h
      · obtain ⟨⟨⟨d, e⟩, s₃⟩, -, h⟩ := Except.bind_eq_ok_iff.1 h
        dsimp only at h
        split at h
        · cases h
        · split at h
          · cases h
          · cases h
            split <;> omega

/-! ## Timestamps -/

/-- A timestamp that is read can be written again. -/
theorem writable_of_ofRfc3339 {text : String} (h : ofRfc3339 text = .ok t) : t.Writable := by
  unfold ofRfc3339 readRfc3339 at h
  split at h
  · cases h
  obtain ⟨⟨date, s₁⟩, hdate, h⟩ := Except.bind_eq_ok_iff.1 h
  obtain ⟨s₂, -, h⟩ := Except.bind_eq_ok_iff.1 h
  obtain ⟨⟨⟨second, nanos⟩, s₃⟩, hclock, h⟩ := Except.bind_eq_ok_iff.1 h
  obtain ⟨⟨offset, s₄⟩, hzone, h⟩ := Except.bind_eq_ok_iff.1 h
  obtain ⟨hv, h0, h9⟩ := readDate_sound hdate
  obtain ⟨hsecond, hleap⟩ := readClock_sound hclock
  have hoffset := readZone_sound hzone
  dsimp only at h
  split at h
  · cases h
  split at h
  · rename_i t' ht
    cases h
    rw [ofParts?] at ht
    split at ht
    · cases ht
      have hlocal : date.toDays * 86400 + second - offset + offset = date.toDays * 86400 + second := by omega
      have hday : (date.toDays * 86400 + second) / 86400 = date.toDays := by omega
      obtain ⟨hl, hu⟩ := Date.toDays_bounds hv h0 h9
      obtain ⟨hy0, hy9⟩ := Date.year_ofDays hl hu
      refine ⟨hoffset, ?_, ?_, fun hn => ?_⟩
      · rwa [Timestamp.date, localSecs, hlocal, hday]
      · rwa [Timestamp.date, localSecs, hlocal, hday]
      · rw [localSecs, hlocal]
        have := hleap hn
        omega
    · cases ht
  · cases h

/-- A text that starts with a sign is no timestamp. -/
theorem ofRfc3339_sign {c : Char} (hc : isDigit c = false) (s : List Char) :
    ∃ e, ofRfc3339 (String.ofList (c :: s)) = .error e := by
  unfold ofRfc3339 readRfc3339
  rw [String.toList_ofList]
  split
  · exact ⟨_, rfl⟩
  · have hd : readDate (c :: s) = .error .invalid := by
      simp only [readDate, readNumber, readDigits, hc]
      rfl
    exact ⟨.invalid, by simp only [hd]; rfl⟩

/-- Only the years that four digits can name are read back. -/
theorem year_of_ofRfc3339 {p : Precision} {t' : Timestamp} (h : ofRfc3339 (t.rfc3339 p) = .ok t') :
    0 ≤ t.date.year ∧ t.date.year ≤ 9999 := by
  by_contra hy
  have hs : isDigit (if t.date.year < 0 then '-' else '+') = false := by
    split <;> decide
  simp only [rfc3339, rfc3339Chars, Date.text, Date.yearText, if_neg hy, List.cons_append] at h
  obtain ⟨e, he⟩ := ofRfc3339_sign hs _
  rw [he] at h
  cases h

/-- **Texts of timestamps**: a timestamp comes back from its text just if it is writable. So to ask of the times of
events that are stored as texts to be writable is to ask no more than has to be. -/
theorem ofRfc3339_rfc3339_iff {p : Precision} (hp : p.Holds t.clock.nanos) :
    ofRfc3339 (t.rfc3339 p) = .ok t ↔ t.Writable :=
  ⟨writable_of_ofRfc3339, fun h => ofRfc3339_rfc3339 h hp⟩

end Timestamp

end Chronicle
