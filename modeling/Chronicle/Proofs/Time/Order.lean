import Chronicle.Proofs.Text.Digits
import Chronicle.Proofs.Time.Rfc3339
import Mathlib.Data.String.Basic
import Mathlib.Tactic.IntervalCases

/-!
# Texts in order of time

A year of March is as long as the calendar says (`Date.startOfYear_succ`), so that days are counted in the order of
dates (`Date.toDays_lt_iff`), and of two clocks with one offset the later instant has the later date or the later time
of day (`before_iff`). As RFC 3339 writes each of these numbers with a fixed width, the highest first, texts of one
offset are in the order of their instants (`rfc3339_lt_iff`), equally long (`length_rfc3339_eq`), and different for
different instants (`rfc3339_inj`).
-/

namespace Chronicle

/-! ## Dates -/

namespace Date

/-- One date is before another one. -/
def Before (a b : Date) : Prop :=
  a.year < b.year ∨ a.year = b.year ∧ (a.month < b.month ∨ a.month = b.month ∧ a.day < b.day)

/-- The days from 0000-03-01 to the 1st of March of a year. -/
def startOfYear (year : Int) : Int :=
  year / 400 * 146097 + year % 400 / 100 * 36524 + year % 400 % 100 / 4 * 1461 + year % 400 % 4 * 365

/-- The year in which the date's year of March starts. -/
def marchYear (d : Date) : Int := if d.month ≤ 2 then d.year - 1 else d.year

/-- The month, counted from March. -/
def marchMonth (d : Date) : Int := if d.month ≤ 2 then d.month + 9 else (d.month : Int) - 3

/-- The days of the year of March before the date. -/
def dayOfYear (d : Date) : Int := (153 * d.marchMonth + 2) / 5 + (d.day - 1)

theorem toDays_eq (d : Date) : d.toDays = startOfYear d.marchYear + d.dayOfYear - epoch := by
  simp only [toDays, startOfYear, marchYear, marchMonth, dayOfYear]
  omega

/-- The leap days of the years before are counted at once. -/
theorem startOfYear_eq (year : Int) : startOfYear year = 365 * year + year / 4 - year / 100 + year / 400 := by
  have h100 : year / 100 = 4 * (year / 400) + year % 400 / 100 := by omega
  have h4 : year / 4 = 100 * (year / 400) + 25 * (year % 400 / 100) + year % 400 % 100 / 4 := by omega
  rw [startOfYear, h100, h4]
  omega

/-- A year from March to February has a leap day if the calendar has one in its February. -/
theorem startOfYear_succ (year : Int) :
    startOfYear (year + 1) = startOfYear year + if isLeapYear (year + 1) then 366 else 365 := by
  have hleap : isLeapYear (year + 1) = true ↔
      (year + 1) % 4 = 0 ∧ ((year + 1) % 100 ≠ 0 ∨ (year + 1) % 400 = 0) := by
    simp [isLeapYear]
  have h4 : (year + 1) / 4 = year / 4 + if (year + 1) % 4 = 0 then 1 else 0 := by split <;> omega
  have h100 : (year + 1) / 100 = year / 100 + if (year + 1) % 100 = 0 then 1 else 0 := by split <;> omega
  have h400 : (year + 1) / 400 = year / 400 + if (year + 1) % 400 = 0 then 1 else 0 := by split <;> omega
  simp only [startOfYear_eq, h4, h100, h400, hleap]
  split <;> split <;> split <;> split <;> omega

theorem startOfYear_le {year year' : Int} (h : year ≤ year') : startOfYear year ≤ startOfYear year' := by
  obtain ⟨n, rfl⟩ := Int.le.dest h
  clear h
  induction n with
  | zero => simp
  | succ n ih =>
    have hsucc := startOfYear_succ (year + n)
    rw [Int.natCast_succ, ← Int.add_assoc, hsucc]
    split <;> omega

variable {a b : Date}

/-- The year of March ends after the date. -/
theorem dayOfYear_range (hv : a.isValid = true) :
    0 ≤ a.dayOfYear ∧ startOfYear a.marchYear + a.dayOfYear < startOfYear (a.marchYear + 1) := by
  simp only [isValid, Bool.and_eq_true, decide_eq_true_eq] at hv
  obtain ⟨⟨⟨hm1, hm12⟩, hd1⟩, hd⟩ := hv
  rw [startOfYear_succ]
  have hday := daysInMonth_le a.year a.month
  by_cases hfeb : a.month = 2
  · -- February is the last month, and its length is that of the year
    have hy : a.marchYear + 1 = a.year := by simp [marchYear, hfeb]
    rw [hy]
    simp only [daysInMonth, hfeb, ↓reduceIte] at hd
    simp only [dayOfYear, marchMonth, hfeb, le_refl, ↓reduceIte]
    split at hd
    case isTrue hleap =>
      rw [if_pos hleap]
      omega
    case isFalse hleap =>
      rw [if_neg hleap]
      omega
  · simp only [dayOfYear, marchMonth]
    split <;> split <;> omega

/-- The first days of the months of a year of March are as far apart as the months are long. -/
theorem daysInMonth_eq (h1 : 1 ≤ a.month) (h12 : a.month ≤ 12) (hfeb : a.month ≠ 2) :
    (daysInMonth a.year a.month : Int) = (153 * (a.marchMonth + 1) + 2) / 5 - (153 * a.marchMonth + 2) / 5 := by
  obtain ⟨year, month, day⟩ := a
  dsimp only at h1 h12 hfeb
  interval_cases month <;> simp_all [daysInMonth, marchMonth]

/-- The earlier of two dates of the calendar has fewer days before it. -/
theorem Before.toDays_lt (ha : a.isValid = true) (hb : b.isValid = true) (h : a.Before b) : a.toDays < b.toDays := by
  have hdays := (dayOfYear_range ha).2
  have hdays' := (dayOfYear_range hb).1
  rw [toDays_eq, toDays_eq]
  have hyears : a.marchYear < b.marchYear ∨ a.marchYear = b.marchYear ∧ a.dayOfYear < b.dayOfYear := by
    simp only [isValid, Bool.and_eq_true, decide_eq_true_eq] at ha hb
    obtain ⟨⟨⟨hm1, hm12⟩, hd1⟩, hd⟩ := ha
    obtain ⟨⟨⟨hn1, hn12⟩, he1⟩, he⟩ := hb
    -- only a month that is not the last of its year of March has a later month behind it
    have hlength := daysInMonth_eq hm1 hm12
    simp only [marchYear, marchMonth, dayOfYear] at hlength ⊢
    unfold Before at h
    split at hlength <;> split <;> omega
  rcases hyears with hlt | ⟨heq, hlt⟩
  · have hstart := startOfYear_le (show a.marchYear + 1 ≤ b.marchYear from hlt)
    omega
  · rw [heq]
    omega

theorem before_trichotomy (a b : Date) : a.Before b ∨ a = b ∨ b.Before a := by
  obtain ⟨y, m, d⟩ := a
  obtain ⟨y', m', d'⟩ := b
  simp only [Before, mk.injEq]
  omega

theorem toDays_lt_iff (ha : a.isValid = true) (hb : b.isValid = true) : a.toDays < b.toDays ↔ a.Before b := by
  refine ⟨fun h => ?_, fun h => h.toDays_lt ha hb⟩
  rcases before_trichotomy a b with hab | rfl | hba
  · exact hab
  · exact absurd h (Int.lt_irrefl _)
  · exact absurd h (Int.lt_asymm (hba.toDays_lt hb ha))

/-- Days are in the order of their dates. -/
theorem before_ofDays_iff {m n : Int} : (ofDays m).Before (ofDays n) ↔ m < n := by
  rw [← toDays_lt_iff (isValid_ofDays m) (isValid_ofDays n), toDays_ofDays, toDays_ofDays]

theorem ofDays_inj {m n : Int} : ofDays m = ofDays n ↔ m = n := by
  refine ⟨fun h => ?_, fun h => h ▸ rfl⟩
  rw [← toDays_ofDays m, h, toDays_ofDays]

/-- Texts of dates of four-digit years decide the order before what is behind them. -/
theorem text_append_lt_iff (ha : a.isValid = true) (hb : b.isValid = true) (ha0 : 0 ≤ a.year) (ha9 : a.year ≤ 9999)
    (hb0 : 0 ≤ b.year) (hb9 : b.year ≤ 9999) {x y : List Char} :
    a.text ++ x < b.text ++ y ↔ a.Before b ∨ a = b ∧ x < y := by
  obtain ⟨hm, hd⟩ := Timestamp.month_day_lt ha
  obtain ⟨hn, he⟩ := Timestamp.month_day_lt hb
  have hy : a.year.natAbs < 10 ^ 4 := by omega
  have hz : b.year.natAbs < 10 ^ 4 := by omega
  have hlt : a.year.natAbs < b.year.natAbs ↔ a.year < b.year := by omega
  have heq : a.year.natAbs = b.year.natAbs ↔ a.year = b.year := by omega
  simp only [text, yearText, ha0, ha9, hb0, hb9, and_self, ↓reduceIte, List.append_assoc, List.cons_append,
    Text.padded_append_lt_iff (show 0 < 4 by decide) hy hz, Text.padded_append_lt_iff (show 0 < 2 by decide) hm hn,
    Text.padded_append_lt_iff (show 0 < 2 by decide) hd he, Text.cons_lt_cons_self_iff, hlt, heq]
  obtain ⟨y, m, d⟩ := a
  obtain ⟨y', m', d'⟩ := b
  simp only [Before, mk.injEq]
  tauto

end Date

namespace Timestamp

/-! ## Times of day -/

namespace Clock

/-- One time of day is before another one. -/
def Before (a b : Clock) : Prop :=
  a.hour < b.hour ∨ a.hour = b.hour ∧ (a.minute < b.minute ∨ a.minute = b.minute ∧
    (a.second < b.second ∨ a.second = b.second ∧ a.nanos < b.nanos))

/-- A time of day with room for each number in its text. -/
structure Fits (c : Clock) : Prop where
  hour : c.hour < 100
  minute : c.minute < 100
  second : c.second < 100
  nanos : c.nanos < 1000000000

end Clock

/-- Texts of a fraction decide the order before what is behind them, if they have all digits of it. -/
theorem Precision.text_append_lt_iff {p : Precision} {m n : Nat} (hm : m < 1000000000) (hn : n < 1000000000)
    (hpm : p.Holds m) (hpn : p.Holds n) {x y : List Char} :
    p.text m ++ x < p.text n ++ y ↔ m < n ∨ m = n ∧ x < y := by
  cases p with
  | millis =>
    have hlt : m / 1000000 < n / 1000000 ↔ m < n := by simp only [Holds] at hpm hpn; omega
    have heq : m / 1000000 = n / 1000000 ↔ m = n := by simp only [Holds] at hpm hpn; omega
    have hm : m / 1000000 < 10 ^ 3 := by omega
    have hn : n / 1000000 < 10 ^ 3 := by omega
    rw [text, text, List.cons_append, List.cons_append, Text.cons_lt_cons_self_iff,
      Text.padded_append_lt_iff (by decide) hm hn, hlt, heq]
  | nanos =>
    rw [text, text, List.cons_append, List.cons_append, Text.cons_lt_cons_self_iff,
      Text.padded_append_lt_iff (by decide) hm hn]

theorem Clock.text_append_lt_iff {a b : Clock} (ha : a.Fits) (hb : b.Fits) {p : Precision} (hpa : p.Holds a.nanos)
    (hpb : p.Holds b.nanos) {x y : List Char} :
    a.text ++ p.text a.nanos ++ x < b.text ++ p.text b.nanos ++ y ↔ a.Before b ∨ a = b ∧ x < y := by
  simp only [text, List.append_assoc, List.cons_append, Text.cons_lt_cons_self_iff,
    Text.padded_append_lt_iff (show 0 < 2 by decide) ha.hour hb.hour,
    Text.padded_append_lt_iff (show 0 < 2 by decide) ha.minute hb.minute,
    Text.padded_append_lt_iff (show 0 < 2 by decide) ha.second hb.second,
    Precision.text_append_lt_iff ha.nanos hb.nanos hpa hpb]
  obtain ⟨h, m, s, n⟩ := a
  obtain ⟨h', m', s', n'⟩ := b
  simp only [Before, mk.injEq]
  tauto

/-! ## Instants -/

/-- One instant is before another one. -/
def Before (a b : Timestamp) : Prop := a.secs < b.secs ∨ a.secs = b.secs ∧ a.nanos < b.nanos

variable {a b : Timestamp} {p : Precision}

theorem clock_eq (t : Timestamp) : t.clock = ⟨t.secondOfDay / 3600, t.secondOfDay / 60 % 60,
    t.secondOfDay % 60 + t.nanos / 1000000000, t.nanos % 1000000000⟩ := rfl

theorem clock_fits (t : Timestamp) : t.clock.Fits := by
  have hn := t.secondOfDay_lt
  have hlt := t.nanos_lt
  rw [clock_eq]
  constructor <;> dsimp only <;> omega

/-- A leap second is the last second of a minute of the clock. -/
theorem Writable.leap_secondOfDay (hw : a.Writable) (h : 1000000000 ≤ a.nanos) : a.secondOfDay % 60 = 59 := by
  have := hw.leap h
  unfold secondOfDay
  omega

/-- The numbers that a clock shows are in the order of the seconds and nanoseconds that it counts. -/
theorem clock_before_iff (ha : a.Writable) (hb : b.Writable) :
    a.clock.Before b.clock ↔ a.secondOfDay < b.secondOfDay ∨ a.secondOfDay = b.secondOfDay ∧ a.nanos < b.nanos := by
  have hla := ha.leap_secondOfDay
  have hlb := hb.leap_secondOfDay
  have hna := a.nanos_lt
  have hnb := b.nanos_lt
  simp only [clock_eq, Clock.Before]
  omega

/-- Of two clocks with one offset the later instant has the later date or the later time of day. -/
theorem before_iff (ha : a.Writable) (hb : b.Writable) (ho : a.offset = b.offset) :
    a.Before b ↔ a.date.Before b.date ∨ a.date = b.date ∧ a.clock.Before b.clock := by
  rw [clock_before_iff ha hb, date, date, Date.before_ofDays_iff, Date.ofDays_inj]
  simp only [Before, secondOfDay, localSecs, ho]
  omega

/-! ## Texts -/

/-- **Texts in order**: texts of one offset are in the order of their instants. -/
theorem rfc3339_lt_iff (ha : a.Writable) (hb : b.Writable) (ho : a.offset = b.offset) (hpa : p.Holds a.clock.nanos)
    (hpb : p.Holds b.clock.nanos) : a.rfc3339 p < b.rfc3339 p ↔ a.Before b := by
  have hlt : a.rfc3339 p < b.rfc3339 p ↔ a.rfc3339Chars p < b.rfc3339Chars p := by
    rw [rfc3339, rfc3339, String.lt_iff_toList_lt, String.toList_ofList, String.toList_ofList]
  have hchars : ∀ t : Timestamp, t.rfc3339Chars p =
      t.date.text ++ 'T' :: (t.clock.text ++ p.text t.clock.nanos ++ zoneText t.offset) :=
    fun t => by simp [rfc3339Chars]
  rw [hlt, hchars, hchars, ho, Date.text_append_lt_iff a.date_isValid b.date_isValid ha.year_nonneg ha.year_le
    hb.year_nonneg hb.year_le, Text.cons_lt_cons_self_iff, Clock.text_append_lt_iff a.clock_fits b.clock_fits hpa hpb,
    before_iff ha hb ho]
  have hirrefl : ¬zoneText b.offset < zoneText b.offset := List.lt_irrefl _
  simp only [hirrefl, and_false, or_false]

/-- Different timestamps have different texts. -/
theorem rfc3339_inj (ha : a.Writable) (hb : b.Writable) (hpa : p.Holds a.clock.nanos) (hpb : p.Holds b.clock.nanos) :
    a.rfc3339 p = b.rfc3339 p ↔ a = b := by
  refine ⟨fun h => ?_, fun h => h ▸ rfl⟩
  have hread := ofRfc3339_rfc3339 ha hpa
  rw [h, ofRfc3339_rfc3339 hb hpb] at hread
  exact (Except.ok.inj hread).symm

/-- How many characters the fraction of a second is written with. -/
def Precision.width : Precision → Nat
  | .millis => 4
  | .nanos => 10

theorem Precision.length_text {n : Nat} (hn : n < 1000000000) : (p.text n).length = p.width := by
  cases p with
  | millis => rw [text, List.length_cons, Text.length_padded (by decide) (show _ < 1000 by omega)]; rfl
  | nanos => rw [text, List.length_cons, Text.length_padded (by decide) hn]; rfl

theorem Clock.length_text {c : Clock} (hc : c.Fits) : c.text.length = 8 := by
  simp only [text, List.length_append, List.length_cons, Text.length_padded (show 0 < 2 by decide) hc.hour,
    Text.length_padded (show 0 < 2 by decide) hc.minute, Text.length_padded (show 0 < 2 by decide) hc.second]

/-- The length of a text depends on the offset alone. -/
theorem length_rfc3339_eq (ha : a.Writable) (p : Precision) :
    (a.rfc3339 p).length = 19 + p.width + (zoneText a.offset).length := by
  obtain ⟨hm, hd⟩ := month_day_lt a.date_isValid
  have hy : a.date.year.natAbs < 10 ^ 4 := by
    have := ha.year_nonneg
    have := ha.year_le
    omega
  have hdate : a.date.text.length = 10 := by
    simp only [Date.text, Date.yearText, ha.year_nonneg, ha.year_le, and_self, ↓reduceIte, List.length_append,
      List.length_cons, Text.length_padded (show 0 < 4 by decide) hy, Text.length_padded (show 0 < 2 by decide) hm,
      Text.length_padded (show 0 < 2 by decide) hd]
  rw [rfc3339, String.length_ofList, rfc3339Chars]
  simp only [List.length_append, List.length_cons, hdate, Clock.length_text a.clock_fits,
    Precision.length_text a.clock_fits.nanos]

end Timestamp

end Chronicle
