import Chronicle.Time.Date

/-!
# Days and dates

Every number of days has a date of the calendar (`isValid_ofDays`), and the date has the number of days back
(`toDays_ofDays`). Both come from the same split of a number of days into cycles of 400, 100, 4 and 1 years that start
in March (`MarchDay`).
-/

namespace Chronicle.Date

/-- A day by the cycles before it and the days of its year before it, counted from March. -/
structure MarchDay where
  cycle : Int
  century : Int
  quad : Int
  single : Int
  day : Int

namespace MarchDay

/-- The ranges of the parts: only the last year of a cycle of four has a 366th day, and only the last century of a
cycle of 400 years ends in such a year. -/
structure Valid (m : MarchDay) : Prop where
  century_nonneg : 0 ≤ m.century
  century_le : m.century ≤ 3
  quad_nonneg : 0 ≤ m.quad
  quad_le : m.quad ≤ 24
  single_nonneg : 0 ≤ m.single
  single_le : m.single ≤ 3
  day_nonneg : 0 ≤ m.day
  day_le : m.day ≤ 365
  leap_single : m.day = 365 → m.single = 3
  leap_century : m.day = 365 → m.quad = 24 → m.century = 3

/-- The days from 0000-03-01. -/
def count (m : MarchDay) : Int :=
  m.cycle * 146097 + m.century * 36524 + m.quad * 1461 + m.single * 365 + m.day

/-- The year in which the day's year of March starts. -/
def year (m : MarchDay) : Int := 400 * m.cycle + 100 * m.century + 4 * m.quad + m.single

/-- The month, counted from March. -/
def month (m : MarchDay) : Int := (5 * m.day + 2) / 153

/-- The day of the month. -/
def dayOfMonth (m : MarchDay) : Int := m.day - (153 * m.month + 2) / 5 + 1

/-- The date of the day. -/
def date (m : MarchDay) : Date :=
  if m.month < 10 then ⟨m.year, (m.month + 3).toNat, m.dayOfMonth.toNat⟩
  else ⟨m.year + 1, (m.month - 9).toNat, m.dayOfMonth.toNat⟩

/-- The split of a number of days. -/
def ofCount (n : Int) : MarchDay :=
  let century := min 3 (n % 146097 / 36524)
  let rest := n % 146097 - century * 36524
  let single := min 3 (rest % 1461 / 365)
  ⟨n / 146097, century, rest / 1461, single, rest % 1461 - single * 365⟩

theorem valid_ofCount (n : Int) : (ofCount n).Valid := by
  have h0 : 0 ≤ n % 146097 := Int.emod_nonneg _ (by decide)
  have h1 : n % 146097 < 146097 := Int.emod_lt_of_pos _ (by decide)
  generalize hd : n % 146097 = d at h0 h1
  constructor <;> simp only [ofCount, hd] <;> omega

theorem count_ofCount (n : Int) : (ofCount n).count = n := by
  simp only [count, ofCount]
  omega

variable {m : MarchDay}

theorem Valid.month_nonneg (h : m.Valid) : 0 ≤ m.month := by
  have := h.day_nonneg
  unfold month
  omega

theorem Valid.month_le (h : m.Valid) : m.month ≤ 11 := by
  have := h.day_le
  unfold month
  omega

/-- The months from March to February, each with the first day and the length of it. -/
theorem Valid.dayOfMonth_range (h : m.Valid) :
    1 ≤ m.dayOfMonth ∧ m.dayOfMonth ≤ 31 ∧
      (m.month = 1 ∨ m.month = 3 ∨ m.month = 6 ∨ m.month = 8 → m.dayOfMonth ≤ 30) ∧
      (m.month = 11 → m.dayOfMonth ≤ 29 ∧ (m.dayOfMonth = 29 → m.day = 365)) := by
  have h0 := h.day_nonneg
  have h1 := h.day_le
  unfold dayOfMonth month
  omega

/-- The year after one whose year of March has 366 days is a leap year. -/
theorem Valid.isLeapYear (h : m.Valid) (hd : m.day = 365) : isLeapYear (m.year + 1) = true := by
  obtain ⟨_, hc, hq0, hq, _, _, _, _, hs, hcq⟩ := h
  have hs := hs hd
  have hcq := hcq hd
  have h4 : (m.year + 1) % 4 = 0 := by unfold year; omega
  have h100 : (m.year + 1) % 100 ≠ 0 ∨ (m.year + 1) % 400 = 0 := by unfold year; omega
  simpa [Date.isLeapYear, h4] using h100

theorem Valid.toDays_date (h : m.Valid) : m.date.toDays = m.count - epoch := by
  have hm0 := h.month_nonneg
  have hm1 := h.month_le
  obtain ⟨hd, -⟩ := h.dayOfMonth_range
  have hy : m.year / 400 = m.cycle ∧ m.year % 400 = 100 * m.century + 4 * m.quad + m.single := by
    obtain ⟨_, _, _, _, _, _, _, _, _, _⟩ := h
    unfold year
    omega
  have hp : (100 * m.century + 4 * m.quad + m.single) / 100 = m.century ∧
      (100 * m.century + 4 * m.quad + m.single) % 100 / 4 = m.quad ∧
      (100 * m.century + 4 * m.quad + m.single) % 4 = m.single := by
    obtain ⟨_, _, _, _, _, _, _, _, _, _⟩ := h
    omega
  have hday : ((m.dayOfMonth.toNat : Nat) : Int) - 1 = m.day - (153 * m.month + 2) / 5 := by
    rw [Int.toNat_of_nonneg (by omega)]
    unfold dayOfMonth
    omega
  unfold date toDays count
  split
  · have hm : ¬(m.month + 3).toNat ≤ 2 := by omega
    have hm' : (((m.month + 3).toNat : Nat) : Int) - 3 = m.month := by omega
    dsimp only
    rw [if_neg hm, if_neg hm, hm', hday, hy.1, hy.2, hp.1, hp.2.1, hp.2.2]
    omega
  · have hm : (m.month - 9).toNat ≤ 2 := by omega
    have hm' : (((m.month - 9).toNat : Nat) : Int) + 9 = m.month := by omega
    dsimp only
    rw [if_pos hm, if_pos hm, hm', hday, Int.add_sub_cancel, hy.1, hy.2, hp.1, hp.2.1, hp.2.2]
    omega

theorem Valid.isValid_date (h : m.Valid) : m.date.isValid = true := by
  have hm0 := h.month_nonneg
  have hm1 := h.month_le
  obtain ⟨hd1, hd31, hd30, hfeb⟩ := h.dayOfMonth_range
  unfold date
  split
  · have hlen : m.dayOfMonth.toNat ≤ daysInMonth m.year (m.month + 3).toNat := by
      unfold daysInMonth
      rw [if_neg (by omega)]
      split <;> omega
    simp only [isValid, Bool.and_eq_true, decide_eq_true_eq]
    omega
  · have hlen : m.dayOfMonth.toNat ≤ daysInMonth (m.year + 1) (m.month - 9).toNat := by
      unfold daysInMonth
      by_cases hf : (m.month - 9).toNat = 2
      · rw [if_pos hf]
        obtain ⟨h29, h365⟩ := hfeb (by omega)
        split
        · omega
        · rename_i hl
          have : m.dayOfMonth ≠ 29 := fun he => hl (h.isLeapYear (h365 he))
          omega
      · rw [if_neg hf, if_neg (by omega)]
        omega
    simp only [isValid, Bool.and_eq_true, decide_eq_true_eq]
    omega

end MarchDay

theorem ofDays_eq (days : Int) : ofDays days = (MarchDay.ofCount (days + epoch)).date := rfl

/-- The date of a number of days has that number of days. -/
theorem toDays_ofDays (days : Int) : (ofDays days).toDays = days := by
  rw [ofDays_eq, (MarchDay.valid_ofCount _).toDays_date, MarchDay.count_ofCount]
  omega

/-- The date of a number of days is one of the calendar. -/
theorem isValid_ofDays (days : Int) : (ofDays days).isValid = true := by
  rw [ofDays_eq]
  exact (MarchDay.valid_ofCount _).isValid_date

theorem daysInMonth_le (year : Int) (month : Nat) : daysInMonth year month ≤ 31 := by
  unfold daysInMonth
  split
  · split <;> omega
  · split <;> omega

/-- Roughly the days of the years from 0 to 9999. -/
theorem toDays_range {d : Date} (hv : d.isValid = true) (h0 : 0 ≤ d.year) (h9 : d.year ≤ 9999) :
    -720000 ≤ d.toDays ∧ d.toDays ≤ 2933000 := by
  simp only [isValid, Bool.and_eq_true, decide_eq_true_eq] at hv
  have hm := daysInMonth_le d.year d.month
  have hy : -1 ≤ (if d.month ≤ 2 then d.year - 1 else d.year) ∧
      (if d.month ≤ 2 then d.year - 1 else d.year) ≤ 9999 := by
    split <;> omega
  have hmonth : 0 ≤ (if d.month ≤ 2 then (d.month : Int) + 9 else (d.month : Int) - 3) ∧
      (if d.month ≤ 2 then (d.month : Int) + 9 else (d.month : Int) - 3) ≤ 11 := by
    split <;> omega
  simp only [toDays, epoch]
  generalize (if d.month ≤ 2 then d.year - 1 else d.year) = year at hy ⊢
  generalize (if d.month ≤ 2 then (d.month : Int) + 9 else (d.month : Int) - 3) = month at hmonth ⊢
  omega

end Chronicle.Date
