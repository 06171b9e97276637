import Mathlib.Tactic.IntervalCases
import PathLock.Time.Calendar

/-!
# Dates and day numbers

A day has a place in its era: a year of the 400, which start in March, a month of that year and a day
of that month. Dates and day numbers both write down such a place (`Place.date`, `Place.number`), and
every date that the calendar has and every number comes from one. So each can be turned into the
other and back: `Calendar.ofDayNumber_dayNumber` and `Calendar.dayNumber_ofDayNumber`.
-/

namespace PathLock.Calendar

/-! ## The years of an era -/

/-- The number of days of an era before one of its years. -/
def daysBeforeYear (year : ℕ) : ℕ := 365 * year + year / 4 - year / 100

/-- A year of an era has this day, both counted from 0. The leap day is its last one. -/
def HasDay (year day : ℕ) : Prop :=
  day < 365 ∨ day = 365 ∧ year % 4 = 3 ∧ (year % 100 ≠ 99 ∨ year = 399)

variable {year month day c q s dayOfEra : ℕ}

theorem daysBeforeYear_eq (hq : q < 25) (hs : s < 4) :
    daysBeforeYear (100 * c + 4 * q + s) = 36524 * c + 1461 * q + 365 * s := by
  unfold daysBeforeYear
  omega

theorem hasDay_iff (hc : c < 4) (hq : q < 25) (hs : s < 4) :
    HasDay (100 * c + 4 * q + s) day ↔ day < 365 ∨ day = 365 ∧ s = 3 ∧ (q < 24 ∨ c = 3) := by
  unfold HasDay
  omega

theorem daysBeforeYear_add_le (h : year < s) : daysBeforeYear year + 365 ≤ daysBeforeYear s := by
  have hcenturies : ∀ y, y / 100 = y / 4 / 25 := fun y => (Nat.div_div_eq_div_mul y 4 25).symm
  have hfours : year / 4 ≤ s / 4 := Nat.div_le_div_right h.le
  unfold daysBeforeYear
  rw [hcenturies, hcenturies]
  generalize year / 4 = m at hfours
  generalize s / 4 = n at hfours
  omega

/-- The year is what is left of the day of the era without the leap days. -/
theorem yearOfEra_eq (hyear : year < 400) (hday : HasDay year day)
    (hera : dayOfEra = daysBeforeYear year + day) :
    (dayOfEra - dayOfEra / 1460 + dayOfEra / 36524 - dayOfEra / 146096) / 365 = year := by
  obtain ⟨c, q, s, hc, hq, hs, rfl⟩ :
      ∃ c q s, c < 4 ∧ q < 25 ∧ s < 4 ∧ year = 100 * c + 4 * q + s :=
    ⟨year / 100, year % 100 / 4, year % 4, by omega, by omega, by omega, by omega⟩
  rw [hasDay_iff hc hq hs] at hday
  rw [daysBeforeYear_eq hq hs] at hera
  -- The last day of the era would belong to a fifth century, and is taken back.
  have hcenturies : dayOfEra / 36524 = c + dayOfEra / 146096 := by
    have hlast : dayOfEra / 146096 = (1461 * q + 365 * s + day) / 36524 := by
      by_cases hlt : 1461 * q + 365 * s + day < 36524
      · rw [Nat.div_eq_of_lt hlt, Nat.div_eq_of_lt (by omega)]
      · have hend : dayOfEra = 146096 ∧ 1461 * q + 365 * s + day = 36524 := by omega
        rw [hend.1, hend.2]
    rw [hlast, ← Nat.mul_add_div (by decide)]
    congr 1
    omega
  -- A leap day may be taken off too early, but not on the first day of a year.
  have hleaps : ∃ early, dayOfEra / 1460 = 25 * c + q + early ∧ early ≤ day ∧ day - early < 365 := by
    refine ⟨(24 * c + q + 365 * s + day) / 1460, ?_, by omega, by omega⟩
    rw [← Nat.mul_add_div (by decide)]
    congr 1
    omega
  obtain ⟨early, hleaps, hle, hlt⟩ := hleaps
  have hdays : dayOfEra - dayOfEra / 1460 + dayOfEra / 36524 - dayOfEra / 146096 =
      365 * (100 * c + 4 * q + s) + (day - early) := by
    rw [hleaps, hcenturies]
    omega
  rw [hdays, Nat.mul_add_div (by decide), Nat.div_eq_of_lt hlt, Nat.add_zero]

theorem exists_yearOfEra (h : dayOfEra < 146097) :
    ∃ year day, year < 400 ∧ HasDay year day ∧ dayOfEra = daysBeforeYear year + day := by
  obtain ⟨c, r, hc, hr, rfl⟩ : ∃ c r, c < 4 ∧ (r < 36524 ∨ c = 3 ∧ r = 36524) ∧
      dayOfEra = 36524 * c + r :=
    ⟨min (dayOfEra / 36524) 3, dayOfEra - 36524 * min (dayOfEra / 36524) 3, by omega, by omega,
      by omega⟩
  obtain ⟨q, t, hq, ht, rfl⟩ : ∃ q t, q < 25 ∧ t < 1461 ∧ r = 1461 * q + t :=
    ⟨r / 1461, r % 1461, by omega, by omega, by omega⟩
  obtain ⟨s, day, hs, hday, rfl⟩ : ∃ s day, s < 4 ∧ (day < 365 ∨ day = 365 ∧ s = 3) ∧
      t = 365 * s + day :=
    ⟨min (t / 365) 3, t - 365 * min (t / 365) 3, by omega, by omega, by omega⟩
  refine ⟨100 * c + 4 * q + s, day, by omega, (hasDay_iff hc hq hs).2 (by omega), ?_⟩
  rw [daysBeforeYear_eq hq hs]
  omega

theorem dayOfEra_lt (hyear : year < 400) (hday : HasDay year day) :
    daysBeforeYear year + day < 146097 := by
  unfold HasDay at hday
  unfold daysBeforeYear
  omega

/-! ## The months of a year -/

theorem monthOfYear_eq (hday : daysBeforeMonth month + day < daysBeforeMonth (month + 1)) :
    (5 * (daysBeforeMonth month + day) + 2) / 153 = month := by
  unfold daysBeforeMonth at hday ⊢
  omega

theorem exists_monthOfYear {dayOfYear : ℕ} (h : dayOfYear < 366) :
    ∃ month day, month < 12 ∧ daysBeforeMonth month + day < daysBeforeMonth (month + 1) ∧
      dayOfYear = daysBeforeMonth month + day := by
  unfold daysBeforeMonth
  exact ⟨(5 * dayOfYear + 2) / 153, dayOfYear - (153 * ((5 * dayOfYear + 2) / 153) + 2) / 5,
    by omega, by omega, by omega⟩

/-! ## Dates that the calendar has -/

/-- The calendar has the date, if its year is supported. -/
structure Date.IsDay (d : Date) : Prop where
  pos : 1 ≤ d.day
  le : d.day ≤ daysInMonth d.year d.month

theorem Date.isValid_iff {d : Date} :
    d.isValid = true ↔ (firstYear ≤ d.year ∧ d.year ≤ lastYear) ∧ d.IsDay := by
  unfold isValid
  simp only [Bool.and_eq_true, decide_eq_true_eq]
  exact ⟨fun ⟨⟨hyear, hpos⟩, hle⟩ => ⟨hyear, hpos, hle⟩, fun ⟨hyear, h⟩ => ⟨⟨hyear, h.pos⟩, h.le⟩⟩

theorem daysInMonth_le (year : ℤ) (month : ℕ) : daysInMonth year month ≤ 31 := by
  unfold daysInMonth
  split_ifs <;> decide

theorem Date.IsDay.isMonth {d : Date} (h : d.IsDay) : 1 ≤ d.month ∧ d.month ≤ 12 := by
  by_contra hnone
  have hempty : daysInMonth d.year d.month = 0 := by
    have h : d.month ∉ [1, 3, 5, 7, 8, 10, 12] ∧ d.month ∉ [4, 6, 9, 11] ∧ d.month ≠ 2 := by
      refine ⟨?_, ?_, ?_⟩ <;> simp <;> omega
    unfold daysInMonth
    rw [if_neg h.1, if_neg h.2.1, if_neg h.2.2]
  have hle := h.le
  have hpos := h.pos
  omega

/-! ## Places -/

/-- The place of a day: its era, and its year, month and day from 0. -/
structure Place where
  era : ℤ
  year : ℕ
  month : ℕ
  day : ℕ
  year_lt : year < 400
  month_lt : month < 12
  day_lt : daysBeforeMonth month + day < daysBeforeMonth (month + 1)
  hasDay : HasDay year (daysBeforeMonth month + day)

namespace Place

/-- The date of a place. January and February belong to the next year. -/
def date (p : Place) : Date where
  year := p.era * 400 + p.year + if p.month < 10 then 0 else 1
  month := if p.month < 10 then p.month + 3 else p.month - 9
  day := p.day + 1

/-- The day number of a place. -/
def number (p : Place) : ℤ :=
  p.era * 146097 + (daysBeforeYear p.year + (daysBeforeMonth p.month + p.day) : ℕ) - 719468

theorem dayNumber_date (p : Place) : p.date.dayNumber = p.number := by
  obtain ⟨era, year, month, day, hyear, hmonth, -, -⟩ := p
  unfold Date.dayNumber number date daysBeforeYear
  dsimp only
  by_cases h : month < 10
  · simp only [if_pos h]
    have hmarch : ¬ month + 3 ≤ 2 := by omega
    simp only [if_neg hmarch, Nat.add_sub_cancel]
    omega
  · simp only [if_neg h]
    have hmarch : month - 9 ≤ 2 := by omega
    have hmonth : month - 9 + 9 = month := by omega
    simp only [if_pos hmarch, hmonth]
    omega

theorem ofDayNumber_number (p : Place) : ofDayNumber p.number = p.date := by
  obtain ⟨era, year, month, day, hyear, hmonth, hday, hhas⟩ := p
  have hlt := dayOfEra_lt hyear hhas
  unfold ofDayNumber number date
  generalize hera : daysBeforeYear year + (daysBeforeMonth month + day) = dayOfEra at hlt
  have hquotient : (era * 146097 + (dayOfEra : ℤ) - 719468 + 719468) / 146097 = era := by omega
  have hrest : ((era * 146097 + (dayOfEra : ℤ) - 719468 + 719468) % 146097).toNat = dayOfEra := by
    omega
  have hyearOfEra := yearOfEra_eq hyear hhas hera.symm
  have hdayOfYear : dayOfEra - (365 * year + year / 4 - year / 100) =
      daysBeforeMonth month + day := by
    rw [← hera]
    exact Nat.add_sub_cancel_left ..
  have hnewYear : (if (if month < 10 then month + 3 else month - 9) ≤ 2 then (1 : ℤ) else 0) =
      if month < 10 then 0 else 1 := by
    split_ifs <;> omega
  dsimp only
  rw [hquotient, hrest, hyearOfEra, hdayOfYear, monthOfYear_eq hday, hnewYear,
    Nat.add_sub_cancel_left]

theorem exists_number (n : ℤ) : ∃ p : Place, p.number = n := by
  have hera : ((n + 719468) % 146097).toNat < 146097 := by omega
  obtain ⟨year, dayOfYear, hyear, hhas, hn⟩ := exists_yearOfEra hera
  have hdayOfYear : dayOfYear < 366 := by
    unfold HasDay at hhas
    omega
  obtain ⟨month, day, hmonth, hday, rfl⟩ := exists_monthOfYear hdayOfYear
  refine ⟨⟨(n + 719468) / 146097, year, month, day, hyear, hmonth, hday, hhas⟩, ?_⟩
  unfold number
  dsimp only
  omega

theorem isLeapYear_iff (era : ℤ) (hyear : year < 400) :
    isLeapYear (era * 400 + year + 1) = true ↔ HasDay year 365 := by
  have hfour : (era * 400 + year + 1) % 4 = 0 ↔ year % 4 = 3 := by omega
  have hhundred : (era * 400 + year + 1) % 100 = 0 ↔ year % 100 = 99 := by omega
  have hera : (era * 400 + year + 1) % 400 = 0 ↔ year = 399 := by omega
  unfold isLeapYear HasDay
  simp only [Bool.and_eq_true, Bool.or_eq_true, beq_iff_eq, bne_iff_ne, ne_eq, hfour, hhundred, hera,
    Nat.lt_irrefl, false_or, true_and]

/-- The calendar has the days of the months of the years of an era. -/
theorem le_daysInMonth_iff (era : ℤ) (hyear : year < 400) (hmonth : month < 12) :
    day + 1 ≤ daysInMonth (era * 400 + year + if month < 10 then 0 else 1)
        (if month < 10 then month + 3 else month - 9) ↔
      daysBeforeMonth month + day < daysBeforeMonth (month + 1) ∧
        HasDay year (daysBeforeMonth month + day) := by
  by_cases hfebruary : month = 11
  · subst hfebruary
    have hlength : daysInMonth (era * 400 + year + 1) 2 =
        if isLeapYear (era * 400 + year + 1) then 29 else 28 := rfl
    show day + 1 ≤ daysInMonth (era * 400 + year + 1) 2 ↔ _
    have hleap := isLeapYear_iff era hyear
    rw [hlength]
    unfold HasDay at hleap ⊢
    unfold daysBeforeMonth
    split_ifs with h
    · have hlast := hleap.1 h
      omega
    · have hlast := mt hleap.2 h
      omega
  · have hlength : ∀ y, daysInMonth y (if month < 10 then month + 3 else month - 9) =
        daysBeforeMonth (month + 1) - daysBeforeMonth month := by
      intro y
      have hshort : month < 11 := by omega
      interval_cases month <;> rfl
    have hhas : daysBeforeMonth month + day < daysBeforeMonth (month + 1) →
        HasDay year (daysBeforeMonth month + day) := by
      intro hday
      unfold daysBeforeMonth at hday ⊢
      exact .inl (by omega)
    rw [hlength, and_iff_left_of_imp hhas]
    omega

theorem isDay_date (p : Place) : p.date.IsDay where
  pos := Nat.le_add_left 1 p.day
  le := (le_daysInMonth_iff p.era p.year_lt p.month_lt).2 ⟨p.day_lt, p.hasDay⟩

theorem exists_date {d : Date} (h : d.IsDay) : ∃ p : Place, p.date = d := by
  obtain ⟨year, month, day⟩ := d
  obtain ⟨hpos, hle⟩ := h
  have hmonth : 1 ≤ month ∧ month ≤ 12 := Date.IsDay.isMonth ⟨hpos, hle⟩
  dsimp only at hpos hle
  obtain ⟨k, rfl⟩ : ∃ k, day = k + 1 := ⟨day - 1, by omega⟩
  -- The year that starts in March, of which January and February are the last two months.
  obtain ⟨march, m, hm, hyear, hmarch⟩ : ∃ (march : ℤ) (m : ℕ), m < 12 ∧
      year = march + (if m < 10 then 0 else 1) ∧ month = if m < 10 then m + 3 else m - 9 := by
    by_cases h : month ≤ 2
    · exact ⟨year - 1, month + 9, by omega, by split_ifs <;> omega, by split_ifs <;> omega⟩
    · exact ⟨year, month - 3, by omega, by split_ifs <;> omega, by split_ifs <;> omega⟩
  have hera : march = march / 400 * 400 + (march % 400).toNat := by omega
  have hlt : (march % 400).toNat < 400 := by omega
  rw [hera] at hyear
  rw [hyear, hmarch, le_daysInMonth_iff _ hlt hm] at hle
  refine ⟨⟨march / 400, (march % 400).toNat, m, k, hlt, hm, hle.1, hle.2⟩, ?_⟩
  rw [hyear, hmarch]
  rfl

end Place

/-! ## There and back -/

variable {d : Date} {n : ℤ}

/-- A date that the calendar has is the one of its day number. -/
theorem ofDayNumber_dayNumber (h : d.IsDay) : ofDayNumber d.dayNumber = d := by
  obtain ⟨p, rfl⟩ := Place.exists_date h
  rw [p.dayNumber_date, p.ofDayNumber_number]

/-- Every number is the day number of its date. -/
theorem dayNumber_ofDayNumber (n : ℤ) : (ofDayNumber n).dayNumber = n := by
  obtain ⟨p, rfl⟩ := Place.exists_number n
  rw [p.ofDayNumber_number, p.dayNumber_date]

theorem isDay_ofDayNumber (n : ℤ) : (ofDayNumber n).IsDay := by
  obtain ⟨p, rfl⟩ := Place.exists_number n
  rw [p.ofDayNumber_number]
  exact p.isDay_date

/-- By a day, exactly the years have begun whose first day is not after it. -/
theorem le_year_ofDayNumber_iff {year : ℤ} :
    year ≤ (ofDayNumber n).year ↔ (Date.mk year 1 1).dayNumber ≤ n := by
  obtain ⟨p, rfl⟩ := Place.exists_number n
  have hjanuary : Date.IsDay ⟨year, 1, 1⟩ := ⟨Nat.le_refl 1, show 1 ≤ 31 by decide⟩
  obtain ⟨q, hq⟩ := Place.exists_date hjanuary
  rw [p.ofDayNumber_number, ← hq, q.dayNumber_date]
  obtain ⟨era, y, month, day, hy, hmonth, hday, hhas⟩ := p
  obtain ⟨era', y', month', day', hy', hmonth', hday', hhas'⟩ := q
  unfold Place.date at hq ⊢
  unfold Place.number
  dsimp only at hq ⊢
  obtain ⟨rfl, hmonth', hday'⟩ := Date.mk.inj hq
  obtain ⟨rfl, rfl⟩ : month' = 10 ∧ day' = 0 := by
    split_ifs at hmonth' <;> omega
  have hnewYear : month < 10 ↔ daysBeforeMonth month + day < 306 := by
    unfold daysBeforeMonth at hday ⊢
    omega
  have hlength : daysBeforeMonth month + day ≤ 365 := by
    unfold HasDay at hhas
    omega
  have hday := dayOfEra_lt hy hhas
  have hday' := dayOfEra_lt hy' hhas'
  simp only [hnewYear, show ¬ 10 < 10 by decide, if_false, show daysBeforeMonth 10 + 0 = 306 from rfl]
    at hday' ⊢
  generalize daysBeforeMonth month + day = dayOfYear at *
  rcases lt_trichotomy y y' with hlt | rfl | hlt
  · have hbefore := daysBeforeYear_add_le hlt
    split_ifs <;> omega
  · split_ifs <;> omega
  · have hbefore := daysBeforeYear_add_le hlt
    split_ifs <;> omega

example : ofDayNumber 19782 = ⟨2024, 2, 29⟩ ∧ ofDayNumber (-719529) = ⟨-1, 12, 31⟩ := by decide

end PathLock.Calendar
