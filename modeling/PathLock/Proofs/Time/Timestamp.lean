import PathLock.Proofs.Text.Blank
import PathLock.Proofs.Text.Numeral
import PathLock.Proofs.Time.Calendar
import PathLock.Proofs.Time.Elapsed
import PathLock.Time.Rfc3339

/-!
# Timestamps

An instant is read back from the timestamp that is written for it if and only if its leap second, if
any, comes at the end of a minute (`Instant.ofTimestamp?_timestamp_iff`). All instants that are read
are such (`Instant.onClock_of_ofTimestamp?`), and so are those that lie some time away from them
(`Instant.OnClock.add?`).

* `Rfc3339.zones`: the spellings of UTC that are written.
* `Instant.partsText`: a timestamp by its parts.
* `Instant.OnClock`: the instants that a timestamp can name.
-/

namespace PathLock

open Text

namespace Rfc3339

variable {digits rest : List Char} {n width : ℕ}

/-! ## Numbers and marks -/

/-- There is no digit at the beginning of the text. -/
def NoDigitAhead (text : List Char) : Prop := ∀ c ∈ text.head?, c.isDigit = false

theorem noDigitAhead_cons {c : Char} (h : c.isDigit = false) : NoDigitAhead (c :: rest) := by
  rintro d ⟨⟩
  exact h

theorem trimLeft_append (h : IsNumeral digits) (rest : List Char) :
    trimLeft (digits ++ rest) = digits ++ rest := by
  obtain ⟨c, more, rfl⟩ := List.exists_cons_of_ne_nil h.ne_nil
  have hblank := isBlank_of_digit (h.isDigit c List.mem_cons_self)
  unfold trimLeft
  rw [List.cons_append, List.dropWhile_cons_of_neg (by simp [hblank])]

theorem all_isDigit (h : IsNumeral digits) : ∀ c ∈ digits, c.isDigit = true :=
  fun c hc => isDigit_iff.2 (h.isDigit c hc)

theorem takeWhile_isDigit_append (h : IsNumeral digits) (hrest : NoDigitAhead rest) :
    (digits ++ rest).takeWhile Char.isDigit = digits := by
  rw [List.takeWhile_append_of_pos (all_isDigit h)]
  cases rest with
  | nil => simp
  | cons c rest => rw [List.takeWhile_cons_of_neg (by simp [hrest c rfl]), List.append_nil]

theorem number?_append (h : IsNumeral digits) (hlength : digits.length = width) (rest : List Char) :
    number? width (digits ++ rest) = some (decimalValue digits, rest) := by
  unfold number?
  dsimp only
  rw [trimLeft_append h, List.take_left' hlength, List.takeWhile_eq_self_iff.2 (all_isDigit h),
    List.drop_left, if_neg h.ne_nil, ofDigitChars_eq_decimalValue]

theorem signedNumber?_append (h : IsNumeral digits) (hrest : NoDigitAhead rest) :
    signedNumber? (digits ++ rest) = some (decimalValue digits, rest) := by
  unfold signedNumber?
  dsimp only
  rw [takeWhile_isDigit_append h hrest, List.drop_left, if_neg h.ne_nil, ofDigitChars_eq_decimalValue]

theorem mark?_cons {mark : Char} (h : isBlank mark = false) (rest : List Char) :
    mark? mark (mark :: rest) = some rest := by
  unfold mark? trimLeft
  rw [List.dropWhile_cons_of_neg (by simp [h])]
  exact if_pos rfl

theorem number?_zeroPadded (hwidth : 0 < width) (hn : n < 10 ^ width) (rest : List Char) :
    number? width ((zeroPadded width n).toList ++ rest) = some (n, rest) := by
  rw [number?_append (isNumeral_zeroPadded width n) (length_zeroPadded hwidth hn),
    decimalValue_zeroPadded]

theorem signedNumber?_zeroPadded (hrest : NoDigitAhead rest) :
    signedNumber? ((zeroPadded width n).toList ++ rest) = some (n, rest) := by
  rw [signedNumber?_append (isNumeral_zeroPadded width n) hrest, decimalValue_zeroPadded]

/-! ## Years -/

/-- A year that begins with a digit has no sign. -/
theorem year?_append (h : IsNumeral digits) (rest : List Char) : year? (digits ++ rest) =
    (number? 4 (digits ++ rest)).map fun (n, rest) => ((n : ℤ), rest) := by
  obtain ⟨c, more, rfl⟩ := List.exists_cons_of_ne_nil h.ne_nil
  have hc := h.isDigit c List.mem_cons_self
  unfold year?
  rw [trimLeft_append h]
  split
  · rename_i hsign
    obtain ⟨rfl, -⟩ := List.cons.inj hsign
    exact absurd hc (by decide)
  · rename_i hsign
    obtain ⟨rfl, -⟩ := List.cons.inj hsign
    exact absurd hc (by decide)
  · rfl

theorem year?_minus (text : List Char) :
    year? ('-' :: text) = (signedNumber? text).map fun (n, rest) => (-(n : ℤ), rest) := rfl

theorem year?_plus (text : List Char) :
    year? ('+' :: text) = (signedNumber? text).map fun (n, rest) => ((n : ℤ), rest) := rfl

theorem year?_yearText (year : ℤ) (hrest : NoDigitAhead rest) :
    year? ((Instant.yearText year).toList ++ rest) = some (year, rest) := by
  unfold Instant.yearText
  split_ifs with hplain hneg
  · rw [year?_append (isNumeral_zeroPadded 4 _), number?_zeroPadded (by decide) (by omega),
      Option.map_some]
    exact congrArg (fun y => some (y, rest)) (Int.toNat_of_nonneg hplain.1)
  · have hsize : -(year.natAbs : ℤ) = year := by omega
    have htext : ("-" ++ zeroPadded 4 year.natAbs).toList ++ rest =
        '-' :: ((zeroPadded 4 year.natAbs).toList ++ rest) := by simp [String.toList_append]
    rw [htext, year?_minus, signedNumber?_zeroPadded hrest, Option.map_some]
    exact congrArg (fun y => some (y, rest)) hsize
  · have hsize : (year.natAbs : ℤ) = year := by omega
    have htext : ("+" ++ zeroPadded 4 year.natAbs).toList ++ rest =
        '+' :: ((zeroPadded 4 year.natAbs).toList ++ rest) := by simp [String.toList_append]
    rw [htext, year?_plus, signedNumber?_zeroPadded hrest, Option.map_some]
    exact congrArg (fun y => some (y, rest)) hsize

/-! ## Fractions and zones -/

theorem fraction?_zeroPadded (hwidth : 0 < width) (hle : width ≤ 9) (hn : n < 10 ^ width)
    (hrest : NoDigitAhead rest) :
    fraction? ('.' :: ((zeroPadded width n).toList ++ rest)) =
      some (n * 10 ^ (9 - width), rest) := by
  have h := isNumeral_zeroPadded width n
  have hlength := length_zeroPadded hwidth hn
  simp only [fraction?]
  rw [takeWhile_isDigit_append h hrest, List.take_of_length_le (hlength.trans_le hle),
    List.drop_left, if_neg h.ne_nil, ofDigitChars_eq_decimalValue, decimalValue_zeroPadded, hlength]
  rfl

theorem fraction?_fractionText {nano : ℕ} (hnano : nano < nanosPerSecond) (hrest : NoDigitAhead rest)
    (hpoint : '.' ∉ rest.head?) :
    fraction? ((Instant.fractionText nano).toList ++ rest) = some (nano, rest) := by
  have hnano : nano < 10 ^ 9 := hnano
  have htext (width n : ℕ) : ("." ++ zeroPadded width n).toList ++ rest =
      '.' :: ((zeroPadded width n).toList ++ rest) := by simp [String.toList_append]
  unfold Instant.fractionText
  split_ifs with hzero hmilli hmicro
  · subst hzero
    show fraction? rest = _
    unfold fraction?
    split
    · exact absurd rfl hpoint
    · rfl
  · rw [htext, fraction?_zeroPadded (by decide) (by decide) (by omega) hrest]
    exact congrArg (fun n => some (n, rest)) (Nat.div_mul_cancel (Nat.dvd_of_mod_eq_zero hmilli))
  · rw [htext, fraction?_zeroPadded (by decide) (by decide) (by omega) hrest]
    exact congrArg (fun n => some (n, rest)) (Nat.div_mul_cancel (Nat.dvd_of_mod_eq_zero hmicro))
  · rw [htext, fraction?_zeroPadded (by decide) (by decide) hnano hrest]
    exact congrArg (fun n => some (n, rest)) (Nat.mul_one nano)

/-- The fraction is less than a second, also when digits are dropped. -/
theorem fraction?_lt {text : List Char} {nano : ℕ} (h : fraction? text = some (nano, rest)) :
    nano < nanosPerSecond := by
  unfold fraction? at h
  split at h
  · rename_i more
    dsimp only at h
    split_ifs at h
    obtain ⟨rfl, -⟩ := Prod.mk.inj (Option.some.inj h)
    generalize hkept : (more.takeWhile Char.isDigit).take 9 = kept
    have hlength : kept.length ≤ 9 := by
      rw [← hkept]
      exact List.length_take_le 9 _
    have hdigits : ∀ c ∈ kept, '0' ≤ c ∧ c ≤ '9' := by
      rw [← hkept]
      exact fun c hc => isDigit_iff.1 (List.mem_takeWhile_imp (List.mem_of_mem_take hc))
    calc Nat.ofDigitChars 10 kept 0 * 10 ^ (9 - kept.length)
        < 10 ^ kept.length * 10 ^ (9 - kept.length) := by
          rw [ofDigitChars_eq_decimalValue]
          exact Nat.mul_lt_mul_of_pos_right (decimalValue_lt hdigits) (Nat.pow_pos (by decide))
      _ = nanosPerSecond := by
          rw [← Nat.pow_add, Nat.add_sub_cancel' hlength]
          rfl
  · obtain ⟨rfl, -⟩ := Prod.mk.inj (Option.some.inj h)
    decide

/-- Offsets are whole minutes. -/
theorem dvd_of_offset? {text : List Char} {offset : ℤ} (h : offset? text = some (offset, rest)) :
    60 ∣ offset := by
  have hzero {text : List Char} (h : some ((0 : ℤ), text) = some (offset, rest)) : 60 ∣ offset := by
    obtain ⟨rfl, -⟩ := Prod.mk.inj (Option.some.inj h)
    exact dvd_zero 60
  unfold offset? at h
  split_ifs at h
  · exact hzero h
  · split at h
    · cases h
    · split_ifs at h
      · exact hzero h
      · obtain ⟨sign, -, h⟩ := Option.bind_eq_some_iff.1 h
        obtain ⟨⟨hours, text⟩, -, h⟩ := Option.bind_eq_some_iff.1 h
        obtain ⟨⟨minutes, text⟩, -, h⟩ := Option.bind_eq_some_iff.1 h
        dsimp only at h
        split_ifs at h
        obtain ⟨rfl, -⟩ := Prod.mk.inj (Option.some.inj h)
        apply dvd_mul_of_dvd_right
        omega

/-- The spellings of UTC that are written. -/
def zones : List String := ["Z", "+00:00"]

theorem zone_ahead {zone : String} (hzone : zone ∈ zones) : NoDigitAhead zone.toList ∧
    '.' ∉ zone.toList.head? ∧ offset? (trimLeft zone.toList) = some (0, []) := by
  rcases List.mem_pair.1 hzone with rfl | rfl
  · exact ⟨noDigitAhead_cons rfl, by decide, by decide +kernel⟩
  · exact ⟨noDigitAhead_cons rfl, by decide, by decide +kernel⟩

end Rfc3339

namespace Instant

open Rfc3339

/-! ## Whole timestamps -/

/-- The timestamp with these parts. -/
def partsText (date : Calendar.Date) (hour minute second nano : ℕ) (zone : String) : String :=
  yearText date.year ++ "-" ++ zeroPadded 2 date.month ++ "-" ++ zeroPadded 2 date.day ++ "T" ++
    zeroPadded 2 hour ++ ":" ++ zeroPadded 2 minute ++ ":" ++ zeroPadded 2 second ++
    fractionText nano ++ zone

theorem bind_of_eq_some {α β : Type} {o : Option α} {a : α} (h : o = some a) (f : α → Option β) :
    (o >>= f) = f a := by
  rw [h]
  rfl

theorem ofTimestamp?_partsText {date : Calendar.Date} (hvalid : date.isValid = true)
    {hour minute second nano : ℕ} (hhour : hour ≤ 23) (hminute : minute ≤ 59) (hsecond : second ≤ 60)
    (hnano : nano < nanosPerSecond) {zone : String} (hzone : zone ∈ zones) :
    ofTimestamp? (partsText date hour minute second nano zone) =
      ofParts? (date.dayNumber * secondsPerDay + (hour * 3600 + minute * 60 + min second 59 : ℕ))
        (if second = 60 then nanosPerSecond + nano else nano) := by
  obtain ⟨hdigit, hpoint, hoffset⟩ := zone_ahead hzone
  have htext : (partsText date hour minute second nano zone).toList =
      (yearText date.year).toList ++ '-' :: ((zeroPadded 2 date.month).toList ++
        '-' :: ((zeroPadded 2 date.day).toList ++ 'T' :: ((zeroPadded 2 hour).toList ++
        ':' :: ((zeroPadded 2 minute).toList ++ ':' :: ((zeroPadded 2 second).toList ++
        ((fractionText nano).toList ++ zone.toList)))))) := by
    unfold partsText
    simp [String.toList_append]
  have hdate := (Calendar.Date.isValid_iff.1 hvalid).2
  have hmonth : date.month < 10 ^ 2 := by
    have hmonth := hdate.isMonth
    omega
  have hday : date.day < 10 ^ 2 := by
    have hday := hdate.le.trans (Calendar.daysInMonth_le date.year date.month)
    omega
  unfold ofTimestamp?
  rw [htext]
  refine (bind_of_eq_some (year?_yearText _ (noDigitAhead_cons rfl)) _).trans ?_
  refine (bind_of_eq_some (mark?_cons rfl _) _).trans ?_
  refine (bind_of_eq_some (number?_zeroPadded (by decide) hmonth _) _).trans ?_
  refine (bind_of_eq_some (mark?_cons rfl _) _).trans ?_
  refine (bind_of_eq_some (number?_zeroPadded (by decide) hday _) _).trans ?_
  refine (bind_of_eq_some (show separator? ('T' :: _) = some _ from rfl) _).trans ?_
  refine (bind_of_eq_some (number?_zeroPadded (by decide) (by omega) _) _).trans ?_
  refine (bind_of_eq_some (mark?_cons rfl _) _).trans ?_
  refine (bind_of_eq_some (number?_zeroPadded (by decide) (by omega) _) _).trans ?_
  refine (bind_of_eq_some (mark?_cons rfl _) _).trans ?_
  refine (bind_of_eq_some (number?_zeroPadded (by decide) (by omega) _) _).trans ?_
  refine (bind_of_eq_some (fraction?_fractionText hnano hdigit hpoint) _).trans ?_
  refine (bind_of_eq_some hoffset _).trans ?_
  refine (if_pos ⟨rfl, hvalid, hhour, hminute, hsecond, by decide⟩).trans ?_
  dsimp only
  rw [Int.sub_zero]

/-! ## Leap seconds -/

/-- Leap seconds come at the end of a minute. -/
def OnClock (t : Instant) : Prop := t.inLeapSecond = true → t.second % 60 = 59

/-- Whatever is read has its leap second, if any, at the end of a minute. -/
theorem onClock_of_ofTimestamp? {text : String} {t : Instant} (h : ofTimestamp? text = some t) :
    t.OnClock := by
  unfold ofTimestamp? at h
  obtain ⟨⟨year, rest⟩, -, h⟩ := Option.bind_eq_some_iff.1 h
  obtain ⟨rest, -, h⟩ := Option.bind_eq_some_iff.1 h
  obtain ⟨⟨month, rest⟩, -, h⟩ := Option.bind_eq_some_iff.1 h
  obtain ⟨rest, -, h⟩ := Option.bind_eq_some_iff.1 h
  obtain ⟨⟨day, rest⟩, -, h⟩ := Option.bind_eq_some_iff.1 h
  obtain ⟨rest, -, h⟩ := Option.bind_eq_some_iff.1 h
  obtain ⟨⟨hour, rest⟩, -, h⟩ := Option.bind_eq_some_iff.1 h
  obtain ⟨rest, -, h⟩ := Option.bind_eq_some_iff.1 h
  obtain ⟨⟨minute, rest⟩, -, h⟩ := Option.bind_eq_some_iff.1 h
  obtain ⟨rest, -, h⟩ := Option.bind_eq_some_iff.1 h
  obtain ⟨⟨second, rest⟩, -, h⟩ := Option.bind_eq_some_iff.1 h
  obtain ⟨⟨fraction, rest⟩, hfraction, h⟩ := Option.bind_eq_some_iff.1 h
  obtain ⟨⟨offset, rest⟩, hoffset, h⟩ := Option.bind_eq_some_iff.1 h
  have hlt := fraction?_lt hfraction
  obtain ⟨minutes, rfl⟩ := dvd_of_offset? hoffset
  dsimp only at h
  split_ifs at h with hparts hsecond
  · obtain ⟨ht, -⟩ := ofParts?_eq_some.1 h
    intro _
    rw [ht, hsecond]
    unfold secondsPerDay
    omega
  · obtain ⟨-, hnano⟩ := ofParts?_eq_some.1 h
    intro hleap
    have hge : nanosPerSecond ≤ t.nano := of_decide_eq_true hleap
    omega

/-- No time leads to a leap second within a minute. -/
theorem OnClock.add? {t u : Instant} (ht : t.OnClock) {nanos : ℤ} (h : t.add? nanos = some u) :
    u.OnClock := by
  intro hleap
  have hge : nanosPerSecond ≤ u.nano := of_decide_eq_true hleap
  unfold Instant.add? at h
  dsimp only at h
  split_ifs at h with hstays hleaves
  -- Only a step within a leap second ends in one.
  · obtain ⟨hsecond, -⟩ := ofParts?_eq_some.1 h
    rw [hsecond]
    exact ht hstays.1
  all_goals
    obtain ⟨-, hnano⟩ := ofParts?_eq_some.1 h
    unfold nanosPerSecond at hnano hge
    omega

/-! ## Writing and reading -/

/-- The date of an instant is one of the supported years. -/
theorem isValid_date (t : Instant) :
    (Calendar.ofDayNumber (t.second / secondsPerDay)).isValid = true := by
  have hday : (secondsPerDay : ℤ) = 86400 := rfl
  have hge := t.second_ge
  have hlt := t.second_lt
  rw [hday] at hge hlt ⊢
  refine Calendar.Date.isValid_iff.2 ⟨⟨?_, ?_⟩, Calendar.isDay_ofDayNumber _⟩
  · rw [Calendar.le_year_ofDayNumber_iff]
    omega
  · by_contra hnone
    have hnext : Calendar.lastYear + 1 ≤ (Calendar.ofDayNumber (t.second / 86400)).year := by omega
    rw [Calendar.le_year_ofDayNumber_iff] at hnext
    omega

theorem timestamp_eq (zone : String) (t : Instant) : t.timestamp zone =
    partsText (Calendar.ofDayNumber (t.second / secondsPerDay))
      ((t.second % secondsPerDay).toNat / 3600) ((t.second % secondsPerDay).toNat / 60 % 60)
      ((t.second % secondsPerDay).toNat % 60 + if t.inLeapSecond then 1 else 0)
      (if t.inLeapSecond then t.nano - nanosPerSecond else t.nano) zone := by
  unfold timestamp partsText
  split_ifs <;> rfl

/-- An instant on the clock is read back from its timestamp. -/
theorem ofTimestamp?_timestamp {t : Instant} (h : t.OnClock) {zone : String} (hzone : zone ∈ zones) :
    ofTimestamp? (t.timestamp zone) = some t := by
  have hsecond : t.second = t.second / secondsPerDay * secondsPerDay +
      (t.second % secondsPerDay).toNat ∧ (t.second % secondsPerDay).toNat < 86400 := by
    unfold secondsPerDay
    omega
  have hdate := Calendar.dayNumber_ofDayNumber (t.second / secondsPerDay)
  have hvalid := t.isValid_date
  have hnano := t.nano_lt
  rw [timestamp_eq]
  generalize (t.second % secondsPerDay).toNat = ofDay at hsecond ⊢
  generalize t.second / secondsPerDay = day at hsecond hdate hvalid ⊢
  have hleap : t.inLeapSecond = true ↔ nanosPerSecond ≤ t.nano := decide_eq_true_iff
  unfold OnClock at h
  by_cases hl : t.inLeapSecond = true
  · have hminute : ofDay % 60 = 59 := by
      have hend := h hl
      unfold secondsPerDay at hsecond
      omega
    have hge := hleap.1 hl
    rw [if_pos hl, if_pos hl, ofTimestamp?_partsText hvalid (by omega) (by omega) (by omega)
      (by omega) hzone, if_pos (by omega), Nat.add_sub_cancel' hge, hdate, ← ofParts?_self t]
    congr 1
    omega
  · have hlt : t.nano < nanosPerSecond := Nat.lt_of_not_le (mt hleap.2 hl)
    rw [if_neg hl, if_neg hl, ofTimestamp?_partsText hvalid (by omega) (by omega) (by omega) hlt
      hzone, if_neg (by omega), hdate, ← ofParts?_self t]
    congr 1
    omega

/-- No other instant is. -/
theorem ofTimestamp?_timestamp_iff {t : Instant} {zone : String} (hzone : zone ∈ zones) :
    ofTimestamp? (t.timestamp zone) = some t ↔ t.OnClock :=
  ⟨onClock_of_ofTimestamp?, fun h => ofTimestamp?_timestamp h hzone⟩

example : (ofTimestamp? "2016-12-31T23:59:60.500Z").map recordText =
    some "2016-12-31T23:59:60.500Z" := by decide +kernel

end Instant

end PathLock
