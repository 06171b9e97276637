import Mathlib.Data.List.Induction
import Mathlib.Data.Nat.Digits.Defs
import PathLock.Text.Numeral

/-!
# Decimal numerals

A decimal numeral is a run of ASCII digits, one at least, and is read as the number whose decimal
digits they are (`Text.readDecimal?_eq_some_iff`). Of all numerals of a number, the one that is
written has no zero in front (`Text.IsNumeral.eq_repr`), unless it is to have a given width.
-/

namespace PathLock.Text

/-- The text is one ASCII decimal digit or more. -/
structure IsNumeral (digits : List Char) : Prop where
  ne_nil : digits ≠ []
  isDigit : ∀ c ∈ digits, '0' ≤ c ∧ c ≤ '9'

/-- The value of an ASCII digit. -/
def digitOf (c : Char) : ℕ := c.toNat - '0'.toNat

/-- The number with these decimal digits, the most significant of them first. -/
def decimalValue (digits : List Char) : ℕ := Nat.ofDigits 10 (digits.reverse.map digitOf)

/-- A numeral of more than one digit does not begin with a zero. -/
def NoLeadingZero (digits : List Char) : Prop := ∀ more, digits = '0' :: more → more = []

variable {digits : List Char} {n : ℕ}

theorem isDigit_iff {c : Char} : c.isDigit = true ↔ '0' ≤ c ∧ c ≤ '9' :=
  Char.isDigit_iff_toNat

theorem decimalValue_append_singleton (digits : List Char) (c : Char) :
    decimalValue (digits ++ [c]) = 10 * decimalValue digits + digitOf c := by
  unfold decimalValue
  rw [List.reverse_append, List.reverse_singleton, List.singleton_append, List.map_cons,
    Nat.ofDigits_cons]
  omega

theorem ofDigitChars_eq_decimalValue (digits : List Char) :
    Nat.ofDigitChars 10 digits 0 = decimalValue digits := by
  induction digits using List.reverseRecOn with
  | nil => rfl
  | append_singleton digits c ih =>
    rw [Nat.ofDigitChars_append, ih, decimalValue_append_singleton, Nat.ofDigitChars_cons,
      Nat.ofDigitChars_nil]
    rfl

/-- Exactly the numerals are read, each as its value. -/
theorem readDecimal?_eq_some_iff :
    readDecimal? digits = some n ↔ IsNumeral digits ∧ decimalValue digits = n := by
  have hdigits : IsNumeral digits ↔ digits ≠ [] ∧ digits.all Char.isDigit = true := by
    rw [List.all_eq_true]
    simp only [isDigit_iff]
    exact ⟨fun h => ⟨h.ne_nil, h.isDigit⟩, fun h => ⟨h.1, h.2⟩⟩
  unfold readDecimal?
  rw [hdigits, ← ofDigitChars_eq_decimalValue]
  split_ifs with h
  · rw [Option.some.injEq]
    exact (and_iff_right h).symm
  · exact iff_of_false (by simp) fun hn => h hn.1

/-! ## Writing -/

theorem isNumeral_repr (n : ℕ) : IsNumeral n.repr.toList where
  ne_nil := by simp
  isDigit := by
    intro c hc
    rw [Nat.toList_repr] at hc
    exact isDigit_iff.1 (Nat.isDigit_of_mem_toDigits (by decide) (by decide) hc)

theorem decimalValue_repr (n : ℕ) : decimalValue n.repr.toList = n := by
  rw [← ofDigitChars_eq_decimalValue, Nat.toList_repr, Nat.ofDigitChars_ten_toDigits]

theorem digitChar_digitOf {c : Char} (h : '0' ≤ c ∧ c ≤ '9') :
    digitOf c < 10 ∧ (digitOf c).digitChar = c := by
  rw [← isDigit_iff, Char.isDigit_iff_toNat] at h
  have hlow : 48 ≤ c.toNat := h.1
  have hhigh : c.toNat ≤ 57 := h.2
  have hvalue : digitOf c = c.toNat - 48 := rfl
  refine ⟨by omega, ?_⟩
  apply Char.toNat_inj.1
  rw [Nat.toNat_digitChar_of_lt_ten (by omega)]
  omega

theorem decimalValue_lt (h : ∀ c ∈ digits, '0' ≤ c ∧ c ≤ '9') :
    decimalValue digits < 10 ^ digits.length := by
  have hdigits : ∀ d ∈ digits.reverse.map digitOf, d < 10 := by
    intro d hd
    obtain ⟨c, hc, rfl⟩ := List.mem_map.1 hd
    exact (digitChar_digitOf (h c (List.mem_reverse.1 hc))).1
  have hlt := Nat.ofDigits_lt_base_pow_length (by decide) hdigits
  rwa [List.length_map, List.length_reverse] at hlt

/-- Only the zero itself is written with a zero in front. -/
theorem noLeadingZero_repr (n : ℕ) : NoLeadingZero n.repr.toList := by
  intro more hmore
  rw [Nat.toList_repr] at hmore
  induction n using Nat.strongRecOn generalizing more with
  | ind n ih =>
    rw [Nat.toDigits_eq_if (by decide)] at hmore
    split_ifs at hmore with hlt
    · exact (List.cons.inj hmore).2.symm
    · exfalso
      obtain ⟨c, rest, hfront⟩ :=
        List.exists_cons_of_ne_nil (Nat.toDigits_ne_nil (b := 10) (n := n / 10))
      rw [hfront, List.cons_append] at hmore
      obtain ⟨rfl, -⟩ := List.cons.inj hmore
      rw [ih (n / 10) (by omega) rest hfront] at hfront
      -- The number in front of the last digit would be zero, and so would not be written.
      have hvalue := congrArg (fun digits => Nat.ofDigitChars 10 digits 0) hfront
      simp only [Nat.ofDigitChars_ten_toDigits] at hvalue
      have hquotient : n / 10 = 0 := hvalue
      omega

/-- A numeral without a zero in front is what is written for its value. -/
theorem IsNumeral.eq_repr (h : IsNumeral digits) (hzero : NoLeadingZero digits) :
    digits = (decimalValue digits).repr.toList := by
  induction digits using List.reverseRecOn with
  | nil => exact absurd rfl h.ne_nil
  | append_singleton digits c ih =>
    obtain ⟨hlt, hc⟩ := digitChar_digitOf (h.isDigit c (by simp))
    rw [decimalValue_append_singleton, Nat.toList_repr]
    by_cases hnil : digits = []
    · subst hnil
      have hvalue : 10 * decimalValue [] + digitOf c = digitOf c := Nat.zero_add _
      rw [hvalue, Nat.toDigits_of_lt_base hlt, hc]
      rfl
    · have hfront : IsNumeral digits := ⟨hnil, fun d hd => h.isDigit d (by simp [hd])⟩
      have hzero' : NoLeadingZero digits := by
        intro more hmore
        have hrest := hzero (more ++ [c]) (by rw [hmore, List.cons_append])
        simp at hrest
      have hwritten := ih hfront hzero'
      have hpos : 0 < decimalValue digits := by
        apply Nat.pos_of_ne_zero
        intro hvalue
        rw [hvalue] at hwritten
        have hrest := hzero [c] (by rw [hwritten]; rfl)
        simp at hrest
      rw [Nat.toList_repr] at hwritten
      rw [← Nat.toDigits_append_toDigits (by decide) hpos hlt, Nat.toDigits_of_lt_base hlt, hc,
        ← hwritten]

/-! ## Writing with zeros in front -/

theorem toList_zeroPadded (width n : ℕ) : (zeroPadded width n).toList =
    List.replicate (width - n.repr.toList.length) '0' ++ n.repr.toList := String.toList_ofList

theorem isNumeral_zeroPadded (width n : ℕ) : IsNumeral (zeroPadded width n).toList where
  ne_nil := by
    rw [toList_zeroPadded]
    exact List.append_ne_nil_of_right_ne_nil _ (isNumeral_repr n).ne_nil
  isDigit c hc := by
    rw [toList_zeroPadded, List.mem_append] at hc
    rcases hc with hc | hc
    · rw [List.eq_of_mem_replicate hc]
      decide
    · exact (isNumeral_repr n).isDigit c hc

theorem decimalValue_zeroPadded (width n : ℕ) : decimalValue (zeroPadded width n).toList = n := by
  rw [toList_zeroPadded, ← ofDigitChars_eq_decimalValue, Nat.ofDigitChars_append,
    Nat.ofDigitChars_replicate_zero, Nat.mul_zero, ofDigitChars_eq_decimalValue, decimalValue_repr]

theorem length_zeroPadded {width : ℕ} (hwidth : 0 < width) (h : n < 10 ^ width) :
    (zeroPadded width n).toList.length = width := by
  have hle : n.repr.toList.length ≤ width := by
    rw [Nat.toList_repr]
    exact (Nat.length_toDigits_le_iff (by decide) hwidth).2 h
  rw [toList_zeroPadded, List.length_append, List.length_replicate]
  omega

end PathLock.Text
