import Mathlib.Data.List.DropRight
import Mathlib.Data.List.TakeWhile
import PathLock.Text.Blank

/-!
# Text between blanks

What trimming leaves of a text is the one part of it that neither begins nor ends with a blank and
has nothing but blanks around it (`Text.trim_eq_iff`).
-/

namespace PathLock.Text

/-- There are only blanks in the text. -/
def AllBlank (text : List Char) : Prop := ∀ c ∈ text, isBlank c = true

/-- The text is `core` with blanks before and behind it, and `core` takes in none of them. -/
structure IsCore (core text : List Char) : Prop where
  around : ∃ before behind, AllBlank before ∧ AllBlank behind ∧ text = before ++ core ++ behind
  front : ∀ c ∈ core.head?, isBlank c = false
  back : ∀ c ∈ core.getLast?, isBlank c = false

variable {core text : List Char}

theorem trimRight_eq (text : List Char) : trimRight text = text.rdropWhile isBlank := rfl

theorem head?_trimLeft (text : List Char) : ∀ c ∈ (trimLeft text).head?, isBlank c = false := by
  intro c hc
  unfold trimLeft at hc
  cases htext : text.dropWhile isBlank with
  | nil => simp [htext] at hc
  | cons d rest =>
    have hd := List.head_dropWhile_not isBlank (l := text) (by simp [htext])
    simp only [htext, List.head_cons] at hd
    rw [htext, List.head?_cons, Option.mem_some_iff] at hc
    rwa [← hc]

theorem getLast?_trimRight (text : List Char) :
    ∀ c ∈ (trimRight text).getLast?, isBlank c = false := by
  intro c hc
  rw [trimRight_eq] at hc
  have hne : text.rdropWhile isBlank ≠ [] := by
    intro hnil
    simp [hnil] at hc
  have hlast := List.rdropWhile_last_not isBlank text hne
  rw [List.getLast?_eq_some_getLast hne, Option.mem_some_iff] at hc
  rwa [hc, Bool.not_eq_true] at hlast

/-- A text begins as it does with the blanks behind it taken away, if anything is left of it. -/
theorem head?_trimRight {c : Char} (hc : c ∈ (trimRight text).head?) : c ∈ text.head? := by
  obtain ⟨behind, hbehind⟩ := List.rdropWhile_prefix isBlank text
  rw [← trimRight_eq] at hbehind
  rw [← hbehind]
  cases htrim : trimRight text with
  | nil => simp [htrim] at hc
  | cons d rest => simpa [htrim] using hc

theorem isCore_trim (text : List Char) : IsCore (trim text) text where
  around := by
    refine ⟨text.takeWhile isBlank, (trimLeft text).rtakeWhile isBlank, ?_, ?_, ?_⟩
    · intro c hc
      exact List.mem_takeWhile_imp hc
    · intro c hc
      exact List.mem_rtakeWhile_imp hc
    · unfold trim
      rw [List.append_assoc, trimRight_eq, List.rdropWhile_append_rtakeWhile]
      exact List.takeWhile_append_dropWhile.symm
  front c hc := head?_trimLeft text c (head?_trimRight hc)
  back := getLast?_trimRight _

theorem dropWhile_isBlank_append {before rest : List Char} (hbefore : AllBlank before)
    (hrest : ∀ c ∈ rest.head?, isBlank c = false) : (before ++ rest).dropWhile isBlank = rest := by
  rw [List.dropWhile_append_of_pos hbefore]
  cases rest with
  | nil => rfl
  | cons c rest => simp [hrest c rfl]

theorem IsCore.trim_eq (h : IsCore core text) : trim text = core := by
  obtain ⟨before, behind, hbefore, hbehind, rfl⟩ := h.around
  unfold trim trimLeft
  rw [List.append_assoc]
  by_cases hcore : core = []
  · -- There are only blanks, and all of them go at the front.
    subst hcore
    have hblank : AllBlank (before ++ ([] ++ behind)) := by
      intro c hc
      rw [List.nil_append, List.mem_append] at hc
      exact hc.elim (hbefore c) (hbehind c)
    rw [List.dropWhile_eq_nil_iff.2 hblank]
    rfl
  · have hfront : ∀ c ∈ (core ++ behind).head?, isBlank c = false := by
      rw [List.head?_append_of_ne_nil _ hcore]
      exact h.front
    rw [dropWhile_isBlank_append hbefore hfront]
    unfold trimRight
    have hblank : AllBlank behind.reverse := fun c hc => hbehind c (List.mem_reverse.1 hc)
    rw [List.reverse_append, dropWhile_isBlank_append hblank, List.reverse_reverse]
    rw [List.head?_reverse]
    exact h.back

/-- Trimming finds the core of a text. -/
theorem trim_eq_iff : trim text = core ↔ IsCore core text :=
  ⟨fun h => h ▸ isCore_trim text, IsCore.trim_eq⟩

/-- No digit is blank. -/
theorem isBlank_of_digit {c : Char} (h : '0' ≤ c ∧ c ≤ '9') : isBlank c = false := by
  have hlow : 48 ≤ c.toNat := h.1
  have hhigh : c.toNat ≤ 57 := h.2
  unfold isBlank
  simp
  omega

/-- There is nothing to trim from a text without blanks. -/
theorem isCore_self (h : ∀ c ∈ text, isBlank c = false) : IsCore text text where
  around := ⟨[], [], by simp [AllBlank], by simp [AllBlank], by simp⟩
  front c hc := h c (List.mem_of_mem_head? hc)
  back c hc := h c (List.mem_of_mem_getLast? hc)

end PathLock.Text
