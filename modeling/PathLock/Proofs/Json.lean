import PathLock.Json
import PathLock.Proofs.Text.Numeral

/-!
# JSON texts

The compact text of a value has no control character, whatever characters stand in its strings
(`Json.printable_render`). So it never goes on in another line.
-/

namespace PathLock.Json

/-- There is no control character in the text. -/
def Printable (text : List Char) : Prop := ∀ c ∈ text, 0x20 ≤ c.toNat

instance (text : List Char) : Decidable (Printable text) :=
  decidable_of_iff (text.all fun c => 0x20 ≤ c.toNat) (by simp [Printable])

theorem Printable.append {a b : List Char} (ha : Printable a) (hb : Printable b) :
    Printable (a ++ b) := List.forall_mem_append.2 ⟨ha, hb⟩

theorem Printable.newline_notMem {text : List Char} (h : Printable text) : '\n' ∉ text :=
  fun hin => absurd (h '\n' hin) (by decide)

theorem printable_intercalate {separator : String} (hseparator : Printable separator.toList)
    {texts : List String} (h : ∀ text ∈ texts, Printable text.toList) :
    Printable (separator.intercalate texts).toList := by
  rw [String.toList_intercalate]
  induction texts with
  | nil => exact List.forall_mem_nil _
  | cons text rest ih =>
    obtain ⟨htext, hrest⟩ := List.forall_mem_cons.1 h
    cases rest with
    | nil => simpa using htext
    | cons next rest =>
      rw [List.map_cons, List.map_cons, List.intercalate_cons_cons]
      exact (htext.append hseparator).append (ih hrest)

theorem toNat_hexDigit : ∀ n < 16, 0x20 ≤ (hexDigit n).toNat := by decide

theorem printable_escape (c : Char) : Printable (escape c) := by
  unfold escape
  split
  case h_8 =>
    split_ifs with hc
    · intro d hd
      simp only [List.mem_cons, List.not_mem_nil, or_false] at hd
      rcases hd with rfl | rfl | rfl | rfl | rfl | rfl
      · decide
      · decide
      · decide
      · decide
      · exact toNat_hexDigit _ (by omega)
      · exact toNat_hexDigit _ (by omega)
    · exact List.forall_mem_singleton.2 (Nat.le_of_not_lt hc)
  all_goals decide

theorem printable_quoted (text : String) : Printable (quoted text).toList := by
  have hquote : Printable ['"'] := by decide
  unfold quoted
  rw [String.toList_ofList]
  refine (hquote.append fun c hc => ?_).append hquote
  obtain ⟨d, -, hd⟩ := List.mem_flatMap.1 hc
  exact printable_escape d c hd

theorem printable_of_isNumeral {digits : List Char} (h : Text.IsNumeral digits) :
    Printable digits := fun c hc => le_trans (by decide) (h.isDigit c hc).1

theorem printable_numeral (digits : ℤ) (places : ℕ) : Printable (numeral digits places).toList := by
  have hsign : Printable (if digits < 0 then "-" else "").toList := by
    split_ifs <;> decide
  have hwhole := printable_of_isNumeral (Text.isNumeral_repr (digits.natAbs / Nat.pow 10 places))
  unfold numeral
  dsimp only
  generalize (if digits < 0 then "-" else "") = sign at hsign ⊢
  split_ifs
  · rw [String.toList_append]
    exact hsign.append hwhole
  · rw [String.toList_append, String.toList_append, String.toList_append]
    refine ((hsign.append hwhole).append ?_).append
      (printable_of_isNumeral (Text.isNumeral_zeroPadded places _))
    decide

mutual

/-- The compact text of a value is printable. -/
theorem printable_render : ∀ value : Json, Printable value.render.toList
  | null => by unfold render; decide
  | bool true => by unfold render; decide
  | bool false => by unfold render; decide
  | number digits places => by
    unfold render
    exact printable_numeral digits places
  | string text => by
    unfold render
    exact printable_quoted text
  | array items => by
    unfold render
    rw [String.toList_append, String.toList_append]
    exact (Printable.append (by decide)
      (printable_intercalate (by decide) (printable_renderItems items))).append (by decide)
  | object fields => by
    unfold render
    rw [String.toList_append, String.toList_append]
    exact (Printable.append (by decide)
      (printable_intercalate (by decide) (printable_renderFields fields))).append (by decide)

theorem printable_renderItems : ∀ items : List Json, ∀ text ∈ renderItems items,
    Printable text.toList
  | [] => by
    unfold renderItems
    exact List.forall_mem_nil _
  | item :: rest => by
    unfold renderItems
    exact List.forall_mem_cons.2 ⟨printable_render item, printable_renderItems rest⟩

theorem printable_renderFields : ∀ fields : List (String × Json), ∀ text ∈ renderFields fields,
    Printable text.toList
  | [] => by
    unfold renderFields
    exact List.forall_mem_nil _
  | (name, value) :: rest => by
    unfold renderFields
    refine List.forall_mem_cons.2 ⟨?_, printable_renderFields rest⟩
    rw [String.toList_append, String.toList_append]
    exact ((printable_quoted name).append (by decide)).append (printable_render value)

end

end PathLock.Json
