import PathLock.Command.Run
import PathLock.Proofs.Timeout.Grammar

/-!
# The normal form of timeout headers

Of all headers that stand for a timeout, the one that is written for it is the plain one: it has no
blanks, no alternatives and no zeros in front of its number (`Timeout.isPlain_iff`). It is read back
as the timeout, so that a header and its normal form stand for the same; so is the record of a
timeout, and that of the details of a lock as these details (`Timeout.text_forms_read_back`). The
normal form is what the command prints, which so tells headers apart by their meaning alone
(`Command.Action.run_timeout_eq_iff`).
-/

namespace PathLock

open Text

namespace Timeout

variable {text : String} {timeout : Timeout}

/-! ## Plain headers -/

/-- There is nothing in the header that could be left out. -/
structure IsPlain (text : String) : Prop where
  ne_empty : text ≠ ""
  no_blank : ∀ c ∈ text.toList, isBlank c = false
  no_alternatives : ',' ∉ text.toList
  no_leading_zero : ∀ digits : String, text = "Second-" ++ digits → NoLeadingZero digits.toList

theorem IsPlain.firstIs_iff (h : IsPlain text) {alternative : String} :
    FirstIs alternative text ↔ text = alternative := by
  have hall : ∀ c ∈ text.toList, decide (c ≠ ',') = true := by
    intro c hc
    rw [decide_eq_true_eq]
    rintro rfl
    exact h.no_alternatives hc
  rw [Timeout.firstIs_iff, List.takeWhile_eq_self_iff.2 hall, (isCore_self h.no_blank).trim_eq,
    String.toList_inj]

/-- No digit is a blank or a comma. -/
theorem plain_of_digit {c : Char} (h : '0' ≤ c ∧ c ≤ '9') : isBlank c = false ∧ c ≠ ',' := by
  refine ⟨isBlank_of_digit h, ?_⟩
  rintro rfl
  exact absurd h (by decide)

theorem header_seconds (n : UInt32) : (seconds n).header = "Second-" ++ n.toNat.repr := by
  rw [← String.toList_inj, toList_number]
  exact String.toList_ofList

theorem plain_header (timeout : Timeout) {c : Char} (hc : c ∈ timeout.header.toList) :
    isBlank c = false ∧ c ≠ ',' := by
  cases timeout with
  | infinite =>
    have hword : ∀ c ∈ infiniteWord, isBlank c = false ∧ c ≠ ',' := by
      simp [infiniteWord, isBlank]
    exact hword c hc
  | seconds n =>
    have hmark : ∀ c ∈ secondsMark, isBlank c = false ∧ c ≠ ',' := by
      simp [secondsMark, isBlank]
    rw [header_seconds, toList_number, List.mem_append] at hc
    rcases hc with hc | hc
    · exact hmark c hc
    · exact plain_of_digit ((isNumeral_repr n.toNat).isDigit c hc)

theorem isPlain_header (timeout : Timeout) : IsPlain timeout.header where
  ne_empty := by
    cases timeout with
    | infinite => decide
    | seconds n =>
      rw [header_seconds]
      simp
  no_blank c hc := (plain_header timeout hc).1
  no_alternatives hc := (plain_header timeout hc).2 rfl
  no_leading_zero digits h := by
    cases timeout with
    | infinite =>
      have hchars := congrArg String.toList h
      rw [toList_number] at hchars
      exact absurd (List.cons.inj hchars).1 (by decide)
    | seconds n =>
      rw [header_seconds, String.append_right_inj] at h
      rw [← h]
      exact noLeadingZero_repr n.toNat

/-! ## Writing and reading -/

theorem spells_header (timeout : Timeout) : Spells timeout.header timeout := by
  have hfirst : ∀ {alternative : String}, timeout.header = alternative →
      FirstIs alternative timeout.header := fun h => (isPlain_header timeout).firstIs_iff.2 h
  cases timeout with
  | infinite => exact .word (hfirst rfl)
  | seconds n =>
    exact .number (hfirst (header_seconds n)) (isNumeral_repr n.toNat) (decimalValue_repr n.toNat)

/-- The header that is written for a timeout is read as the timeout. -/
theorem parse_header (timeout : Timeout) : parse timeout.header = .ok timeout :=
  parse_eq_ok_iff.2 (spells_header timeout)

theorem header_inj {a b : Timeout} : a.header = b.header ↔ a = b := by
  constructor
  · intro h
    have hread := parse_header a
    rw [h, parse_header b] at hread
    exact (Except.ok.inj hread).symm
  · rintro rfl
    rfl

/-- A plain header that stands for a timeout is the one that is written for it. -/
theorem Spells.eq_header (h : Spells text timeout) (hplain : IsPlain text) :
    text = timeout.header := by
  cases h with
  | empty hempty => exact absurd hempty hplain.ne_empty
  | word hfirst => exact hplain.firstIs_iff.1 hfirst
  | @number digits n hfirst hdigits hvalue =>
    have htext := hplain.firstIs_iff.1 hfirst
    have hrepr := hdigits.eq_repr (hplain.no_leading_zero digits htext)
    rw [hvalue, String.toList_inj] at hrepr
    rw [header_seconds, htext, hrepr]

theorem isPlain_iff : parse text = .ok timeout ∧ IsPlain text ↔ text = timeout.header := by
  rw [parse_eq_ok_iff]
  constructor
  · rintro ⟨h, hplain⟩
    exact h.eq_header hplain
  · rintro rfl
    exact ⟨spells_header timeout, isPlain_header timeout⟩

/-! ## Normal forms -/

theorem normalize_bind_normalize (text : String) :
    (normalize text).bind normalize = normalize text := by
  unfold normalize
  cases hparse : parse text with
  | error e => rfl
  | ok timeout =>
    show (parse timeout.header).map header = .ok timeout.header
    rw [parse_header]
    rfl

theorem normalize_eq_iff {text text' : String} :
    normalize text = normalize text' ↔ parse text = parse text' := by
  unfold normalize
  cases parse text <;> cases parse text' <;> simp [Except.map, header_inj]

end Timeout

namespace Command.Action

variable {env : Environment} {config : Config} {text text' : String}

/-- The command answers two headers alike if they stand for the same timeout, and only then. -/
theorem run_timeout_eq_iff : (timeout text).run env config = (timeout text').run env config ↔
    Timeout.parse text = Timeout.parse text' := by
  rw [← Timeout.normalize_eq_iff]
  unfold run
  dsimp only
  cases Timeout.normalize text <;> cases Timeout.normalize text' <;> simp [joinLines]

/-- For what the command prints it prints the same again. -/
theorem run_timeout_normal (h : Timeout.normalize text = .ok text') :
    (timeout text').run env config = (timeout text).run env config := by
  have hagain := Timeout.normalize_bind_normalize text
  rw [h] at hagain
  exact run_timeout_eq_iff.2 (Timeout.normalize_eq_iff.1 (hagain.trans h.symm))

end Command.Action

namespace Timeout

variable {timeout : Timeout}

/-! ## Records -/

theorem ofJson?_toJson (timeout : Timeout) : ofJson? timeout.toJson = some timeout :=
  ofHeaderChars?_eq_some_iff.2 (spells_header timeout)

end Timeout

/-- Each field is found again under its name. -/
theorem Details.ofJson?_toJson_eq_ofFields? (details : Details) :
    Details.ofJson? details.toJson = Details.ofFields? (some (.string details.root))
      (some details.duration.toJson) (some (.string details.ownerXml))
      (some (.bool details.zeroDepth)) := by
  unfold Details.toJson Details.ofJson?
  simp [Json.field?]

theorem Details.ofJson?_toJson (details : Details) :
    Details.ofJson? details.toJson = some details := by
  rw [Details.ofJson?_toJson_eq_ofFields?]
  unfold Details.ofFields?
  simp [Json.asString?, Json.asBool?, Json.orDefault, Timeout.ofJson?_toJson]

namespace Timeout

/-- Timeouts and details are read back as they were written. The plain header is the only one that
is written for a timeout; a normal form is its own normal form, and headers have the same one if
they stand for the same. -/
theorem text_forms_read_back (timeout : Timeout) (text text' : String) (details : Details) :
    (parse timeout.header = .ok timeout ∧ ofJson? timeout.toJson = some timeout) ∧
      (parse text = .ok timeout ∧ IsPlain text ↔ text = timeout.header) ∧
      (normalize text).bind normalize = normalize text ∧
      (normalize text = normalize text' ↔ parse text = parse text') ∧
      Details.ofJson? details.toJson = some details :=
  ⟨⟨parse_header timeout, ofJson?_toJson timeout⟩, isPlain_iff, normalize_bind_normalize text,
    normalize_eq_iff, details.ofJson?_toJson⟩

end Timeout

end PathLock
