import PathLock.Proofs.Text.Blank
import PathLock.Proofs.Text.Numeral
import PathLock.Timeout

/-!
# The grammar of timeout headers

Which headers there are is said by `Timeout.Spells`, without the steps in which a header is read:
an empty header and the word `Infinite` stand for no end, the mark `Second-` and a decimal numeral
for that many seconds, as long as the number fits. Blanks around the first alternative do not count,
nor does anything after the first comma. These headers are read, and no others
(`Timeout.parse_reads_grammar`).
-/

namespace PathLock.Timeout

open Text

/-! ## The headers that there are -/

/-- What is left of the header before its first comma, without the blanks around it. -/
def FirstIs (alternative header : String) : Prop :=
  ∃ front more : List Char, header.toList = front ++ more ∧ ',' ∉ front ∧
    (more = [] ∨ more.head? = some ',') ∧ IsCore alternative.toList front

/-- The header stands for the timeout. -/
inductive Spells (header : String) : Timeout → Prop
  | empty (h : header = "") : Spells header infinite
  | word (h : FirstIs "Infinite" header) : Spells header infinite
  | number {digits : String} {n : UInt32} (h : FirstIs ("Second-" ++ digits) header)
      (hdigits : IsNumeral digits.toList) (hvalue : decimalValue digits.toList = n.toNat) :
      Spells header (seconds n)

variable {header alternative : String} {timeout : Timeout} {n : UInt32}

/-! ## Reading an alternative -/

/-- Up to the first comma there is one text only. -/
theorem takeWhile_eq_of_split {front more : List Char} (hfront : ',' ∉ front)
    (hmore : more = [] ∨ more.head? = some ',') :
    (front ++ more).takeWhile (· ≠ ',') = front := by
  have hall : ∀ c ∈ front, decide (c ≠ ',') = true := by
    intro c hc
    rw [decide_eq_true_eq]
    rintro rfl
    exact hfront hc
  rw [List.takeWhile_append_of_pos hall]
  rcases hmore with rfl | hmore
  · simp
  · cases more with
    | nil => simp
    | cons c more =>
      obtain rfl := Option.some.inj hmore
      simp

theorem firstIs_iff :
    FirstIs alternative header ↔
      trim (header.toList.takeWhile (· ≠ ',')) = alternative.toList := by
  constructor
  · rintro ⟨front, more, hheader, hfront, hmore, hcore⟩
    rw [hheader, takeWhile_eq_of_split hfront hmore]
    exact hcore.trim_eq
  · intro htrim
    refine ⟨_, header.toList.dropWhile (· ≠ ','), List.takeWhile_append_dropWhile.symm, ?_, ?_,
      trim_eq_iff.1 htrim⟩
    · intro hcomma
      simpa using List.mem_takeWhile_imp hcomma
    · cases hmore : header.toList.dropWhile (· ≠ ',') with
      | nil => exact .inl rfl
      | cons c more =>
        right
        have hne : header.toList.dropWhile (· ≠ ',') ≠ [] := by
          rw [hmore]
          exact List.cons_ne_nil c more
        have hc := List.head_dropWhile_not (· ≠ ',') hne
        simp only [hmore, List.head_cons] at hc
        simpa using hc

theorem toList_number (digits : String) :
    ("Second-" ++ digits).toList = secondsMark ++ digits.toList := by
  rw [String.toList_append]
  rfl

/-- What follows the mark must be a numeral, and its value a number of seconds. -/
theorem ofAlternative?_number {digits : List Char} :
    ofAlternative? (secondsMark ++ digits) = some (seconds n) ↔
      IsNumeral digits ∧ decimalValue digits = n.toNat := by
  have hword : secondsMark ++ digits ≠ infiniteWord := by
    intro h
    exact absurd (List.cons.inj h).1 (by decide)
  have hmark : secondsMark.isPrefixOf (secondsMark ++ digits) = true :=
    List.isPrefixOf_iff_prefix.2 (List.prefix_append _ _)
  rw [← readDecimal?_eq_some_iff]
  unfold ofAlternative?
  rw [if_neg hword, if_pos hmark, List.drop_left]
  cases readDecimal? digits with
  | none => simp
  | some k =>
    dsimp only
    rw [Option.some.injEq]
    split_ifs with hlt
    · rw [Option.some.injEq, seconds.injEq, ← UInt32.toNat_inj, UInt32.toNat_ofNat_of_lt' hlt]
    · refine iff_of_false (by simp) ?_
      rintro rfl
      exact hlt n.toNat_lt

theorem ofAlternative?_eq_infinite {text : List Char} :
    ofAlternative? text = some infinite ↔ text = "Infinite".toList := by
  unfold ofAlternative?
  split_ifs with hword hmark
  · exact iff_of_true rfl hword
  · refine iff_of_false ?_ hword
    split
    · split_ifs <;> simp
    · simp
  · exact iff_of_false (by simp) hword

theorem ofAlternative?_eq_seconds {text : List Char} :
    ofAlternative? text = some (seconds n) ↔
      ∃ digits : String, text = ("Second-" ++ digits).toList ∧ IsNumeral digits.toList ∧
        decimalValue digits.toList = n.toNat := by
  constructor
  · intro h
    have hmark : secondsMark <+: text := by
      by_contra hnone
      rw [← List.isPrefixOf_iff_prefix] at hnone
      unfold ofAlternative? at h
      rw [if_neg hnone] at h
      split_ifs at h
      simp at h
    obtain ⟨digits, rfl⟩ := hmark
    refine ⟨String.ofList digits, ?_⟩
    rw [toList_number, String.toList_ofList]
    exact ⟨rfl, ofAlternative?_number.1 h⟩
  · rintro ⟨digits, rfl, h⟩
    rw [toList_number]
    exact ofAlternative?_number.2 h

/-! ## Reading a header -/

theorem ofHeaderChars?_of_ne_nil {header : List Char} (h : header ≠ []) :
    ofHeaderChars? header = ofAlternative? (trim (header.takeWhile (· ≠ ','))) := if_neg h

/-- A header is read as the timeout that it stands for. -/
theorem ofHeaderChars?_eq_some_iff :
    ofHeaderChars? header.toList = some timeout ↔ Spells header timeout := by
  by_cases hempty : header = ""
  · subst hempty
    have hfirst : ∀ alternative : String, FirstIs alternative "" → alternative.toList = [] := by
      intro alternative h
      exact (firstIs_iff.1 h).symm
    have hread : ofHeaderChars? "".toList = some infinite := rfl
    rw [hread, Option.some.injEq]
    constructor
    · rintro rfl
      exact .empty rfl
    · rintro (_ | _ | ⟨h, -, -⟩)
      · rfl
      · rfl
      · have hdigits := hfirst _ h
        rw [toList_number] at hdigits
        exact absurd hdigits (by simp [secondsMark])
  · have hne : header.toList ≠ [] := by simpa using hempty
    rw [ofHeaderChars?_of_ne_nil hne]
    cases timeout with
    | infinite =>
      rw [ofAlternative?_eq_infinite, ← firstIs_iff]
      constructor
      · intro h
        exact .word h
      · rintro (h | h)
        · exact absurd h hempty
        · exact h
    | seconds n =>
      rw [ofAlternative?_eq_seconds]
      simp only [← firstIs_iff]
      constructor
      · rintro ⟨digits, h, hdigits, hvalue⟩
        exact .number h hdigits hvalue
      · rintro (_ | _ | ⟨h, hdigits, hvalue⟩)
        exact ⟨_, h, hdigits, hvalue⟩

theorem parse_eq_ok_iff : parse header = .ok timeout ↔ Spells header timeout := by
  rw [← ofHeaderChars?_eq_some_iff]
  unfold parse
  cases ofHeaderChars? header.toList <;> simp

theorem parse_eq_error_iff {e : LockError} :
    parse header = .error e ↔ e = .invalidTimeout header ∧ ∀ timeout, ¬ Spells header timeout := by
  simp only [← ofHeaderChars?_eq_some_iff]
  unfold parse
  cases ofHeaderChars? header.toList with
  | none => simp [eq_comm]
  | some timeout => simp

theorem takeWhile_append_comma (front more : List Char) :
    (front ++ ',' :: more).takeWhile (· ≠ ',') = front.takeWhile (· ≠ ',') := by
  induction front with
  | nil => simp
  | cons c front ih =>
    rw [List.cons_append, List.takeWhile_cons, List.takeWhile_cons, ih]

/-- What a header with a comma stands for is a matter of what comes before the comma. -/
theorem spells_append_comma {front more : String} :
    Spells (front ++ "," ++ more) timeout ↔
      ofAlternative? (trim (front.toList.takeWhile (· ≠ ','))) = some timeout := by
  have hchars : (front ++ "," ++ more).toList = front.toList ++ ',' :: more.toList := by
    simp [String.toList_append]
  rw [← ofHeaderChars?_eq_some_iff, hchars, ofHeaderChars?_of_ne_nil (by simp),
    takeWhile_append_comma]

/-- The headers of the grammar are read, each as what it stands for, and all others are refused and
quoted as they are. What comes after a comma makes no difference. -/
theorem parse_reads_grammar (header : String) :
    (∀ timeout, parse header = .ok timeout ↔ Spells header timeout) ∧
      (∀ e, parse header = .error e ↔
        e = .invalidTimeout header ∧ ∀ timeout, ¬ Spells header timeout) ∧
      ∀ more more' timeout, parse (header ++ "," ++ more) = .ok timeout ↔
        parse (header ++ "," ++ more') = .ok timeout := by
  refine ⟨fun timeout => parse_eq_ok_iff, fun e => parse_eq_error_iff, ?_⟩
  intro more more' timeout
  rw [parse_eq_ok_iff, parse_eq_ok_iff, spells_append_comma, spells_append_comma]

-- The first alternative counts, and a blank header is not an empty one.
example : parse " Second-007 ,Infinite" = .ok (seconds 7) ∧ parse "" = .ok infinite ∧
    parse " " = .error (.invalidTimeout " ") := by decide +kernel

end PathLock.Timeout
