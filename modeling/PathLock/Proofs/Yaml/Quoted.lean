import Mathlib.Tactic.Ring
import PathLock.Proofs.Yaml.Characters

/-!
# Quoted scalars are read back

Both readers keep the gap since the last word apart, since it is only known at the next word what it
stands for. What is written in quotes puts gaps where they are read as they are: line breaks have no
blank beside them but the margin, and in double quotes there are none at all.

* `Scalar.single?_singleInside`, `Scalar.double?_flatMap_doubleChar`.
-/

namespace PathLock.Yaml

variable {c : Char} {text rest : List Char} {mark : Mark} {gap : Gap}

namespace Scalar

theorem not_startsMarker (hcolumn : gap.hasBreaks = true → mark.column ≠ 0) (text : List Char) :
    ¬ (gap.hasBreaks = true ∧ startsMarker mark.column text = true) := by
  rintro ⟨hbreaks, hmarker⟩
  rw [startsMarker_of_ne_zero (hcolumn hbreaks)] at hmarker
  exact Bool.false_ne_true hmarker

/-! ## Single quotes -/

theorem single?_gap (hc : isGap c = true) :
    single? (c :: rest) gap mark = single? rest (gap.push c) (mark.after c) := by
  conv_lhs => unfold single?
  exact if_pos hc

theorem single?_word (hc : isGap c = false) (hquote : c ≠ '\'')
    (hcolumn : gap.hasBreaks = true → mark.column ≠ 0) :
    single? (c :: rest) gap mark = (single? rest .empty (mark.after c)).map fun (text, behind) =>
      (gap.text ++ c :: text, behind) := by
  conv_lhs => unfold single?
  rw [if_neg (by rw [hc]; exact Bool.false_ne_true), if_neg (not_startsMarker hcolumn _),
    if_neg hquote]

theorem single?_quote (hcolumn : gap.hasBreaks = true → mark.column ≠ 0) :
    single? ('\'' :: '\'' :: rest) gap mark =
      (single? rest .empty ((mark.after '\'').after '\'')).map fun (text, behind) =>
        (gap.text ++ '\'' :: text, behind) := by
  conv_lhs => unfold single?
  rw [if_neg (by decide), if_neg (not_startsMarker hcolumn _), if_pos rfl]
  rfl

theorem single?_end (hcolumn : gap.hasBreaks = true → mark.column ≠ 0)
    (hrest : ∀ c ∈ rest.head?, c ≠ '\'') :
    single? ('\'' :: rest) gap mark = some (gap.text, ⟨rest, mark.after '\''⟩) := by
  conv_lhs => unfold single?
  rw [if_neg (by decide), if_neg (not_startsMarker hcolumn _), if_pos rfl]
  split
  · exact absurd rfl (hrest _ rfl)
  · rfl

/-- The gap before a text, at the start of a new line or not, is read as it was written. -/
def GapKept (gap : Gap) (newLine : Bool) (text : List Char) : Prop :=
  if newLine then
    ∃ first more, gap = .breaks (some first) more ∧ first ≠ '\n' ∧ ∀ c ∈ text.head?, c ≠ ' '
  else gap = .empty ∨ ∃ bs, gap = .blanks bs ∧ ∀ c ∈ text.head?, isBreak c = false

theorem gapKept_empty (text : List Char) : GapKept .empty false text := .inl rfl

theorem GapKept.hasBreaks {newLine : Bool} (h : GapKept gap newLine text) :
    gap.hasBreaks = newLine := by
  cases newLine with
  | true =>
    obtain ⟨first, more, rfl, _⟩ := h
    rfl
  | false =>
    obtain rfl | ⟨bs, rfl, _⟩ := h <;> rfl

/-- A line break goes on with the line breaks before it, and keeps them as they are. -/
theorem GapKept.push_break {newLine : Bool} (h : GapKept gap newLine (c :: text))
    (hc : isBreak c = true) (hfeed : c ≠ '\n') (hnext : ∀ d ∈ text.head?, d ≠ ' ') :
    GapKept (gap.push c) true text ∧ (gap.push c).text = gap.text ++ [c] := by
  cases newLine with
  | true =>
    obtain ⟨first, more, rfl, hfirst, _⟩ := h
    have hpush : (Gap.breaks (some first) more).push c = .breaks (some first) (more ++ [c]) :=
      if_pos hc
    rw [hpush]
    refine ⟨⟨first, more ++ [c], rfl, hfirst, hnext⟩, ?_⟩
    simp [Gap.text, hfirst]
  | false =>
    obtain rfl | ⟨bs, _, hbreak⟩ := h
    · have hpush : Gap.empty.push c = .breaks (some c) [] := if_pos hc
      rw [hpush]
      refine ⟨⟨c, [], rfl, hfeed, hnext⟩, ?_⟩
      simp [Gap.text, hfeed]
    · exact absurd hc (by rw [hbreak c rfl]; exact Bool.false_ne_true)

theorem GapKept.push_space (h : GapKept gap false (' ' :: text))
    (hnext : ∀ d ∈ text.head?, isBreak d = false) :
    GapKept (gap.push ' ') false text ∧ (gap.push ' ').text = gap.text ++ [' '] := by
  refine ⟨?_, (Gap.push_blank h.hasBreaks (by decide)).2⟩
  obtain rfl | ⟨bs, rfl, _⟩ := h
  · exact .inr ⟨[' '], rfl, hnext⟩
  · exact .inr ⟨bs ++ [' '], rfl, hnext⟩

/-- The margin of a new line is skipped, and leaves a column in which no marker starts. -/
theorem single?_margin {newLine : Bool} (hgap : gap.hasBreaks = newLine)
    (rest : List Char) (mark : Mark) :
    ∃ mark' : Mark, (gap.hasBreaks = true → mark'.column ≠ 0) ∧
      single? ((if newLine then margin else []) ++ rest) gap mark = single? rest gap mark' := by
  cases newLine with
  | false => exact ⟨mark, fun hbreaks => absurd hbreaks (by rw [hgap]; exact Bool.false_ne_true), rfl⟩
  | true =>
    have hpush : gap.push ' ' = gap := Gap.push_of_hasBreaks hgap (by decide)
    refine ⟨(mark.after ' ').after ' ',
      fun _ => Nat.ne_of_gt (Mark.column_after_pos (by decide)), ?_⟩
    show single? (' ' :: ' ' :: rest) gap mark = _
    rw [single?_gap (by decide), single?_gap (by decide), hpush, hpush]

/-- One character inside of single quotes, which may be one of the gap before the next word. -/
theorem single?_char {newLine : Bool} (hc : isPrintable c = true) (hfeed : c ≠ '\n')
    (hafter : isBreak c = true → ∀ d ∈ text.head?, d ≠ ' ')
    (hbefore : c = ' ' → ∀ d ∈ text.head?, isBreak d = false)
    (hgap : GapKept gap newLine (c :: text)) (rest : List Char) (mark : Mark) :
    ∃ gap' newLine' before mark', GapKept gap' newLine' text ∧
      before ++ gap'.text = gap.text ++ [c] ∧
      single? (singleInside newLine (c :: text) ++ rest) gap mark =
        (single? (singleInside newLine' text ++ rest) gap' mark').map fun (text, behind) =>
          (before ++ text, behind) := by
  by_cases hbreak : isBreak c = true
  · obtain ⟨hkept, htext⟩ := hgap.push_break hbreak hfeed (hafter hbreak)
    refine ⟨gap.push c, true, [], mark.after c, hkept, htext, ?_⟩
    rw [singleInside, if_pos hbreak, List.cons_append, single?_gap (isGap_of_isBreak hbreak)]
    simp
  · obtain ⟨mark', hcolumn, hmargin⟩ := single?_margin hgap.hasBreaks
      ((if c = '\'' then [c, c] else [c]) ++ (singleInside false text ++ rest)) mark
    rw [singleInside, if_neg hbreak, List.append_assoc, List.append_assoc, hmargin]
    by_cases hspace : c = ' '
    · subst hspace
      have hline : newLine = false := by
        cases newLine with
        | false => rfl
        | true =>
          obtain ⟨_, _, _, _, hhead⟩ := hgap
          exact absurd rfl (hhead _ rfl)
      subst hline
      obtain ⟨hkept, htext⟩ := hgap.push_space (hbefore rfl)
      refine ⟨gap.push ' ', false, [], mark'.after ' ', hkept, htext, ?_⟩
      rw [if_neg (by decide), List.singleton_append, single?_gap (by decide)]
      simp
    · have hword : isGap c = false := by
        rw [isGap_of_isPrintable hc, Bool.or_eq_false_iff, beq_eq_false_iff_ne]
        exact ⟨hspace, by simpa using hbreak⟩
      -- The gap is put out with the character, quoted or not.
      suffices hread : ∃ mark'', single? ((if c = '\'' then [c, c] else [c]) ++
          (singleInside false text ++ rest)) gap mark' =
            (single? (singleInside false text ++ rest) .empty mark'').map fun (text, behind) =>
              (gap.text ++ c :: text, behind) by
        obtain ⟨mark'', hread⟩ := hread
        refine ⟨.empty, false, gap.text ++ [c], mark'', gapKept_empty text, List.append_nil _, ?_⟩
        rw [hread]
        simp only [List.append_assoc, List.singleton_append]
      by_cases hquote : c = '\''
      · subst hquote
        exact ⟨(mark'.after '\'').after '\'', single?_quote hcolumn⟩
      · refine ⟨mark'.after c, ?_⟩
        rw [if_neg hquote, List.singleton_append, single?_word hword hquote hcolumn]

/-- What is written in single quotes is read back. -/
theorem single?_singleInside (rest : List Char) (hrest : ∀ c ∈ rest.head?, c ≠ '\'')
    (hprint : ∀ c ∈ text, isPrintable c = true) (hfeed : '\n' ∉ text)
    (hafter : hasPair isBreak (· == ' ') text = false)
    (hbefore : hasPair (· == ' ') isBreak text = false) {newLine : Bool}
    (hgap : GapKept gap newLine text) (mark : Mark) :
    ∃ mark', single? (singleInside newLine text ++ '\'' :: rest) gap mark =
      some (gap.text ++ text, ⟨rest, mark'⟩) := by
  induction text generalizing gap newLine mark with
  | nil =>
    obtain ⟨mark', hcolumn, hmargin⟩ := single?_margin hgap.hasBreaks ('\'' :: rest) mark
    refine ⟨mark'.after '\'', ?_⟩
    show single? ((if newLine then margin else []) ++ '\'' :: rest) gap mark = _
    rw [hmargin, single?_end hcolumn hrest, List.append_nil]
  | cons c text ih =>
    obtain ⟨hc, hprint⟩ := List.forall_mem_cons.1 hprint
    obtain ⟨hcfeed, hfeed⟩ := not_or.1 fun h => hfeed (List.mem_cons.2 h)
    obtain ⟨hafterc, hafter⟩ := not_hasPair_cons hafter
    obtain ⟨hbeforec, hbefore⟩ := not_hasPair_cons hbefore
    obtain ⟨gap', newLine', front, mark', hgap', hfront, hchar⟩ :=
      single?_char hc (Ne.symm hcfeed) (fun hbreak d hd => by simpa using hafterc hbreak d hd)
        (fun hspace => hbeforec (by simp [hspace])) hgap ('\'' :: rest) mark
    obtain ⟨mark'', hread⟩ := ih hprint hfeed hafter hbefore hgap' mark'
    refine ⟨mark'', ?_⟩
    rw [hchar, hread, Option.map_some]
    simp only
    rw [← List.append_assoc, hfront, List.append_assoc, List.singleton_append]

/-! ## Double quotes -/

theorem double?_gap (hc : isGap c = true) :
    double? (c :: rest) (.words gap) mark = double? rest (.words (gap.push c)) (mark.after c) := by
  conv_lhs => unfold double?
  exact if_pos hc

theorem double?_word (hgap : gap.hasBreaks = false) (hc : isGap c = false) (hquote : c ≠ '"')
    (hescape : c ≠ '\\') :
    double? (c :: rest) (.words gap) mark =
      (double? rest (.words .empty) (mark.after c)).map fun (text, behind) =>
        (gap.text ++ c :: text, behind) := by
  conv_lhs => unfold double?
  rw [if_neg (by rw [hc]; exact Bool.false_ne_true), if_neg (by simp [hgap]), if_neg hquote,
    if_neg hescape]

theorem double?_end (hgap : gap.hasBreaks = false) :
    double? ('"' :: rest) (.words gap) mark = some (gap.text, ⟨rest, mark.after '"'⟩) := by
  conv_lhs => unfold double?
  rw [if_neg (by decide), if_neg (by simp [hgap]), if_pos rfl]

theorem double?_letter {letter : Char} (hgap : gap.hasBreaks = false)
    (hbreak : isBreak letter = false) (hletter : escaped? letter = some c) :
    double? ('\\' :: letter :: rest) (.words gap) mark =
      (double? rest (.words .empty) ((mark.after '\\').after letter)).map fun (text, behind) =>
        (gap.text ++ c :: text, behind) := by
  conv_lhs => unfold double?
  rw [if_neg (by decide), if_neg (by simp [hgap]), if_neg (by decide), if_pos rfl]
  dsimp only
  rw [if_neg (by rw [hbreak]; exact Bool.false_ne_true), hletter]

theorem double?_code {letter : Char} {length : ℕ} (hgap : gap.hasBreaks = false)
    (hbreak : isBreak letter = false) (hletter : escaped? letter = none)
    (hlength : codeLength? letter = some (length + 1)) :
    double? ('\\' :: letter :: rest) (.words gap) mark =
      (double? rest (.code length 0) ((mark.after '\\').after letter)).map fun (text, behind) =>
        (gap.text ++ text, behind) := by
  conv_lhs => unfold double?
  rw [if_neg (by decide), if_neg (by simp [hgap]), if_neg (by decide), if_pos rfl]
  dsimp only
  rw [if_neg (by rw [hbreak]; exact Bool.false_ne_true), hletter, hlength]
  rfl

theorem hexValue?_hexDigit {n : ℕ} (hn : n < 16) : hexValue? (hexDigit n) = some n := by
  revert n
  decide

theorem charOfCode?_toNat (c : Char) : charOfCode? c.toNat = some c := by
  unfold charOfCode?
  rw [if_pos (show c.toNat.isValidChar from c.valid), Char.ofNat_toNat]

theorem double?_digit {left value d : ℕ} (hd : hexValue? c = some d) :
    double? (c :: rest) (.code (left + 1) value) mark =
      double? rest (.code left (16 * value + d)) (mark.after c) := by
  conv_lhs => unfold double?
  rw [hd]
  exact if_neg (Nat.succ_ne_zero left)

theorem double?_lastDigit {value d : ℕ} (hd : hexValue? c = some d) :
    double? (c :: rest) (.code 0 value) mark = (charOfCode? (16 * value + d)).bind fun a =>
      (double? rest (.words .empty) (mark.after c)).map fun (text, behind) => (a :: text, behind) := by
  conv_lhs => unfold double?
  rw [hd]
  refine (if_pos rfl).trans ?_
  cases charOfCode? (16 * value + d) <;> rfl

/-- The digits of a code point are read as the code point. -/
theorem double?_hexDigits (left n value : ℕ) (rest : List Char) (mark : Mark) :
    ∃ mark', double? (hexDigits (left + 1) n ++ rest) (.code left value) mark =
      (charOfCode? (16 ^ (left + 1) * value + n % 16 ^ (left + 1))).bind fun a =>
        (double? rest (.words .empty) mark').map fun (text, behind) => (a :: text, behind) := by
  induction left generalizing value mark with
  | zero =>
    have hdigit : n / 1 % 16 < 16 := Nat.mod_lt _ (by decide)
    refine ⟨mark.after (hexDigit (n / 1 % 16)), ?_⟩
    show double? (hexDigit (n / 1 % 16) :: rest) (.code 0 value) mark = _
    rw [double?_lastDigit (hexValue?_hexDigit hdigit), Nat.div_one, Nat.zero_add, Nat.pow_one]
  | succ left ih =>
    have hdigit : n / 16 ^ (left + 1) % 16 < 16 := Nat.mod_lt _ (by decide)
    obtain ⟨mark', hread⟩ := ih (16 * value + n / 16 ^ (left + 1) % 16)
      (mark.after (hexDigit (n / 16 ^ (left + 1) % 16)))
    have hvalue : 16 ^ (left + 1) * (16 * value + n / 16 ^ (left + 1) % 16) +
        n % 16 ^ (left + 1) = 16 ^ (left + 1 + 1) * value + n % 16 ^ (left + 1 + 1) := by
      rw [Nat.mod_pow_succ (k := left + 1)]
      ring
    refine ⟨mark', ?_⟩
    show double? (hexDigit (n / 16 ^ (left + 1) % 16) :: (hexDigits (left + 1) n ++ rest)) _ _ = _
    rw [double?_digit (hexValue?_hexDigit hdigit), hread, hvalue]

/-- Every letter that is written for a character stands for it. -/
theorem escaped?_of_escapeLetter? {letter : Char} (h : escapeLetter? c = some letter) :
    escaped? letter = some c ∧ isBreak letter = false := by
  unfold escapeLetter? at h
  split at h <;> cases h <;> exact ⟨rfl, rfl⟩

/-- A character that needs no letter is no quote, no backslash and no line break. -/
theorem ne_of_escapeLetter?_eq_none (h : escapeLetter? c = none) :
    c ≠ '"' ∧ c ≠ '\\' ∧ isBreak c = false := by
  refine ⟨?_, ?_, ?_⟩
  · rintro rfl
    exact absurd h (by decide)
  · rintro rfl
    exact absurd h (by decide)
  · rw [Bool.eq_false_iff]
    intro hbreak
    unfold isBreak at hbreak
    simp only [Bool.or_eq_true, beq_iff_eq] at hbreak
    obtain (rfl | rfl) | rfl := hbreak <;> exact absurd h (by decide)

/-- A code point with few enough digits is read back. -/
theorem double?_codePoint {letter : Char} {length : ℕ} (hgap : gap.hasBreaks = false)
    (hbreak : isBreak letter = false) (hletter : escaped? letter = none)
    (hlength : codeLength? letter = some (length + 1)) (hc : c.toNat < 16 ^ (length + 1))
    (rest : List Char) (mark : Mark) :
    ∃ mark', double? ('\\' :: letter :: hexDigits (length + 1) c.toNat ++ rest) (.words gap) mark =
      (double? rest (.words .empty) mark').map fun (text, behind) =>
        (gap.text ++ c :: text, behind) := by
  obtain ⟨mark', hread⟩ := double?_hexDigits length c.toNat 0 rest
    ((mark.after '\\').after letter)
  refine ⟨mark', ?_⟩
  rw [List.cons_append, List.cons_append, double?_code hgap hbreak hletter hlength, hread,
    Nat.mul_zero, Nat.zero_add, Nat.mod_eq_of_lt hc, charOfCode?_toNat, Option.bind_some, Option.map_map]
  rfl

/-- One character inside of double quotes. -/
theorem double?_doubleChar (hgap : gap.hasBreaks = false) (c : Char) (rest : List Char)
    (mark : Mark) : ∃ gap' before mark', gap'.hasBreaks = false ∧
      before ++ gap'.text = gap.text ++ [c] ∧
      double? (doubleChar c ++ rest) (.words gap) mark =
        (double? rest (.words gap') mark').map fun (text, behind) => (before ++ text, behind) := by
  have hone : ∀ {text : List Char}, (∃ mark', double? text (.words gap) mark =
      (double? rest (.words .empty) mark').map fun (text, behind) =>
        (gap.text ++ c :: text, behind)) → ∃ gap' before mark', gap'.hasBreaks = false ∧
      before ++ gap'.text = gap.text ++ [c] ∧ double? text (.words gap) mark =
        (double? rest (.words gap') mark').map fun (text, behind) => (before ++ text, behind) := by
    rintro text ⟨mark', hread⟩
    refine ⟨.empty, gap.text ++ [c], mark', rfl, List.append_nil _, ?_⟩
    rw [hread]
    simp only [List.append_assoc, List.singleton_append]
  unfold doubleChar
  cases hletter : escapeLetter? c with
  | some letter =>
    obtain ⟨hescaped, hbreak⟩ := escaped?_of_escapeLetter? hletter
    exact hone ⟨_, double?_letter hgap hbreak hescaped⟩
  | none =>
    obtain ⟨hquote, hescape, hbreak⟩ := ne_of_escapeLetter?_eq_none hletter
    dsimp only
    split_ifs with hprint hbyte hshort
    · by_cases hspace : c = ' '
      · subst hspace
        obtain ⟨hpush, htext⟩ := Gap.push_blank hgap hbreak
        refine ⟨gap.push ' ', [], mark.after ' ', hpush, htext, ?_⟩
        rw [List.singleton_append, double?_gap (by decide)]
        simp
      · have hword : isGap c = false := by
          rw [isGap_of_isPrintable hprint, hbreak, Bool.or_false, beq_eq_false_iff_ne]
          exact hspace
        exact hone ⟨_, double?_word hgap hword hquote hescape⟩
    · exact hone (double?_codePoint hgap rfl rfl rfl hbyte rest mark)
    · exact hone (double?_codePoint hgap rfl rfl rfl hshort rest mark)
    · have hlong : c.toNat < 16 ^ 8 := by
        have hvalid : c.toNat.isValidChar := c.valid
        unfold Nat.isValidChar at hvalid
        omega
      exact hone (double?_codePoint hgap rfl rfl rfl hlong rest mark)

/-- What is written in double quotes is read back. -/
theorem double?_flatMap_doubleChar (gap : Gap) (hgap : gap.hasBreaks = false) (text rest : List Char)
    (mark : Mark) : ∃ mark', double? (text.flatMap doubleChar ++ '"' :: rest) (.words gap) mark =
      some (gap.text ++ text, ⟨rest, mark'⟩) := by
  induction text generalizing gap mark with
  | nil => exact ⟨mark.after '"', by rw [List.append_nil]; exact double?_end hgap⟩
  | cons c text ih =>
    obtain ⟨gap', before, mark', hgap', hbefore, hchar⟩ :=
      double?_doubleChar hgap c (text.flatMap doubleChar ++ '"' :: rest) mark
    obtain ⟨mark'', hread⟩ := ih gap' hgap' mark'
    refine ⟨mark'', ?_⟩
    rw [List.flatMap_cons, List.append_assoc, hchar, hread, Option.map_some]
    simp only
    rw [← List.append_assoc, hbefore, List.append_assoc, List.singleton_append]

end Scalar

end PathLock.Yaml
