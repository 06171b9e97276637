import PathLock.Proofs.Yaml.Characters

/-!
# Plain scalars are read back

A plain scalar ends at a line break if nothing is on further lines that belongs to it, and a plain key
at its colon. Inside of what is written plain there is neither a word that starts a comment nor a
colon at the end of a word.

* `Scalar.plain?_word`: a word is read as it is.
* `Scalar.plain?_text`: what is written plain is read back.
-/

namespace PathLock.Yaml

variable {c : Char} {text word rest : List Char} {mark : Mark} {gap : Gap}

theorem isGap_of_isWordChar (h : isWordChar c = true) : isGap c = false ∧ c ≠ ':' := by
  constructor
  · rw [Bool.eq_false_iff]
    intro hgap
    unfold isGap isBlank isBreak at hgap
    simp only [Bool.or_eq_true, beq_iff_eq] at hgap
    obtain (rfl | rfl) | (rfl | rfl) | rfl := hgap <;> exact absurd h (by decide)
  · rintro rfl
    exact absurd h (by decide)

theorem wordEnds_append_newline (text rest : List Char) :
    wordEnds (text ++ '\n' :: rest) = wordEnds text := by
  cases text <;> rfl

namespace Scalar

variable {s : Surroundings}

theorem plain?_space : plain? s (' ' :: rest) gap mark =
    plain? s rest (gap.push ' ') (mark.after ' ') := by
  conv_lhs => unfold plain?
  exact (if_pos (by decide)).trans (if_neg (by simp))

/-- A character of a word goes on with the word, or starts one that does not end the scalar. -/
theorem plain?_char (hflow : s.inFlow = false) (hc : isGap c = false)
    (hcolon : (c == ':' && wordEnds rest) = false)
    (hgap : gap = .empty ∨ endsBefore s mark (c :: rest) = false) :
    plain? s (c :: rest) gap mark = (plain? s rest .empty (mark.after c)).map fun p =>
      { p with text := gap.text ++ c :: p.text } := by
  have hends : ¬ (gap ≠ .empty ∧ endsBefore s mark (c :: rest) = true) := by
    rintro ⟨hne, hends⟩
    obtain hempty | hnot := hgap
    · exact hne hempty
    · exact absurd hends (by rw [hnot]; exact Bool.false_ne_true)
  conv_lhs => unfold plain?
  rw [if_neg (by rw [hc]; exact Bool.false_ne_true), if_neg hends,
    if_neg (by simp [isMisplacedColon, hflow]), if_neg (by simp [endsAt, hcolon, hflow])]

/-- A word is read as it is. -/
theorem plain?_word (hflow : s.inFlow = false) (hword : ∀ c ∈ word, isWordChar c = true)
    (mark : Mark) : plain? s (word ++ rest) .empty mark =
      (plain? s rest .empty (word.foldl Mark.after mark)).map fun p =>
        { p with text := word ++ p.text } := by
  induction word generalizing mark with
  | nil => simp
  | cons c word ih =>
    obtain ⟨hc, hcolon⟩ := isGap_of_isWordChar (hword c List.mem_cons_self)
    rw [List.cons_append, plain?_char hflow hc (by simp [hcolon]) (.inl rfl),
      ih fun d hd => hword d (List.mem_cons_of_mem _ hd), Option.map_map]
    rfl

/-- A plain key ends at its colon. -/
theorem plain?_colon (hflow : s.inFlow = false) (hrest : wordEnds rest = true) :
    plain? s (':' :: rest) .empty mark = some ⟨[], ⟨':' :: rest, mark⟩, false⟩ := by
  conv_lhs => unfold plain?
  rw [if_neg (by decide), if_neg (by simp), if_neg (by simp [isMisplacedColon, hflow]),
    if_pos (by simp [endsAt, hrest])]
  rfl

/-- A plain scalar ends with its line if the next one has nothing that belongs to it. -/
theorem plain?_lineEnd (hflow : s.inFlow = false) (hindent : 0 < s.indent)
    (hrest : ∀ c ∈ rest.head?, isGap c = false) (gap : Gap) (mark : Mark) :
    plain? s ('\n' :: rest) gap mark = some ⟨[], ⟨rest, mark.after '\n'⟩, true⟩ := by
  conv_lhs => unfold plain?
  refine (if_pos (by decide)).trans ((if_neg (by simp)).trans ?_)
  have hbreaks : (gap.push '\n').hasBreaks = true := by cases gap <;> rfl
  cases rest with
  | nil =>
    unfold plain?
    rw [hbreaks]
  | cons c rest =>
    have hends : gap.push '\n' ≠ .empty ∧
        endsBefore s (mark.after '\n') (c :: rest) = true := by
      refine ⟨fun hempty => ?_, ?_⟩
      · rw [hempty] at hbreaks
        exact absurd hbreaks (by simp [Gap.hasBreaks])
      · unfold endsBefore
        have hcolumn : ((mark.after '\n').column : Int) = 0 := rfl
        simp [hflow, hcolumn, hindent]
    unfold plain?
    rw [if_neg (by rw [hrest c rfl]; exact Bool.false_ne_true), if_pos hends, hbreaks]

/-- The spaces before a text are a gap inside of its line. -/
structure InLine (gap : Gap) (text : List Char) : Prop where
  hasBreaks : gap.hasBreaks = false
  nil : text = [] → gap = .empty
  head : gap = .empty ∨ ∀ c ∈ text.head?, c ≠ '#'

theorem inLine_empty (text : List Char) : InLine .empty text := ⟨rfl, fun _ => rfl, .inl rfl⟩

/-- One character of a plain scalar, which may be one of the gap before the next word. -/
theorem plain?_next (hflow : s.inFlow = false) (hindent : s.indent ≤ 1)
    (hc : isPrintable c = true) (hbreak : isBreak c = false)
    (hcolon : (c == ':' && wordEnds text) = false)
    (hhash : isGap c = true → ∀ d ∈ text.head?, d ≠ '#') (hlast : text = [] → c ≠ ' ')
    (hgap : InLine gap (c :: text)) (rest : List Char) (hcolumn : 0 < mark.column) :
    ∃ gap' before, InLine gap' text ∧ before ++ gap'.text = gap.text ++ [c] ∧
      plain? s (c :: (text ++ '\n' :: rest)) gap mark =
        (plain? s (text ++ '\n' :: rest) gap' (mark.after c)).map fun p =>
          { p with text := before ++ p.text } := by
  by_cases hspace : c = ' '
  · subst hspace
    obtain ⟨hpush, htext⟩ := Gap.push_blank hgap.hasBreaks hbreak
    refine ⟨gap.push ' ', [], ⟨hpush, fun hnil => absurd rfl (hlast hnil), .inr (hhash rfl)⟩, htext,
      ?_⟩
    rw [plain?_space]
    simp
  · have hword : isGap c = false := by
      rw [isGap_of_isPrintable hc, hbreak, Bool.or_false, beq_eq_false_iff_ne]
      exact hspace
    -- Behind the margin a word ends the scalar only if it starts a comment.
    have hends : gap = .empty ∨ endsBefore s mark (c :: (text ++ '\n' :: rest)) = false := by
      refine hgap.head.imp_right fun hne => ?_
      have hcomment : c ≠ '#' := hne c rfl
      have hfar : s.indent ≤ (mark.column : Int) := by omega
      unfold endsBefore
      rw [startsMarker_of_ne_zero (Nat.ne_of_gt hcolumn)]
      simp [hcomment, hfar]
    refine ⟨.empty, gap.text ++ [c], inLine_empty text, List.append_nil _, ?_⟩
    rw [plain?_char hflow hword (by rw [wordEnds_append_newline]; exact hcolon) hends]
    simp only [List.append_assoc, List.singleton_append]

/-- What is written plain is read back, up to and with the line break. -/
theorem plain?_text (rest : List Char) (gap : Gap) (mark : Mark) (hflow : s.inFlow = false)
    (hindent : s.indent ≤ 1)
    (hend : ∀ mark, plain? s ('\n' :: rest) .empty mark =
      some ⟨[], ⟨rest, mark.after '\n'⟩, true⟩)
    (hprint : ∀ c ∈ text, isPrintable c = true) (hbreak : ∀ c ∈ text, isBreak c = false)
    (hcolon : hasWordColon text = false) (hhash : hasPair isGap (· == '#') text = false)
    (hlast : ∀ c ∈ text.getLast?, c ≠ ' ') (hgap : InLine gap text) (hcolumn : 0 < mark.column) :
    ∃ mark', plain? s (text ++ '\n' :: rest) gap mark =
      some ⟨gap.text ++ text, ⟨rest, mark'⟩, true⟩ := by
  induction text generalizing gap mark with
  | nil =>
    rw [hgap.nil rfl]
    exact ⟨mark.after '\n', hend mark⟩
  | cons c text ih =>
    obtain ⟨hc, hprint⟩ := List.forall_mem_cons.1 hprint
    obtain ⟨hcbreak, hbreak⟩ := List.forall_mem_cons.1 hbreak
    rw [hasWordColon, Bool.or_eq_false_iff] at hcolon
    obtain ⟨hhashc, hhash⟩ := not_hasPair_cons hhash
    have hlastc : text = [] → c ≠ ' ' := by
      rintro rfl
      exact hlast c rfl
    have hlast' : ∀ d ∈ text.getLast?, d ≠ ' ' := by
      intro d hd
      cases text with
      | nil => exact absurd hd (by simp)
      | cons e text => exact hlast d (by rwa [List.getLast?_cons_cons])
    obtain ⟨gap', front, hgap', hfront, hchar⟩ := plain?_next hflow hindent hc hcbreak hcolon.1
      (fun hgap d hd => by simpa using hhashc hgap d hd) hlastc hgap rest hcolumn
    obtain ⟨mark', hread⟩ := ih gap' (mark.after c) hprint hbreak hcolon.2 hhash hlast' hgap'
      (Mark.column_after_pos hcbreak)
    refine ⟨mark', ?_⟩
    rw [List.cons_append, hchar, hread, Option.map_some]
    simp only
    rw [← List.append_assoc, hfront, List.append_assoc, List.singleton_append]

end Scalar

end PathLock.Yaml
