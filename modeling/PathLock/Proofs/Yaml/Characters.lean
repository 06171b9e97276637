import Mathlib.Data.List.Basic
import PathLock.Yaml.Writer

/-!
# The characters of written texts

What is written is read as it stands: `IsVerbatim` texts hold allowed characters only, and no line
break that is unified with another one.
-/

namespace PathLock.Yaml

variable {c : Char} {text : List Char} {mark : Mark} {gap : Gap}

/-- The characters of the text are allowed, and none is a line break in another spelling. -/
def IsVerbatim (text : List Char) : Prop :=
  ∀ c ∈ text, isAllowed c = true ∧ c ≠ '\r' ∧ c ≠ '\u0085'

theorem IsVerbatim.all_isAllowed (h : IsVerbatim text) : text.all isAllowed = true :=
  List.all_eq_true.2 fun c hc => (h c hc).1

theorem unifyBreaks_eq_self (h : IsVerbatim text) : unifyBreaks text = text := by
  induction text using unifyBreaks.induct with
  | case1 => rfl
  | case2 rest ih => exact absurd rfl (h _ List.mem_cons_self).2.1
  | case3 c rest hc ih =>
    obtain ⟨_, hreturn, hnext⟩ := h c List.mem_cons_self
    rw [unifyBreaks, if_neg (by simp [hreturn, hnext]),
      ih fun a ha => h a (List.mem_cons_of_mem _ ha)]
    exact hc

/-! ## Classes -/

theorem isVerbatim_of_isPrintable (h : ∀ c ∈ text, Scalar.isPrintable c = true) :
    IsVerbatim text := by
  intro c hc
  have hprint := h c hc
  refine ⟨?_, ?_, ?_⟩
  · unfold Scalar.isPrintable at hprint
    unfold isAllowed
    simp only [Bool.or_eq_true, Bool.and_eq_true, beq_iff_eq, decide_eq_true_eq] at hprint ⊢
    omega
  · rintro rfl
    exact absurd hprint (by decide)
  · rintro rfl
    exact absurd hprint (by decide)

/-- Spaces and line breaks are the only gaps in printable texts. -/
theorem isGap_of_isPrintable (h : Scalar.isPrintable c = true) :
    isGap c = (c == ' ' || isBreak c) := by
  have htab : (c == '\t') = false := by
    rw [beq_eq_false_iff_ne]
    rintro rfl
    exact absurd h (by decide)
  unfold isGap isBlank
  rw [htab, Bool.or_false]

theorem isGap_of_isBreak (h : isBreak c = true) : isGap c = true := by
  unfold isGap
  rw [h, Bool.or_true]

/-! ## Places -/

theorem Mark.after_of_isBreak (h : isBreak c = true) : mark.after c = ⟨mark.line + 1, 0, 0⟩ :=
  if_pos h

theorem Mark.after_of_not_isBreak (h : isBreak c = false) :
    mark.after c = { mark with column := mark.column + 1, bytes := mark.bytes + c.utf8Size } :=
  if_neg (by rw [h]; exact Bool.false_ne_true)

theorem Mark.column_after_pos (h : isBreak c = false) : 0 < (mark.after c).column := by
  rw [Mark.after_of_not_isBreak h]
  exact Nat.succ_pos _

theorem startsMarker_of_ne_zero {column : ℕ} (h : column ≠ 0) (text : List Char) :
    startsMarker column text = false := by
  unfold startsMarker
  split
  · simp [h]
  · rfl

theorem startsMarker_of_ne (hhyphen : c ≠ '-') (hdot : c ≠ '.') (column : ℕ) :
    startsMarker column (c :: text) = false := by
  unfold startsMarker
  split
  · rename_i heq
    obtain ⟨rfl, rfl⟩ := List.cons.inj heq
    simp [hhyphen, hdot]
  · rfl

/-! ## Gaps -/

/-- Blanks are kept as long as there is no line break. -/
theorem Gap.push_blank (hgap : gap.hasBreaks = false) (hc : isBreak c = false) :
    (gap.push c).hasBreaks = false ∧ (gap.push c).text = gap.text ++ [c] := by
  cases gap with
  | empty =>
    unfold Gap.push
    rw [hc]
    exact ⟨rfl, rfl⟩
  | blanks bs =>
    unfold Gap.push
    rw [hc]
    exact ⟨rfl, rfl⟩
  | breaks first more => exact absurd hgap (by simp [Gap.hasBreaks])

/-- Blanks behind a line break do not count. -/
theorem Gap.push_of_hasBreaks (hgap : gap.hasBreaks = true) (hc : isBreak c = false) :
    gap.push c = gap := by
  cases gap with
  | empty => exact absurd hgap (by simp [Gap.hasBreaks])
  | blanks bs => exact absurd hgap (by simp [Gap.hasBreaks])
  | breaks first more =>
    unfold Gap.push
    rw [hc]
    rfl

/-! ## Neighbours -/

theorem Scalar.hasPair_cons (p q : Char → Bool) (c : Char) (text : List Char) :
    Scalar.hasPair p q (c :: text) = (p c && text.head?.any q || Scalar.hasPair p q text) := by
  cases text with
  | nil => simp [Scalar.hasPair]
  | cons d text => rfl

theorem Scalar.not_hasPair_cons {p q : Char → Bool}
    (h : Scalar.hasPair p q (c :: text) = false) :
    (p c = true → ∀ d ∈ text.head?, q d = false) ∧ Scalar.hasPair p q text = false := by
  rw [Scalar.hasPair_cons, Bool.or_eq_false_iff, Bool.and_eq_false_iff] at h
  obtain ⟨hpair, hrest⟩ := h
  refine ⟨fun hp d hd => ?_, hrest⟩
  rw [Option.mem_def] at hd
  rw [hp, hd] at hpair
  simpa using hpair

/-! ## Written texts -/

namespace Scalar

theorem isPrintable_margin (newLine : Bool) :
    ∀ c ∈ (if newLine then margin else []), isPrintable c = true := by
  cases newLine <;> exact List.all_eq_true.1 rfl

theorem isPrintable_singleInside (h : ∀ c ∈ text, isPrintable c = true) (newLine : Bool) :
    ∀ c ∈ singleInside newLine text, isPrintable c = true := by
  induction text generalizing newLine with
  | nil => exact isPrintable_margin newLine
  | cons d text ih =>
    obtain ⟨hd, htext⟩ := List.forall_mem_cons.1 h
    have hquoted : ∀ c ∈ (if d = '\'' then [d, d] else [d]), isPrintable c = true := by
      split_ifs <;> simp [hd]
    rw [singleInside]
    by_cases hbreak : isBreak d = true
    · rw [if_pos hbreak]
      exact List.forall_mem_cons.2 ⟨hd, ih htext true⟩
    · rw [if_neg hbreak]
      exact List.forall_mem_append.2
        ⟨List.forall_mem_append.2 ⟨isPrintable_margin newLine, hquoted⟩, ih htext false⟩

theorem isPrintable_literalLines (h : ∀ c ∈ text, isPrintable c = true) (newLine : Bool) :
    ∀ c ∈ literalLines newLine text, isPrintable c = true := by
  induction text generalizing newLine with
  | nil => exact List.forall_mem_nil _
  | cons d text ih =>
    obtain ⟨hd, htext⟩ := List.forall_mem_cons.1 h
    rw [literalLines]
    by_cases hbreak : isBreak d = true
    · rw [if_pos hbreak]
      exact List.forall_mem_cons.2 ⟨hd, ih htext true⟩
    · rw [if_neg hbreak]
      exact List.forall_mem_append.2
        ⟨isPrintable_margin newLine, List.forall_mem_cons.2 ⟨hd, ih htext false⟩⟩

theorem isPrintable_literalHeader (text : List Char) :
    ∀ c ∈ literalHeader text, isPrintable c = true := by
  have hchomping : ∀ c ∈ chompingMarkFor text, isPrintable c = true := by
    unfold chompingMarkFor
    split
    · split_ifs
      · exact List.all_eq_true.1 rfl
      · split
        · exact List.all_eq_true.1 rfl
        · split_ifs <;> exact List.all_eq_true.1 rfl
    · exact List.all_eq_true.1 rfl
  have hedge : ∀ c ∈ '|' :: (if text.head?.any isEdge then ['2'] else []),
      isPrintable c = true := by
    split_ifs <;> exact List.all_eq_true.1 rfl
  exact List.forall_mem_append.2
    ⟨List.forall_mem_append.2 ⟨hedge, hchomping⟩, List.all_eq_true.1 rfl⟩

theorem isPrintable_hexDigit {n : ℕ} (hn : n < 16) : isPrintable (hexDigit n) = true := by
  revert n
  decide

theorem isPrintable_hexDigits (count n : ℕ) : ∀ c ∈ hexDigits count n, isPrintable c = true := by
  induction count with
  | zero => exact List.forall_mem_nil _
  | succ count ih =>
    exact List.forall_mem_cons.2 ⟨isPrintable_hexDigit (Nat.mod_lt _ (by decide)), ih⟩

theorem isPrintable_doubleChar (c : Char) : ∀ d ∈ doubleChar c, isPrintable d = true := by
  have hcode : ∀ letter count, isPrintable letter = true →
      ∀ d ∈ '\\' :: letter :: hexDigits count c.toNat, isPrintable d = true := fun _ count h =>
    List.forall_mem_cons.2 ⟨by decide, List.forall_mem_cons.2 ⟨h, isPrintable_hexDigits count _⟩⟩
  unfold doubleChar
  split
  · rename_i letter hletter
    unfold escapeLetter? at hletter
    split at hletter <;> cases hletter <;> exact List.all_eq_true.1 rfl
  · split_ifs with hprint
    · simpa using hprint
    · exact hcode 'x' 2 (by decide)
    · exact hcode 'u' 4 (by decide)
    · exact hcode 'U' 8 (by decide)

/-- What is written for a text holds printable characters only, as whatever is not is escaped. -/
theorem isPrintable_written (text : List Char) :
    ∀ c ∈ written (styleFor text) text, isPrintable c = true := by
  have hdouble : ∀ c ∈ written .doubleQuoted text, isPrintable c = true := by
    have hinside : ∀ c ∈ text.flatMap doubleChar, isPrintable c = true := by
      intro c hc
      obtain ⟨d, _, hcd⟩ := List.mem_flatMap.1 hc
      exact isPrintable_doubleChar d c hcd
    exact List.forall_mem_append.2
      ⟨List.forall_mem_cons.2 ⟨rfl, hinside⟩, List.all_eq_true.1 rfl⟩
  unfold styleFor
  split_ifs with hfeed hliteral hplain hsingle
  · unfold literalAllowed at hliteral
    simp only [Bool.and_eq_true, List.all_eq_true] at hliteral
    refine List.forall_mem_append.2 ⟨List.forall_mem_append.2
      ⟨isPrintable_literalHeader text, isPrintable_literalLines hliteral.1.1 true⟩, ?_⟩
    split_ifs <;> exact List.all_eq_true.1 rfl
  · exact hdouble
  · have hallowed := hplain.2
    unfold plainAllowed at hallowed
    simp only [Bool.and_eq_true, List.all_eq_true] at hallowed
    exact List.forall_mem_append.2 ⟨hallowed.1.1.1.1.1.1, List.all_eq_true.1 rfl⟩
  · unfold singleAllowed at hsingle
    simp only [Bool.and_eq_true, List.all_eq_true] at hsingle
    exact List.forall_mem_append.2 ⟨List.forall_mem_cons.2
      ⟨rfl, isPrintable_singleInside hsingle.1.1 false⟩, List.all_eq_true.1 rfl⟩
  · exact hdouble

end Scalar

end PathLock.Yaml
