import PathLock.Proofs.Yaml.Characters

/-!
# Literal blocks are read back

The reader of a block holds back the line breaks that it has seen since the last line with text, as
those at the end are subject to chomping. `Leads` says that reading some lines takes it from one state
to another: what it has put out and what it holds back are together the text of the lines. For a whole
literal block that leaves the line breaks at the end, which the mark in the header tells about.

* `Scalar.block?_literalLines`: what is written as a literal block is read back.
-/

namespace PathLock.Yaml.Scalar

variable {c : Char} {text more lines moreLines : List Char} {s s' s'' : BlockState}
  {mark mark' mark'' : Mark} {chomping : Chomping} {least : ℕ}

/-! ## States -/

/-- The line breaks that are held back. -/
def BlockState.pending (s : BlockState) : List Char :=
  if s.inLine then [] else s.ended.toList ++ s.blank

/-- The state inside of a line that is indented by the margin, or at the start of a line. -/
structure BlockState.Proper (s : BlockState) (mark : Mark) : Prop where
  indent : s.indent = some 2
  blank : s.inLine = true → s.blank = []
  column : s.inLine = false → mark.column = 0

/-- Reading these lines of this text takes the reader from one state to the other. -/
def Leads (chomping : Chomping) (least : ℕ) (lines text : List Char) (s : BlockState) (mark : Mark)
    (s' : BlockState) (mark' : Mark) : Prop :=
  ∃ out, out ++ s'.pending = s.pending ++ text ∧
    ∀ rest, block? false chomping least (lines ++ rest) s mark =
      (block? false chomping least rest s' mark').map fun (text, behind) => (out ++ text, behind)

theorem Leads.refl (chomping : Chomping) (least : ℕ) (s : BlockState) (mark : Mark) :
    Leads chomping least [] [] s mark s mark := by
  refine ⟨[], (List.append_nil _).symm, fun rest => ?_⟩
  simp

theorem Leads.trans (h : Leads chomping least lines text s mark s' mark')
    (h' : Leads chomping least moreLines more s' mark' s'' mark'') :
    Leads chomping least (lines ++ moreLines) (text ++ more) s mark s'' mark'' := by
  obtain ⟨out, hout, hread⟩ := h
  obtain ⟨out', hout', hread'⟩ := h'
  refine ⟨out ++ out', ?_, fun rest => ?_⟩
  · rw [List.append_assoc, hout', ← List.append_assoc, hout, List.append_assoc]
  · rw [List.append_assoc, hread, hread', Option.map_map]
    simp only [Function.comp_def, List.append_assoc]

/-! ## One character -/

/-- A line break ends a line or is an empty one. -/
theorem leads_break (hs : s.Proper mark) (hc : isBreak c = true) : ∃ s',
    s'.Proper (mark.after c) ∧ s'.inLine = false ∧
      Leads chomping least [c] [c] s mark s' (mark.after c) := by
  have hcolumn : (mark.after c).column = 0 := by rw [Mark.after_of_isBreak hc]
  cases hline : s.inLine with
  | true =>
    refine ⟨{ s with ended := some c, inLine := false }, ⟨hs.indent, nofun, fun _ => hcolumn⟩, rfl,
      [], ?_, fun rest => ?_⟩
    · simp [BlockState.pending, hline, hs.blank hline]
    · rw [List.singleton_append]
      conv_lhs => unfold block?
      simp [hline, hc]
  | false =>
    refine ⟨{ s with blank := s.blank ++ [c] }, ⟨hs.indent, fun h => ?_, fun _ => hcolumn⟩, hline,
      [], ?_, fun rest => ?_⟩
    · exact absurd (hline.symm.trans h) Bool.false_ne_true
    · simp [BlockState.pending, hline]
    · have hspace : c ≠ ' ' := by
        rintro rfl
        exact absurd hc (by decide)
      have htab : c ≠ '\t' := by
        rintro rfl
        exact absurd hc (by decide)
      rw [List.singleton_append]
      conv_lhs => unfold block?
      simp [hline, hc, hspace, htab]

/-- Inside of a line every other character stands for itself. -/
theorem leads_char (hline : s.inLine = true) (hc : isBreak c = false) :
    Leads chomping least [c] [c] s mark s (mark.after c) := by
  refine ⟨[c], by simp [BlockState.pending, hline], fun rest => ?_⟩
  rw [List.singleton_append]
  conv_lhs => unfold block?
  simp [hline, hc]

/-- A space of the margin is skipped. -/
theorem block?_space (hline : s.inLine = false)
    (hindent : ∀ indent, s.indent = some indent → mark.column < indent) (rest : List Char) :
    block? false chomping least (' ' :: rest) s mark =
      block? false chomping least rest { s with deepest := max s.deepest (mark.column + 1) }
        (mark.after ' ') := by
  conv_lhs => unfold block?
  rw [if_neg (by rw [hline]; exact Bool.false_ne_true)]
  cases h : s.indent with
  | none => exact if_pos ⟨rfl, rfl⟩
  | some indent => exact if_pos ⟨rfl, decide_eq_true (hindent indent h)⟩

theorem block?_margin (hline : s.inLine = false) (hcolumn : mark.column = 0)
    (hindent : ∀ indent, s.indent = some indent → 2 ≤ indent) (rest : List Char) :
    block? false chomping least (margin ++ rest) s mark =
      block? false chomping least rest { s with deepest := max s.deepest 2 }
        ((mark.after ' ').after ' ') := by
  have hone : (mark.after ' ').column = 1 := by
    rw [Mark.after_of_not_isBreak (by decide), hcolumn]
  show block? false chomping least (' ' :: ' ' :: rest) s mark = _
  rw [block?_space hline fun n hn => hcolumn ▸ Nat.lt_of_lt_of_le Nat.zero_lt_two (hindent n hn),
    block?_space (s := { s with deepest := max s.deepest (mark.column + 1) }) hline
      fun n hn => hone ▸ hindent n hn, hcolumn, hone]
  simp only [Nat.max_assoc]
  rfl

/-- The first character of a line behind its margin. -/
theorem block?_first (hline : s.inLine = false) (hc : isBreak c = false)
    (hindent : s.indent.getD (max s.deepest least) = mark.column)
    (hblank : s.indent = none → isBlank c = false) (rest : List Char) :
    block? false chomping least (c :: rest) s mark =
      (block? false chomping least rest
        { indent := some mark.column, startedBlank := isBlank c, inLine := true }
          (mark.after c)).map fun (text, behind) => (s.pending ++ c :: text, behind) := by
  have hpending : s.pending = s.joint false c := by simp [BlockState.pending, hline, BlockState.joint]
  rw [hpending]
  conv_lhs => unfold block?
  rw [if_neg (by rw [hline]; exact Bool.false_ne_true)]
  cases h : s.indent with
  | none =>
    rw [h] at hindent
    have hword : ∀ d, isBlank d = true → c ≠ d := by
      rintro d hd rfl
      exact absurd hd (by rw [hblank h]; exact Bool.false_ne_true)
    dsimp only
    rw [if_neg fun h => hword ' ' rfl h.1, if_neg fun h => hword '\t' rfl h.1,
      if_neg (by rw [hc]; exact Bool.false_ne_true), if_pos hindent.symm, hindent]
  | some indent =>
    rw [h] at hindent
    have hbehind : ¬ decide (mark.column < indent) = true := fun hlt =>
      absurd (of_decide_eq_true hlt) (Nat.not_lt.2 (Nat.le_of_eq hindent))
    dsimp only
    rw [if_neg fun h => hbehind h.2, if_neg fun h => hbehind h.2,
      if_neg (by rw [hc]; exact Bool.false_ne_true), if_pos hindent.symm, hindent]

/-- Where the margin is not known yet, a line that starts with it and with text tells it. -/
theorem leads_line (chomping : Chomping) (hline : s.inLine = false) (hcolumn : mark.column = 0) (hc : isBreak c = false)
    (hindent : s.indent = some 2 ∨
      s.indent = none ∧ s.deepest = 0 ∧ least ≤ 2 ∧ isBlank c = false) : ∃ s' mark',
    s'.Proper mark' ∧ s'.inLine = true ∧
      Leads chomping least (margin ++ [c]) [c] s mark s' mark' := by
  have htwo : ((mark.after ' ').after ' ').column = 2 := by
    rw [Mark.after_of_not_isBreak (by decide), Mark.after_of_not_isBreak (by decide), hcolumn]
  have hmargin : ∀ indent, s.indent = some indent → 2 ≤ indent := by
    intro indent h
    obtain h' | ⟨h', _⟩ := hindent <;> rw [h] at h'
    · exact Nat.le_of_eq (Option.some.inj h').symm
    · exact absurd h' (by simp)
  have hknown : s.indent.getD (max (max s.deepest 2) least) = 2 := by
    obtain h | ⟨h, hdeepest, hleast, _⟩ := hindent <;> rw [h]
    · rfl
    · show max (max s.deepest 2) least = 2
      omega
  have hblank : s.indent = none → isBlank c = false := by
    intro hnone
    obtain h | ⟨_, _, _, hblank⟩ := hindent
    · exact absurd (hnone.symm.trans h) (by simp)
    · exact hblank
  refine ⟨{ indent := some 2, startedBlank := isBlank c, inLine := true },
    ((mark.after ' ').after ' ').after c, ⟨rfl, fun _ => rfl, nofun⟩, rfl, s.pending ++ [c], ?_,
    fun rest => ?_⟩
  · simp [BlockState.pending]
  · rw [List.append_assoc, block?_margin hline hcolumn hmargin, List.singleton_append,
      block?_first (s := { s with deepest := max s.deepest 2 }) hline hc (hknown.trans htwo.symm)
        hblank, htwo]
    simp only [BlockState.pending, List.append_assoc, List.singleton_append]

/-! ## Lines -/

/-- Whether a text ends inside of a line. -/
def endsInLine (inLine : Bool) (text : List Char) : Bool :=
  (text.getLast?.map fun c => !isBreak c).getD inLine

theorem endsInLine_cons (inLine : Bool) (c : Char) (text : List Char) :
    endsInLine inLine (c :: text) = endsInLine (!isBreak c) text := by
  unfold endsInLine
  rw [List.getLast?_cons]
  cases text.getLast? <;> rfl

theorem endsInLine_append_singleton (inLine : Bool) (text : List Char) (c : Char) :
    endsInLine inLine (text ++ [c]) = !isBreak c := by
  unfold endsInLine
  rw [List.getLast?_concat]
  rfl

/-- From a proper state on, all lines are read as they were written. -/
theorem leads_literalLines (hs : s.Proper mark) (text : List Char) : ∃ s' mark',
    s'.Proper mark' ∧ s'.inLine = endsInLine s.inLine text ∧
      Leads chomping least (literalLines (!s.inLine) text) text s mark s' mark' := by
  induction text generalizing s mark with
  | nil => exact ⟨s, mark, hs, rfl, .refl chomping least s mark⟩
  | cons c text ih =>
    have hstep : ∃ s₁ mark₁, s₁.Proper mark₁ ∧ s₁.inLine = !isBreak c ∧
        Leads chomping least (if isBreak c || s.inLine then [c] else margin ++ [c]) [c] s mark s₁
          mark₁ := by
      cases hc : isBreak c with
      | true =>
        obtain ⟨s₁, hs₁, hline₁, h⟩ := leads_break hs hc
        exact ⟨s₁, mark.after c, hs₁, hline₁, h⟩
      | false =>
        cases hline : s.inLine with
        | true =>
          have hs₁ : s.Proper (mark.after c) :=
            ⟨hs.indent, hs.blank, fun h => absurd (h.symm.trans hline) Bool.false_ne_true⟩
          exact ⟨s, mark.after c, hs₁, hline, leads_char hline hc⟩
        | false => exact leads_line chomping hline (hs.column hline) hc (.inl hs.indent)
    obtain ⟨s₁, mark₁, hs₁, hline₁, hstep⟩ := hstep
    obtain ⟨s', mark', hs', hline', hrest⟩ := ih hs₁
    have hlines : literalLines (!s.inLine) (c :: text) =
        (if isBreak c || s.inLine then [c] else margin ++ [c]) ++
          literalLines (!s₁.inLine) text := by
      rw [literalLines, hline₁]
      cases isBreak c <;> cases s.inLine <;> simp
    refine ⟨s', mark', hs', ?_, ?_⟩
    · rw [hline', hline₁, endsInLine_cons]
    · rw [hlines]
      exact hstep.trans hrest

/-- The state in which a block starts. The indentation is given if the text starts with a space or a
line break. -/
def startState (text : List Char) : BlockState :=
  { indent := if text.head?.any isEdge then some 2 else none }

theorem leads_start (chomping : Chomping) (hne : text ≠ [])
    (hprint : ∀ c ∈ text, isPrintable c = true) (hleast : least ≤ 2) (hcolumn : mark.column = 0) :
    ∃ s' mark',
    s'.Proper mark' ∧ s'.inLine = endsInLine false text ∧
      Leads chomping least (literalLines true text) text (startState text) mark s' mark' := by
  obtain ⟨c, text, rfl⟩ := List.exists_cons_of_ne_nil hne
  cases hedge : isEdge c with
  | true =>
    refine leads_literalLines ⟨?_, fun _ => rfl, fun _ => hcolumn⟩ (c :: text)
    exact if_pos hedge
  | false =>
    obtain ⟨hspace, hbreak⟩ := Bool.or_eq_false_iff.1 hedge
    have hblank : isBlank c = false := by
      have hgap := isGap_of_isPrintable (hprint c List.mem_cons_self)
      rw [hspace, hbreak] at hgap
      exact (Bool.or_eq_false_iff.1 hgap).1
    have hindent : (startState (c :: text)).indent = none :=
      if_neg (by simpa using hedge)
    obtain ⟨s₁, mark₁, hs₁, hline₁, hfirst⟩ := leads_line chomping
      (s := startState (c :: text)) rfl hcolumn hbreak (.inr ⟨hindent, rfl, hleast, hblank⟩)
    obtain ⟨s', mark', hs', hline', hrest⟩ := leads_literalLines hs₁ text
    refine ⟨s', mark', hs', ?_, ?_⟩
    · rw [hline', hline₁, endsInLine_cons, hbreak]
      rfl
    · have hlines : literalLines true (c :: text) =
          margin ++ [c] ++ literalLines (!s₁.inLine) text := by
        rw [literalLines, hline₁, hbreak]
        simp
      rw [hlines]
      exact hfirst.trans hrest

/-! ## The end -/

theorem literalLines_append_break (hc : isBreak c = true) (newLine : Bool) (text : List Char) :
    literalLines newLine (text ++ [c]) = literalLines newLine text ++ [c] := by
  induction text generalizing newLine with
  | nil => simp [literalLines, hc]
  | cons d text ih =>
    rw [List.cons_append, literalLines, literalLines]
    split_ifs <;> rw [ih] <;> simp

/-- A line break at the end of a line with text, and nothing more. -/
theorem Leads.block?_append_break (h : Leads chomping least lines text s mark s' mark')
    (hs : s.pending = []) (hs' : s'.Proper mark') (hline : s'.inLine = true)
    (hc : isBreak c = true) : block? false chomping least (lines ++ [c]) s mark =
      some (text ++ BlockState.tail chomping { indent := none, ended := some c },
        ⟨[], mark'.after c⟩) := by
  obtain ⟨out, hout, hread⟩ := h
  have hpending : s'.pending = [] := if_pos hline
  rw [hs, hpending, List.append_nil, List.nil_append] at hout
  subst hout
  rw [hread]
  unfold block?
  rw [if_pos hline, if_pos hc]
  unfold block?
  simp [BlockState.tail, hs'.blank hline]

/-- All line breaks at the end are kept. -/
theorem Leads.block?_keep (h : Leads .keep least lines text s mark s' mark') (hs : s.pending = []) :
    block? false .keep least lines s mark = some (text, ⟨[], mark'⟩) := by
  obtain ⟨out, hout, hread⟩ := h
  rw [hs, List.nil_append] at hout
  have hlines := hread []
  rw [List.append_nil] at hlines
  rw [hlines, ← hout]
  unfold block? BlockState.pending
  cases s'.inLine <;> rfl

/-- The mark of a chomping. -/
def chompingText : Chomping → List Char
  | .strip => ['-']
  | .clip => []
  | .keep => ['+']

theorem chompingMarkFor_append_singleton (body : List Char) (c : Char) :
    chompingMarkFor (body ++ [c]) =
      if isBreak c then if body.getLast?.all isBreak then ['+'] else [] else ['-'] := by
  unfold chompingMarkFor
  rw [List.reverse_append, List.reverse_singleton, List.singleton_append]
  rcases List.eq_nil_or_concat body with rfl | ⟨front, d, rfl⟩
  · cases hc : isBreak c <;> simp [hc]
  · cases hc : isBreak c <;> cases hd : isBreak d <;> simp [hc, hd]

section

variable (hprint : ∀ c ∈ text, isPrintable c = true) (hleast : least ≤ 2)
  (hcolumn : mark.column = 0)
include hprint hleast hcolumn

/-- Line breaks at the end are read as they are. -/
theorem block?_kept (hne : text ≠ []) : ∃ mark',
    block? false .keep least (literalLines true text) (startState text) mark =
      some (text, ⟨[], mark'⟩) := by
  obtain ⟨s', mark', _, _, h⟩ := leads_start .keep hne hprint hleast hcolumn
  exact ⟨mark', h.block?_keep rfl⟩

/-- The line break that ends a text without one is not read. -/
theorem block?_stripped (hend : endsInLine false text = true) (hne : text ≠ []) : ∃ mark',
    block? false .strip least (literalLines true text ++ ['\n']) (startState text) mark =
      some (text, ⟨[], mark'⟩) := by
  obtain ⟨s', mark', hs', hline, h⟩ := leads_start .strip hne hprint hleast hcolumn
  refine ⟨mark'.after '\n', ?_⟩
  rw [h.block?_append_break rfl hs' (hline.trans hend) rfl]
  exact congrArg (fun text => some (text, _)) (List.append_nil _)

/-- One line break at the end is read. -/
theorem block?_clipped (hend : endsInLine false text = true) (hne : text ≠ [])
    (hc : isBreak c = true) : ∃ mark',
    block? false .clip least (literalLines true (text ++ [c])) (startState (text ++ [c])) mark =
      some (text ++ [c], ⟨[], mark'⟩) := by
  obtain ⟨s', mark', hs', hline, h⟩ := leads_start .clip hne hprint hleast hcolumn
  have hstart : startState (text ++ [c]) = startState text := by
    unfold startState
    rw [List.head?_append_of_ne_nil _ hne]
  refine ⟨mark'.after c, ?_⟩
  rw [hstart, literalLines_append_break hc,
    h.block?_append_break rfl hs' (hline.trans hend) hc]
  rfl

end

/-- What is written as a literal block is read back, with the chomping that its header tells. -/
theorem block?_literalLines (least : ℕ) (hne : text ≠ []) (hprint : ∀ c ∈ text, isPrintable c = true)
    (hleast : least ≤ 2) : ∃ chomping, chompingMarkFor text = chompingText chomping ∧
      ∀ mark : Mark, mark.column = 0 → ∃ mark', block? false chomping least
        (literalLines true text ++ if text.getLast?.any isBreak then [] else ['\n'])
          (startState text) mark = some (text, ⟨[], mark'⟩) := by
  obtain ⟨body, c, rfl⟩ : ∃ body c, text = body ++ [c] :=
    ⟨text.dropLast, text.getLast hne, (List.dropLast_append_getLast hne).symm⟩
  rw [chompingMarkFor_append_singleton, List.getLast?_concat, Option.any_some]
  cases hc : isBreak c with
  | false =>
    have hend : endsInLine false (body ++ [c]) = true := by
      rw [endsInLine_append_singleton, hc]
      rfl
    exact ⟨.strip, rfl, fun mark hcolumn => block?_stripped hprint hleast hcolumn hend hne⟩
  | true =>
    rw [if_pos rfl, if_pos rfl, List.append_nil]
    rcases List.eq_nil_or_concat body with rfl | ⟨front, d, rfl⟩
    · exact ⟨.keep, rfl, fun mark hcolumn => block?_kept hprint hleast hcolumn hne⟩
    · rw [List.concat_eq_append] at *
      rw [List.getLast?_concat, Option.all_some]
      cases hd : isBreak d with
      | true => exact ⟨.keep, rfl, fun mark hcolumn => block?_kept hprint hleast hcolumn hne⟩
      | false =>
        have hend : endsInLine false (front ++ [d]) = true := by
          rw [endsInLine_append_singleton, hd]
          rfl
        exact ⟨.clip, rfl, fun mark hcolumn => block?_clipped
          (fun a ha => hprint a (List.mem_append_left _ ha)) hleast hcolumn hend (by simp) hc⟩

end PathLock.Yaml.Scalar
