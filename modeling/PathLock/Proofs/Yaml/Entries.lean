import PathLock.Proofs.Yaml.Literal
import PathLock.Proofs.Yaml.Plain
import PathLock.Proofs.Yaml.Quoted
import PathLock.Yaml.Token.Lexer

/-!
# The tokens of a block mapping of scalars

At the margin a key may start; behind the colon of a key none may, and a scalar is expected. From the
one place to the other, `Lexer.tokensFrom` makes the tokens of a key, and from there to the next key
or to the end the token of a scalar.

* `Lexer.tokensFrom_key`: a key at the margin.
* `Lexer.tokensFrom_word`: a word as the value of a key, with another key on the next line.
* `Lexer.tokensFrom_written`: the value of the last key, in whatever style it is written.
-/

namespace PathLock.Yaml

open Scalar

variable {c : Char} {text key rest : List Char} {mark : Mark}

/-- Word characters are visible ASCII characters. -/
theorem toNat_of_isWordChar (h : isWordChar c = true) : 0x20 ≤ c.toNat ∧ c.toNat ≤ 0x7E := by
  change ((decide ('A'.val ≤ c.val ∧ c.val ≤ 'Z'.val) ||
    ('a'.val ≤ c.val && c.val ≤ 'z'.val)) || ('0'.val ≤ c.val && c.val ≤ '9'.val) ||
      c == '_' || c == '-') = true at h
  simp only [Bool.or_eq_true, Bool.and_eq_true, decide_eq_true_eq, beq_iff_eq,
    UInt32.le_iff_toNat_le] at h
  change ((((65 ≤ c.toNat ∧ c.toNat ≤ 90) ∨ (97 ≤ c.toNat ∧ c.toNat ≤ 122)) ∨
    (48 ≤ c.toNat ∧ c.toNat ≤ 57)) ∨ c = '_') ∨ c = '-' at h
  rcases h with (h | rfl) | rfl
  · omega
  · decide
  · decide

theorem isPrintable_of_isWordChar (h : isWordChar c = true) : isPrintable c = true := by
  obtain ⟨hlow, hhigh⟩ := toNat_of_isWordChar h
  simp [isPrintable, hlow, hhigh]

theorem utf8Size_of_isWordChar (h : isWordChar c = true) : c.utf8Size = 1 := by
  rw [Char.utf8Size_eq_one_iff, UInt32.le_iff_toNat_le]
  exact (toNat_of_isWordChar h).2.trans (by decide)

/-- The place behind a word is on the same line, one byte further for each of its characters. -/
theorem foldl_after_of_isWordChar (h : ∀ c ∈ text, isWordChar c = true) (mark : Mark) :
    text.foldl Mark.after mark =
      ⟨mark.line, mark.column + text.length, mark.bytes + text.length⟩ := by
  induction text generalizing mark with
  | nil => rfl
  | cons c text ih =>
    have hc := h c List.mem_cons_self
    have hbreak := (Bool.or_eq_false_iff.1 (isGap_of_isWordChar hc).1).2
    rw [List.foldl_cons, ih fun d hd => h d (List.mem_cons_of_mem _ hd),
      Mark.after_of_not_isBreak hbreak, utf8Size_of_isWordChar hc, List.length_cons]
    simp only [Nat.add_assoc, Nat.add_comm 1]

namespace Lexer

variable {s s' : Lexer} {fuel : ℕ} {tokens : Array Token}

/-! ## Steps -/

theorem closeBlocks_eq_self {column : Int} (h : s.indent ≤ column) : s.closeBlocks column = s := by
  obtain ⟨cursor, tokens, indent, outer, keyAllowed, candidate, flow⟩ := s
  unfold closeBlocks
  split_ifs
  · rfl
  · cases outer with
    | nil => rfl
    | cons i outer =>
      unfold closeBlocksFrom
      rw [if_neg (Int.not_lt.2 h)]

/-- One token is read, where it lies in the blocks that are open. -/
theorem tokensFrom_token (s s' : Lexer) (hskip : s.skipGap = s') (hrest : s'.cursor.rest = c :: rest)
    (hindent : s'.indent ≤ s'.column) :
    tokensFrom (fuel + 1) s = (s'.token c rest).bind (tokensFrom fuel) := by
  conv_lhs => unfold tokensFrom
  dsimp only
  rw [hskip, hrest, closeBlocks_eq_self hindent]
  rfl

theorem skipFrom_stop {inFlow keyAllowed : Bool} (hgap : isGap c = false) (hhash : c ≠ '#')
    (hmark : c ≠ byteOrderMark) : skipFrom inFlow (c :: rest) keyAllowed false mark =
      (⟨c :: rest, mark⟩, keyAllowed) := by
  obtain ⟨hblank, hbreak⟩ := Bool.or_eq_false_iff.1 hgap
  obtain ⟨hspace, htab⟩ := Bool.or_eq_false_iff.1 hblank
  rw [beq_eq_false_iff_ne] at hspace htab
  unfold skipFrom
  simp [hbreak, hhash, hspace, htab, hmark]

theorem skipFrom_space {inFlow keyAllowed : Bool} :
    skipFrom inFlow (' ' :: rest) keyAllowed false mark =
      skipFrom inFlow rest keyAllowed false (mark.after ' ') := by
  conv_lhs => unfold skipFrom
  rw [if_neg (by decide), if_neg (by simp), if_pos (.inl rfl)]

/-- The place before the next character that is neither a blank nor the start of a comment. -/
theorem skipGap_eq_self (hrest : s.cursor.rest = c :: rest) (hgap : isGap c = false) (hhash : c ≠ '#')
    (hmark : c ≠ byteOrderMark) : s.skipGap = s := by
  unfold skipGap
  rw [hrest, skipFrom_stop hgap hhash hmark, ← hrest]

/-! ## Which token starts -/

/-- Where no other token starts, a plain scalar does. -/
theorem token_eq_plainScalar (hflow : s.inFlow = false) (hgap : isGap c = false)
    (hodd : c ∉ ['#', ',', '[', ']', '\x7b', '\x7d', '&', '*', '!', '|', '>', '\'', '"', '%', '@',
      '\x60'])
    (hword : c ∈ ['?', ':', '-'] → wordEnds rest = false)
    (hmarker : (s.column == 0 && startsMarker 0 (c :: rest)) = false) :
    s.token c rest = s.plainScalar := by
  have hblank : wordEnds rest = false → rest.head?.any isBlank = false := by
    intro h
    cases rest with
    | nil => rfl
    | cons d rest => exact (Bool.or_eq_false_iff.1 h).1
  have hends : ∀ d ∈ ['?', ':', '-'], ¬ (c = d ∧ wordEnds rest = true) := by
    rintro d hd ⟨rfl, h⟩
    rw [hword hd] at h
    exact Bool.false_ne_true h
  simp only [List.mem_cons, List.not_mem_nil, or_false, not_or] at hodd
  have hplain : startsPlain false c rest = true := by
    unfold startsPlain isIndicator
    by_cases hc : c ∈ ['?', ':', '-']
    · have hrest := hword hc
      have hrest' := hblank hrest
      simp only [List.mem_cons, List.not_mem_nil, or_false] at hc
      obtain rfl | rfl | rfl := hc <;> simp [hrest, hrest']
    · simp only [List.mem_cons, List.not_mem_nil, or_false, not_or] at hc
      simp [hgap, hodd, hc]
  have hentry := hends '-' (by simp)
  have hkey := hends '?' (by simp)
  have hvalue := hends ':' (by simp)
  unfold token
  simp [hmarker, hflow, hodd, hplain, hentry, hkey, hvalue]

theorem plainScalar_eq {p : Plain} (hsave : s.saveCandidate = some s')
    (hread : plain? ⟨s.inFlow, s.indent + 1⟩ s.cursor.rest .empty s.cursor.mark = some p) :
    s.plainScalar = some { s'.emit (.scalar .plain (String.ofList p.text)) with
      cursor := p.behind, keyAllowed := p.brokeLine } := by
  unfold plainScalar
  rw [hsave, hread]
  rfl

/-! ## Keys -/

/-- The place where a key may start, in a mapping that is open or not. -/
def atKey (opened : Bool) (tokens : Array Token) (text : List Char) (mark : Mark) : Lexer :=
  { cursor := ⟨text, mark⟩
    tokens
    indent := if opened then 0 else -1
    outerIndents := if opened then [-1] else [] }

/-- The place behind a scalar that started at another place, where a key might. -/
def behindKey (opened : Bool) (tokens : Array Token) (token : Token) (start : Mark)
    (text : List Char) (mark : Mark) : Lexer :=
  { atKey opened (tokens.push token) text mark with
    keyAllowed := false
    candidate := some ⟨tokens.size, opened, start⟩ }

/-- The place where the value of a key may start. -/
def atValue (tokens : Array Token) (text : List Char) (mark : Mark) : Lexer :=
  { atKey true tokens text mark with keyAllowed := false }

/-- The tokens of a key, the first in its mapping or not. -/
def keyTokens (opened : Bool) (key : List Char) : Array Token :=
  (if opened then #[] else #[.blockMappingStart]) ++
    #[.key, .scalar .plain (String.ofList key), .value]

/-- A token is put in front of what was read since. -/
theorem insertIdxIfInBounds_size (tokens more : Array Token) (token : Token) :
    (tokens ++ more).insertIdxIfInBounds tokens.size token = tokens ++ #[token] ++ more := by
  have hlist : ∀ front back : List Token,
      (front ++ back).insertIdx front.length token = front ++ token :: back := by
    intro front back
    induction front with
    | nil => rfl
    | cons a front ih => exact congrArg (a :: ·) ih
  have hle : tokens.size ≤ (tokens ++ more).size := by
    rw [Array.size_append]
    exact Nat.le_add_right _ _
  unfold Array.insertIdxIfInBounds
  rw [dif_pos hle]
  apply Array.toList_inj.1
  rw [Array.toList_insertIdx, Array.toList_append, ← Array.length_toList, hlist]
  simp

/-- A word that is read as a plain scalar: it has a first letter, which is no hyphen. -/
structure IsWord (word : List Char) : Prop where
  letters : ∀ c ∈ word, isWordChar c = true
  first : ∃ c ∈ word.head?, c ≠ '-'

/-- A word that is short enough to be a key without a mark of its own. -/
structure IsKey (key : List Char) : Prop extends IsWord key where
  length : key.length ≤ keyLimit

/-- A key or a number is at the start of no other token. -/
theorem indicator_of_isWordChar (h : isWordChar c = true) : c ≠ byteOrderMark ∧
    (∀ d ∈ ['#', ',', '[', ']', '\x7b', '\x7d', '&', '*', '!', '|', '>', '\'', '"', '%', '@',
      '\x60', '?', ':', '.'], c ≠ d) := by
  constructor
  · rintro rfl
    exact absurd h (by decide)
  · rintro d hd rfl
    simp only [List.mem_cons, List.not_mem_nil, or_false] at hd
    rcases hd with rfl | rfl | rfl | rfl | rfl | rfl | rfl | rfl | rfl | rfl | rfl | rfl | rfl |
      rfl | rfl | rfl | rfl | rfl | rfl <;> exact absurd h (by decide)

theorem token_word (hflow : s.inFlow = false) (hc : isWordChar c = true) (hhyphen : c ≠ '-') :
    s.token c rest = s.plainScalar := by
  obtain ⟨_, hne⟩ := indicator_of_isWordChar hc
  refine token_eq_plainScalar hflow (isGap_of_isWordChar hc).1
    (fun hmem => hne c (List.mem_append_left ['?', ':', '.'] hmem) rfl) (fun hmem => ?_) ?_
  · simp only [List.mem_cons, List.not_mem_nil, or_false] at hmem
    obtain rfl | rfl | rfl := hmem
    · exact absurd rfl (hne '?' (by simp))
    · exact absurd rfl (hne ':' (by simp))
    · exact absurd rfl hhyphen
  · rw [startsMarker_of_ne hhyphen (hne '.' (by simp)), Bool.and_false]

theorem saveCandidate_atKey {opened : Bool} (hcolumn : mark.column = 0) :
    (atKey opened tokens text mark).saveCandidate = some { atKey opened tokens text mark with
      candidate := some ⟨tokens.size, opened, mark⟩ } := by
  have hrequired : (!(atKey opened tokens text mark).inFlow &&
      (atKey opened tokens text mark).indent == (atKey opened tokens text mark).column) =
        opened := by
    unfold column atKey
    rw [hcolumn]
    cases opened <;> rfl
  unfold saveCandidate
  rw [hrequired]
  rfl

/-- A key is read as a scalar. -/
theorem plainScalar_key (opened : Bool) (tokens : Array Token) (hkey : IsKey key)
    (hcolumn : mark.column = 0) (rest : List Char) :
    (atKey opened tokens (key ++ ':' :: ' ' :: rest) mark).plainScalar =
      some (behindKey opened tokens (.scalar .plain (String.ofList key)) mark
        (':' :: ' ' :: rest) (key.foldl Mark.after mark)) := by
  have hread : plain? ⟨(atKey opened tokens (key ++ ':' :: ' ' :: rest) mark).inFlow,
      (atKey opened tokens (key ++ ':' :: ' ' :: rest) mark).indent + 1⟩
      (key ++ ':' :: ' ' :: rest) .empty mark =
        some ⟨key, ⟨':' :: ' ' :: rest, key.foldl Mark.after mark⟩, false⟩ := by
    rw [plain?_word rfl hkey.letters, plain?_colon rfl rfl, Option.map_some, List.append_nil]
  rw [plainScalar_eq (saveCandidate_atKey hcolumn) hread]
  rfl

/-- At the colon the tokens before a key are put in front of it. -/
theorem mappingValue_behindKey {opened : Bool} {token : Token} {mark' : Mark}
    (hcolumn : mark.column = 0) (hline : mark'.line = mark.line)
    (hbytes : mark'.bytes ≤ mark.bytes + keyLimit) (rest : List Char) :
    (behindKey opened tokens token mark (':' :: rest) mark').mappingValue =
      some (atValue (tokens ++ (if opened then #[] else #[.blockMappingStart]) ++
        #[.key, token, .value]) rest (mark'.after ':')) := by
  have hlive : (behindKey opened tokens token mark (':' :: rest) mark').isLive
      ⟨tokens.size, opened, mark⟩ = true := by
    unfold isLive
    simp [behindKey, atKey, hline, hbytes]
  have hkey := insertIdxIfInBounds_size tokens #[token] .key
  have hstart := insertIdxIfInBounds_size tokens #[.key, token] .blockMappingStart
  have hpush : (tokens.push token) = tokens ++ #[token] := Array.push_eq_append
  have happend : tokens ++ #[.key] ++ #[token] = tokens ++ #[.key, token] := by
    rw [Array.append_assoc]
    rfl
  have hcandidate : (behindKey opened tokens token mark (':' :: rest) mark').candidate.filter
      (behindKey opened tokens token mark (':' :: rest) mark').isLive =
        some ⟨tokens.size, opened, mark⟩ := if_pos hlive
  unfold mappingValue
  dsimp only
  rw [hcandidate]
  unfold behindKey
  dsimp only
  rw [hpush]
  cases opened
  · simp only [openBlock, inFlow, emitChar, atKey, atValue, Cursor.next, hcolumn, hkey, happend,
      hstart]
    simp
  · simp only [openBlock, inFlow, emitChar, atKey, atValue, Cursor.next, hcolumn, hkey,
      happend]
    simp

theorem token_colon (hrest : wordEnds rest = true) : s.token ':' rest = s.mappingValue := by
  simp [token, startsMarker_of_ne, hrest]

theorem indent_atKey_le (opened : Bool) (tokens : Array Token) (text : List Char) (mark : Mark) :
    (atKey opened tokens text mark).indent ≤ (mark.column : Int) := by
  show (if opened then (0 : Int) else -1) ≤ _
  split_ifs <;> omega

/-- A key at the margin is read with its colon. The first one opens the mapping. -/
theorem tokensFrom_key (fuel : ℕ) (opened : Bool) (tokens : Array Token) (hkey : IsKey key)
    (hcolumn : mark.column = 0) (rest : List Char) : ∃ mark',
      tokensFrom (fuel + 2) (atKey opened tokens (key ++ ':' :: ' ' :: rest) mark) =
        tokensFrom fuel (atValue (tokens ++ keyTokens opened key) (' ' :: rest) mark') := by
  have hmark := foldl_after_of_isWordChar hkey.letters mark
  have hbytes : mark.bytes + key.length ≤ mark.bytes + keyLimit :=
    Nat.add_le_add_left hkey.length _
  have hscalar := plainScalar_key opened tokens hkey hcolumn rest
  obtain ⟨c, hc, hhyphen⟩ := hkey.first
  obtain ⟨text, rfl⟩ := List.head?_eq_some_iff.1 hc
  have hword := hkey.letters c List.mem_cons_self
  obtain ⟨horder, hne⟩ := indicator_of_isWordChar hword
  refine ⟨((c :: text).foldl Mark.after mark).after ':', ?_⟩
  have hfirst : (atKey opened tokens (c :: text ++ ':' :: ' ' :: rest) mark).skipGap =
      atKey opened tokens (c :: text ++ ':' :: ' ' :: rest) mark :=
    skipGap_eq_self rfl (isGap_of_isWordChar hword).1 (hne '#' (by simp)) horder
  have hsecond : ∀ token mark', (behindKey opened tokens token mark (':' :: ' ' :: rest)
      mark').skipGap = behindKey opened tokens token mark (':' :: ' ' :: rest) mark' :=
    fun token mark' => skipGap_eq_self (c := ':') rfl rfl (by decide) (by decide)
  rw [tokensFrom_token _ _ hfirst rfl (indent_atKey_le opened _ _ _), token_word rfl hword hhyphen,
    hscalar, Option.bind_some, tokensFrom_token _ _ (hsecond _ _) rfl
      (indent_atKey_le opened tokens rest _),
    token_colon rfl, mappingValue_behindKey hcolumn (by rw [hmark]) (by rw [hmark]; exact hbytes),
    Option.bind_some, keyTokens, ← Array.append_assoc]

/-! ## Values -/

/-- The place of the value itself. -/
theorem skipGap_atValue (hgap : isGap c = false) (hhash : c ≠ '#') (hmark : c ≠ byteOrderMark)
    (tokens : Array Token) (rest : List Char) (mark : Mark) :
    (atValue tokens (' ' :: c :: rest) mark).skipGap =
      atValue tokens (c :: rest) (mark.after ' ') := by
  have hskip : skipFrom (atValue tokens (' ' :: c :: rest) mark).inFlow (' ' :: c :: rest) false
      false mark = (⟨c :: rest, mark.after ' '⟩, false) := by
    rw [skipFrom_space, skipFrom_stop hgap hhash hmark]
  exact congrArg (fun p : Cursor × Bool => { atValue tokens (' ' :: c :: rest) mark with
    cursor := p.1, keyAllowed := p.2 }) hskip

/-- The text ends behind the value of the last key. -/
theorem tokensFrom_end {keyAllowed : Bool} (hrest : rest = [] ∨ rest = ['\n'])
    (tokens : Array Token) (mark : Mark) :
    tokensFrom (fuel + 1) { atKey true tokens rest mark with keyAllowed } =
      some (tokens.push .blockEnd) := by
  obtain rfl | rfl := hrest
  · cases keyAllowed <;> rfl
  · cases keyAllowed <;> rfl

/-- What a plain scalar as a value leaves. -/
theorem plainScalar_atValue {p : Plain} (tokens : Array Token)
    (hread : plain? ⟨false, 1⟩ text .empty mark = some p) :
    (atValue tokens text mark).plainScalar = some { atKey true
      (tokens.push (.scalar .plain (String.ofList p.text))) p.behind.rest p.behind.mark with
        keyAllowed := p.brokeLine } := by
  have hsave : (atValue tokens text mark).saveCandidate = some (atValue tokens text mark) := rfl
  rw [plainScalar_eq hsave hread]
  rfl

/-- A word as a value ends at its line, if a key is on the next one. -/
theorem tokensFrom_word {word : List Char} (fuel : ℕ) (hword : IsWord word)
    (hrest : ∀ c ∈ rest.head?, isGap c = false)
    (tokens : Array Token) (mark : Mark) : ∃ mark' : Mark, mark'.column = 0 ∧
      tokensFrom (fuel + 1) (atValue tokens (' ' :: (word ++ '\n' :: rest)) mark) =
        tokensFrom fuel
          (atKey true (tokens.push (.scalar .plain (String.ofList word))) rest mark') := by
  have hread : plain? ⟨false, 1⟩ (word ++ '\n' :: rest) .empty (mark.after ' ') =
      some ⟨word, ⟨rest, (word.foldl Mark.after (mark.after ' ')).after '\n'⟩, true⟩ := by
    rw [plain?_word rfl hword.letters, plain?_lineEnd rfl Int.zero_lt_one hrest, Option.map_some,
      List.append_nil]
  have hscalar := plainScalar_atValue tokens hread
  obtain ⟨c, hc, hhyphen⟩ := hword.first
  obtain ⟨text, rfl⟩ := List.head?_eq_some_iff.1 hc
  have hcword := hword.letters c List.mem_cons_self
  obtain ⟨horder, hne⟩ := indicator_of_isWordChar hcword
  have hskip := skipGap_atValue (isGap_of_isWordChar hcword).1 (hne '#' (by simp)) horder tokens
    (text ++ '\n' :: rest) mark
  refine ⟨((c :: text).foldl Mark.after (mark.after ' ')).after '\n', rfl, ?_⟩
  rw [List.cons_append, tokensFrom_token _ _ hskip rfl (indent_atKey_le true tokens rest _),
    token_word rfl hcword hhyphen]
  rw [List.cons_append] at hscalar
  rw [hscalar, Option.bind_some]
  rfl

/-- One token of a value, and then the end of the text. -/
theorem tokensFrom_value {keyAllowed : Bool} {token : Token} {mark' : Mark} {behind : List Char}
    (hgap : isGap c = false) (hhash : c ≠ '#') (hmark : c ≠ byteOrderMark)
    (hbehind : behind = [] ∨ behind = ['\n'])
    (htoken : (atValue tokens (c :: rest) (mark.after ' ')).token c rest =
      some { atKey true (tokens.push token) behind mark' with keyAllowed }) :
    tokensFrom (fuel + 2) (atValue tokens (' ' :: c :: rest) mark) =
      some ((tokens.push token).push .blockEnd) := by
  rw [tokensFrom_token _ _ (skipGap_atValue hgap hhash hmark tokens rest mark) rfl
    (indent_atKey_le true tokens rest _), htoken, Option.bind_some, tokensFrom_end hbehind]

theorem tokensFrom_plain (hne : text ≠ []) (h : plainAllowed text = true) :
    tokensFrom (fuel + 2) (atValue tokens (' ' :: written .plain text) mark) =
      some ((tokens.push (.scalar .plain (String.ofList text))).push .blockEnd) := by
  unfold plainAllowed at h
  simp only [Bool.and_eq_true, Bool.not_eq_true', List.all_eq_true, List.any_eq_false,
    Bool.not_eq_true] at h
  obtain ⟨⟨⟨⟨⟨⟨hprint, hbreak⟩, hhead⟩, hlast⟩, hodd⟩, hcolon⟩, hhash⟩ := h
  have hspace : ∀ c ∈ text.getLast?, c ≠ ' ' := by
    rintro c hc rfl
    rw [Option.mem_def] at hc
    rw [hc] at hlast
    exact absurd hlast (by decide)
  obtain ⟨mark', hread⟩ := plain?_text (s := ⟨false, 1⟩) [] .empty (mark.after ' ') rfl
    (Int.le_refl 1) (plain?_lineEnd rfl Int.zero_lt_one (by simp) .empty) hprint hbreak hcolon hhash
    hspace (inLine_empty text) (Mark.column_after_pos (by decide))
  have hscalar := plainScalar_atValue tokens hread
  obtain ⟨c, text, rfl⟩ := List.exists_cons_of_ne_nil hne
  have hc := hprint c List.mem_cons_self
  have hgap : isGap c = false := by
    rw [isGap_of_isPrintable hc]
    exact hhead
  have horder : c ≠ byteOrderMark := by
    rintro rfl
    exact absurd hc (by decide)
  simp only [startsOddly, Bool.or_eq_false_iff, Bool.and_eq_false_iff, decide_eq_false_iff_not] at hodd
  obtain ⟨⟨⟨hodd, hword⟩, _⟩, _⟩ := hodd
  have hfar : ((mark.after ' ').column == 0) = false :=
    beq_eq_false_iff_ne.2 (Nat.ne_of_gt (Mark.column_after_pos (by decide)))
  have htoken : (atValue tokens (c :: (text ++ ['\n'])) (mark.after ' ')).token c (text ++ ['\n']) =
      some { atKey true (tokens.push (.scalar .plain (String.ofList (c :: text)))) [] mark' with
        keyAllowed := true } := by
    rw [token_eq_plainScalar rfl hgap hodd (fun hmem => ?_) ?_]
    · exact hscalar
    · show ((mark.after ' ').column == 0 && _) = false
      rw [hfar, Bool.false_and]
    · rw [wordEnds_append_newline]
      exact hword.resolve_left (not_not_intro hmem)
  refine tokensFrom_value hgap (fun hhash => ?_) horder (.inl rfl) htoken
  rw [hhash] at hodd
  exact absurd hodd (by decide)

theorem token_single : s.token '\'' rest =
    s.keyLike ((single? rest .empty s.cursor.next.mark).map fun (text, c) =>
      (.scalar .singleQuoted (String.ofList text), c)) := by
  simp [token, startsMarker_of_ne]

theorem tokensFrom_single (h : singleAllowed text = true) (hfeed : '\n' ∉ text) :
    tokensFrom (fuel + 2) (atValue tokens (' ' :: written .singleQuoted text) mark) =
      some ((tokens.push (.scalar .singleQuoted (String.ofList text))).push .blockEnd) := by
  unfold singleAllowed at h
  simp only [Bool.and_eq_true, Bool.not_eq_true', List.all_eq_true] at h
  obtain ⟨⟨hprint, hafter⟩, hbefore⟩ := h
  obtain ⟨mark', hread⟩ := single?_singleInside ['\n'] (by simp) hprint hfeed hafter
    hbefore (gapKept_empty text) ((mark.after ' ').after '\'')
  have htoken : (atValue tokens ('\'' :: (singleInside false text ++ ['\'', '\n']))
      (mark.after ' ')).token '\'' (singleInside false text ++ ['\'', '\n']) =
        some { atKey true (tokens.push (.scalar .singleQuoted (String.ofList text))) ['\n'] mark' with
          keyAllowed := false } := by
    rw [token_single]
    show keyLike _ ((single? _ .empty ((mark.after ' ').after '\'')).map _) = _
    rw [hread]
    rfl
  exact tokensFrom_value (by decide) (by decide) (by decide) (.inr rfl) htoken

theorem token_double : s.token '"' rest =
    s.keyLike ((double? rest (.words .empty) s.cursor.next.mark).map fun (text, c) =>
      (.scalar .doubleQuoted (String.ofList text), c)) := by
  simp [token, startsMarker_of_ne]

theorem tokensFrom_double (text : List Char) :
    tokensFrom (fuel + 2) (atValue tokens (' ' :: written .doubleQuoted text) mark) =
      some ((tokens.push (.scalar .doubleQuoted (String.ofList text))).push .blockEnd) := by
  obtain ⟨mark', hread⟩ := double?_flatMap_doubleChar .empty rfl text ['\n']
    ((mark.after ' ').after '"')
  have htoken : (atValue tokens ('"' :: (text.flatMap doubleChar ++ ['"', '\n']))
      (mark.after ' ')).token '"' (text.flatMap doubleChar ++ ['"', '\n']) =
        some { atKey true (tokens.push (.scalar .doubleQuoted (String.ofList text))) ['\n'] mark' with
          keyAllowed := false } := by
    rw [token_double]
    show keyLike _ ((double? _ (.words .empty) ((mark.after ' ').after '"')).map _) = _
    rw [hread]
    rfl
  exact tokensFrom_value (by decide) (by decide) (by decide) (.inr rfl) htoken

theorem token_literal (hflow : s.inFlow = false) : s.token '|' rest = s.blockScalar .literal := by
  simp [token, startsMarker_of_ne, hflow]

/-- The header of a literal block. -/
theorem blockHeader?_literal (edge : Bool) (chomping : Chomping) (lines : List Char) (mark : Mark) :
    ∃ mark' : Mark, mark'.column = 0 ∧
      blockHeader? ⟨(if edge then ['2'] else []) ++ chompingText chomping ++ '\n' :: lines, mark⟩ =
        some (⟨chomping, if edge then some 2 else none⟩, ⟨lines, mark'⟩) := by
  cases edge <;> cases chomping <;> exact ⟨_, rfl, rfl⟩

/-- What a literal block as a value leaves. -/
theorem blockScalar_atValue {header : BlockHeader} {lines : List Char} {mark₁ mark' : Mark}
    (tokens : Array Token)
    (hheader : blockHeader? ⟨rest, mark.after '|'⟩ = some (header, ⟨lines, mark₁⟩))
    (hread : block? false header.chomping 1 lines { indent := header.increment } mark₁ =
      some (text, ⟨[], mark'⟩)) :
    (atValue tokens ('|' :: rest) mark).blockScalar .literal =
      some { atKey true (tokens.push (.scalar .literal (String.ofList text))) [] mark' with
        keyAllowed := true } := by
  have hindent : header.increment.map (fun n => (max (0 : Int) 0).toNat + n) = header.increment := by
    cases header.increment with
    | none => rfl
    | some n => exact congrArg some (Nat.zero_add n)
  unfold blockScalar
  show (blockHeader? ⟨rest, mark.after '|'⟩).bind _ = _
  rw [hheader, Option.bind_some]
  show (block? false header.chomping 1 lines
    { indent := header.increment.map fun n => (max (0 : Int) 0).toNat + n } mark₁).bind _ = _
  rw [hindent, hread]
  rfl

theorem tokensFrom_literal (hne : text ≠ []) (h : literalAllowed text = true) :
    tokensFrom (fuel + 2) (atValue tokens (' ' :: written .literal text) mark) =
      some ((tokens.push (.scalar .literal (String.ofList text))).push .blockEnd) := by
  unfold literalAllowed at h
  simp only [Bool.and_eq_true, List.all_eq_true] at h
  obtain ⟨⟨hprint, _⟩, _⟩ := h
  obtain ⟨chomping, hchomping, hlines⟩ := block?_literalLines 1 hne hprint (by decide)
  obtain ⟨mark₁, hcolumn, hheader⟩ := blockHeader?_literal (text.head?.any isEdge) chomping
    (literalLines true text ++ if text.getLast?.any isBreak then [] else ['\n'])
    ((mark.after ' ').after '|')
  obtain ⟨mark', hread⟩ := hlines mark₁ hcolumn
  have hwritten : written .literal text = '|' :: ((if text.head?.any isEdge then ['2'] else []) ++
      chompingText chomping ++ '\n' :: (literalLines true text ++
        if text.getLast?.any isBreak then [] else ['\n'])) := by
    unfold written literalHeader
    rw [hchomping]
    simp
  rw [hwritten]
  exact tokensFrom_value (by decide) (by decide) (by decide) (.inl rfl)
    ((token_literal rfl).trans (blockScalar_atValue tokens hheader hread))

/-- The value of the last key is read back, in whatever style it is written. -/
theorem tokensFrom_written (text : List Char) (tokens : Array Token) (mark : Mark) :
    tokensFrom (fuel + 2) (atValue tokens (' ' :: written (styleFor text) text) mark) =
      some ((tokens.push (.scalar (styleFor text) (String.ofList text))).push .blockEnd) := by
  unfold styleFor
  split_ifs with hfeed hliteral hplain hsingle
  · refine tokensFrom_literal ?_ hliteral
    rintro rfl
    exact absurd hfeed List.not_mem_nil
  · exact tokensFrom_double text
  · obtain ⟨hmeaning, hallowed⟩ := hplain
    refine tokensFrom_plain ?_ hallowed
    rintro rfl
    exact absurd hmeaning (by decide)
  · exact tokensFrom_single hsingle hfeed
  · exact tokensFrom_double text

end Lexer

end PathLock.Yaml
