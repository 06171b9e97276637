import PathLock.Proofs.Yaml.Entries
import PathLock.Yaml.Node

/-!
# Block mappings of scalars are read back

A block mapping is written entry by entry, each key at the margin. All values but the last are words,
and the last may be any text, in the style that is chosen for it. What is written is read as one
document, in which every key and every value has the text and the style that it was written with.

* `Node.blockEntries?_tokens`: the entries from their tokens.
* `Lexer.tokensFrom_entries`: the tokens from the written entries.
* `Document.read?_written`: the document from the written entries.
-/

namespace PathLock.Yaml

open Scalar Lexer

/-- An entry of a block mapping, with a plain key and a scalar in some style as the value. -/
structure ScalarEntry where
  key : List Char
  style : Style
  text : List Char

namespace ScalarEntry

/-- The lines of an entry. -/
def written (e : ScalarEntry) : List Char := e.key ++ ':' :: ' ' :: Scalar.written e.style e.text

/-- The tokens of an entry. -/
def tokens (e : ScalarEntry) : List Token :=
  [.key, .scalar .plain (String.ofList e.key), .value, .scalar e.style (String.ofList e.text)]

/-- The nodes of an entry. -/
def nodes (e : ScalarEntry) : Node × Node :=
  (.scalar none .plain (String.ofList e.key), .scalar none e.style (String.ofList e.text))

/-- The value of the entry is a word. -/
structure IsWordEntry (e : ScalarEntry) : Prop where
  key : IsKey e.key
  style : e.style = .plain
  text : IsWord e.text

/-- The value of the entry is written in the style that is chosen for it. -/
structure IsTextEntry (e : ScalarEntry) : Prop where
  key : IsKey e.key
  style : e.style = styleFor e.text

end ScalarEntry

open ScalarEntry

variable {e last : ScalarEntry} {words entries : List ScalarEntry} {fuel : ℕ} {mark : Mark}

/-! ## Nodes -/

namespace Node

variable {flat missing : Bool} {r r' : Reading} {tokens : List Token} {tag : Option Tag}
  {nodes : List (Node × Node)}

theorem content?_blockMapping : (content? true flat missing tag (fuel + 1)).run
    { r with tokens := .blockMappingStart :: tokens } =
      ((blockEntries? fuel).run { r with tokens }).bind fun p => some (.mapping tag p.1, p.2) := rfl

theorem parse?_blockMapping (h : (blockEntries? fuel).run { r with tokens } = some (nodes, r')) :
    (parse? true flat (fuel + 2)).run { r with tokens := .blockMappingStart :: tokens } =
      some (.mapping none nodes, r') := by
  show ((content? true flat false none (fuel + 1)).run
    { r with tokens := .blockMappingStart :: tokens }).bind _ = _
  rw [content?_blockMapping, h]
  rfl

theorem blockEntries?_cons (h : (blockEntries? (fuel + 2)).run { r with tokens } = some (nodes, r')) :
    (blockEntries? (fuel + 3)).run { r with tokens := e.tokens ++ tokens } =
      some (e.nodes :: nodes, r') := by
  show ((blockEntries? (fuel + 2)).run { r with tokens }).bind _ = _
  rw [h]
  rfl

/-- The entries of a block mapping from their tokens. -/
theorem blockEntries?_tokens (entries : List ScalarEntry) :
    (blockEntries? (fuel + entries.length + 2)).run
      { r with tokens := entries.flatMap ScalarEntry.tokens ++ [.blockEnd] } =
        some (entries.map ScalarEntry.nodes, { r with tokens := [] }) := by
  induction entries with
  | nil => rfl
  | cons e entries ih =>
    rw [List.flatMap_cons, List.append_assoc]
    exact blockEntries?_cons ih

end Node

/-! ## Tokens -/

theorem written_ne_nil (style : Style) (text : List Char) : Scalar.written style text ≠ [] := by
  cases style <;> simp [Scalar.written, literalHeader]

theorem length_written (he : IsWord e.key) : 4 ≤ e.written.length := by
  obtain ⟨c, hc, _⟩ := he.first
  have hkey : 0 < e.key.length := List.length_pos_of_ne_nil (by rintro h; simp [h] at hc)
  have hvalue : 0 < (Scalar.written e.style e.text).length :=
    List.length_pos_of_ne_nil (written_ne_nil _ _)
  unfold ScalarEntry.written
  simp only [List.length_append, List.length_cons]
  omega

theorem length_flatMap_written (h : ∀ e ∈ entries, IsWord e.key) :
    4 * entries.length ≤ (entries.flatMap ScalarEntry.written).length := by
  induction entries with
  | nil => exact Nat.zero_le _
  | cons e entries ih =>
    obtain ⟨he, hentries⟩ := List.forall_mem_cons.1 h
    have hline := length_written he
    have hlines := ih hentries
    rw [List.flatMap_cons, List.length_append, List.length_cons]
    omega

theorem isWord_key (hwords : ∀ e ∈ words, e.IsWordEntry) (hlast : last.IsTextEntry) :
    ∀ e ∈ words ++ [last], IsWord e.key :=
  List.forall_mem_append.2 ⟨fun e he => (hwords e he).key.toIsWord,
    List.forall_mem_singleton.2 hlast.key.toIsWord⟩

namespace Lexer

/-- A block mapping goes on with a key. -/
theorem isGap_head_written (h : ∀ e ∈ entries, IsWord e.key) :
    ∀ c ∈ (entries.flatMap ScalarEntry.written).head?, isGap c = false := by
  cases entries with
  | nil => simp
  | cons e entries =>
    have he := h e List.mem_cons_self
    obtain ⟨c, hc, _⟩ := he.first
    obtain ⟨key, hkey⟩ := List.head?_eq_some_iff.1 hc
    intro d hd
    rw [List.flatMap_cons, ScalarEntry.written, hkey] at hd
    obtain rfl : c = d := Option.some.inj hd
    exact (isGap_of_isWordChar (he.letters c (List.mem_of_mem_head? hc))).1

/-- The tokens of a block mapping that is open or not. -/
theorem tokensFrom_entries (hwords : ∀ e ∈ words, e.IsWordEntry) (hlast : last.IsTextEntry)
    (opened : Bool) (tokens : Array Token) (hcolumn : mark.column = 0) :
    tokensFrom (fuel + 3 * words.length + 4)
      (atKey opened tokens ((words ++ [last]).flatMap ScalarEntry.written) mark) =
        some (tokens ++ ((if opened then [] else [Token.blockMappingStart]) ++
          ((words ++ [last]).flatMap ScalarEntry.tokens ++ [Token.blockEnd])).toArray) := by
  induction words generalizing opened tokens mark with
  | nil =>
    obtain ⟨mark', hkey⟩ := tokensFrom_key (fuel + 2) opened tokens hlast.key hcolumn
      (Scalar.written last.style last.text)
    rw [List.nil_append, List.flatMap_singleton, List.flatMap_singleton, ScalarEntry.written]
    refine hkey.trans ?_
    rw [hlast.style, tokensFrom_written]
    cases opened <;> simp [keyTokens, ScalarEntry.tokens, hlast.style]
  | cons e words ih =>
    -- Behind its first key the mapping is open, so the rest is read as that of an open one.
    obtain ⟨he, hwords⟩ := List.forall_mem_cons.1 hwords
    obtain ⟨mark₁, hkey⟩ := tokensFrom_key (fuel + 3 * words.length + 5) opened tokens he.key
      hcolumn (e.text ++ '\n' :: (words ++ [last]).flatMap ScalarEntry.written)
    obtain ⟨mark₂, hcolumn₂, hword⟩ := tokensFrom_word (fuel + 3 * words.length + 4) he.text
      (isGap_head_written (isWord_key hwords hlast)) (tokens ++ keyTokens opened e.key) mark₁
    have hwritten : (e :: words ++ [last]).flatMap ScalarEntry.written = e.key ++ ':' :: ' ' ::
        (e.text ++ '\n' :: (words ++ [last]).flatMap ScalarEntry.written) := by
      simp [ScalarEntry.written, he.style, Scalar.written]
    rw [hwritten]
    refine (hkey.trans (hword.trans (ih hwords true _ hcolumn₂))).trans ?_
    cases opened <;> simp [keyTokens, ScalarEntry.tokens, he.style]

end Lexer

/-! ## Documents -/

/-- Keys are words, so it is up to the value whether an entry is printable. -/
theorem ScalarEntry.isPrintable_written (he : IsWord e.key)
    (hvalue : ∀ c ∈ Scalar.written e.style e.text, isPrintable c = true) :
    ∀ c ∈ e.written, isPrintable c = true :=
  List.forall_mem_append.2 ⟨fun c hc => isPrintable_of_isWordChar (he.letters c hc),
    List.forall_mem_cons.2 ⟨rfl, List.forall_mem_cons.2 ⟨rfl, hvalue⟩⟩⟩

theorem ScalarEntry.IsWordEntry.isPrintable (he : e.IsWordEntry) :
    ∀ c ∈ e.written, isPrintable c = true := by
  refine e.isPrintable_written he.key.toIsWord ?_
  rw [he.style]
  exact List.forall_mem_append.2
    ⟨fun c hc => isPrintable_of_isWordChar (he.text.letters c hc), List.all_eq_true.1 rfl⟩

theorem ScalarEntry.IsTextEntry.isPrintable (he : e.IsTextEntry) :
    ∀ c ∈ e.written, isPrintable c = true := by
  refine e.isPrintable_written he.key.toIsWord ?_
  rw [he.style]
  exact Scalar.isPrintable_written e.text

theorem Document.root?_blockMapping {tokens : List Token} {nodes : List (Node × Node)} {r : Reading}
    (h : (Node.blockEntries? (4 * (tokens.length + 1) + 2)).run
      { tokens, handles := standardHandles } = some (nodes, r)) :
    root?.run { tokens := .blockMappingStart :: tokens } =
      some (some (.mapping none nodes), r) := by
  show ((Node.parse? true false (4 * (tokens.length + 1) + 4)).run
    { tokens := .blockMappingStart :: tokens, handles := standardHandles }).bind _ = _
  rw [Node.parse?_blockMapping (r := { tokens, handles := standardHandles }) h]
  rfl

section

variable (hwords : ∀ e ∈ words, e.IsWordEntry) (hlast : last.IsTextEntry)
include hwords hlast

theorem isVerbatim_written : IsVerbatim ((words ++ [last]).flatMap ScalarEntry.written) := by
  refine isVerbatim_of_isPrintable fun c hc => ?_
  obtain ⟨e, he, hce⟩ := List.mem_flatMap.1 hc
  rcases List.mem_append.1 he with he | he
  · exact (hwords e he).isPrintable c hce
  · obtain rfl := List.mem_singleton.1 he
    exact hlast.isPrintable c hce

theorem Token.read?_written : Token.read? ((words ++ [last]).flatMap ScalarEntry.written) =
    some (.blockMappingStart ::
      ((words ++ [last]).flatMap ScalarEntry.tokens ++ [.blockEnd])) := by
  have hlength := length_flatMap_written (isWord_key hwords hlast)
  rw [List.length_append, List.length_singleton] at hlength
  obtain ⟨fuel, hfuel⟩ : ∃ fuel, ((words ++ [last]).flatMap ScalarEntry.written).length + 1 =
      fuel + (3 * words.length + 4) := Nat.exists_eq_add_of_le' (by omega)
  have hread : Lexer.tokensFrom (fuel + 3 * words.length + 4)
      { cursor := { rest := (words ++ [last]).flatMap ScalarEntry.written } } = some _ :=
    Lexer.tokensFrom_entries hwords hlast false #[] rfl
  unfold Token.read?
  rw [hfuel, ← Nat.add_assoc, hread]
  simp

/-- The document that is read from the lines of a mapping has just its entries. -/
theorem Document.read?_written :
    Document.read? (String.ofList ((words ++ [last]).flatMap ScalarEntry.written)) =
      some { root := some (.mapping none ((words ++ [last]).map ScalarEntry.nodes)) } := by
  have hverbatim := isVerbatim_written hwords hlast
  have hlength : ((words ++ [last]).flatMap ScalarEntry.tokens ++ [Token.blockEnd]).length =
      4 * (words ++ [last]).length + 1 := by
    simp [List.length_flatMap, ScalarEntry.tokens]
    omega
  obtain ⟨fuel, hfuel⟩ : ∃ fuel,
      4 * (((words ++ [last]).flatMap ScalarEntry.tokens ++ [Token.blockEnd]).length + 1) + 2 =
        fuel + ((words ++ [last]).length + 2) := Nat.exists_eq_add_of_le' (by omega)
  have hroot : root?.run { tokens := .blockMappingStart ::
      ((words ++ [last]).flatMap ScalarEntry.tokens ++ [.blockEnd]) } =
        some (some (.mapping none ((words ++ [last]).map ScalarEntry.nodes)),
          { tokens := [], handles := standardHandles }) := by
    refine root?_blockMapping ?_
    rw [hfuel, ← Nat.add_assoc]
    exact Node.blockEntries?_tokens (r := { tokens := [], handles := standardHandles }) _
  unfold Document.read?
  simp only [String.toList_ofList]
  rw [if_pos hverbatim.all_isAllowed, unifyBreaks_eq_self hverbatim,
    Token.read?_written hwords hlast]
  show (root?.run _).bind _ = _
  rw [hroot]
  rfl

end

end PathLock.Yaml
