import PathLock.Config.Writer
import PathLock.Proofs.Text.Numeral
import PathLock.Proofs.Yaml.Mapping

/-!
# Configurations are read back

A written configuration is read as the same configuration, whatever its fields are, since the lines
are those of a block mapping of scalars: a number in plain style for the token seed, and any text in
the style that is chosen for it. What is left to the reading of a configuration is the check of its
timeout.

* `Config.ofYaml_toYaml`: the answer for every configuration.
-/

namespace PathLock

open Yaml Yaml.Lexer

/-! ## Written numbers -/

theorem Text.isWordChar_of_isDigit {c : Char} (h : '0' ≤ c ∧ c ≤ '9') : isWordChar c = true := by
  have hdigit := Text.isDigit_iff.2 h
  simp [isWordChar, Char.isAlphanum, hdigit]

theorem isWord_repr (n : ℕ) : IsWord n.repr.toList := by
  have hnumeral := Text.isNumeral_repr n
  obtain ⟨c, digits, hdigits⟩ := List.exists_cons_of_ne_nil hnumeral.ne_nil
  refine ⟨fun d hd => Text.isWordChar_of_isDigit (hnumeral.isDigit d hd), c, ?_, ?_⟩
  · rw [hdigits]
    rfl
  · rintro rfl
    have hhyphen := hnumeral.isDigit '-' (by rw [hdigits]; exact List.mem_cons_self)
    exact absurd hhyphen (by decide)

namespace Yaml.Plain

variable {digits : List Char}

theorem isNull_eq_false (h : Text.IsNumeral digits) : isNull digits = false := by
  have hwords : ∀ word ∈ ["~".toList, "null".toList, "Null".toList, "NULL".toList],
      word.all Char.isDigit = false := by decide
  have hdigits : digits.all Char.isDigit = true :=
    List.all_eq_true.2 fun c hc => Text.isDigit_iff.2 (h.isDigit c hc)
  exact decide_eq_false fun hmem => Bool.false_ne_true ((hwords digits hmem).symm.trans hdigits)

theorem dropPlus_eq_self (h : Text.IsNumeral digits) : dropPlus digits = digits := by
  unfold dropPlus
  split
  · exact absurd (h.isDigit '+' List.mem_cons_self) (by decide)
  · rfl

theorem marked?_eq_none (h : Text.IsNumeral digits) : marked? digits = none := by
  have hmark : ∀ c more, digits = '0' :: c :: more → '0' ≤ c ∧ c ≤ '9' := by
    rintro c more rfl
    exact h.isDigit c (List.mem_cons_of_mem _ List.mem_cons_self)
  unfold marked?
  split
  · exact absurd (hmark _ _ rfl) (by decide)
  · exact absurd (hmark _ _ rfl) (by decide)
  · exact absurd (hmark _ _ rfl) (by decide)
  · rfl

theorem hasLeadingZero_eq_false (h : Text.IsNumeral digits) (hzero : Text.NoLeadingZero digits) :
    hasLeadingZero digits = false := by
  have hsign : dropSign digits = digits := by
    unfold dropSign
    split
    · exact absurd (h.isDigit '+' List.mem_cons_self) (by decide)
    · exact absurd (h.isDigit '-' List.mem_cons_self) (by decide)
    · rfl
  unfold hasLeadingZero
  rw [hsign]
  split
  · exact absurd (hzero _ rfl) (List.cons_ne_nil _ _)
  · rfl

/-- A written number is read as the number. -/
theorem natural?_repr (n : ℕ) : natural? n.repr.toList = some n := by
  have hnumeral := Text.isNumeral_repr n
  unfold natural?
  rw [dropPlus_eq_self hnumeral, marked?_eq_none hnumeral,
    hasLeadingZero_eq_false hnumeral (Text.noLeadingZero_repr n)]
  exact Text.readDecimal?_eq_some_iff.2 ⟨hnumeral, Text.decimalValue_repr n⟩

end Yaml.Plain

namespace Config

/-! ## Entries -/

/-- The entry of the token seed, if there is one. -/
def seedEntries : Option UInt64 → List ScalarEntry
  | some seed => [⟨seedField.toList, .plain, seed.toNat.repr.toList⟩]
  | none => []

/-- The entry of the default timeout. -/
def timeoutEntry (header : String) : ScalarEntry :=
  ⟨timeoutField.toList, Scalar.styleFor header.toList, header.toList⟩

theorem isKey_seedField : IsKey seedField.toList :=
  ⟨⟨List.all_eq_true.1 (by decide), 't', by decide⟩, by decide⟩

theorem isKey_timeoutField : IsKey timeoutField.toList :=
  ⟨⟨List.all_eq_true.1 (by decide), 'd', by decide⟩, by decide⟩

theorem isWordEntry_seedEntries (seed : Option UInt64) :
    ∀ e ∈ seedEntries seed, e.IsWordEntry := by
  cases seed with
  | none => exact List.forall_mem_nil _
  | some seed => exact List.forall_mem_singleton.2 ⟨isKey_seedField, rfl, isWord_repr _⟩

theorem isTextEntry_timeoutEntry (header : String) : (timeoutEntry header).IsTextEntry :=
  ⟨isKey_timeoutField, rfl⟩

variable (config : Config)

/-- The entries of a configuration. -/
def entries : List ScalarEntry :=
  seedEntries config.tokenSeed ++ [timeoutEntry config.defaultTimeout]

/-- A configuration is written as a block mapping of its entries. -/
theorem toYaml_eq_entries :
    config.toYaml = String.ofList (config.entries.flatMap ScalarEntry.written) := by
  obtain ⟨seed, header⟩ := config
  cases seed with
  | none =>
    simp [toYaml, seedLine, entries, seedEntries, timeoutEntry, ScalarEntry.written,
      Scalar.writtenAt]
  | some seed =>
    simp [toYaml, seedLine, entries, seedEntries, timeoutEntry, ScalarEntry.written,
      Scalar.writtenAt, Scalar.written]

/-- The document of a configuration. -/
def document : Document :=
  { root := some (.mapping none (config.entries.map ScalarEntry.nodes)) }

theorem read?_toYaml : Document.read? config.toYaml = some config.document := by
  rw [toYaml_eq_entries]
  exact Document.read?_written (isWordEntry_seedEntries _) (isTextEntry_timeoutEntry _)

/-! ## Fields -/

/-- A written token seed is read as the number, as it is neither null nor too large. -/
theorem seed_repr (d : Document) (seed : UInt64) (left : ℕ) :
    (d.optional (Config.seed d) (.scalar none .plain seed.toNat.repr)).run left =
      some (some seed, left) := by
  have hempty : seed.toNat.repr ≠ "" := by
    intro h
    exact (Text.isNumeral_repr seed.toNat).ne_nil (by rw [h]; rfl)
  have hnull := Plain.isNull_eq_false (Text.isNumeral_repr seed.toNat)
  have hnatural : (d.natural (.scalar none .plain seed.toNat.repr)).run left =
      some (seed.toNat, left) := by
    show (Plain.natural? seed.toNat.repr.toList).bind (fun n => some (n, left)) = _
    rw [Plain.natural?_repr]
    rfl
  have hseed : (Config.seed d (.scalar none .plain seed.toNat.repr)).run left =
      some (seed, left) := by
    show ((d.natural (.scalar none .plain seed.toNat.repr)).run left).bind (fun p =>
      (if p.1 < UInt64.size then return UInt64.ofNat p.1 else failure : Visit UInt64).run p.2) = _
    rw [hnatural, Option.bind_some, if_pos seed.toNat_lt, UInt64.ofNat_toNat]
    rfl
  show (if seed.toNat.repr = "" ∨ Plain.isNull seed.toNat.repr.toList = true then pure none
    else some <$> Config.seed d (.scalar none .plain seed.toNat.repr) : Visit (Option UInt64)).run
      left = _
  rw [if_neg (not_or.2 ⟨hempty, by rw [hnull]; exact Bool.false_ne_true⟩)]
  show ((Config.seed d (.scalar none .plain seed.toNat.repr)).run left).bind _ = _
  rw [hseed]
  rfl

/-- The fields that are read from the document. -/
def fields : List (String × Yaml.Node) :=
  config.entries.map fun e => (String.ofList e.key, e.nodes.2)

theorem fields_document (left : ℕ) :
    (config.document.fields config.document.root).run left = some (config.fields, left) := by
  obtain ⟨seed, header⟩ := config
  cases seed <;> rfl

theorem field?_seedField : field? config.fields seedField =
    some (config.tokenSeed.map fun seed => .scalar none .plain seed.toNat.repr) := by
  obtain ⟨seed, header⟩ := config
  cases seed with
  | none => rfl
  | some seed =>
    show some (some (Yaml.Node.scalar none .plain (String.ofList seed.toNat.repr.toList))) = _
    rw [String.ofList_toList]
    rfl

theorem field?_timeoutField : field? config.fields timeoutField =
    some (some (timeoutEntry config.defaultTimeout).nodes.2) := by
  obtain ⟨seed, header⟩ := config
  cases seed <;> rfl

theorem text_timeoutEntry (d : Document) (header : String) (left : ℕ) :
    (d.text (timeoutEntry header).nodes.2).run left = some (header, left) := by
  show some (String.ofList header.toList, left) = _
  rw [String.ofList_toList]

/-- Every configuration is read from its document, also one that is not valid. -/
theorem run_read (left : ℕ) : (read config.document).run left = some (config, left) := by
  have hfields := config.fields_document left
  have hseed := config.field?_seedField
  have htimeout := config.field?_timeoutField
  have htext := text_timeoutEntry config.document config.defaultTimeout left
  obtain ⟨seed, header⟩ := config
  cases seed with
  | none => simp [read, hfields, hseed, htimeout, htext]
  | some seed => simp [read, hfields, hseed, htimeout, htext, seed_repr]

theorem ofDocument?_document : ofDocument? config.document = some config := by
  unfold ofDocument? Document.visit?
  show Prod.fst <$> (read config.document).run _ = some config
  rw [run_read]
  rfl

/-- A configuration that is valid is read back, and one that is not gives the error that says so. -/
theorem ofYaml_toYaml :
    (config.validate = .ok () → ofYaml config.toYaml = .ok config) ∧
      ∀ e, config.validate = .error e → ofYaml config.toYaml = .error e ∧
        (∃ mistake, e = .user mistake) ∧
        e.message = "config validation failed: default_timeout: invalid timeout: " ++
          config.defaultTimeout := by
  have hread : ofYaml config.toYaml = config.validate >>= fun _ => .ok config := by
    unfold ofYaml
    rw [read?_toYaml, Option.bind_some, ofDocument?_document]
    rfl
  rw [hread]
  refine ⟨fun hvalid => ?_, fun e herror => ?_⟩
  · rw [hvalid]
    rfl
  · have hmistake : e = .user (.badDefaultTimeout config.defaultTimeout) := by
      unfold validate at herror
      split_ifs at herror
      exact (Except.error.inj herror).symm
    rw [herror, hmistake]
    have htext : "config validation failed: default_timeout: " ++ "invalid timeout: " =
        "config validation failed: default_timeout: invalid timeout: " := by decide
    refine ⟨rfl, ⟨_, rfl⟩, ?_⟩
    rw [← htext, String.append_assoc]
    rfl

/-- The largest token seed, and a timeout with white space, line breaks, a control character and much
that means something else in YAML. -/
def oddlySpelt : Config :=
  { tokenSeed := some 18446744073709551615
    defaultTimeout := " \t\u2028Infinite\n , a: 'b' #\"c\x07\\-\n" }

theorem ofYaml_toYaml_oddlySpelt :
    (oddlySpelt.validate = .ok () ∧ ofYaml oddlySpelt.toYaml = .ok oddlySpelt) ∧
      ∃ e, ({ defaultTimeout := "null" } : Config).validate = .error e ∧
        ofYaml (toYaml { defaultTimeout := "null" }) = .error e ∧
        e.message = "config validation failed: default_timeout: invalid timeout: null" := by
  have hvalid : oddlySpelt.validate = .ok () := by decide +kernel
  have herror : ({ defaultTimeout := "null" } : Config).validate =
      .error (.user (.badDefaultTimeout "null")) := by decide +kernel
  obtain ⟨hread, _, htext⟩ := (ofYaml_toYaml { defaultTimeout := "null" }).2 _ herror
  exact ⟨⟨hvalid, (ofYaml_toYaml oddlySpelt).1 hvalid⟩, _, herror, hread, htext⟩

end Config

end PathLock
