import PathLock.Proofs.Path.Segments

/-!
# Cleaning names

The clean form of a name is `/`, or `/` and segments with a `/` between them (`Path.isClean_iff`).
Exactly the names with such a text are left as they are (`Path.clean_normalizes`), and a name may be
cleaned before more is written behind it (`Path.clean_append`): what comes behind works on the
segments of the clean form, piece by piece (`Path.segments_append`).
-/

namespace PathLock.Path

variable {name : String}

/-! ## Clean names as text -/

theorem flatMap_slash_eq {s : List Char} {segs : List (List Char)} :
    (s :: segs).flatMap ('/' :: ·) = '/' :: ['/'].intercalate (s :: segs) := by
  induction segs generalizing s with
  | nil => simp
  | cons t segs ih =>
    rw [List.flatMap_cons, ih, List.intercalate_cons_cons]
    simp

/-- A clean name is `/`, or `/` and segments with a `/` between them. -/
theorem isClean_iff : IsClean name ↔ name = "/" ∨ ∃ segs : List (List Char), segs ≠ [] ∧
    (∀ s ∈ segs, IsSegment s) ∧ name.toList = '/' :: ['/'].intercalate segs := by
  constructor
  · rintro ⟨segs, hsegs, rfl⟩
    cases segs with
    | nil => exact .inl rfl
    | cons s segs =>
      refine .inr ⟨s :: segs, List.cons_ne_nil _ _, hsegs, ?_⟩
      unfold ofSegments
      rw [String.toList_ofList, absolute_of_ne_nil (List.cons_ne_nil _ _), flatMap_slash_eq]
  · rintro (rfl | ⟨segs, hne, hsegs, hname⟩)
    · exact ⟨[], by simp, rfl⟩
    · refine ⟨segs, hsegs, ?_⟩
      obtain ⟨s, segs, rfl⟩ := List.exists_cons_of_ne_nil hne
      unfold ofSegments
      rw [← String.toList_inj, String.toList_ofList, hname, absolute_of_ne_nil hne,
        flatMap_slash_eq]

theorem clean_eq_self_iff : clean name = name ↔ IsClean name :=
  ⟨fun h => h ▸ isClean_clean name, IsClean.clean_eq_self⟩

/-! ## More behind a name -/

/-- What is written behind a name works on the segments that are left of the name. -/
theorem segments_append (name more : String) :
    segments (name ++ "/" ++ more) =
      ((more.toList.splitOn '/').foldl enter (segments name).reverse).reverse := by
  have hchars : (name ++ "/" ++ more).toList = name.toList ++ '/' :: more.toList := by
    simp [String.toList_append]
  unfold segments cleanSegments
  rw [hchars, List.splitOn_append_cons_self, List.foldl_append, List.reverse_reverse]

/-- It does not matter whether a name is cleaned before more is written behind it. -/
theorem clean_append (name more : String) :
    clean (name ++ "/" ++ more) = clean (clean name ++ "/" ++ more) := by
  rw [clean_eq, clean_eq, segments_append, segments_append, segments_clean]

theorem parent_ofSegments {segs : List (List Char)} (h : ∀ s ∈ segs, IsSegment s) :
    parent (ofSegments segs) = ofSegments segs.dropLast := by
  unfold parent ofSegments
  rw [String.toList_ofList]
  induction segs using List.reverseRecOn with
  | nil => rfl
  | append_singleton segs s _ =>
    have hs := h s (List.mem_append_right _ (List.mem_singleton_self s))
    rw [parentChars_absolute hs.no_slash, List.dropLast_concat]

/-- One piece behind a name enters the segments that are left of the name. -/
theorem segments_append_piece (name : String) {piece : String} (h : '/' ∉ piece.toList) :
    segments (name ++ "/" ++ piece) = (enter (segments name).reverse piece.toList).reverse := by
  rw [segments_append, List.splitOn_eq_singleton h, List.foldl_cons, List.foldl_nil]

/-- Two dots behind a name lead to the parent of its clean form, which for `/` is `/` itself. -/
theorem clean_append_dots (name : String) : clean (name ++ "/..") = parent (clean name) := by
  have happend : name ++ "/.." = name ++ "/" ++ ".." := by
    rw [String.append_assoc]
    rfl
  have hpiece : enter (segments name).reverse "..".toList = (segments name).reverse.tail := rfl
  rw [clean_eq, happend, segments_append_piece name (by decide), hpiece, clean_eq,
    parent_ofSegments isSegment_of_mem_segments, List.tail_reverse, List.reverse_reverse]

/-- A piece that is empty or one dot changes nothing. -/
theorem clean_append_idle (name : String) {piece : String} (h : piece = "" ∨ piece = ".") :
    clean (name ++ "/" ++ piece) = clean name := by
  have hpiece : '/' ∉ piece.toList ∧ enter (segments name).reverse piece.toList =
      (segments name).reverse := by
    rcases h with rfl | rfl <;> exact ⟨by decide, rfl⟩
  rw [clean_eq, segments_append_piece name hpiece.1, hpiece.2, List.reverse_reverse, clean_eq]

theorem clean_slash_append (name : String) : clean ("/" ++ name) = clean name := by
  have happend : "/" ++ name = "" ++ "/" ++ name := by rw [String.empty_append]
  rw [clean_eq, happend, segments_append, clean_eq]
  rfl

/-- A clean form is `/`, or `/` and segments with a `/` between them, and exactly the names with such
a text are kept. A name can be cleaned before more is written behind it. Two dots lead one level up
from the clean form; one dot, a `/` at the end and a `/` at the front change nothing. -/
theorem clean_normalizes (name more : String) :
    (clean name = "/" ∨ ∃ segs : List (List Char), segs ≠ [] ∧ (∀ s ∈ segs, IsSegment s) ∧
        (clean name).toList = '/' :: ['/'].intercalate segs) ∧
      (clean name = name ↔ name = "/" ∨ ∃ segs : List (List Char), segs ≠ [] ∧
        (∀ s ∈ segs, IsSegment s) ∧ name.toList = '/' :: ['/'].intercalate segs) ∧
      clean (clean name) = clean name ∧
      clean (name ++ "/" ++ more) = clean (clean name ++ "/" ++ more) ∧
      clean (name ++ "/..") = parent (clean name) ∧
      clean (name ++ "/.") = clean name ∧ clean (name ++ "/") = clean name ∧
      clean ("/" ++ name) = clean name := by
  have hclean := isClean_clean name
  have hdot : name ++ "/." = name ++ "/" ++ "." := by
    rw [String.append_assoc]
    rfl
  have hslash : name ++ "/" = name ++ "/" ++ "" := by rw [String.append_empty]
  refine ⟨isClean_iff.1 hclean, clean_eq_self_iff.trans isClean_iff, hclean.clean_eq_self,
    clean_append name more, clean_append_dots name, ?_, ?_, clean_slash_append name⟩
  · rw [hdot, clean_append_idle name (.inr rfl)]
  · rw [hslash, clean_append_idle name (.inl rfl)]

-- The dots go up from `/a`, and no further than to `/`.
example : clean "a//b/.." = "/a" ∧ clean "a//b/../../../c" = "/c" := by decide +kernel

end PathLock.Path
