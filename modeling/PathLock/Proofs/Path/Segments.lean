import Mathlib.Data.List.Infix
import Mathlib.Data.List.Nodup
import PathLock.Path

/-!
# Names as lists of segments

A clean name is the list of its segments, written out: `clean` always gives one (`isClean_clean`)
and changes nothing about one (`clean_eq_self`). The walk up from a clean name sees the prefixes of
that list, longest first (`ancestors_ofSegments`), so a level is seen exactly if the name lies
within it (`mem_ancestors`), which is also what the test on the two texts tells (`below_iff`).
-/

namespace PathLock.Path

/-! ## Clean names -/

/-- What may stand between two `/` of a clean name. -/
structure IsSegment (s : List Char) : Prop where
  ne_nil : s ≠ []
  no_slash : '/' ∉ s
  ne_dot : s ≠ ['.']
  ne_dots : s ≠ ['.', '.']

/-- The segments of the clean form of a name. -/
def segments (name : String) : List (List Char) := cleanSegments name.toList

/-- The absolute name with the given segments, as text. -/
def ofSegments (segs : List (List Char)) : String := String.ofList (absolute segs)

/-- A clean absolute name: `/`, or segments each after a `/`. -/
def IsClean (name : String) : Prop :=
  ∃ segs : List (List Char), (∀ s ∈ segs, IsSegment s) ∧ name = ofSegments segs

/-- `name` is `root` or lies below it. -/
def Within (root name : String) : Prop := segments root <+: segments name

instance (root name : String) : Decidable (Within root name) :=
  inferInstanceAs (Decidable (segments root <+: segments name))

/-- `name` lies below `root`. -/
def StrictlyWithin (root name : String) : Prop :=
  Within root name ∧ segments root ≠ segments name

instance (root name : String) : Decidable (StrictlyWithin root name) :=
  inferInstanceAs (Decidable (_ ∧ _))

theorem not_mem_of_mem_splitOn {a : Char} {xs : List Char} :
    ∀ s ∈ xs.splitOn a, a ∉ s := by
  induction xs with
  | nil =>
    intro s hs
    rw [List.splitOn_nil, List.mem_singleton] at hs
    rw [hs]
    exact List.not_mem_nil
  | cons x xs ih =>
    intro s hs
    rw [List.splitOn_cons_eq_if_modifyHead] at hs
    obtain ⟨y, ys, hy⟩ := List.exists_cons_of_ne_nil (List.splitOn_ne_nil a xs)
    rw [hy] at hs ih
    by_cases hx : x = a
    · rw [if_pos (beq_iff_eq.2 hx), List.mem_cons] at hs
      rcases hs with rfl | hs
      · exact List.not_mem_nil
      · exact ih s hs
    · rw [if_neg (by simpa using hx), List.modifyHead_cons, List.mem_cons] at hs
      rcases hs with rfl | hs
      · rw [List.mem_cons, not_or]
        exact ⟨fun h => hx h.symm, ih y List.mem_cons_self⟩
      · exact ih s (List.mem_cons_of_mem _ hs)

/-- Entering pieces without `/` keeps what is left a list of segments. -/
theorem isSegment_of_mem_foldl_enter {pieces : List (List Char)} (hp : ∀ p ∈ pieces, '/' ∉ p) :
    ∀ {before : List (List Char)}, (∀ s ∈ before, IsSegment s) →
      ∀ s ∈ pieces.foldl enter before, IsSegment s := by
  induction pieces with
  | nil => intro before hb; exact hb
  | cons p pieces ih =>
    intro before hb
    rw [List.foldl_cons]
    refine ih (fun q hq => hp q (List.mem_cons_of_mem _ hq)) fun s hs => ?_
    unfold enter at hs
    split_ifs at hs with h₁ h₂
    · exact hb s hs
    · exact hb s (List.mem_of_mem_tail hs)
    · rcases List.mem_cons.1 hs with rfl | hs
      · rw [not_or] at h₁
        exact ⟨h₁.1, hp _ List.mem_cons_self, h₁.2, h₂⟩
      · exact hb s hs

theorem isSegment_of_mem_segments {name : String} : ∀ s ∈ segments name, IsSegment s := by
  intro s hs
  unfold segments cleanSegments at hs
  rw [List.mem_reverse] at hs
  exact isSegment_of_mem_foldl_enter not_mem_of_mem_splitOn
    (fun _ h => absurd h List.not_mem_nil) s hs

theorem clean_eq (name : String) : clean name = ofSegments (segments name) := rfl

theorem isClean_ofSegments {segs : List (List Char)} (h : ∀ s ∈ segs, IsSegment s) :
    IsClean (ofSegments segs) := ⟨segs, h, rfl⟩

/-- The clean form of any name is a clean name. -/
theorem isClean_clean (name : String) : IsClean (clean name) :=
  isClean_ofSegments isSegment_of_mem_segments

/-! ## Reading the segments back -/

theorem absolute_of_ne_nil {segs : List (List Char)} (h : segs ≠ []) :
    absolute segs = segs.flatMap ('/' :: ·) := by
  cases segs with
  | nil => exact absurd rfl h
  | cons => rfl

theorem splitOn_flatMap {segs : List (List Char)} (h : ∀ s ∈ segs, '/' ∉ s) {s : List Char}
    (hs : '/' ∉ s) : (s ++ segs.flatMap ('/' :: ·)).splitOn '/' = s :: segs := by
  induction segs generalizing s with
  | nil => rw [List.flatMap_nil, List.append_nil, List.splitOn_eq_singleton hs]
  | cons t segs ih =>
    rw [List.flatMap_cons, List.cons_append, List.splitOn_append_cons_self_of_not_mem hs,
      ih (fun u hu => h u (List.mem_cons_of_mem _ hu)) (h t List.mem_cons_self)]

theorem foldl_enter_eq {segs : List (List Char)} (h : ∀ s ∈ segs, IsSegment s) :
    ∀ before, segs.foldl enter before = segs.reverse ++ before := by
  induction segs with
  | nil => intro before; rfl
  | cons s segs ih =>
    intro before
    have hs := h s List.mem_cons_self
    have he : enter before s = s :: before := by
      unfold enter
      rw [if_neg (by simp [hs.ne_nil, hs.ne_dot]), if_neg hs.ne_dots]
    rw [List.foldl_cons, he, ih fun t ht => h t (List.mem_cons_of_mem _ ht), List.reverse_cons,
      List.append_assoc, List.singleton_append]

theorem cleanSegments_absolute {segs : List (List Char)} (h : ∀ s ∈ segs, IsSegment s) :
    cleanSegments (absolute segs) = segs := by
  cases segs with
  | nil => rfl
  | cons s segs =>
    have hsplit := splitOn_flatMap (s := []) (fun t ht => (h t ht).no_slash) List.not_mem_nil
    rw [List.nil_append] at hsplit
    have hnil : enter [] [] = [] := rfl
    unfold cleanSegments
    rw [absolute_of_ne_nil (List.cons_ne_nil _ _), hsplit, List.foldl_cons, hnil, foldl_enter_eq h,
      List.append_nil, List.reverse_reverse]

@[simp] theorem segments_ofSegments {segs : List (List Char)} (h : ∀ s ∈ segs, IsSegment s) :
    segments (ofSegments segs) = segs := by
  unfold segments ofSegments
  rw [String.toList_ofList, cleanSegments_absolute h]

@[simp] theorem segments_clean (name : String) : segments (clean name) = segments name := by
  rw [clean_eq, segments_ofSegments isSegment_of_mem_segments]

theorem IsClean.ofSegments_segments {name : String} (h : IsClean name) :
    ofSegments (segments name) = name := by
  obtain ⟨segs, hs, rfl⟩ := h
  rw [segments_ofSegments hs]

/-- A clean name is its own clean form. -/
theorem IsClean.clean_eq_self {name : String} (h : IsClean name) : clean name = name :=
  h.ofSegments_segments

/-- Clean names differ exactly if their segments do. -/
theorem IsClean.segments_inj {a b : String} (ha : IsClean a) (hb : IsClean b) :
    segments a = segments b ↔ a = b := by
  refine ⟨fun h => ?_, fun h => h ▸ rfl⟩
  rw [← ha.ofSegments_segments, ← hb.ofSegments_segments, h]

/-! ## Containment -/

theorem Within.refl (name : String) : Within name name := List.prefix_refl _

/-- Two names that a third lies within are within one another. -/
theorem Within.total {a b name : String} (ha : Within a name) (hb : Within b name) :
    Within a b ∨ Within b a :=
  List.prefix_or_prefix_of_prefix ha hb

theorem Within.antisymm {a b : String} (ha : IsClean a) (hb : IsClean b) (hab : Within a b)
    (hba : Within b a) : a = b :=
  (ha.segments_inj hb).1 (List.IsPrefix.eq_of_length_le hab hba.length_le)

theorem strictlyWithin_iff {root name : String} (hr : IsClean root) (hn : IsClean name) :
    StrictlyWithin root name ↔ Within root name ∧ root ≠ name := by
  unfold StrictlyWithin
  rw [Ne, hr.segments_inj hn]

/-! ## The way up -/

theorem front_append_segment (cs : List Char) {s : List Char} (hs : '/' ∉ s) :
    front (cs ++ '/' :: s) = cs := by
  have hall : ∀ c ∈ s.reverse, (decide (c ≠ '/')) = true := by
    intro c hc
    rw [decide_eq_true_eq]
    rintro rfl
    exact hs (List.mem_reverse.1 hc)
  unfold front
  rw [List.reverse_append, List.reverse_cons, List.append_assoc, List.dropWhile_append_of_pos hall]
  simp

/-- The parent of a name is written by all its segments but the last. -/
theorem parentChars_absolute {segs : List (List Char)} {s : List Char} (hs : '/' ∉ s) :
    parentChars (absolute (segs ++ [s])) = absolute segs := by
  have hfront : front (absolute (segs ++ [s])) = segs.flatMap ('/' :: ·) := by
    rw [absolute_of_ne_nil (by simp), List.flatMap_append, List.flatMap_singleton,
      front_append_segment _ hs]
  unfold parentChars
  rw [hfront]
  cases segs with
  | nil => rfl
  | cons t segs => exact if_neg (by simp)

theorem absolute_append_singleton_ne {segs : List (List Char)} {s : List Char} (hs : s ≠ []) :
    absolute (segs ++ [s]) ≠ ['/'] := by
  rw [absolute_of_ne_nil (by simp), List.flatMap_append, List.flatMap_singleton]
  intro h
  have hlen := congrArg List.length h
  have hpos := List.length_pos_iff.2 hs
  simp only [List.length_append, List.length_cons, List.length_nil] at hlen
  omega

/-- The walk up from a clean name sees the prefixes of its segments, longest first. -/
theorem ancestorsChars_absolute {segs : List (List Char)} (h : ∀ s ∈ segs, IsSegment s) :
    ancestorsChars (absolute segs) = segs.inits.reverse.map absolute := by
  induction segs using List.reverseRecOn with
  | nil => rw [ancestorsChars]; rfl
  | append_singleton segs s ih =>
    have hs := h s (List.mem_append_right _ (List.mem_singleton_self s))
    rw [ancestorsChars, if_neg (absolute_append_singleton_ne hs.ne_nil),
      parentChars_absolute hs.no_slash, ih fun t ht => h t (List.mem_append_left _ ht),
      List.inits_append]
    simp

theorem ancestors_ofSegments {segs : List (List Char)} (h : ∀ s ∈ segs, IsSegment s) :
    ancestors (ofSegments segs) = segs.inits.reverse.map ofSegments := by
  unfold ancestors ofSegments
  rw [String.toList_ofList, ancestorsChars_absolute h, List.map_map]
  rfl

theorem isSegment_of_inits {segs front : List (List Char)} (h : ∀ s ∈ segs, IsSegment s)
    (hp : front <+: segs) : ∀ s ∈ front, IsSegment s :=
  fun s hs => h s (hp.subset hs)

/-- A level seen on the way up is a clean name that the name lies within, and every such name is
seen. -/
theorem mem_ancestors {name level : String} (h : IsClean name) :
    level ∈ ancestors name ↔ IsClean level ∧ Within level name := by
  obtain ⟨segs, hs, rfl⟩ := h
  rw [ancestors_ofSegments hs, List.mem_map]
  constructor
  · rintro ⟨top, htop, rfl⟩
    rw [List.mem_reverse, List.mem_inits] at htop
    have ht := isSegment_of_inits hs htop
    refine ⟨isClean_ofSegments ht, ?_⟩
    unfold Within
    rwa [segments_ofSegments ht, segments_ofSegments hs]
  · rintro ⟨hlevel, hw⟩
    unfold Within at hw
    rw [segments_ofSegments hs] at hw
    exact ⟨segments level, List.mem_reverse.2 ((List.mem_inits _ _).2 hw),
      hlevel.ofSegments_segments⟩

theorem nodup_inits {α : Type} (l : List α) : l.inits.Nodup := by
  induction l with
  | nil => simp
  | cons a l ih =>
    rw [List.inits_cons, List.nodup_cons]
    exact ⟨by simp, ih.map (List.cons_injective)⟩

/-- No level is seen twice. -/
theorem nodup_ancestors {name : String} (h : IsClean name) : (ancestors name).Nodup := by
  obtain ⟨segs, hs, rfl⟩ := h
  rw [ancestors_ofSegments hs]
  refine List.Nodup.map_on (fun a ha b hb hab => ?_) (List.nodup_reverse.2 (nodup_inits segs))
  rw [List.mem_reverse, List.mem_inits] at ha hb
  rw [← segments_ofSegments (isSegment_of_inits hs ha), hab,
    segments_ofSegments (isSegment_of_inits hs hb)]

/-- The first level seen is the name itself. -/
theorem ancestors_eq_cons (name : String) : ancestors name = name :: (ancestors name).tail := by
  unfold ancestors
  rw [ancestorsChars]
  split_ifs <;> simp [String.ofList_toList]

/-- The levels seen after the first are those that the name lies strictly within. -/
theorem mem_tail_ancestors {name level : String} (h : IsClean name) :
    level ∈ (ancestors name).tail ↔ IsClean level ∧ StrictlyWithin level name := by
  have hnodup := nodup_ancestors h
  rw [ancestors_eq_cons, List.nodup_cons] at hnodup
  have hmem : level ∈ ancestors name ↔ level = name ∨ level ∈ (ancestors name).tail := by
    rw [ancestors_eq_cons name, List.mem_cons, List.tail_cons]
  constructor
  · intro hl
    obtain ⟨hc, hw⟩ := (mem_ancestors h).1 (hmem.2 (.inr hl))
    refine ⟨hc, (strictlyWithin_iff hc h).2 ⟨hw, ?_⟩⟩
    rintro rfl
    exact hnodup.1 hl
  · rintro ⟨hc, hs⟩
    obtain ⟨hw, hne⟩ := (strictlyWithin_iff hc h).1 hs
    exact (hmem.1 ((mem_ancestors h).2 ⟨hc, hw⟩)).resolve_left hne

/-! ## The test on the texts -/

theorem flatMap_prefix_iff {as bs : List (List Char)} (ha : ∀ s ∈ as, '/' ∉ s)
    (hb : ∀ s ∈ bs, '/' ∉ s) :
    as.flatMap ('/' :: ·) ++ ['/'] <+: bs.flatMap ('/' :: ·) ↔ as <+: bs ∧ as ≠ bs := by
  constructor
  · rintro ⟨rest, hrest⟩
    have hsplit := congrArg (List.splitOn '/') hrest
    rw [List.append_assoc, List.singleton_append, List.splitOn_append_cons_self] at hsplit
    have hbs := splitOn_flatMap hb (s := []) List.not_mem_nil
    have has := splitOn_flatMap ha (s := []) List.not_mem_nil
    rw [List.nil_append] at hbs has
    rw [hbs, has, List.cons_append, List.cons_inj_right] at hsplit
    refine ⟨⟨_, hsplit⟩, fun h => List.splitOn_ne_nil '/' rest ?_⟩
    rw [h] at hsplit
    exact List.append_right_eq_self.1 hsplit
  · rintro ⟨⟨more, rfl⟩, hne⟩
    cases more with
    | nil => exact absurd (List.append_nil _).symm hne
    | cons c more =>
      refine ⟨c ++ more.flatMap ('/' :: ·), ?_⟩
      rw [List.flatMap_append, List.flatMap_cons, List.append_assoc, List.singleton_append,
        List.cons_append]

/-- For clean names that differ, the texts tell whether one lies within the other. -/
theorem below_iff {root name : String} (hr : IsClean root) (hn : IsClean name) (hne : root ≠ name) :
    below root name = true ↔ Within root name := by
  obtain ⟨rs, hrs, rfl⟩ := hr
  obtain ⟨ns, hns, rfl⟩ := hn
  have hrn : rs ≠ ns := fun h => hne (h ▸ rfl)
  unfold Within below
  rw [segments_ofSegments hrs, segments_ofSegments hns, Bool.or_eq_true, beq_iff_eq,
    List.isPrefixOf_iff_prefix]
  unfold ofSegments
  rw [String.toList_ofList, String.toList_ofList]
  cases rs with
  | nil => exact ⟨fun _ => List.nil_prefix, fun _ => .inl rfl⟩
  | cons r rs =>
    have hroot : String.ofList (absolute (r :: rs)) ≠ "/" := by
      intro h
      have hr := congrArg (fun s : String => cleanSegments s.toList) h
      simp only [String.toList_ofList, cleanSegments_absolute hrs] at hr
      exact List.cons_ne_nil _ _ hr
    rw [or_iff_right hroot, absolute_of_ne_nil (List.cons_ne_nil _ _)]
    cases ns with
    | nil =>
      have hlen : ¬ (r :: rs) <+: [] := fun h => List.cons_ne_nil _ _ (List.prefix_nil.1 h)
      refine ⟨fun h => ?_, fun h => absurd h hlen⟩
      have hle := h.length_le
      have hpos := List.length_pos_iff.2 (hrs r List.mem_cons_self).ne_nil
      simp only [absolute, List.length_append, List.flatMap_cons, List.length_cons,
        List.length_nil] at hle
      omega
    | cons n ns =>
      rw [absolute_of_ne_nil (List.cons_ne_nil _ _), flatMap_prefix_iff
        (fun s hs => (hrs s hs).no_slash) (fun s hs => (hns s hs).no_slash)]
      exact and_iff_left hrn

end PathLock.Path
