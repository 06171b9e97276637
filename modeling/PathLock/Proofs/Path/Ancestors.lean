import PathLock.Lock.Table
import PathLock.Proofs.Path.Cleaning

/-!
# The way up and the test on the texts

Walking up from any name, clean or not, ends at `/` and passes it only there (`getElem?_ancestors`,
`ancestors_eq_concat`). From a clean name the walk sees its prefixes at segment boundaries, longest
first. So the levels of a clean name are the names that the test on the two texts accepts
(`mem_ancestors_iff_below`), which is what a condition is checked with
(`LockTable.lookup_eq_some_iff`).
-/

namespace PathLock

namespace Path

variable {root name level : String} {segs : List (List Char)} {s : List Char}

/-! ## Step by step -/

/-- The level that comes next on the way up. After `/` there is none. -/
def up (level : String) : Option String := if level = "/" then none else some (parent level)

/-- The level reached from a name in some steps up, unless the walk ends before. -/
def levelAfter : Nat → String → Option String
  | 0, name => some name
  | steps + 1, name => (up name).bind (levelAfter steps)

theorem ancestors_slash : ancestors "/" = ["/"] := by
  unfold ancestors
  rw [ancestorsChars]
  rfl

theorem ancestors_of_ne (h : name ≠ "/") : ancestors name = name :: ancestors (parent name) := by
  have hchars : name.toList ≠ ['/'] := fun he => h (String.toList_inj.1 he)
  unfold ancestors parent
  rw [ancestorsChars, if_neg hchars, List.map_cons, String.ofList_toList, String.toList_ofList]

/-- What holds of `/`, and of a name if it holds of its parent, holds of every name. A parent need
not be shorter, since the empty name has one too. -/
@[elab_as_elim]
theorem ascend {motive : String → Prop} (slash : motive "/")
    (above : ∀ name, name ≠ "/" → motive (parent name) → motive name) (name : String) :
    motive name := by
  have hchars : ∀ cs, motive (String.ofList cs) := by
    intro cs
    induction cs using ancestorsChars.induct with
    | case1 => exact slash
    | case2 cs hne ih =>
      refine above _ (fun he => hne ?_) ?_
      · rw [← String.toList_ofList (l := cs), he]
        rfl
      · unfold parent
        rwa [String.toList_ofList]
  exact String.ofList_toList (s := name) ▸ hchars name.toList

/-- The walk up sees one level after the other and ends. -/
theorem getElem?_ancestors (name : String) (steps : Nat) :
    (ancestors name)[steps]? = levelAfter steps name := by
  induction name using ascend generalizing steps with
  | slash =>
    rw [ancestors_slash]
    cases steps <;> rfl
  | above name hne ih =>
    rw [ancestors_of_ne hne]
    cases steps with
    | zero => rfl
    | succ steps =>
      unfold levelAfter up
      rw [List.getElem?_cons_succ, ih, if_neg hne, Option.bind_some]

/-- It ends at `/`, which it does not see before. -/
theorem ancestors_eq_concat (name : String) :
    ∃ levels, ancestors name = levels ++ ["/"] ∧ "/" ∉ levels := by
  induction name using ascend with
  | slash => exact ⟨[], ancestors_slash, List.not_mem_nil⟩
  | above name hne ih =>
    obtain ⟨levels, he, hmem⟩ := ih
    refine ⟨name :: levels, by rw [ancestors_of_ne hne, he, List.cons_append], ?_⟩
    rw [List.mem_cons, not_or]
    exact ⟨Ne.symm hne, hmem⟩

/-- A visitor that never halts the walk is shown every level. -/
theorem walk_never_halted (name : String) :
    (walk name fun _ _ => false).1.map Prod.fst = ancestors name := by
  have hvisit : ∀ levels, visit (fun _ _ => false) levels = (levels, false) := by
    intro levels
    induction levels with
    | nil => rfl
    | cons entry levels ih =>
      unfold visit
      rw [ih]
      rfl
  unfold walk
  rw [hvisit, List.mapIdx_eq_zipIdx_map, List.map_map]
  exact List.zipIdx_map_fst 0 _

/-- Each level is the parent of the one before. -/
theorem isChain_ancestors (name : String) :
    (ancestors name).IsChain fun level above => above = parent level := by
  induction name using ascend with
  | slash =>
    rw [ancestors_slash]
    exact .singleton _
  | above name hne ih =>
    rw [ancestors_eq_cons] at ih
    rw [ancestors_of_ne hne, ancestors_eq_cons (parent name)]
    exact List.isChain_cons_cons.2 ⟨rfl, ih⟩

/-! ## Levels of clean names -/

theorem absolute_prefix {front : List (List Char)} (h : front <+: segs) :
    absolute front <+: absolute segs := by
  obtain ⟨more, rfl⟩ := h
  by_cases hfront : front = []
  · subst hfront
    cases more with
    | nil => exact List.prefix_refl _
    | cons s more => exact ⟨s ++ more.flatMap ('/' :: ·), rfl⟩
  · rw [absolute_of_ne_nil hfront,
      absolute_of_ne_nil (List.append_ne_nil_of_left_ne_nil hfront more), List.flatMap_append]
    exact List.prefix_append _ _

/-- The text of a clean name begins with each of its levels. -/
theorem prefix_of_mem_ancestors (h : IsClean name) (hlevel : level ∈ ancestors name) :
    level.toList <+: name.toList := by
  obtain ⟨hclean, hw⟩ := (mem_ancestors h).1 hlevel
  rw [← hclean.ofSegments_segments, ← h.ofSegments_segments]
  unfold ofSegments
  rw [String.toList_ofList, String.toList_ofList]
  exact absolute_prefix hw

theorem ancestors_ofSegments_concat (h : ∀ t ∈ segs ++ [s], IsSegment t) :
    ancestors (ofSegments (segs ++ [s])) = ofSegments (segs ++ [s]) :: ancestors (ofSegments segs) := by
  rw [ancestors_ofSegments h, ancestors_ofSegments fun t ht => h t (List.mem_append_left _ ht),
    List.inits_append]
  simp

theorem length_absolute_lt (hs : s ≠ []) :
    (absolute segs).length < (absolute (segs ++ [s])).length := by
  have hpos := List.length_pos_iff.2 hs
  rw [absolute_of_ne_nil (List.append_ne_nil_of_right_ne_nil segs (List.cons_ne_nil s [])),
    List.flatMap_append, List.flatMap_singleton, List.length_append, List.length_cons]
  cases segs with
  | nil =>
    simp only [absolute, List.length_cons, List.length_nil]
    omega
  | cons t segs =>
    rw [absolute_of_ne_nil (List.cons_ne_nil _ _)]
    omega

/-- The levels of a clean name get shorter on the way up. -/
theorem pairwise_length_ancestors (h : IsClean name) :
    (ancestors name).Pairwise fun level above => above.length < level.length := by
  obtain ⟨segs, hsegs, rfl⟩ := h
  induction segs using List.reverseRecOn with
  | nil =>
    show (ancestors "/").Pairwise _
    rw [ancestors_slash]
    exact List.pairwise_singleton _ _
  | append_singleton segs s ih =>
    have hfront : ∀ t ∈ segs, IsSegment t := fun t ht => hsegs t (List.mem_append_left _ ht)
    have hs := hsegs s (List.mem_append_right _ (List.mem_singleton_self s))
    rw [ancestors_ofSegments_concat hsegs]
    refine List.pairwise_cons.2 ⟨fun above habove => ?_, ih hfront⟩
    have hle := (prefix_of_mem_ancestors (isClean_ofSegments hfront) habove).length_le
    have hlt : (absolute segs).length < (absolute (segs ++ [s])).length :=
      length_absolute_lt hs.ne_nil
    unfold ofSegments at hle ⊢
    rw [String.toList_ofList] at hle
    rw [← String.length_toList, String.length_ofList]
    exact Nat.lt_of_le_of_lt hle hlt

/-! ## The test on the texts -/

theorem below_eq_true_iff :
    below root name = true ↔ root = "/" ∨ ∃ rest, name = root ++ "/" ++ rest := by
  unfold below
  rw [Bool.or_eq_true, beq_iff_eq, List.isPrefixOf_iff_prefix]
  refine or_congr Iff.rfl ⟨?_, ?_⟩
  · rintro ⟨rest, hrest⟩
    refine ⟨String.ofList rest, ?_⟩
    rw [← String.toList_inj, String.toList_append, String.toList_append,
      String.toList_ofList (l := rest)]
    exact hrest.symm
  · rintro ⟨rest, rfl⟩
    refine ⟨rest.toList, ?_⟩
    rw [String.toList_append, String.toList_append]
    rfl

/-- The levels of a clean name are the clean names that the two texts tell it to lie within. -/
theorem mem_ancestors_iff_below (hr : IsClean root) (hn : IsClean name) :
    root ∈ ancestors name ↔ name = root ∨ below root name = true := by
  rw [mem_ancestors hn, and_iff_right hr]
  by_cases he : name = root
  · rw [he]
    exact iff_of_true (Within.refl root) (.inl rfl)
  · rw [or_iff_right he, below_iff hr hn (Ne.symm he)]

end Path

namespace LockTable

variable {t : LockTable} {condition : Condition} {name : String} {id : Handle} {node : Node}

/-- A condition on a lock of infinite depth that is not held is met where the texts tell that the
lock covers the name. -/
theorem lookup_eq_some_iff (hid : t.registry.find? condition.token = some id)
    (hnode : t.index.node? id = some node) (hheld : node.held = false)
    (hdepth : node.details.zeroDepth = false) :
    t.lookup name [condition] = some id ↔
      name = node.details.root ∨ Path.below node.details.root name = true := by
  have hmatch : t.matchCondition name condition =
      if name = node.details.root then some id
      else if Path.below node.details.root name then some id else none := by
    unfold matchCondition
    rw [hid]
    simp only [Option.bind_eq_bind, Option.bind_some, hnode, hheld, hdepth, Bool.false_eq_true,
      if_false]
  have hlookup : t.lookup name [condition] = t.matchCondition name condition := by
    unfold lookup
    rw [List.findSome?_cons, List.findSome?_nil]
    cases t.matchCondition name condition <;> rfl
  rw [hlookup, hmatch]
  split_ifs with hroot hbelow
  · exact iff_of_true rfl (.inl hroot)
  · exact iff_of_true rfl (.inr hbelow)
  · exact iff_of_false (by simp) (by simp [hroot, hbelow])

end LockTable

namespace Path

/-- From a clean name the walk up sees the names that its text is tested for when a lock is looked
up: as many prefixes as there are segments and one more, longest first, each the parent of the one
before. From any name at all it ends at `/`, which it sees once. -/
theorem ancestors_agree_with_texts (name : String) :
    (∀ root, IsClean root → IsClean name →
      (root ∈ ancestors name ↔ name = root ∨ root = "/" ∨ ∃ rest, name = root ++ "/" ++ rest) ∧
      ∀ (t : LockTable) (condition : Condition) (id : Handle) (node : Node),
        t.registry.find? condition.token = some id → t.index.node? id = some node →
        node.details.root = root → node.details.zeroDepth = false → node.held = false →
        (root ∈ ancestors name ↔ t.lookup name [condition] = some id)) ∧
    (∀ segs : List (List Char), (∀ s ∈ segs, IsSegment s) → name = ofSegments segs →
      ancestors name = segs.inits.reverse.map ofSegments ∧
      (ancestors name).length = segs.length + 1 ∧ (ancestors name).Nodup ∧
      ((ancestors name).Pairwise fun level above => above.length < level.length) ∧
      (∀ level ∈ ancestors name, IsClean level ∧ level.toList <+: name.toList) ∧
      (ancestors name).IsChain fun level above => above = parent level) ∧
    ∃ levels, ancestors name = levels ++ ["/"] ∧ "/" ∉ levels ∧
      (walk name fun _ _ => false).1.map Prod.fst = levels ++ ["/"] ∧
      ∀ steps, levelAfter steps name = (levels ++ ["/"])[steps]? := by
  refine ⟨fun root hr hn => ⟨?_, ?_⟩, ?_, ?_⟩
  · rw [mem_ancestors_iff_below hr hn, below_eq_true_iff]
  · rintro t condition id node hid hnode rfl hdepth hheld
    rw [mem_ancestors_iff_below hr hn, LockTable.lookup_eq_some_iff hid hnode hheld hdepth]
  · rintro segs hsegs rfl
    have hclean := isClean_ofSegments hsegs
    have hlevels := ancestors_ofSegments hsegs
    refine ⟨hlevels, ?_, nodup_ancestors hclean, pairwise_length_ancestors hclean, ?_,
      isChain_ancestors _⟩
    · rw [hlevels, List.length_map, List.length_reverse, List.length_inits]
    · exact fun level hlevel =>
        ⟨((mem_ancestors hclean).1 hlevel).1, prefix_of_mem_ancestors hclean hlevel⟩
  · obtain ⟨levels, he, hmem⟩ := ancestors_eq_concat name
    exact ⟨levels, he, hmem, he ▸ walk_never_halted name, fun steps => by
      rw [← he, getElem?_ancestors]⟩

/-- A lock of infinite depth on a name that is no level of `/ab/c`, though the text of `/ab/c` begins
with it. -/
def lockedBeside : LockTable :=
  ((LockTable.empty 7).create .epoch { root := "/a", duration := .infinite }).2

theorem ancestors_agree_with_texts_beside :
    IsClean "/a" ∧ IsClean "/ab/c" ∧ "/ab/c" = ofSegments [['a', 'b'], ['c']] ∧
      lockedBeside.registry.find? "8" = some ⟨0, 0⟩ ∧
      lockedBeside.lookup "/ab/c" [.ofToken "8"] = none ∧
      "/a" ∉ ancestors "/ab/c" ∧ "/ab" ∈ ancestors "/ab/c" ∧ (ancestors "/ab/c").length = 3 := by
  have ha : IsClean "/a" := clean_eq_self_iff.1 (by decide +kernel)
  have hab : IsClean "/ab" := clean_eq_self_iff.1 (by decide +kernel)
  have habc : IsClean "/ab/c" := clean_eq_self_iff.1 (by decide +kernel)
  have hregistry : lockedBeside.registry.find? "8" = some ⟨0, 0⟩ := by decide +kernel
  have hnode : lockedBeside.index.node? ⟨0, 0⟩ = some
      { details := { root := "/a", duration := .infinite }, token := some "8", refs := 1 } := by
    decide +kernel
  have hnone : lockedBeside.lookup "/ab/c" [.ofToken "8"] = none := by decide +kernel
  obtain ⟨htexts, hshape, -⟩ := ancestors_agree_with_texts "/ab/c"
  refine ⟨ha, habc, rfl, hregistry, hnone, fun hlevel => ?_, ?_, ?_⟩
  · have hsome := ((htexts "/a" ha habc).2 lockedBeside (.ofToken "8") ⟨0, 0⟩ _ hregistry hnode rfl
      rfl rfl).1 hlevel
    rw [hnone] at hsome
    exact absurd hsome (by simp)
  · exact (htexts "/ab" hab habc).1.2 (.inr (.inr ⟨"c", rfl⟩))
  · refine (hshape [['a', 'b'], ['c']] (fun s hs => ?_) rfl).2.1
    exact @isSegment_of_mem_segments "/ab/c" s hs

-- Names that are not clean have levels too.
example : ancestors "a//b" = ["a//b", "a/", "a", "/"] ∧ ancestors "" = ["", "/"] := by
  decide +kernel

end Path

end PathLock
