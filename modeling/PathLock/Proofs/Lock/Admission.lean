import PathLock.Proofs.Lock.Counts

/-!
# What a new lock is checked against

The walk up from the root of a new lock sees only the nodes at its levels. Since these count the
locks below them, it finds a lock in the way exactly when there is one (`Counts.admits_iff`).
-/

namespace PathLock

namespace Path

theorem visit_halted (halts : String → Bool → Bool) (levels : List (String × Bool)) :
    (visit halts levels).2 = levels.any fun entry => halts entry.1 entry.2 := by
  induction levels with
  | nil => rfl
  | cons entry levels ih =>
    obtain ⟨level, first⟩ := entry
    unfold visit
    rw [List.any_cons]
    dsimp only
    split_ifs with hhalts
    · rw [hhalts]
      rfl
    · rw [Bool.not_eq_true] at hhalts
      rw [hhalts, Bool.false_or]
      exact ih

/-- A walk is halted at the name or at a level above it. -/
theorem walk_halted {name : String} {halts : String → Bool → Bool} :
    (walk name halts).2 = true ↔
      halts name true = true ∨ ∃ level ∈ (ancestors name).tail, halts level false = true := by
  unfold walk
  rw [visit_halted, ancestors_eq_cons, List.mapIdx_cons, List.any_cons, Bool.or_eq_true,
    List.any_eq_true]
  refine or_congr Iff.rfl ?_
  simp only [List.mem_mapIdx, List.tail_cons]
  constructor
  · rintro ⟨_, ⟨i, hi, rfl⟩, hhalts⟩
    exact ⟨_, List.getElem_mem hi, hhalts⟩
  · rintro ⟨level, hl, hhalts⟩
    obtain ⟨i, hi, rfl⟩ := List.mem_iff_getElem.1 hl
    exact ⟨_, ⟨i, hi, rfl⟩, hhalts⟩

end Path

namespace NodeIndex

variable {x : NodeIndex} {locks : List Lock} {name root : String} {zeroDepth : Bool}

theorem Counts.exists_nodeAt?_iff (hx : Counts x locks) :
    (∃ node, x.nodeAt? name = some node) ↔ ∃ lock ∈ locks, name ∈ Path.ancestors lock.root := by
  rw [exists_nodeAt?_iff_refsAt (hx.refs_pos name), hx.refs name]
  unfold lockedWithin
  rw [List.countP_pos_iff]
  simp only [decide_eq_true_eq]

theorem blocks_first : x.blocks zeroDepth name true = true ↔
    (∃ lock, x.lockAt? name = some lock) ∨
      zeroDepth = false ∧ ∃ node, x.nodeAt? name = some node := by
  unfold blocks lockAt?
  cases x.nodeAt? name with
  | none => simp
  | some node => cases zeroDepth <;> simp [Node.lock?, Option.isSome_iff_exists]

theorem blocks_above : x.blocks zeroDepth name false = true ↔
    ∃ lock, x.lockAt? name = some lock ∧ lock.details.zeroDepth = false := by
  unfold blocks lockAt?
  cases x.nodeAt? name with
  | none => simp
  | some node => cases htoken : node.token <;> simp [Node.lock?, htoken]

/-- The walk up finds every lock that is in the way, those below by the count at the root. -/
theorem Counts.admits_iff (hx : Counts x locks) (hclean : ∀ lock ∈ locks, Path.IsClean lock.root)
    (hroot : Path.IsClean root) :
    x.admits root zeroDepth = true ↔ ∀ lock ∈ locks, ¬ lock.Conflicts root zeroDepth := by
  have hwalk : (Path.walk root (x.blocks zeroDepth)).2 = true ↔
      ∃ lock ∈ locks, lock.Conflicts root zeroDepth := by
    rw [Path.walk_halted, blocks_first]
    simp only [blocks_above, hx.locked, Path.mem_tail_ancestors hroot, hx.exists_nodeAt?_iff]
    constructor
    · rintro ((⟨lock, hl, rfl⟩ | ⟨hdepth, lock, hl, hmem⟩) |
        ⟨level, ⟨_, hs⟩, lock, ⟨hl, rfl⟩, hdepth⟩)
      · exact ⟨lock, hl, .inl rfl⟩
      · have hin := ((Path.mem_ancestors (hclean lock hl)).1 hmem).2
        by_cases he : lock.root = root
        · exact ⟨lock, hl, .inl he⟩
        · exact ⟨lock, hl, .inr (.inr ⟨hdepth,
            (Path.strictlyWithin_iff hroot (hclean lock hl)).2 ⟨hin, Ne.symm he⟩⟩)⟩
      · exact ⟨lock, hl, .inr (.inl ⟨hdepth, hs⟩)⟩
    · rintro ⟨lock, hl, he | ⟨hdepth, hs⟩ | ⟨hdepth, hs⟩⟩
      · exact .inl (.inl ⟨lock, hl, he⟩)
      · exact .inr ⟨lock.root, ⟨hclean lock hl, hs⟩, lock, ⟨hl, rfl⟩, hdepth⟩
      · refine .inl (.inr ⟨hdepth, lock, hl, ?_⟩)
        exact (Path.mem_ancestors (hclean lock hl)).2
          ⟨hroot, ((Path.strictlyWithin_iff hroot (hclean lock hl)).1 hs).1⟩
  unfold admits
  rw [Bool.not_eq_true', ← Bool.not_eq_true, hwalk]
  simp only [not_exists, not_and]

end NodeIndex

end PathLock
