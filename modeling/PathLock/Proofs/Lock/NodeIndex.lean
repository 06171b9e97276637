import PathLock.Lock.NodeIndex
import PathLock.Proofs.Lock.Slots
import PathLock.Proofs.Path.Segments

/-!
# The index as a map from names to nodes

In a consistent index every name leads to a node of that name and every node is found by its name,
so `nodeAt?` is a finite map with at most one node a name. Counting a lock in or out at every level
above a name (`retainAll_spec`, `releaseAll_spec`) changes the counts at those levels, and moves no
node that stays.
-/

namespace PathLock.NodeIndex

variable {x y : NodeIndex} {name n : String} {h k : Handle} {node : Node}

/-- Names and nodes belong together one to one. -/
structure Consistent (x : NodeIndex) : Prop where
  slots : x.nodes.WellFormed
  named : ∀ name h, x.find? name = some h → ∃ node, x.node? h = some node ∧ node.details.root = name
  indexed : ∀ h node, x.node? h = some node → x.find? node.details.root = some h

theorem consistent_empty : Consistent {} where
  slots := Slots.wellFormed_empty
  named := by intro name h hf; simp [find?] at hf
  indexed := by intro h node hn; simp [node?, Slots.get?] at hn

theorem nodeAt?_eq_some :
    x.nodeAt? name = some node ↔ ∃ h, x.find? name = some h ∧ x.node? h = some node := by
  unfold nodeAt?
  exact Option.bind_eq_some_iff

theorem Consistent.root_eq (hx : Consistent x) (hn : x.nodeAt? name = some node) :
    node.details.root = name := by
  obtain ⟨h, hf, hnode⟩ := nodeAt?_eq_some.1 hn
  obtain ⟨node', hnode', hroot⟩ := hx.named name h hf
  rw [hnode, Option.some.injEq] at hnode'
  exact hnode' ▸ hroot

theorem Consistent.nodeAt?_root (hx : Consistent x) (hn : x.node? h = some node) :
    x.nodeAt? node.details.root = some node :=
  nodeAt?_eq_some.2 ⟨h, hx.indexed h node hn, hn⟩

/-- A handle is found by one name only. -/
theorem Consistent.find?_inj (hx : Consistent x) (hn : x.find? n = some h)
    (hname : x.find? name = some h) : n = name := by
  obtain ⟨node, hnode, hroot⟩ := hx.named n h hn
  obtain ⟨node', hnode', hroot'⟩ := hx.named name h hname
  rw [hnode, Option.some.injEq] at hnode'
  rw [← hroot, ← hroot', hnode']

/-- Names in use do not share a slot. -/
theorem Consistent.eq_of_slot_eq (hx : Consistent x) (hn : x.find? n = some h)
    (hname : x.find? name = some k) (hslot : h.slot = k.slot) : n = name := by
  obtain ⟨_, hnode, _⟩ := hx.named n h hn
  obtain ⟨_, hnode', _⟩ := hx.named name k hname
  rw [Slots.eq_of_slot_eq hnode hnode' hslot] at hn
  exact hx.find?_inj hn hname

theorem node?_of_find? (hf : x.find? name = some h) : x.node? h = x.nodeAt? name := by
  unfold nodeAt?
  rw [hf, Option.bind_some]

theorem Consistent.nodeAt?_eq_none_iff (hx : Consistent x) :
    x.nodeAt? name = none ↔ x.find? name = none := by
  constructor
  · intro hn
    cases hf : x.find? name with
    | none => rfl
    | some h =>
      obtain ⟨node, hnode, _⟩ := hx.named name h hf
      exact absurd (nodeAt?_eq_some.2 ⟨h, hf, hnode⟩) (by rw [hn]; simp)
  · intro hf
    unfold nodeAt?
    rw [hf, Option.bind_none]

/-! ## Changing a node -/

theorem node?_modify (f : Node → Node) (hn : x.node? h = some node) :
    (x.modify h f).node? k = if k = h then some (f node) else x.node? k :=
  Slots.get?_modify f hn

@[simp] theorem find?_modify (x : NodeIndex) (h : Handle) (f : Node → Node) (n : String) :
    (x.modify h f).find? n = x.find? n := rfl

theorem nodeAt?_modify (hx : Consistent x) (f : Node → Node) (hf : x.find? name = some h)
    (hn : x.node? h = some node) :
    (x.modify h f).nodeAt? n = if n = name then some (f node) else x.nodeAt? n := by
  unfold nodeAt?
  rw [find?_modify]
  split_ifs with hname
  · rw [hname, hf, Option.bind_some, node?_modify f hn, if_pos rfl]
  · cases hfn : x.find? n with
    | none => rfl
    | some k =>
      rw [Option.bind_some, Option.bind_some, node?_modify f hn, if_neg]
      rintro rfl
      exact hname (hx.find?_inj hfn hf)

theorem Consistent.modify (hx : Consistent x) {f : Node → Node} (hn : x.node? h = some node)
    (hroot : (f node).details.root = node.details.root) : Consistent (x.modify h f) where
  slots := hx.slots.modify f hn
  named := by
    intro name k hk
    obtain ⟨node', hnode', hname⟩ := hx.named name k hk
    rw [node?_modify f hn]
    split_ifs with hkh
    · rw [hkh, hn, Option.some.injEq] at hnode'
      exact ⟨_, rfl, by rw [hroot, hnode', hname]⟩
    · exact ⟨node', hnode', hname⟩
  indexed := by
    intro k node' hk
    rw [node?_modify f hn] at hk
    rw [find?_modify]
    split_ifs at hk with hkh
    · rw [Option.some.injEq] at hk
      rw [← hk, hroot, hkh]
      exact hx.indexed h node hn
    · exact hx.indexed k node' hk

/-! ## A fresh node, and a node less -/

theorem find?_addAnchor :
    (x.addAnchor name).2.find? n = if n = name then some (x.addAnchor name).1 else x.find? n := by
  show (x.byName.insert name (x.addAnchor name).1)[n]? = _
  rw [Std.TreeMap.getElem?_insert]
  simp only [Std.compare_eq_iff_eq, eq_comm (a := name)]
  rfl

theorem node?_addAnchor (hx : Consistent x) :
    (x.addAnchor name).2.node? k =
      if k = (x.addAnchor name).1 then some (.anchor name) else x.node? k :=
  Slots.get?_insert hx.slots _

theorem node?_addAnchor_before (hx : Consistent x) : x.node? (x.addAnchor name).1 = none :=
  Slots.get?_insert_self_before hx.slots _

theorem nodeAt?_addAnchor (hx : Consistent x) :
    (x.addAnchor name).2.nodeAt? n = if n = name then some (.anchor name) else x.nodeAt? n := by
  unfold nodeAt?
  rw [find?_addAnchor]
  split_ifs with hname
  · rw [Option.bind_some, node?_addAnchor hx, if_pos rfl]
  · cases hf : x.find? n with
    | none => rfl
    | some k =>
      rw [Option.bind_some, Option.bind_some, node?_addAnchor hx, if_neg]
      rintro rfl
      obtain ⟨node, hnode, _⟩ := hx.named n _ hf
      rw [node?_addAnchor_before hx] at hnode
      exact absurd hnode (by simp)

theorem Consistent.addAnchor (hx : Consistent x) (hf : x.find? name = none) :
    Consistent (x.addAnchor name).2 where
  slots := hx.slots.insert _
  named := by
    intro n k hk
    rw [find?_addAnchor] at hk
    rw [node?_addAnchor hx]
    split_ifs at hk with hname
    · rw [Option.some.injEq] at hk
      exact ⟨_, if_pos hk.symm, hname.symm⟩
    · obtain ⟨node, hnode, hroot⟩ := hx.named n k hk
      refine ⟨node, ?_, hroot⟩
      rw [if_neg, hnode]
      rintro rfl
      rw [node?_addAnchor_before hx] at hnode
      exact absurd hnode (by simp)
  indexed := by
    intro k node hk
    rw [node?_addAnchor hx] at hk
    rw [find?_addAnchor]
    split_ifs at hk with hkid
    · rw [Option.some.injEq] at hk
      rw [← hk, hkid]
      exact if_pos rfl
    · have hfound := hx.indexed k node hk
      rw [if_neg, hfound]
      rintro hroot
      rw [hroot, hf] at hfound
      exact absurd hfound (by simp)

theorem find?_drop : (x.drop name h).find? n = if n = name then none else x.find? n := by
  show (x.byName.erase name)[n]? = _
  rw [Std.TreeMap.getElem?_erase]
  simp only [Std.compare_eq_iff_eq, eq_comm (a := name)]
  rfl

theorem node?_drop (hn : x.node? h = some node) :
    (x.drop name h).node? k = if k = h then none else x.node? k :=
  Slots.get?_erase hn

theorem nodeAt?_drop (hx : Consistent x) (hf : x.find? name = some h) (hn : x.node? h = some node) :
    (x.drop name h).nodeAt? n = if n = name then none else x.nodeAt? n := by
  unfold nodeAt?
  rw [find?_drop]
  split_ifs with hname
  · rfl
  · cases hfn : x.find? n with
    | none => rfl
    | some k =>
      rw [Option.bind_some, Option.bind_some, node?_drop hn, if_neg]
      rintro rfl
      exact hname (hx.find?_inj hfn hf)

theorem Consistent.drop (hx : Consistent x) (hf : x.find? name = some h)
    (hn : x.node? h = some node) : Consistent (x.drop name h) where
  slots := hx.slots.erase hn
  named := by
    intro n k hk
    rw [find?_drop] at hk
    split_ifs at hk with hname
    obtain ⟨node', hnode', hroot⟩ := hx.named n k hk
    refine ⟨node', ?_, hroot⟩
    rw [node?_drop hn, if_neg, hnode']
    rintro rfl
    exact hname (hx.find?_inj hk hf)
  indexed := by
    intro k node' hk
    rw [node?_drop hn] at hk
    split_ifs at hk with hkh
    have hfound := hx.indexed k node' hk
    rw [find?_drop, if_neg, hfound]
    intro hroot
    rw [hroot, hf, Option.some.injEq] at hfound
    exact hkh hfound.symm

/-! ## Counting in -/

/-- Changes at one name and then at others are changes at all of them. -/
theorem changes_trans {f : String → Option Node → Option Node} {a b c : String → Option Node}
    {names : List String} (hab : ∀ n, b n = if n ∈ [name] then f n (a n) else a n)
    (hbc : ∀ n, c n = if n ∈ names then f n (b n) else b n) (hname : name ∉ names) (n : String) :
    c n = if n ∈ name :: names then f n (a n) else a n := by
  rw [hbc, hab]
  simp only [List.mem_cons, List.not_mem_nil, or_false]
  by_cases hn : n = name
  · rw [if_neg (hn ▸ hname), if_pos hn, if_pos (.inl hn)]
  · simp only [hn, if_false, false_or]

/-- The node at a name when one more lock is counted there. -/
def counted (name : String) : Option Node → Node
  | some node => { node with refs := node.refs + 1 }
  | none => .anchor name

/-- `y` is `x` with one more lock counted at each of the names. Handles stay. -/
structure Retained (x y : NodeIndex) (names : List String) : Prop where
  consistent : Consistent y
  keeps : ∀ n h, x.find? n = some h → y.find? n = some h
  nodeAt?_eq : ∀ n, y.nodeAt? n = if n ∈ names then some (counted n (x.nodeAt? n)) else x.nodeAt? n

theorem Consistent.retained_refl (hx : Consistent x) : Retained x x [] where
  consistent := hx
  keeps _ _ h := h
  nodeAt?_eq n := by rw [if_neg List.not_mem_nil]

theorem retain_of_some (hf : x.find? name = some h) (hn : x.node? h = some node) :
    x.retain name = (h, x.modify h fun node => { node with refs := node.refs + 1 }) := by
  unfold retain
  rw [hf]
  dsimp only
  rw [hn]

theorem retain_of_none (hf : x.find? name = none) : x.retain name = x.addAnchor name := by
  unfold retain
  rw [hf]

theorem retain_spec (hx : Consistent x) (name : String) :
    Retained x (x.retain name).2 [name] ∧
      (x.retain name).2.find? name = some (x.retain name).1 := by
  cases hf : x.find? name with
  | none =>
    have hat := hx.nodeAt?_eq_none_iff.2 hf
    rw [retain_of_none hf]
    refine ⟨⟨hx.addAnchor hf, fun n h hn => ?_, fun n => ?_⟩, by rw [find?_addAnchor, if_pos rfl]⟩
    · rw [find?_addAnchor, if_neg, hn]
      rintro rfl
      rw [hf] at hn
      exact absurd hn (by simp)
    · rw [nodeAt?_addAnchor hx]
      simp only [List.mem_singleton]
      split_ifs with hname
      · rw [hname, hat]
        rfl
      · rfl
  | some h =>
    obtain ⟨node, hn, hroot⟩ := hx.named name h hf
    have hat := nodeAt?_eq_some.2 ⟨h, hf, hn⟩
    rw [retain_of_some hf hn]
    refine ⟨⟨hx.modify hn rfl, fun n h hn => hn, fun n => ?_⟩, hf⟩
    rw [nodeAt?_modify hx _ hf hn]
    simp only [List.mem_singleton]
    split_ifs with hname
    · rw [hname, hat]
      rfl
    · rfl

theorem Retained.trans {z : NodeIndex} {names : List String} (hxy : Retained x y [name])
    (hyz : Retained y z names) (hname : name ∉ names) : Retained x z (name :: names) where
  consistent := hyz.consistent
  keeps n h hn := hyz.keeps n h (hxy.keeps n h hn)
  nodeAt?_eq :=
    changes_trans (f := fun n node => some (counted n node)) hxy.nodeAt?_eq hyz.nodeAt?_eq hname

theorem retained_foldl {names : List String} (hx : Consistent x) (hnames : names.Nodup) :
    Retained x (names.foldl (fun index level => (index.retain level).2) x) names := by
  induction names generalizing x with
  | nil => exact hx.retained_refl
  | cons name names ih =>
    rw [List.nodup_cons] at hnames
    have hstep := (retain_spec hx name).1
    exact hstep.trans (ih hstep.consistent hnames.2) hnames.1

/-- A lock is counted in at its root and at every level above, and the handle answered is that of
the node at the root. -/
theorem retainAll_spec {root : String} (hx : Consistent x) (hroot : Path.IsClean root) :
    Retained x (x.retainAll root).2 (Path.ancestors root) ∧
      (x.retainAll root).2.find? root = some (x.retainAll root).1 := by
  have hnodup := Path.nodup_ancestors hroot
  rw [Path.ancestors_eq_cons, List.nodup_cons] at hnodup
  obtain ⟨hstep, hfound⟩ := retain_spec hx root
  have hrest := retained_foldl hstep.consistent hnodup.2
  rw [Path.ancestors_eq_cons]
  exact ⟨hstep.trans hrest hnodup.1, hrest.keeps root _ hfound⟩

/-! ## Counting out -/

/-- The node at a name when one lock less is counted there. -/
def uncounted : Option Node → Option Node
  | some node => if node.refs - 1 = 0 then none else some { node with refs := node.refs - 1 }
  | none => none

/-- `y` is `x` with one lock less counted at each of the names. Nodes that stay keep their
handles. -/
structure Released (x y : NodeIndex) (names : List String) : Prop where
  consistent : Consistent y
  keeps : ∀ n h, y.find? n = some h → x.find? n = some h
  nodeAt?_eq : ∀ n, y.nodeAt? n = if n ∈ names then uncounted (x.nodeAt? n) else x.nodeAt? n

theorem Consistent.released_refl (hx : Consistent x) : Released x x [] where
  consistent := hx
  keeps _ _ h := h
  nodeAt?_eq n := by rw [if_neg List.not_mem_nil]

theorem release_of_none (hf : x.find? name = none) : x.release name = x := by
  unfold release
  rw [hf]

theorem release_of_some (hf : x.find? name = some h) (hn : x.node? h = some node) :
    x.release name =
      if node.refs - 1 = 0 then x.drop name h
      else x.modify h fun node => { node with refs := node.refs - 1 } := by
  unfold release
  rw [hf]
  dsimp only
  rw [hn]

theorem release_spec (hx : Consistent x) (name : String) : Released x (x.release name) [name] := by
  cases hf : x.find? name with
  | none =>
    have hat := hx.nodeAt?_eq_none_iff.2 hf
    rw [release_of_none hf]
    refine ⟨hx, fun n h hn => hn, fun n => ?_⟩
    simp only [List.mem_singleton]
    split_ifs with hname
    · rw [hname, hat]
      rfl
    · rfl
  | some h =>
    obtain ⟨node, hn, hroot⟩ := hx.named name h hf
    have hat := nodeAt?_eq_some.2 ⟨h, hf, hn⟩
    rw [release_of_some hf hn]
    split_ifs with hrefs
    · refine ⟨hx.drop hf hn, fun n k hk => ?_, fun n => ?_⟩
      · rw [find?_drop] at hk
        split_ifs at hk
        exact hk
      · rw [nodeAt?_drop hx hf hn]
        simp only [List.mem_singleton]
        split_ifs with hname
        · rw [hname, hat]
          exact (if_pos hrefs).symm
        · rfl
    · refine ⟨hx.modify hn rfl, fun n k hk => hk, fun n => ?_⟩
      rw [nodeAt?_modify hx _ hf hn]
      simp only [List.mem_singleton]
      split_ifs with hname
      · rw [hname, hat]
        exact (if_neg hrefs).symm
      · rfl

theorem Released.trans {z : NodeIndex} {names : List String} (hxy : Released x y [name])
    (hyz : Released y z names) (hname : name ∉ names) : Released x z (name :: names) where
  consistent := hyz.consistent
  keeps n h hn := hxy.keeps n h (hyz.keeps n h hn)
  nodeAt?_eq := changes_trans (f := fun _ => uncounted) hxy.nodeAt?_eq hyz.nodeAt?_eq hname

theorem released_foldl {names : List String} (hx : Consistent x) (hnames : names.Nodup) :
    Released x (names.foldl release x) names := by
  induction names generalizing x with
  | nil => exact hx.released_refl
  | cons name names ih =>
    rw [List.nodup_cons] at hnames
    have hstep := release_spec hx name
    exact hstep.trans (ih hstep.consistent hnames.2) hnames.1

/-- A lock is counted out at its root and at every level above. -/
theorem releaseAll_spec {root : String} (hx : Consistent x) (hroot : Path.IsClean root) :
    Released x (x.releaseAll root) (Path.ancestors root) :=
  released_foldl hx (Path.nodup_ancestors hroot)

end PathLock.NodeIndex
