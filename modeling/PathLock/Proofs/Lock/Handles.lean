import Mathlib.Data.List.Count
import PathLock.Proofs.Lock.Counts
import PathLock.Proofs.Path.Cleaning

/-!
# Handles of nodes

A slot goes on to its next generation when its value is taken out. So a handle leads to the value it
was given for as long as that is stored, and is spent from then on (`Slots.Ages`). In the index a
name keeps its handle while there are locks at or below it, and the handle is spent with the last of
them, however often the slot is used again (`NodeIndex.handles_never_confused`).
-/

namespace PathLock

/-- A call that counts a lock in or out at a root and at every level above. -/
inductive IndexCall
  | retain (root : String)
  | release (root : String)
deriving DecidableEq, Repr

namespace Slots

variable {α : Type} {s t u : Slots α} {h : Handle} {a : α}

/-- The slot of the handle has gone on to a later generation. -/
def Spent (s : Slots α) (h : Handle) : Prop :=
  ∃ slot, s.slots[h.slot]? = some slot ∧ h.generation < slot.generation

/-- A spent handle leads to nothing that could be read. -/
theorem Spent.get?_eq_none (hs : s.Spent h) : s.get? h = none := by
  obtain ⟨slot, hslot, hlt⟩ := hs
  unfold get?
  rw [hslot]
  exact if_neg (Nat.ne_of_gt hlt)

/-- A spent handle leads to nothing that could be changed. -/
theorem Spent.modify_eq (hs : s.Spent h) (f : α → α) : s.modify h f = s := by
  obtain ⟨slot, hslot, hlt⟩ := hs
  unfold modify
  rw [hslot]
  exact if_neg (Nat.ne_of_gt hlt)

/-- How handles fare from `s` to `t`: spent ones stay spent, and one whose value is gone is spent. -/
structure Ages (s t : Slots α) : Prop where
  spent : ∀ h, s.Spent h → t.Spent h
  gone : ∀ h a, s.get? h = some a → t.get? h = none → t.Spent h

theorem Ages.refl (s : Slots α) : s.Ages s where
  spent _ hs := hs
  gone _ a ha hnone := absurd (ha.symm.trans hnone) (Option.some_ne_none a)

theorem Ages.trans (hst : s.Ages t) (htu : t.Ages u) : s.Ages u where
  spent h hs := htu.spent h (hst.spent h hs)
  gone h a ha hnone := by
    cases ht : t.get? h with
    | none => exact htu.spent h (hst.gone h a ha ht)
    | some b => exact htu.gone h b ht hnone

/-- Writing a slot in its generation or a later one brings no spent handle back. -/
theorem Spent.set {slot : Slot α} {i generation : Nat} {content : Option α} {free : List Nat}
    (hs : s.Spent h) (hi : s.slots[i]? = some slot) (hle : slot.generation ≤ generation) :
    Spent ⟨s.slots.setIfInBounds i ⟨generation, content⟩, free⟩ h := by
  obtain ⟨old, hold, hlt⟩ := hs
  by_cases hslot : h.slot = i
  · subst hslot
    rw [hi, Option.some.injEq] at hold
    subst hold
    exact ⟨_, Array.getElem?_setIfInBounds_self_of_lt (Array.getElem?_eq_some_iff.1 hi).1,
      Nat.lt_of_lt_of_le hlt hle⟩
  · refine ⟨old, ?_, hlt⟩
    show (s.slots.setIfInBounds i _)[h.slot]? = some old
    rw [Array.getElem?_setIfInBounds_ne (Ne.symm hslot), hold]

theorem ages_insert (hs : s.WellFormed) (a : α) : s.Ages (s.insert a).2 where
  spent h hspent := by
    rcases insert_cases hs a with ⟨_, he⟩ | ⟨i, free, generation, _, hi, he⟩
    · obtain ⟨slot, hslot, hlt⟩ := hspent
      have hsize := (Array.getElem?_eq_some_iff.1 hslot).1
      rw [he]
      refine ⟨slot, ?_, hlt⟩
      show (s.slots.push _)[h.slot]? = some slot
      rw [Array.getElem?_push, if_neg (Nat.ne_of_lt hsize), hslot]
    · rw [he]
      exact hspent.set hi (Nat.le_refl _)
  gone h b hb hnone := by
    rw [get?_insert hs, hb] at hnone
    split_ifs at hnone

theorem ages_modify (f : α → α) (hget : s.get? h = some a) : s.Ages (s.modify h f) where
  spent k hk := by
    rw [slots_modify f hget]
    exact hk.set (get?_eq_some_iff.1 hget) (Nat.le_refl _)
  gone k b hb hnone := by
    rw [get?_modify f hget, hb] at hnone
    split_ifs at hnone

theorem spent_erase (hget : s.get? h = some a) : (s.erase h).Spent h := by
  rw [slots_erase hget]
  exact ⟨_, Array.getElem?_setIfInBounds_self_of_lt (lt_size_of_get? hget), Nat.lt_succ_self _⟩

theorem ages_erase (hget : s.get? h = some a) : s.Ages (s.erase h) where
  spent k hk := by
    rw [slots_erase hget]
    exact hk.set (get?_eq_some_iff.1 hget) (Nat.le_succ _)
  gone k b hb hnone := by
    rw [get?_erase hget, hb] at hnone
    split_ifs at hnone with hk
    rw [hk]
    exact spent_erase hget

end Slots

namespace NodeIndex

variable {x y : NodeIndex} {name root : String} {h : Handle} {roots names : List String}

/-! ## What becomes of handles -/

theorem ages_retain (hx : Consistent x) (name : String) :
    x.nodes.Ages (x.retain name).2.nodes := by
  cases hf : x.find? name with
  | none =>
    rw [retain_of_none hf]
    exact Slots.ages_insert hx.slots _
  | some h =>
    obtain ⟨node, hn, _⟩ := hx.named name h hf
    rw [retain_of_some hf hn]
    exact Slots.ages_modify _ hn

theorem ages_release (hx : Consistent x) (name : String) :
    x.nodes.Ages (x.release name).nodes := by
  cases hf : x.find? name with
  | none =>
    rw [release_of_none hf]
    exact .refl _
  | some h =>
    obtain ⟨node, hn, _⟩ := hx.named name h hf
    rw [release_of_some hf hn]
    split_ifs
    · exact Slots.ages_erase hn
    · exact Slots.ages_modify _ hn

/-- Handles fare level by level as they do at one level. -/
theorem ages_foldl {step : NodeIndex → String → NodeIndex}
    (hstep : ∀ x name, Consistent x →
      Consistent (step x name) ∧ x.nodes.Ages (step x name).nodes)
    (hx : Consistent x) (names : List String) : x.nodes.Ages (names.foldl step x).nodes := by
  induction names generalizing x with
  | nil => exact .refl _
  | cons name names ih =>
    obtain ⟨hconsistent, hages⟩ := hstep x name hx
    exact hages.trans (ih hconsistent)

theorem ages_retainAll (hx : Consistent x) (root : String) :
    x.nodes.Ages (x.retainAll root).2.nodes := by
  have hstep : ∀ x name, Consistent x →
      Consistent (x.retain name).2 ∧ x.nodes.Ages (x.retain name).2.nodes :=
    fun x name hx => ⟨(retain_spec hx name).1.consistent, ages_retain hx name⟩
  obtain ⟨hconsistent, hages⟩ := hstep x root hx
  exact hages.trans (ages_foldl hstep hconsistent _)

theorem ages_releaseAll (hx : Consistent x) (root : String) :
    x.nodes.Ages (x.releaseAll root).nodes :=
  ages_foldl (fun _ name hx => ⟨(release_spec hx name).consistent, ages_release hx name⟩) hx _

/-- The handle of a name that goes is spent. -/
theorem Released.find?_or_spent (hy : Released x y names) (hx : Consistent x)
    (hages : x.nodes.Ages y.nodes) (hf : x.find? name = some h) :
    y.find? name = some h ∨ y.find? name = none ∧ y.nodes.Spent h := by
  obtain ⟨node, hn, _⟩ := hx.named name h hf
  cases hfy : y.find? name with
  | some k => exact .inl (by rw [← hy.keeps name k hfy, hf])
  | none =>
    refine .inr ⟨rfl, hages.gone h node hn ?_⟩
    rw [Option.eq_none_iff_forall_ne_some]
    intro node' hn'
    -- a node that is still there would be found by its name, which can only be this one
    have hfound := hy.consistent.indexed h node' hn'
    rw [hx.find?_inj (hy.keeps _ h hfound) hf, hfy] at hfound
    exact Option.some_ne_none h hfound.symm

/-! ## Counting roots in and out -/

/-- The index after a call. -/
def after (x : NodeIndex) : IndexCall → NodeIndex
  | .retain root => (x.retainAll root).2
  | .release root => x.releaseAll root

/-- The index that calls make of the empty one. -/
def run (calls : List IndexCall) : NodeIndex := calls.foldl after {}

/-- The roots to be counted out after a call, each as often as it is listed. -/
def pending (roots : List String) : IndexCall → List String
  | .retain root => root :: roots
  | .release root => roots.erase root

/-- The roots that calls counted in and have not counted out. -/
def outstanding (calls : List IndexCall) : List String := calls.foldl pending []

/-- Calls on clean roots, each release of which takes back a retain of the same root before it that
is not yet taken back. -/
inductive Matched : List IndexCall → Prop
  | nil : Matched []
  | retain {calls : List IndexCall} {root : String} (hm : Matched calls) (hroot : Path.IsClean root) :
    Matched (calls ++ [.retain root])
  | release {calls : List IndexCall} {root : String} (hm : Matched calls)
    (hroot : root ∈ outstanding calls) : Matched (calls ++ [.release root])

/-- There is something to be counted out at or below the name. -/
def Materialized (calls : List IndexCall) (name : String) : Prop :=
  ∃ root ∈ outstanding calls, name ∈ Path.ancestors root

instance (calls : List IndexCall) (name : String) : Decidable (Materialized calls name) :=
  inferInstanceAs (Decidable (∃ root ∈ outstanding calls, name ∈ Path.ancestors root))

variable {calls before later : List IndexCall} {call : IndexCall}

theorem run_concat (calls : List IndexCall) (call : IndexCall) :
    run (calls ++ [call]) = (run calls).after call := List.foldl_concat ..

theorem outstanding_concat (calls : List IndexCall) (call : IndexCall) :
    outstanding (calls ++ [call]) = pending (outstanding calls) call := List.foldl_concat ..

/-- The index counts these roots at their levels, each as often as it is listed. -/
structure Tallies (x : NodeIndex) (roots : List String) : Prop where
  consistent : Consistent x
  clean : ∀ root ∈ roots, Path.IsClean root
  refs : ∀ name, x.refsAt name = roots.countP fun root => name ∈ Path.ancestors root
  refs_pos : ∀ name node, x.nodeAt? name = some node → 0 < node.refs

theorem tallies_empty : Tallies {} [] where
  consistent := consistent_empty
  clean _ hroot := absurd hroot List.not_mem_nil
  refs _ := by simp [refsAt, nodeAt?, find?]
  refs_pos _ _ hn := by simp [nodeAt?, find?] at hn

theorem Tallies.retainAll (hx : Tallies x roots) (hroot : Path.IsClean root) :
    Tallies (x.retainAll root).2 (root :: roots) := by
  obtain ⟨hy, _⟩ := retainAll_spec hx.consistent hroot
  refine ⟨hy.consistent, List.forall_mem_cons.2 ⟨hroot, hx.clean⟩, fun name => ?_,
    hy.refs_pos hx.refs_pos⟩
  rw [refsAt_retained hy, hx.refs, List.countP_cons]
  simp only [decide_eq_true_eq]

theorem Tallies.releaseAll (hx : Tallies x roots) (hroot : root ∈ roots) :
    Tallies (x.releaseAll root) (roots.erase root) := by
  have hy := releaseAll_spec hx.consistent (hx.clean root hroot)
  refine ⟨hy.consistent, fun r hr => hx.clean r (List.mem_of_mem_erase hr), fun name => ?_,
    hy.refs_pos hx.refs_pos⟩
  rw [refsAt_released hy, hx.refs, List.countP_erase]
  simp only [hroot, true_and, decide_eq_true_eq]

theorem Tallies.exists_find?_iff (hx : Tallies x roots) :
    (∃ h, x.find? name = some h) ↔ ∃ root ∈ roots, name ∈ Path.ancestors root := by
  have hnode : (∃ h, x.find? name = some h) ↔ ∃ node, x.nodeAt? name = some node := by
    rw [← Option.ne_none_iff_exists', ← Option.ne_none_iff_exists', Ne, Ne,
      hx.consistent.nodeAt?_eq_none_iff]
  rw [hnode, exists_nodeAt?_iff_refsAt (hx.refs_pos name), hx.refs, List.countP_pos_iff]
  simp only [decide_eq_true_eq]

theorem Matched.tallies (hm : Matched calls) : Tallies (run calls) (outstanding calls) := by
  induction hm with
  | nil => exact tallies_empty
  | retain _ hroot ih =>
    rw [run_concat, outstanding_concat]
    exact ih.retainAll hroot
  | release _ hroot ih =>
    rw [run_concat, outstanding_concat]
    exact ih.releaseAll hroot

theorem Matched.exists_find?_iff (hm : Matched calls) :
    (∃ h, (run calls).find? name = some h) ↔ Materialized calls name :=
  hm.tallies.exists_find?_iff

/-! ## Handles along a run -/

/-- One call leaves the handle of a name alone or takes the name away, and never brings a spent
handle back. -/
theorem Matched.step (hm : Matched (calls ++ [call])) :
    Matched calls ∧ (run calls).nodes.Ages (run (calls ++ [call])).nodes ∧
      ∀ name h, (run calls).find? name = some h →
        (run (calls ++ [call])).find? name = some h ∨
          (run (calls ++ [call])).find? name = none ∧ (run (calls ++ [call])).nodes.Spent h := by
  rw [run_concat]
  generalize hcalls : calls ++ [call] = all at hm
  cases hm with
  | nil => exact absurd hcalls (by simp)
  | retain hm hroot =>
    obtain ⟨rfl, hcall⟩ := List.append_inj' hcalls rfl
    obtain rfl := List.singleton_inj.1 hcall
    have hx := hm.tallies.consistent
    exact ⟨hm, ages_retainAll hx _, fun name h hf => .inl ((retainAll_spec hx hroot).1.keeps name h hf)⟩
  | release hm hroot =>
    obtain ⟨rfl, hcall⟩ := List.append_inj' hcalls rfl
    obtain rfl := List.singleton_inj.1 hcall
    have hx := hm.tallies.consistent
    have hages := ages_releaseAll hx
    exact ⟨hm, hages _, fun name h hf =>
      (releaseAll_spec hx (hm.tallies.clean _ hroot)).find?_or_spent hx (hages _) hf⟩

theorem Matched.of_append (hm : Matched (before ++ later)) : Matched before := by
  induction later using List.reverseRecOn with
  | nil => rwa [List.append_nil] at hm
  | append_singleton later call ih =>
    rw [← List.append_assoc] at hm
    exact ih hm.step.1

/-- A name keeps its handle while it stays in use, and the handle is spent once it did not. -/
theorem Matched.keeps_or_spent (hm : Matched (before ++ later))
    (hf : (run before).find? name = some h) :
    ((∀ since, since <+: later → Materialized (before ++ since) name) ∧
        (run (before ++ later)).find? name = some h) ∨
      ((∃ since, since <+: later ∧ ¬ Materialized (before ++ since) name) ∧
        (run (before ++ later)).nodes.Spent h) := by
  induction later using List.reverseRecOn with
  | nil =>
    rw [List.append_nil] at hm ⊢
    refine .inl ⟨fun since hsince => ?_, hf⟩
    rw [List.prefix_nil.1 hsince, List.append_nil]
    exact hm.exists_find?_iff.1 ⟨h, hf⟩
  | append_singleton later call ih =>
    rw [← List.append_assoc] at hm ⊢
    obtain ⟨hearlier, hages, hstep⟩ := hm.step
    rcases ih hearlier with ⟨hall, hkept⟩ | ⟨⟨since, hsince, hnot⟩, hspent⟩
    · rcases hstep name h hkept with hfound | ⟨hnone, hspent⟩
      · refine .inl ⟨fun since hsince => ?_, hfound⟩
        rcases List.prefix_concat_iff.1 hsince with rfl | hsince
        · rw [← List.append_assoc]
          exact hm.exists_find?_iff.1 ⟨h, hfound⟩
        · exact hall since hsince
      · refine .inr ⟨⟨_, List.prefix_refl _, fun hin => ?_⟩, hspent⟩
        rw [← List.append_assoc] at hin
        obtain ⟨k, hk⟩ := hm.exists_find?_iff.2 hin
        rw [hnone] at hk
        exact Option.some_ne_none k hk.symm
    · exact .inr ⟨⟨since, hsince.trans (List.prefix_append _ _), hnot⟩, hages.spent h hspent⟩

/-- A handle given out for a name leads to the node of that name for as long as the name has been in
use without a break. From then on it leads to nothing, whatever its slot is used for. Names in use
never share a handle or a slot. -/
theorem handles_never_confused {before later : List IndexCall} (hm : Matched (before ++ later)) :
    (∀ name, (∃ h, (run before).find? name = some h) ↔ Materialized before name) ∧
    (∀ root, Path.IsClean root →
      (run (before ++ [.retain root])).find? root = some ((run before).retainAll root).1) ∧
    (∀ name h, (run before).find? name = some h →
      ((∀ since, since <+: later → Materialized (before ++ since) name) →
        ∃ node, (run (before ++ later)).node? h = some node ∧ node.details.root = name) ∧
      ((∃ since, since <+: later ∧ ¬ Materialized (before ++ since) name) →
        (run (before ++ later)).node? h = none ∧
          ∀ f, (run (before ++ later)).modify h f = run (before ++ later))) ∧
    ∀ name other h k, (run before).find? name = some h → (run before).find? other = some k →
      name ≠ other → h ≠ k ∧ h.slot ≠ k.slot := by
  have hstart := hm.of_append
  have hx := hstart.tallies.consistent
  refine ⟨fun name => hstart.exists_find?_iff, fun root hroot => ?_,
    fun name h hf => ⟨fun hall => ?_, ?_⟩, fun name other h k hf ho hne => ?_⟩
  · rw [run_concat]
    exact (retainAll_spec hx hroot).2
  · rcases hm.keeps_or_spent hf with ⟨_, hfound⟩ | ⟨⟨since, hsince, hnot⟩, _⟩
    · exact hm.tallies.consistent.named name h hfound
    · exact absurd (hall since hsince) hnot
  · rintro ⟨since, hsince, hnot⟩
    rcases hm.keeps_or_spent hf with ⟨hall, _⟩ | ⟨_, hspent⟩
    · exact absurd (hall since hsince) hnot
    · refine ⟨hspent.get?_eq_none, fun f => ?_⟩
      unfold modify
      rw [hspent.modify_eq]
  · have hslot : h.slot ≠ k.slot := fun he => hne (hx.eq_of_slot_eq hf ho he)
    exact ⟨fun he => hslot (congrArg Handle.slot he), hslot⟩

/-- Calls after which `/a` is still in use and the slot of `/a/b` is in use for `/d`. -/
def reusingCalls : List IndexCall := [.retain "/a/c", .release "/a/b", .retain "/d"]

theorem handles_never_confused_reused :
    Matched ([.retain "/a/b"] ++ reusingCalls) ∧
      (run [.retain "/a/b"]).find? "/a" = some ⟨1, 0⟩ ∧
      (run [.retain "/a/b"]).find? "/a/b" = some ⟨0, 0⟩ ∧
      (run ([.retain "/a/b"] ++ reusingCalls)).find? "/d" = some ⟨0, 1⟩ ∧
      (∃ node, (run ([.retain "/a/b"] ++ reusingCalls)).node? ⟨1, 0⟩ = some node ∧
        node.details.root = "/a") ∧
      (run ([.retain "/a/b"] ++ reusingCalls)).node? ⟨0, 0⟩ = none := by
  have hb : Path.IsClean "/a/b" := Path.clean_eq_self_iff.1 (by decide +kernel)
  have hc : Path.IsClean "/a/c" := Path.clean_eq_self_iff.1 (by decide +kernel)
  have hd : Path.IsClean "/d" := Path.clean_eq_self_iff.1 (by decide +kernel)
  have hboth : Matched [.retain "/a/b", .retain "/a/c"] :=
    @Matched.retain [.retain "/a/b"] "/a/c" (@Matched.retain [] "/a/b" .nil hb) hc
  have hm : Matched ([.retain "/a/b"] ++ reusingCalls) :=
    @Matched.retain [.retain "/a/b", .retain "/a/c", .release "/a/b"] "/d"
      (@Matched.release [.retain "/a/b", .retain "/a/c"] "/a/b" hboth (by decide)) hd
  obtain ⟨-, -, hhandles, -⟩ := handles_never_confused hm
  have hkeeps : (run [.retain "/a/b"]).find? "/a" = some ⟨1, 0⟩ := by decide +kernel
  have hgoes : (run [.retain "/a/b"]).find? "/a/b" = some ⟨0, 0⟩ := by decide +kernel
  have hused : ∀ since ∈ reusingCalls.inits, Materialized ([.retain "/a/b"] ++ since) "/a" := by
    decide +kernel
  have hunused : ¬ Materialized ([.retain "/a/b"] ++ reusingCalls.take 2) "/a/b" := by decide +kernel
  refine ⟨hm, hkeeps, hgoes, by decide +kernel, ?_, ?_⟩
  · exact (hhandles _ _ hkeeps).1 fun since hsince => hused since ((List.mem_inits _ _).2 hsince)
  · exact ((hhandles _ _ hgoes).2 ⟨_, List.take_prefix 2 _, hunused⟩).1

end NodeIndex

end PathLock
