import PathLock.Proofs.Lock.Lifecycle

/-!
# Claims

A table that represents a ledger confirms and releases as the ledger does. Tokens stand for handles
throughout: the locks of a claim are held in turn, none of which can fail, and are let go in turn as
far as their tokens are still in use.

* `Represents.confirm_ok`, `Represents.confirm_error`, `Represents.confirm_tokens`,
  `Represents.release`.
-/

namespace PathLock

/-- Whether a lock covers a name can be read off the two texts. -/
theorem Lock.covers_iff {lock : Lock} {name : String} (hr : Path.IsClean lock.root)
    (hn : Path.IsClean name) : lock.Covers name ↔
      name = lock.root ∨ lock.details.zeroDepth = false ∧ Path.below lock.root name = true := by
  unfold Lock.Covers
  rw [Path.strictlyWithin_iff hr hn]
  by_cases he : lock.root = name
  · simp [he]
  · rw [Path.below_iff hr hn he]
    simp [he, Ne.symm he]

namespace LockTable

variable {t : LockTable} {l : Ledger} {lock : Lock} {h : Handle} {node : Node} {token : String}
  {tokens : List String} {ids : List Handle}

theorem Represents.setHeld {q : ExpiryQueue} (hr : Represents t l) (hl : lock ∈ l.locks)
    (hc : Carries t h node lock) (held : Bool) (hq : q.WellFormed)
    (hdue : ∀ k, q.due? k = if k = h then ({ lock with held } : Lock).due? else t.queue.due? k) :
    Represents ⟨t.index.modify h fun node => { node with held }, t.registry, q⟩
      (l.setHeld [lock.token] held) := by
  refine ⟨hr.holds.update_mem hl (fun k hk => ?_) hc.found rfl rfl (fun n hn => ?_) (fun n => rfl)
    (hr.holds.timed lock hl) hq hdue, hr.counter⟩
  · rw [List.mem_singleton]
    exact hr.holds.token_eq_iff hl hk
  · obtain ⟨htoken, hdetails, hexpiry, _⟩ := Node.lock?_eq_some.1 hn
    exact Node.lock?_eq_some.2 ⟨htoken, hdetails, hexpiry, rfl⟩

theorem Represents.hold (hr : Represents t l) (hreg : t.registry.find? token = some h)
    (hfree : ∀ lock ∈ l.locks, lock.token = token → lock.held = false) :
    ∃ t', t.hold h = .ok t' ∧ t'.registry = t.registry ∧
      Represents t' (l.setHeld [token] true) := by
  obtain ⟨lock, hl, rfl, node, hc⟩ := hr.holds.exists_of_registered hreg
  have hdue : ∀ k, (t.queue.erase h).due? k = if k = h then none else t.queue.due? k :=
    fun k => ExpiryQueue.due?_erase hr.holds.queue
  have hr' := hr.setHeld hl hc true (hr.holds.queue.erase h) hdue
  refine ⟨_, ?_, ?_, hr'⟩
  · unfold LockTable.hold LockTable.node
    rw [hc.resolved]
    show (if node.held = true then _ else _) = _
    rw [hc.held_eq, hfree lock hl rfl]
    rfl
  · rfl

theorem Represents.unhold (hr : Represents t l) (hreg : t.registry.find? token = some h)
    (hheld : ∀ lock ∈ l.locks, lock.token = token → lock.held = true) :
    ∃ t', t.unhold h = .ok t' ∧ t'.registry = t.registry ∧
      Represents t' (l.setHeld [token] false) := by
  obtain ⟨lock, hl, rfl, node, hc⟩ := hr.holds.exists_of_registered hreg
  have hnone : t.queue.due? h = none := by
    rw [Option.eq_none_iff_forall_ne_some]
    intro due hdue
    obtain ⟨other, ho, hf, hother⟩ := (hr.holds.queued _ _).1 hdue
    have heq := hr.holds.eq_of_find?_eq ho hl (hf.trans hc.found.symm)
    rw [heq, Lock.due?, hheld lock hl rfl] at hother
    exact absurd hother (by simp)
  obtain ⟨hq, hdue⟩ := due?_schedule (t := t.modify h fun node => { node with held := false })
    lock.expiry hr.holds.queue hnone
  have hr' := hr.setHeld hl hc false hq hdue
  refine ⟨_, ?_, ?_, hr'⟩
  · unfold LockTable.unhold LockTable.node
    rw [hc.resolved]
    show (if node.held = true then _ else _) = _
    rw [hc.held_eq, hheld lock hl rfl, hc.expiry_eq, schedule_eq]
    rfl
  · rfl

/-! ## Holding and letting go in turn -/

/-- Tokens that lead to these nodes. -/
def Lead (t : LockTable) (ids : List Handle) (tokens : List String) : Prop :=
  List.Forall₂ (fun id token => t.registry.find? token = some id) ids tokens

theorem Lead.nil (t : LockTable) : Lead t [] [] := List.Forall₂.nil

theorem Lead.of_registry_eq {t' : LockTable} (h : Lead t ids tokens)
    (heq : t'.registry = t.registry) : Lead t' ids tokens := by
  unfold Lead
  rw [heq]
  exact h

theorem Represents.holdFrom (hr : Represents t l) (hids : Lead t ids tokens) (hnodup : tokens.Nodup)
    (hfree : ∀ lock ∈ l.locks, lock.token ∈ tokens → lock.held = false) (taken : List Handle) :
    ∃ t', holdFrom taken ids t = (.ok (), t') ∧ t'.registry = t.registry ∧
      Represents t' (l.setHeld tokens true) := by
  induction ids generalizing t l taken tokens with
  | nil =>
    cases hids
    exact ⟨t, rfl, rfl, by rwa [Ledger.setHeld_nil]⟩
  | cons id ids ih =>
    obtain _ | ⟨hid, hids⟩ := hids
    rename_i token tokens
    rw [List.nodup_cons] at hnodup
    obtain ⟨t₁, hhold, hreg₁, hr₁⟩ := hr.hold hid
      fun lock hl htoken => hfree lock hl (htoken ▸ List.mem_cons_self)
    obtain ⟨t₂, hrest, hreg₂, hr₂⟩ := ih hr₁ (Lead.of_registry_eq hids hreg₁) hnodup.2 (by
      intro lock hl htoken
      refine hfree lock (Ledger.mem_of_mem_setHeld hl ?_) (List.mem_cons_of_mem _ htoken)
      rw [List.mem_singleton]
      rintro rfl
      exact hnodup.1 htoken) (taken ++ [id])
    refine ⟨t₂, ?_, hreg₂.trans hreg₁, by rwa [Ledger.setHeld_cons]⟩
    unfold LockTable.holdFrom
    rw [hhold]
    exact hrest

theorem stillLockedBy_eq_true : t.stillLockedBy h token = true ↔
    ∃ node, t.index.node? h = some node ∧ node.token = some token := by
  unfold stillLockedBy
  cases hn : t.index.node? h with
  | none => simp
  | some node => simp

theorem Represents.stillLockedBy_iff (hr : Represents t l) :
    t.stillLockedBy h token = true ↔ t.registry.find? token = some h := by
  rw [stillLockedBy_eq_true]
  constructor
  · rintro ⟨node, hn, htoken⟩
    obtain ⟨lock, _, rfl, hc⟩ := hr.holds.exists_of_token hn htoken
    exact hc.registered
  · intro hreg
    obtain ⟨lock, _, rfl, node, hc⟩ := hr.holds.exists_of_registered hreg
    exact ⟨node, hc.resolved, hc.token_eq⟩

/-- Locks that are gone have no token in use, and the others are where they were claimed. -/
theorem Represents.releaseLocks (hr : Represents t l) (claimed : List ClaimedLock)
    (hnodup : (claimed.map (·.token)).Nodup)
    (hleads : ∀ c ∈ claimed, ∀ h, t.registry.find? c.token = some h → h = c.id)
    (hheld : ∀ lock ∈ l.locks, lock.token ∈ claimed.map (·.token) → lock.held = true) :
    ∃ t', releaseLocks claimed t = (.ok (), t') ∧ t'.registry = t.registry ∧
      Represents t' (l.setHeld (claimed.map (·.token)) false) := by
  induction claimed generalizing t l with
  | nil => exact ⟨t, rfl, rfl, by rwa [List.map_nil, Ledger.setHeld_nil]⟩
  | cons c claimed ih =>
    rw [List.map_cons] at hnodup hheld ⊢
    rw [List.nodup_cons] at hnodup
    rw [Ledger.setHeld_cons]
    unfold LockTable.releaseLocks
    have hrest : ∀ t₁, t₁.registry = t.registry → Represents t₁ (l.setHeld [c.token] false) →
        ∃ t', LockTable.releaseLocks claimed t₁ = (.ok (), t') ∧ t'.registry = t.registry ∧
          Represents t' ((l.setHeld [c.token] false).setHeld (claimed.map (·.token)) false) := by
      intro t₁ hreg₁ hr₁
      obtain ⟨t', hrel, hreg', hr'⟩ := ih hr₁ hnodup.2
        (fun c' hc' h hh => hleads c' (List.mem_cons_of_mem _ hc') h (hreg₁ ▸ hh)) (by
          intro lock hl htoken
          refine hheld lock (Ledger.mem_of_mem_setHeld hl ?_) (List.mem_cons_of_mem _ htoken)
          rw [List.mem_singleton]
          intro he
          exact hnodup.1 (he ▸ htoken))
      exact ⟨t', hrel, hreg'.trans hreg₁, hr'⟩
    split_ifs with hstill
    · obtain ⟨t₁, hunhold, hreg₁, hr₁⟩ := hr.unhold (hr.stillLockedBy_iff.1 hstill)
        fun lock hl htoken => hheld lock hl (htoken ▸ List.mem_cons_self)
      rw [hunhold]
      exact hrest t₁ hreg₁ hr₁
    · refine hrest t rfl ?_
      rw [Ledger.setHeld_of_absent]
      · exact hr
      · intro lock hl htoken
        rw [List.mem_singleton] at htoken
        obtain ⟨h, _, hc⟩ := hr.holds.exists_carries hl
        have hreg := hc.registered
        rw [htoken] at hreg
        exact hstill (hr.stillLockedBy_iff.2 (hleads c List.mem_cons_self h hreg ▸ hreg))

/-- A claim can be released as long as its locks are held and where they were claimed. -/
theorem Represents.release (hr : Represents t l) {claim : Claim} (hnodup : claim.tokens.Nodup)
    (hleads : ∀ c ∈ claim.locks, ∀ h, t.registry.find? c.token = some h → h = c.id)
    (hheld : ∀ lock ∈ l.locks, lock.token ∈ claim.tokens → lock.held = true) :
    ∃ t', t.release claim = (.ok (), t') ∧ t'.registry = t.registry ∧
      Represents t' (l.release claim.tokens) := by
  have htokens : ∀ token, token ∈ claim.locks.reverse.map (·.token) ↔ token ∈ claim.tokens := by
    intro token
    rw [List.map_reverse, List.mem_reverse]
    rfl
  obtain ⟨t', hrelease, hreg, hr'⟩ := hr.releaseLocks claim.locks.reverse
    (by rwa [List.map_reverse, List.nodup_reverse])
    (fun c hc => hleads c (List.mem_reverse.1 hc))
    (fun lock hl htoken => hheld lock hl ((htokens _).1 htoken))
  rw [Ledger.setHeld_congr htokens] at hr'
  exact ⟨t', hrelease, hreg, hr'⟩

/-! ## Finding what gives access -/

theorem Represents.matchCondition (hr : Represents t l) (name : String) (condition : Condition) :
    t.matchCondition (Path.clean name) condition =
      (l.matchCondition name condition).bind t.registry.find? := by
  unfold LockTable.matchCondition Ledger.matchCondition
  rcases hr.find?_cases condition.token with
    ⟨hfind, hreg⟩ | ⟨lock, hl, htoken, hfind, h, node, hc⟩
  · rw [hfind, hreg]
    rfl
  · rw [hfind]
    have hcovers := Lock.covers_iff (hr.holds.clean lock hl) (Path.isClean_clean name)
    have hroot : node.details.root = lock.root := congrArg Details.root hc.details_eq
    rw [← htoken, hc.registered, Option.bind_some]
    show (t.index.node? h).bind _ = _
    rw [hc.resolved, Option.bind_some, hc.held_eq, hroot, hc.details_eq]
    cases hheld : lock.held with
    | true => simp
    | false =>
      simp only [Bool.false_eq_true, if_false, true_and]
      by_cases hcov : lock.Covers (Path.clean name)
      · rw [if_pos hcov, Option.bind_some, hc.registered]
        rcases hcovers.1 hcov with heq | ⟨hdepth, hbelow⟩
        · exact if_pos heq
        · rw [hdepth, hbelow]
          simp
      · rw [if_neg hcov, Option.bind_none]
        obtain ⟨hne, hbelow⟩ := not_or.1 fun h => hcov (hcovers.2 h)
        rw [if_neg hne]
        split_ifs with hdepth hbelow'
        · rfl
        · exact absurd ⟨by simpa using hdepth, hbelow'⟩ hbelow
        · rfl

/-- A token that matches leads to a node. -/
theorem Represents.registered_of_matchCondition (hr : Represents t l) {name : String}
    {condition : Condition} (hm : l.matchCondition name condition = some token) :
    ∃ h, t.registry.find? token = some h := by
  obtain ⟨lock, hl, rfl, _⟩ := Ledger.free_of_matchCondition hm
  obtain ⟨h, _, hc⟩ := hr.holds.exists_carries hl
  exact ⟨h, hc.registered⟩

theorem Represents.lookup (hr : Represents t l) (name : String) (conditions : List Condition) :
    t.lookup (Path.clean name) conditions = (l.pick conditions name).bind t.registry.find? := by
  unfold LockTable.lookup Ledger.pick
  induction conditions with
  | nil => rfl
  | cons condition conditions ih =>
    rw [List.findSome?_cons, List.findSome?_cons, hr.matchCondition]
    cases hm : l.matchCondition name condition with
    | none => exact ih
    | some token =>
      obtain ⟨h, hreg⟩ := hr.registered_of_matchCondition hm
      rw [Option.bind_some, hreg]

theorem Represents.token_inj (hr : Represents t l) {other : String}
    (hreg : t.registry.find? token = some h) (hother : t.registry.find? other = some h) :
    token = other := by
  obtain ⟨lock, hl, rfl, hf⟩ := (hr.holds.tokens _ _).1 hreg
  obtain ⟨lock', hl', rfl, hf'⟩ := (hr.holds.tokens _ _).1 hother
  rw [hr.holds.eq_of_find?_eq hl hl' (hf.trans hf'.symm)]

/-- A node is among those that tokens lead to if its own token is among them. -/
theorem Lead.mem_iff (hids : Lead t ids tokens) (hr : Represents t l)
    (hreg : t.registry.find? token = some h) : h ∈ ids ↔ token ∈ tokens := by
  induction hids with
  | nil => simp
  | cons hid htail ih =>
    rw [List.mem_cons, List.mem_cons, ih]
    refine or_congr_left ⟨?_, ?_⟩
    · rintro rfl
      exact hr.token_inj hreg hid
    · rintro rfl
      exact Option.some.inj (hreg.symm.trans hid)

theorem resolve_cons (t : LockTable) (conditions : List Condition) (name : String)
    (rest : List String) (ids : List Handle) : t.resolve conditions (name :: rest) ids =
      if name = "" then t.resolve conditions rest ids
      else match t.lookup (Path.clean name) conditions with
        | none => .error .confirmationFailed
        | some id => t.resolve conditions rest (if id ∈ ids then ids else ids ++ [id]) := rfl

theorem Represents.resolve_cons (hr : Represents t l) (conditions : List Condition) (name : String)
    (rest : List String) (hids : Lead t ids tokens) :
    match l.access conditions name with
    | none => t.resolve conditions (name :: rest) ids = .error .confirmationFailed
    | some more => ∃ ids',
        t.resolve conditions (name :: rest) ids = t.resolve conditions rest ids' ∧
        Lead t ids' (tokens ++ more.filter (· ∉ tokens)) := by
  unfold Ledger.access
  rw [LockTable.resolve_cons]
  by_cases hname : name = ""
  · rw [if_pos hname, if_pos hname]
    exact ⟨ids, rfl, by simpa using hids⟩
  · rw [if_neg hname, if_neg hname, hr.lookup]
    cases hpick : l.pick conditions name with
    | none => rfl
    | some token =>
      obtain ⟨condition, _, hmatch⟩ := List.exists_of_findSome?_eq_some hpick
      obtain ⟨h, hreg⟩ := hr.registered_of_matchCondition hmatch
      refine ⟨if h ∈ ids then ids else ids ++ [h], ?_, ?_⟩
      · rw [Option.bind_some, hreg]
      · by_cases hin : token ∈ tokens
        · rw [if_pos ((hids.mem_iff hr hreg).2 hin), List.filter_singleton]
          simpa [hin] using hids
        · rw [if_neg (mt (hids.mem_iff hr hreg).1 hin), List.filter_singleton]
          simp only [hin, not_false_eq_true, decide_true]
          exact List.rel_append hids (.cons hreg .nil)

theorem Represents.resolve_ok (hr : Represents t l) {conditions : List Condition}
    {name₀ name₁ : String} {tokens₀ tokens₁ : List String}
    (h₀ : l.access conditions name₀ = some tokens₀)
    (h₁ : l.access conditions name₁ = some tokens₁) :
    ∃ ids, t.resolve conditions [name₀, name₁] [] = .ok ids ∧
      Lead t ids (tokens₀ ++ tokens₁.filter (· ∉ tokens₀)) := by
  have hstep₀ := hr.resolve_cons conditions name₀ [name₁] (Lead.nil t)
  rw [h₀] at hstep₀
  obtain ⟨ids₀, heq₀, hids₀⟩ := hstep₀
  rw [List.nil_append, List.filter_eq_self.2 (by simp)] at hids₀
  have hstep₁ := hr.resolve_cons conditions name₁ [] hids₀
  rw [h₁] at hstep₁
  obtain ⟨ids₁, heq₁, hids₁⟩ := hstep₁
  exact ⟨ids₁, heq₀.trans heq₁, hids₁⟩

theorem Represents.resolve_error (hr : Represents t l) {conditions : List Condition}
    {name₀ name₁ : String}
    (hnone : l.access conditions name₀ = none ∨ l.access conditions name₁ = none) :
    t.resolve conditions [name₀, name₁] [] = .error .confirmationFailed := by
  have hstep₀ := hr.resolve_cons conditions name₀ [name₁] (Lead.nil t)
  cases h₀ : l.access conditions name₀ with
  | none =>
    rw [h₀] at hstep₀
    exact hstep₀
  | some tokens₀ =>
    rw [h₀] at hstep₀ hnone
    obtain ⟨ids₀, heq₀, hids₀⟩ := hstep₀
    have hstep₁ := hr.resolve_cons conditions name₁ [] hids₀
    rw [hnone.resolve_left (by simp)] at hstep₁
    exact heq₀.trans hstep₁

/-! ## Confirming -/

theorem Represents.node_of_registered (hr : Represents t l)
    (hreg : t.registry.find? token = some h) :
    ∃ node, t.node h = .ok node ∧ node.token = some token := by
  obtain ⟨lock, _, rfl, node, hc⟩ := hr.holds.exists_of_registered hreg
  refine ⟨node, ?_, hc.token_eq⟩
  unfold LockTable.node
  rw [hc.resolved]

theorem Represents.claimOf (hr : Represents t l) (hids : Lead t ids tokens) :
    ∃ claim, t.claimOf ids = .ok claim ∧ claim.tokens = tokens ∧
      ∀ c ∈ claim.locks, t.registry.find? c.token = some c.id := by
  have hlocks : ∃ locks : List ClaimedLock,
      (ids.mapM fun id => do
        let node ← t.node id
        return { id, token := node.token.getD "" : ClaimedLock }) = .ok locks ∧
      locks.map (·.token) = tokens ∧ ∀ c ∈ locks, t.registry.find? c.token = some c.id := by
    induction hids with
    | nil => exact ⟨[], rfl, rfl, fun c hc => absurd hc List.not_mem_nil⟩
    | cons hid htail ih =>
      rename_i id token ids tokens
      obtain ⟨locks, hmap, htokens, hall⟩ := ih
      obtain ⟨node, hn, htoken⟩ := hr.node_of_registered hid
      refine ⟨⟨id, token⟩ :: locks, ?_, by rw [List.map_cons, htokens], ?_⟩
      · rw [List.mapM_cons, hmap, hn]
        show Except.ok (⟨id, node.token.getD ""⟩ :: locks) = _
        rw [htoken, Option.getD_some]
      · intro c hc
        rcases List.mem_cons.1 hc with rfl | hc
        · exact hid
        · exact hall c hc
  obtain ⟨locks, hmap, htokens, hall⟩ := hlocks
  refine ⟨⟨locks⟩, ?_, htokens, hall⟩
  unfold LockTable.claimOf
  rw [hmap]
  rfl

theorem Represents.confirm_ok (hr : Represents t l) {now : Instant} {name₀ name₁ : String}
    {conditions : List Condition} {l' : Ledger}
    (hl : l.confirm now name₀ name₁ conditions = (.ok tokens, l')) :
    ∃ claim t', t.confirm now name₀ name₁ conditions = (.ok claim, t') ∧ claim.tokens = tokens ∧
      (∀ c ∈ claim.locks, t'.registry.find? c.token = some c.id) ∧
      t'.registry = (t.sweep now).registry ∧ Represents t' l' := by
  have hsweep := hr.sweep now
  obtain ⟨hnodup, hfree⟩ := Ledger.free_of_confirm hl
  obtain ⟨tokens₀, tokens₁, h₀, h₁, htokens, rfl⟩ := Ledger.confirm_ok hl
  obtain ⟨ids, hresolve, hids⟩ := hsweep.resolve_ok h₀ h₁
  rw [← htokens] at hids
  obtain ⟨t', hhold, hreg, hr'⟩ := hsweep.holdFrom hids hnodup (by
    intro lock hl htoken
    obtain ⟨k, hk, hktoken, hkfree⟩ := hfree _ htoken
    rwa [← hsweep.holds.eq_of_token_eq hk hl hktoken]) []
  obtain ⟨claim, hclaim, hclaimed, hall⟩ := hr'.claimOf (hids.of_registry_eq hreg)
  refine ⟨claim, t', ?_, hclaimed, hall, hreg, hr'⟩
  unfold LockTable.confirm LockTable.holdAll
  dsimp only
  rw [hresolve]
  dsimp only
  rw [hhold]
  dsimp only
  rw [hclaim]

theorem Represents.confirm_error (hr : Represents t l) {now : Instant} {name₀ name₁ : String}
    {conditions : List Condition} {l' : Ledger} {e : LockError}
    (hl : l.confirm now name₀ name₁ conditions = (.error e, l')) :
    t.confirm now name₀ name₁ conditions = (.error e, t.sweep now) ∧
      Represents (t.sweep now) l' := by
  have hsweep := hr.sweep now
  obtain ⟨rfl, rfl, hnone⟩ := Ledger.confirm_error hl
  refine ⟨?_, hsweep⟩
  unfold LockTable.confirm
  dsimp only
  rw [hsweep.resolve_error hnone]

/-- Handles apart, table and ledger answer a confirm alike. -/
theorem Represents.confirm_tokens (hr : Represents t l) (now : Instant) (name₀ name₁ : String)
    (conditions : List Condition) :
    (t.confirm now name₀ name₁ conditions).1.map Claim.tokens =
      (l.confirm now name₀ name₁ conditions).1 := by
  cases hconfirm : l.confirm now name₀ name₁ conditions with
  | mk result l' =>
    cases result with
    | error e =>
      rw [(hr.confirm_error hconfirm).1]
      rfl
    | ok tokens =>
      obtain ⟨claim, t', heq, rfl, _⟩ := hr.confirm_ok hconfirm
      rw [heq]
      rfl

/-- A confirm succeeds on both sides, with the same tokens, or on neither. -/
theorem Represents.confirm_eq_ok_iff (hr : Represents t l) {now : Instant} {name₀ name₁ : String}
    {conditions : List Condition} : (l.confirm now name₀ name₁ conditions).1 = .ok tokens ↔
      ∃ claim, (t.confirm now name₀ name₁ conditions).1 = .ok claim ∧ claim.tokens = tokens := by
  rw [← hr.confirm_tokens]
  cases (t.confirm now name₀ name₁ conditions).1 <;> simp [Except.map]

end LockTable

end PathLock
