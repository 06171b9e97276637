import Mathlib.Data.List.Forall2
import Mathlib.Data.Option.Basic
import PathLock.Proofs.Lock.Ledger

/-!
# Ledgers side by side

A ledger compares tokens with tokens, instants with instants, and names with names, and otherwise
passes them on. So two ledgers that are given counterparts answer with counterparts, whatever tokens
and instants are counterparts of one another, as long as comparisons come out alike.

* `Counterparts`: which tokens and instants correspond.
* `Counterparts.Ledgers`: the locks of two ledgers correspond one by one.
* `Ledgers.create`, `Ledgers.refresh`, `Ledgers.unlock`, `Ledgers.delete`, `Ledgers.confirm`,
  `Ledgers.release`, `Ledgers.lockAt`: each operation keeps it, with corresponding answers.
-/

namespace PathLock

/-! ## Lists side by side -/

section Lists

variable {α β γ δ : Type} {R : α → β → Prop} {S : γ → δ → Prop} {l : List α} {l' : List β}

theorem head?_rel (h : List.Forall₂ R l l') : Option.Rel R l.head? l'.head? := by
  cases h with
  | nil => exact .none
  | cons hab _ => exact .some hab

/-- If the tests come out alike, the first hits correspond. -/
theorem find?_rel {p : α → Bool} {q : β → Bool} (h : List.Forall₂ R l l')
    (hpq : ∀ {a b}, R a b → (p a = true ↔ q b = true)) :
    Option.Rel R (l.find? p) (l'.find? q) := by
  rw [← List.head?_filter, ← List.head?_filter]
  exact head?_rel (List.rel_filter (fun _ _ hab => hpq hab) h)

theorem findSome?_rel {f : α → Option γ} {g : β → Option δ} (h : List.Forall₂ R l l')
    (hfg : ∀ {a b}, R a b → Option.Rel S (f a) (g b)) :
    Option.Rel S (l.findSome? f) (l'.findSome? g) := by
  rw [← List.head?_filterMap, ← List.head?_filterMap]
  exact head?_rel (List.rel_filterMap (fun _ _ hab => hfg hab) h)

theorem exists_mem_iff {p : α → Prop} {q : β → Prop} (h : List.Forall₂ R l l')
    (hpq : ∀ {a b}, R a b → (p a ↔ q b)) : (∃ a ∈ l, p a) ↔ ∃ b ∈ l', q b := by
  induction h with
  | nil => simp
  | cons hab _ ih => rw [List.exists_mem_cons_iff, List.exists_mem_cons_iff, hpq hab, ih]

/-- Either there is nothing on both sides, or something that corresponds. -/
theorem rel_cases {o : Option α} {o' : Option β} (h : Option.Rel R o o') :
    o = none ∧ o' = none ∨ ∃ a b, o = some a ∧ o' = some b ∧ R a b := by
  cases h with
  | none => exact .inl ⟨rfl, rfl⟩
  | some hab => exact .inr ⟨_, _, rfl, rfl, hab⟩

end Lists

/-- Two results are the same error, or values that correspond. -/
inductive SameResult {α β : Type} (R : α → β → Prop) :
    Except LockError α → Except LockError β → Prop
  | ok {a : α} {b : β} (h : R a b) : SameResult R (.ok a) (.ok b)
  | error (e : LockError) : SameResult R (.error e) (.error e)

theorem SameResult.map {α β γ δ : Type} {R : α → β → Prop} {S : γ → δ → Prop}
    {a : Except LockError α} {b : Except LockError β} {f : α → γ} {g : β → δ}
    (h : SameResult R a b) (hfg : ∀ {a b}, R a b → S (f a) (g b)) :
    SameResult S (a.map f) (b.map g) := by
  cases h with
  | ok hab => exact .ok (hfg hab)
  | error e => exact .error e

theorem SameResult.bind {α β γ δ : Type} {R : α → β → Prop} {S : γ → δ → Prop}
    {a : Except LockError α} {b : Except LockError β} {f : α → Except LockError γ}
    {g : β → Except LockError δ} (h : SameResult R a b)
    (hfg : ∀ {a b}, R a b → SameResult S (f a) (g b)) : SameResult S (a >>= f) (b >>= g) := by
  cases h with
  | ok hab => exact hfg hab
  | error e => exact .error e

/-! ## Counterparts -/

/-- Which tokens, which tokens as callers present them, and which instants of two runs correspond. A
comparison comes out in the one run as it does in the other. -/
structure Counterparts where
  token : String → String → Prop
  presented : String → String → Prop
  instant : Instant → Instant → Prop
  presented_of_token : ∀ {a b}, token a b → presented a b
  token_eq_iff : ∀ {a b x y}, token a b → presented x y → (a = x ↔ b = y)
  le_iff : ∀ {s t u v}, instant s t → instant u v → (s ≤ u ↔ t ≤ v)

namespace Counterparts

variable {P : Counterparts} {a b : Lock} {l l' : Ledger} {now now' : Instant}
  {token token' : String} {tokens tokens' : List String} {conditions conditions' : List Condition}

theorem biUnique_token (P : Counterparts) : Relator.BiUnique P.token where
  left _ _ _ h h' := (P.token_eq_iff h (P.presented_of_token h')).2 rfl
  right _ _ _ h h' := (P.token_eq_iff h (P.presented_of_token h')).1 rfl

/-- The same lock, but for what corresponds. -/
structure Locks (P : Counterparts) (a b : Lock) : Prop where
  token : P.token a.token b.token
  details : a.details = b.details
  expiry : Option.Rel P.instant a.expiry b.expiry
  held : a.held = b.held

/-- The same conditions, but for the tokens that they present. -/
def Conditions (P : Counterparts) (conditions conditions' : List Condition) : Prop :=
  List.Forall₂ (fun c c' => P.presented c.token c'.token) conditions conditions'

/-- Lock by lock, the ledgers correspond. -/
def Ledgers (P : Counterparts) (l l' : Ledger) : Prop := List.Forall₂ P.Locks l.locks l'.locks

namespace Locks

theorem root_eq (h : P.Locks a b) : a.root = b.root := congrArg Details.root h.details

theorem covers_iff (h : P.Locks a b) (name : String) : a.Covers name ↔ b.Covers name := by
  unfold Lock.Covers
  rw [h.root_eq, h.details]

theorem conflicts_iff (h : P.Locks a b) (root : String) (zeroDepth : Bool) :
    a.Conflicts root zeroDepth ↔ b.Conflicts root zeroDepth := by
  unfold Lock.Conflicts
  rw [h.root_eq, h.details]

theorem expired_eq (h : P.Locks a b) (hnow : P.instant now now') :
    a.expired now = b.expired now' := by
  have hdue : a.expiry.any (fun due => due ≤ now) = b.expiry.any fun due => due ≤ now' := by
    rcases rel_cases h.expiry with ⟨hnone, hnone'⟩ | ⟨due, due', hsome, hsome', hdue⟩
    · rw [hnone, hnone']
      rfl
    · rw [hsome, hsome']
      exact decide_eq_decide.2 (P.le_iff hdue hnow)
  unfold Lock.expired
  rw [h.held, hdue]

theorem fresh (htoken : P.token token token') {details : Details}
    (hexpiry : Option.Rel P.instant (details.duration.expiry now) (details.duration.expiry now')) :
    P.Locks (.fresh token now details) (.fresh token' now' details) := ⟨htoken, rfl, hexpiry, rfl⟩

theorem setHeld (h : P.Locks a b) (htokens : List.Forall₂ P.token tokens tokens') (held : Bool) :
    P.Locks (if a.token ∈ tokens then { a with held } else a)
      (if b.token ∈ tokens' then { b with held } else b) := by
  have hmem : a.token ∈ tokens ↔ b.token ∈ tokens' := List.rel_mem P.biUnique_token h.token htokens
  simp only [hmem]
  split_ifs
  · exact ⟨h.token, h.details, h.expiry, rfl⟩
  · exact h

theorem refresh (h : P.Locks a b) (htoken : P.presented token token') {duration : Timeout}
    (hexpiry : Option.Rel P.instant (duration.expiry now) (duration.expiry now')) :
    P.Locks
      (if a.token = token then
        { a with details := { a.details with duration }, expiry := duration.expiry now } else a)
      (if b.token = token' then
        { b with details := { b.details with duration }, expiry := duration.expiry now' }
      else b) := by
  simp only [P.token_eq_iff h.token htoken]
  split_ifs
  · exact ⟨h.token, by rw [h.details], hexpiry, h.held⟩
  · exact h

end Locks

namespace Ledgers

/-! ## Lookups -/

theorem sweep (h : P.Ledgers l l') (hnow : P.instant now now') :
    P.Ledgers (l.sweep now) (l'.sweep now') := by
  refine List.rel_filter (fun a b hab => ?_) h
  dsimp only
  rw [hab.expired_eq hnow]

theorem find? (h : P.Ledgers l l') (htoken : P.presented token token') :
    Option.Rel P.Locks (l.find? token) (l'.find? token') := by
  refine find?_rel h fun hab => ?_
  rw [decide_eq_true_eq, decide_eq_true_eq, P.token_eq_iff hab.token htoken]

theorem matchCondition (h : P.Ledgers l l') {condition condition' : Condition}
    (hcondition : P.presented condition.token condition'.token) (name : String) :
    Option.Rel P.token (l.matchCondition name condition) (l'.matchCondition name condition') := by
  unfold Ledger.matchCondition
  rcases rel_cases (h.find? hcondition) with ⟨hnone, hnone'⟩ | ⟨a, b, ha, hb, hab⟩
  · rw [hnone, hnone']
    exact .none
  · rw [ha, hb, Option.bind_some, Option.bind_some, hab.held]
    simp only [hab.covers_iff]
    split_ifs
    · exact .some hab.token
    · exact .none

theorem pick (h : P.Ledgers l l') (hconditions : P.Conditions conditions conditions')
    (name : String) : Option.Rel P.token (l.pick conditions name) (l'.pick conditions' name) :=
  findSome?_rel hconditions fun hcondition => h.matchCondition hcondition name

theorem access (h : P.Ledgers l l') (hconditions : P.Conditions conditions conditions')
    (name : String) :
    Option.Rel (List.Forall₂ P.token) (l.access conditions name) (l'.access conditions' name) := by
  unfold Ledger.access
  split_ifs
  · exact .some .nil
  · rcases rel_cases (h.pick hconditions name) with ⟨hnone, hnone'⟩ | ⟨_, _, ha, hb, htoken⟩
    · rw [hnone, hnone']
      exact .none
    · rw [ha, hb]
      exact .some (.cons htoken .nil)

/-! ## Operations -/

/-- The tokens that come next must be counterparts. -/
theorem create (h : P.Ledgers l l') (hnow : P.instant now now') {details : Details}
    (hexpiry : Option.Rel P.instant (details.duration.expiry now) (details.duration.expiry now'))
    (hnext : P.token (Registry.tokenText (l.counter + 1)) (Registry.tokenText (l'.counter + 1))) :
    SameResult P.token (l.create now details).1 (l'.create now' details).1 ∧
      P.Ledgers (l.create now details).2 (l'.create now' details).2 := by
  have hsweep := h.sweep hnow
  have hconflict := exists_mem_iff hsweep fun hab =>
    hab.conflicts_iff (Path.clean details.root) details.zeroDepth
  by_cases hc : ∃ lock ∈ (l.sweep now).locks,
      lock.Conflicts (Path.clean details.root) details.zeroDepth
  · rw [Ledger.create_of_conflict hc, Ledger.create_of_conflict (hconflict.1 hc)]
    exact ⟨.error _, hsweep⟩
  · rw [Ledger.create_of_no_conflict hc, Ledger.create_of_no_conflict (mt hconflict.2 hc)]
    exact ⟨.ok hnext, .cons (Locks.fresh hnext hexpiry) hsweep⟩

theorem refresh (h : P.Ledgers l l') (hnow : P.instant now now')
    (htoken : P.presented token token') {duration : Timeout}
    (hexpiry : Option.Rel P.instant (duration.expiry now) (duration.expiry now')) :
    SameResult Eq (l.refresh now token duration).1 (l'.refresh now' token' duration).1 ∧
      P.Ledgers (l.refresh now token duration).2 (l'.refresh now' token' duration).2 := by
  have hsweep := h.sweep hnow
  unfold Ledger.refresh
  dsimp only
  rcases rel_cases (hsweep.find? htoken) with ⟨hnone, hnone'⟩ | ⟨a, b, ha, hb, hab⟩
  · rw [hnone, hnone']
    exact ⟨.error _, hsweep⟩
  · rw [ha, hb]
    dsimp only
    rw [hab.held, hab.details]
    split_ifs
    · exact ⟨.error _, hsweep⟩
    · exact ⟨.ok rfl, List.rel_map (fun _ _ hab => hab.refresh htoken hexpiry) hsweep⟩

theorem unlock (h : P.Ledgers l l') (hnow : P.instant now now')
    (htoken : P.presented token token') :
    SameResult Eq (l.unlock now token).1 (l'.unlock now' token').1 ∧
      P.Ledgers (l.unlock now token).2 (l'.unlock now' token').2 := by
  have hsweep := h.sweep hnow
  unfold Ledger.unlock
  dsimp only
  rcases rel_cases (hsweep.find? htoken) with ⟨hnone, hnone'⟩ | ⟨a, b, ha, hb, hab⟩
  · rw [hnone, hnone']
    exact ⟨.error _, hsweep⟩
  · rw [ha, hb]
    dsimp only
    rw [hab.held]
    split_ifs
    · exact ⟨.error _, hsweep⟩
    · refine ⟨.ok rfl, List.rel_filter (fun a b hab => ?_) hsweep⟩
      dsimp only
      rw [decide_eq_true_eq, decide_eq_true_eq, Ne, Ne, P.token_eq_iff hab.token htoken]

theorem delete (h : P.Ledgers l l') (hnow : P.instant now now') (name : String) :
    P.Ledgers (l.delete now name) (l'.delete now' name) := by
  refine List.rel_filter (fun a b hab => ?_) (h.sweep hnow)
  dsimp only
  rw [hab.root_eq]

theorem setHeld (h : P.Ledgers l l') (htokens : List.Forall₂ P.token tokens tokens')
    (held : Bool) : P.Ledgers (l.setHeld tokens held) (l'.setHeld tokens' held) :=
  List.rel_map (fun _ _ hab => hab.setHeld htokens held) h

theorem release (h : P.Ledgers l l') (htokens : List.Forall₂ P.token tokens tokens') :
    P.Ledgers (l.release tokens) (l'.release tokens') := h.setHeld htokens false

theorem confirm (h : P.Ledgers l l') (hnow : P.instant now now')
    (hconditions : P.Conditions conditions conditions') (name₀ name₁ : String) :
    SameResult (List.Forall₂ P.token) (l.confirm now name₀ name₁ conditions).1
        (l'.confirm now' name₀ name₁ conditions').1 ∧
      P.Ledgers (l.confirm now name₀ name₁ conditions).2
        (l'.confirm now' name₀ name₁ conditions').2 := by
  have hsweep := h.sweep hnow
  unfold Ledger.confirm
  dsimp only
  rcases rel_cases (hsweep.access hconditions name₀) with
    ⟨hnone, hnone'⟩ | ⟨tokens₀, tokens₀', h₀, h₀', htokens₀⟩
  · rw [hnone, hnone']
    exact ⟨.error _, hsweep⟩
  rcases rel_cases (hsweep.access hconditions name₁) with
    ⟨hnone, hnone'⟩ | ⟨tokens₁, tokens₁', h₁, h₁', htokens₁⟩
  · rw [hnone, hnone', h₀, h₀']
    exact ⟨.error _, hsweep⟩
  have hnew : List.Forall₂ P.token (tokens₁.filter fun token => token ∉ tokens₀)
      (tokens₁'.filter fun token => token ∉ tokens₀') := by
    refine List.rel_filter (fun a b hab => ?_) htokens₁
    dsimp only
    rw [decide_eq_true_eq, decide_eq_true_eq]
    exact not_congr (List.rel_mem P.biUnique_token hab htokens₀)
  have htokens := List.rel_append htokens₀ hnew
  rw [h₀, h₀', h₁, h₁']
  exact ⟨.ok htokens, hsweep.setHeld htokens true⟩

end Ledgers

/-- The same description of a lock, but for what corresponds. -/
structure Infos (P : Counterparts) (info info' : LockInfo) : Prop where
  token : P.token info.token info'.token
  expiry : Option.Rel P.instant info.expiry info'.expiry
  details : info.details = info'.details

theorem Ledgers.lockAt (h : P.Ledgers l l') (hnow : P.instant now now') (name : String) :
    SameResult P.Infos (l.lockAt now name).1 (l'.lockAt now' name).1 ∧
      P.Ledgers (l.lockAt now name).2 (l'.lockAt now' name).2 := by
  have hsweep := h.sweep hnow
  have hfind : Option.Rel P.Locks
      ((l.sweep now).locks.find? fun lock => lock.Covers (Path.clean name))
      ((l'.sweep now').locks.find? fun lock => lock.Covers (Path.clean name)) := by
    refine find?_rel hsweep fun hab => ?_
    rw [decide_eq_true_eq, decide_eq_true_eq, hab.covers_iff]
  unfold Ledger.lockAt
  dsimp only
  rcases rel_cases hfind with ⟨hnone, hnone'⟩ | ⟨a, b, ha, hb, hab⟩
  · rw [hnone, hnone']
    exact ⟨.error _, hsweep⟩
  · rw [ha, hb]
    exact ⟨.ok ⟨hab.token, hab.expiry, hab.details⟩, hsweep⟩

end Counterparts

end PathLock
