import PathLock.Proofs.Lock.Counterparts
import PathLock.Proofs.Replay.Ledger

/-!
# Scripts side by side

The same steps, at instants and with tokens that are counterparts, have the same outcomes, and
findings that are counterparts (`Counterparts.States.steps`). The names by which a script refers to
its locks stand for counterparts all along, those included that never became labels.

* `Counterparts.States`: states of two runs that correspond.
* `Counterparts.Suits`: the steps that are the same for both runs.
* `Counterparts.Findings`, `Counterparts.Reports`: what is found, and told of a step.
-/

namespace PathLock

open Replay

/-! ## What a script says -/

namespace Replay.Operation

/-- The names in an operation that stand for tokens. -/
def tokenNames : Operation → List String
  | .refresh token _ => [token]
  | .unlock token => [token]
  | .confirm _ tokens _ => tokens
  | _ => []

/-- The timeout that an operation has for a lock. -/
def timeout? (setting : Setting) : Operation → Option Timeout
  | .create _ timeout _ _ _ => (setting.timeoutOf timeout).toOption
  | .refresh _ timeout => (setting.timeoutOf timeout).toOption
  | _ => none

end Replay.Operation

/-- What is under a label on one side corresponds to what is under it on the other. -/
def SameEntries {α β : Type} (R : α → β → Prop) (entries : Std.TreeMap String α)
    (entries' : Std.TreeMap String β) : Prop :=
  ∀ label : String, Option.Rel R entries[label]? entries'[label]?

section Entries

variable {α β : Type} {R : α → β → Prop} {entries : Std.TreeMap String α}
  {entries' : Std.TreeMap String β} {a : α} {b : β}

theorem sameEntries_empty : SameEntries R ∅ ∅ := by
  intro label
  rw [Std.TreeMap.getElem?_emptyc, Std.TreeMap.getElem?_emptyc]
  exact .none

theorem SameEntries.insert (h : SameEntries R entries entries') (hab : R a b) (label : String) :
    SameEntries R (entries.insert label a) (entries'.insert label b) := by
  intro l
  rw [Std.TreeMap.getElem?_insert, Std.TreeMap.getElem?_insert]
  split_ifs
  · exact .some hab
  · exact h l

theorem SameEntries.erase (h : SameEntries R entries entries') (label : String) :
    SameEntries R (entries.erase label) (entries'.erase label) := by
  intro l
  rw [Std.TreeMap.getElem?_erase, Std.TreeMap.getElem?_erase]
  split_ifs
  · exact .none
  · exact h l

end Entries

theorem SameResult.of_map {α β γ δ : Type} {R : γ → δ → Prop} {f : α → γ} {g : β → δ}
    {a : Except LockError α} {b : Except LockError β} (h : SameResult R (a.map f) (b.map g)) :
    SameResult (fun a b => R (f a) (g b)) a b := by
  cases a with
  | ok a =>
    cases b with
    | ok b =>
      cases h with
      | ok h => exact .ok h
    | error e => nomatch h
  | error e =>
    cases b with
    | ok b => nomatch h
    | error e' =>
      cases h with
      | error => exact .error e

namespace Counterparts

variable {P : Counterparts} {seed seed' : UInt64} {n k : ℕ} {r r' : State} {l l' : Ledger}
  {t t' : LockTable} {now now' : Instant} {setting : Setting} {op : Operation}

/-! ## Counterparts in a run -/

/-- The tokens of two claims correspond one by one. -/
def Claims (P : Counterparts) (claim claim' : Claim) : Prop :=
  List.Forall₂ P.token claim.tokens claim'.tokens

/-- The same findings, but for what corresponds. -/
inductive Findings (P : Counterparts) : Finding → Finding → Prop
  | nothing : Findings P .nothing .nothing
  | token {a b : String} (h : P.token a b) : Findings P (.token a) (.token b)
  | claimed {tokens tokens' : List String} (h : List.Forall₂ P.token tokens tokens') :
      Findings P (.claimed tokens) (.claimed tokens')
  | details (details : Details) : Findings P (.details details) (.details details)
  | lock {info info' : LockInfo} (h : P.Infos info info') : Findings P (.lock info) (.lock info')

/-- The same reports, but for what corresponds. -/
structure Reports (P : Counterparts) (a b : Report) : Prop where
  number : a.number = b.number
  instant : P.instant a.instant b.instant
  operation : a.operation = b.operation
  expected : a.expected = b.expected
  result : SameResult P.Findings a.result b.result

theorem Reports.outcome_eq {a b : Report} (h : P.Reports a b) : a.outcome = b.outcome := by
  have hresult := h.result
  unfold Report.outcome
  generalize a.result = result at hresult ⊢
  generalize b.result = result' at hresult ⊢
  cases hresult <;> rfl

/-- The states of two runs correspond: their ledgers do, after as many creates that succeeded, and
what labels stand for does. -/
structure States (P : Counterparts) (seed seed' : UInt64) (n : ℕ) (r r' : State) : Prop where
  ledgers : ∃ i ≤ n, ∃ l l', r.Means seed i none l ∧ r'.Means seed' i none l' ∧ P.Ledgers l l'
  tokens : SameEntries P.token r.tokens r'.tokens
  claims : SameEntries P.Claims r.claims r'.claims

/-- Both runs end with the same error, or both go on with values and states that correspond. -/
def Continue (P : Counterparts) (seed seed' : UInt64) (n : ℕ) {α : Type} (R : α → α → Prop) :
    Except LockError (α × State) → Except LockError (α × State) → Prop :=
  SameResult fun x y => R x.1 y.1 ∧ P.States seed seed' n x.2 y.2

/-- The operation is the same at both instants. The timeout that it has for a lock ends at
counterparts, and what it refers to, if it is not by a label, is its own counterpart. -/
structure Suits (P : Counterparts) (setting : Setting) (now now' : Instant) (op : Operation) :
    Prop where
  instant : P.instant now now'
  expiry : ∀ timeout, op.timeout? setting = some timeout →
    Option.Rel P.instant (timeout.expiry now) (timeout.expiry now')
  presented : ∀ name ∈ op.tokenNames, P.presented name name

/-- The step comes at instants at which its operation is the same. -/
def SuitsFrom (P : Counterparts) (setting : Setting) (start start' : Instant) (step : Step) :
    Prop :=
  ∃ now now', step.offset.after? start = some now ∧ step.offset.after? start' = some now' ∧
    P.Suits setting now now' step.operation

theorem states_start (P : Counterparts) (seed seed' : UInt64) :
    P.States seed seed' 0 { table := .empty seed } { table := .empty seed' } where
  ledgers := ⟨0, Nat.le_refl 0, _, _, State.means_start seed, State.means_start seed', .nil⟩
  tokens := sameEntries_empty
  claims := sameEntries_empty

namespace States

theorem mono (h : P.States seed seed' n r r') {m : ℕ} (hle : n ≤ m) :
    P.States seed seed' m r r' := by
  obtain ⟨i, hi, hledgers⟩ := h.ledgers
  exact ⟨⟨i, hi.trans hle, hledgers⟩, h.tokens, h.claims⟩

/-! ## Names -/

theorem presented (h : P.States seed seed' n r r') {name : String}
    (hname : P.presented name name) : P.presented (r.token name) (r'.token name) := by
  unfold State.token
  rcases rel_cases (h.tokens name) with ⟨hnone, hnone'⟩ | ⟨a, b, ha, hb, hab⟩
  · rw [hnone, hnone']
    exact hname
  · rw [ha, hb]
    exact P.presented_of_token hab

theorem conditions (h : P.States seed seed' n r r') {names : List String}
    (hnames : ∀ name ∈ names, P.presented name name) :
    P.Conditions (names.map fun name => .ofToken (r.token name))
      (names.map fun name => .ofToken (r'.token name)) := by
  unfold Counterparts.Conditions
  rw [List.forall₂_map_left_iff, List.forall₂_map_right_iff, List.forall₂_same]
  exact fun name hname => h.presented (hnames name hname)

theorem labelToken (h : P.States seed seed' n r r') {token token' : String}
    (htoken : P.token token token') (label : Option String) :
    P.States seed seed' n (r.labelToken token label) (r'.labelToken token' label) := by
  obtain ⟨i, hi, l, l', hl, hl', hledgers⟩ := h.ledgers
  refine ⟨⟨i, hi, l, l', hl.labelToken token label, hl'.labelToken token' label, hledgers⟩, ?_, ?_⟩
  · cases label with
    | none => exact h.tokens
    | some label => exact h.tokens.insert htoken label
  · cases label <;> exact h.claims

/-! ## Calls -/

/-- The next tokens are counterparts, whether they are taken or not. -/
theorem create_table (h : P.States seed seed' n r r') (hn : n < UInt64.size)
    (hnext : ∀ k ≤ n, P.token (issued seed (k + 1)) (issued seed' (k + 1)))
    (hnow : P.instant now now') (details : Details)
    (hexpiry : Option.Rel P.instant (details.duration.expiry now) (details.duration.expiry now')) :
    SameResult P.token (r.table.create now details).1 (r'.table.create now' details).1 ∧
      P.States seed seed' (n + 1) { r with table := (r.table.create now details).2 }
        { r' with table := (r'.table.create now' details).2 } := by
  obtain ⟨⟨k, hk, l, l', hl, hl', hledgers⟩, htokens, hclaims⟩ := h
  have htoken : P.token (Registry.tokenText (l.counter + 1))
      (Registry.tokenText (l'.counter + 1)) := by
    rw [hl.next_token, hl'.next_token]
    exact hnext k hk
  obtain ⟨hanswer, hcreated⟩ := hledgers.create hnow hexpiry htoken
  rw [← (hl.represents.create now details).1, ← (hl'.represents.create now' details).1] at hanswer
  refine ⟨hanswer, ?_, htokens, hclaims⟩
  obtain ⟨result, t, hcreate⟩ : ∃ result t, r.table.create now details = (result, t) := ⟨_, _, rfl⟩
  obtain ⟨result', t', hcreate'⟩ : ∃ result t, r'.table.create now' details = (result, t) :=
    ⟨_, _, rfl⟩
  have hlt := hk.trans_lt hn
  rw [hcreate, hcreate'] at hanswer ⊢
  cases hanswer with
  | ok _ =>
    exact ⟨k + 1, Nat.succ_le_succ hk, _, _, hl.create_ok hlt hcreate, hl'.create_ok hlt hcreate',
      hcreated⟩
  | error e =>
    exact ⟨k, hk.trans (Nat.le_succ n), _, _, hl.create_error hlt.le hcreate,
      hl'.create_error hlt.le hcreate', hcreated⟩

theorem create (h : P.States seed seed' n r r') (hn : n < UInt64.size)
    (hnext : ∀ k ≤ n, P.token (issued seed (k + 1)) (issued seed' (k + 1))) {root : String}
    {timeout : Option String} {zeroDepth : Bool} {owner label : Option String}
    (hsuits : P.Suits setting now now' (.create root timeout zeroDepth owner label)) (i : ℕ) :
    P.Continue seed seed' (n + 1) (SameResult P.Findings)
      (r.perform setting i now (.create root timeout zeroDepth owner label))
      (r'.perform setting i now' (.create root timeout zeroDepth owner label)) := by
  have hexpiry := hsuits.expiry
  dsimp only [Operation.timeout?] at hexpiry
  unfold State.perform
  dsimp only
  cases htimeout : setting.timeoutOf timeout with
  | error e => exact .ok ⟨.error e, h.mono (Nat.le_succ n)⟩
  | ok duration =>
    rw [htimeout] at hexpiry
    obtain ⟨hanswer, hstates⟩ := h.create_table hn hnext hsuits.instant
      { root, duration, ownerXml := owner.getD setting.ownerXml, zeroDepth } (hexpiry duration rfl)
    dsimp only
    generalize r.table.create now _ = created at hanswer hstates ⊢
    generalize r'.table.create now' _ = created' at hanswer hstates ⊢
    obtain ⟨result, t⟩ := created
    obtain ⟨result', t'⟩ := created'
    cases hanswer with
    | ok htoken => exact .ok ⟨.ok (.token htoken), hstates.labelToken htoken label⟩
    | error e => exact .ok ⟨.error e, hstates⟩

theorem refresh (h : P.States seed seed' n r r') (hn : n ≤ UInt64.size) {name : String}
    {timeout : Option String} (hsuits : P.Suits setting now now' (.refresh name timeout)) (i : ℕ) :
    P.Continue seed seed' n (SameResult P.Findings)
      (r.perform setting i now (.refresh name timeout))
      (r'.perform setting i now' (.refresh name timeout)) := by
  have hname := h.presented (hsuits.presented name (List.mem_singleton_self name))
  have hexpiry := hsuits.expiry
  dsimp only [Operation.timeout?] at hexpiry
  unfold State.perform
  dsimp only
  cases htimeout : setting.timeoutOf timeout with
  | error e => exact .ok ⟨.error e, h⟩
  | ok duration =>
    rw [htimeout] at hexpiry
    obtain ⟨⟨k, hk, l, l', hl, hl', hledgers⟩, htokens, hclaims⟩ := h
    have hle := hk.trans hn
    obtain ⟨hanswer, hnext⟩ := hledgers.refresh hsuits.instant hname (hexpiry duration rfl)
    rw [← (hl.represents.refresh now _ duration).1, ← (hl'.represents.refresh now' _ duration).1]
      at hanswer
    refine .ok ⟨hanswer.map ?_, ⟨k, hk, _, _, hl.refresh hle now _ duration,
      hl'.refresh hle now' _ duration, hnext⟩, htokens, hclaims⟩
    rintro details _ rfl
    exact .details details

theorem unlock (h : P.States seed seed' n r r') (hn : n ≤ UInt64.size) {name : String}
    (hsuits : P.Suits setting now now' (.unlock name)) (i : ℕ) :
    P.Continue seed seed' n (SameResult P.Findings) (r.perform setting i now (.unlock name))
      (r'.perform setting i now' (.unlock name)) := by
  have hname := h.presented (hsuits.presented name (List.mem_singleton_self name))
  obtain ⟨⟨k, hk, l, l', hl, hl', hledgers⟩, htokens, hclaims⟩ := h
  have hle := hk.trans hn
  obtain ⟨hanswer, hnext⟩ := hledgers.unlock hsuits.instant hname
  rw [← (hl.represents.unlock now _).1, ← (hl'.represents.unlock now' _).1] at hanswer
  exact .ok ⟨hanswer.map fun _ => .nothing, ⟨k, hk, _, _, hl.unlock hle now _,
    hl'.unlock hle now' _, hnext⟩, htokens, hclaims⟩

theorem lookup (h : P.States seed seed' n r r') (hn : n ≤ UInt64.size) {name : String}
    (hsuits : P.Suits setting now now' (.lookup name)) (i : ℕ) :
    P.Continue seed seed' n (SameResult P.Findings) (r.perform setting i now (.lookup name))
      (r'.perform setting i now' (.lookup name)) := by
  obtain ⟨⟨k, hk, l, l', hl, hl', hledgers⟩, htokens, hclaims⟩ := h
  have hle := hk.trans hn
  obtain ⟨hanswer, hnext⟩ := hledgers.lockAt hsuits.instant name
  rw [← (hl.represents.lockAt hl.exclusive now name).1,
    ← (hl'.represents.lockAt hl'.exclusive now' name).1] at hanswer
  exact .ok ⟨hanswer.map .lock, ⟨k, hk, _, _, hl.lockAt hle now name,
    hl'.lockAt hle now' name, hnext⟩, htokens, hclaims⟩

theorem delete (h : P.States seed seed' n r r') (hn : n ≤ UInt64.size) {name : String}
    (hsuits : P.Suits setting now now' (.delete name)) (i : ℕ) :
    P.Continue seed seed' n (SameResult P.Findings) (r.perform setting i now (.delete name))
      (r'.perform setting i now' (.delete name)) := by
  obtain ⟨⟨k, hk, l, l', hl, hl', hledgers⟩, htokens, hclaims⟩ := h
  have hle := hk.trans hn
  exact .ok ⟨.ok .nothing, ⟨k, hk, _, _, hl.delete hle now name, hl'.delete hle now' name,
    hledgers.delete hsuits.instant name⟩, htokens, hclaims⟩

/-! ## Claims -/

theorem sameEntries_claimsWith (h : SameEntries P.Claims r.claims r'.claims) {claim claim' : Claim}
    (hclaim : P.Claims claim claim') (label : Option String) :
    SameEntries P.Claims (r.claimsWith claim label) (r'.claimsWith claim' label) := by
  cases label with
  | none => exact h
  | some label => exact h.insert hclaim label

theorem forall₂_droppedTokens (h : SameEntries P.Claims r.claims r'.claims) {claim claim' : Claim}
    (hclaim : P.Claims claim claim') (label : Option String) :
    List.Forall₂ P.token (r.droppedTokens claim label) (r'.droppedTokens claim' label) := by
  cases label with
  | none => exact hclaim
  | some label =>
    unfold State.droppedTokens
    dsimp only
    rcases rel_cases (h label) with ⟨hnone, hnone'⟩ | ⟨old, old', hold, hold', hclaims⟩
    · rw [hnone, hnone']
      exact .nil
    · rw [hold, hold']
      exact hclaims

/-- What both runs claim is kept, under the same label or without one. -/
theorem keep {claim claim' : Claim} (hk : k ≤ n) (hn : n ≤ UInt64.size)
    (hl : r.Means seed k (some claim) l) (hl' : r'.Means seed' k (some claim') l')
    (hledgers : P.Ledgers l l') (htokens : SameEntries P.token r.tokens r'.tokens)
    (hclaims : SameEntries P.Claims r.claims r'.claims) (hclaim : P.Claims claim claim')
    (label : Option String) :
    SameResult (P.States seed seed' n) (r.keep claim label) (r'.keep claim' label) := by
  obtain ⟨t, hkeep, hkept⟩ := hl.keep (hk.trans hn) label
  obtain ⟨t', hkeep', hkept'⟩ := hl'.keep (hk.trans hn) label
  rw [hkeep, hkeep']
  exact .ok ⟨⟨k, hk, _, _, hkept, hkept', hledgers.release (forall₂_droppedTokens hclaims hclaim label)⟩,
    htokens, sameEntries_claimsWith hclaims hclaim label⟩

theorem confirm (h : P.States seed seed' n r r') (hn : n ≤ UInt64.size)
    {names tokens : List String} {label : Option String}
    (hsuits : P.Suits setting now now' (.confirm names tokens label)) (i : ℕ) :
    P.Continue seed seed' n (SameResult P.Findings)
      (r.perform setting i now (.confirm names tokens label))
      (r'.perform setting i now' (.confirm names tokens label)) := by
  have hconditions := h.conditions hsuits.presented
  unfold State.perform
  dsimp only [Operation.tokenNames] at hconditions ⊢
  generalize (tokens.map fun name => Condition.ofToken (r.token name)) = conditions at hconditions ⊢
  generalize (tokens.map fun name => Condition.ofToken (r'.token name)) = conditions'
    at hconditions ⊢
  generalize names[0]?.getD "" = name₀
  generalize names[1]?.getD "" = name₁
  by_cases hmany : 2 < names.length
  · rw [if_pos hmany, if_pos hmany]
    exact .error _
  rw [if_neg hmany, if_neg hmany]
  obtain ⟨⟨k, hk, l, l', hl, hl', hledgers⟩, htokens, hclaims⟩ := h
  have hle := hk.trans hn
  obtain ⟨hanswer, hnext⟩ := hledgers.confirm hsuits.instant hconditions name₀ name₁
  rw [← hl.represents.confirm_tokens, ← hl'.represents.confirm_tokens] at hanswer
  obtain ⟨result, t, hconfirm⟩ : ∃ result t,
    r.table.confirm now name₀ name₁ conditions = (result, t) := ⟨_, _, rfl⟩
  obtain ⟨result', t', hconfirm'⟩ : ∃ result t,
    r'.table.confirm now' name₀ name₁ conditions' = (result, t) := ⟨_, _, rfl⟩
  rw [hconfirm, hconfirm'] at hanswer ⊢
  cases hanswer.of_map with
  | ok hclaim =>
    have hkept := keep hk hn (hl.confirm_ok hle hconfirm) (hl'.confirm_ok hle hconfirm') hnext
      htokens hclaims hclaim label
    exact hkept.bind fun hstates => .ok ⟨.ok (.claimed hclaim), hstates⟩
  | error e =>
    exact .ok ⟨.error e, ⟨k, hk, _, _, hl.confirm_error hle hconfirm,
      hl'.confirm_error hle hconfirm', hnext⟩, htokens, hclaims⟩

theorem release (h : P.States seed seed' n r r') (hn : n ≤ UInt64.size) (label : String) (i : ℕ)
    (now now' : Instant) :
    P.Continue seed seed' n (SameResult P.Findings) (r.perform setting i now (.release label))
      (r'.perform setting i now' (.release label)) := by
  unfold State.perform
  dsimp only
  rcases rel_cases (h.claims label) with ⟨hnone, hnone'⟩ | ⟨claim, claim', hold, hold', hclaim⟩
  · rw [hnone, hnone']
    exact .error _
  · obtain ⟨⟨k, hk, l, l', hl, hl', hledgers⟩, htokens, hclaims⟩ := h
    obtain ⟨t, hrelease, hmeans⟩ := (hl.erase hold).release (hk.trans hn)
    obtain ⟨t', hrelease', hmeans'⟩ := (hl'.erase hold').release (hk.trans hn)
    rw [hold, hold']
    dsimp only
    rw [hrelease, hrelease']
    exact .ok ⟨.ok .nothing, ⟨k, hk, _, _, hmeans, hmeans', hledgers.release hclaim⟩, htokens,
      hclaims.erase label⟩

/-! ## Operations and steps -/

/-- One operation, performed in both runs. -/
theorem perform (h : P.States seed seed' n r r') (hn : n + op.isCreate.toNat ≤ UInt64.size)
    (hnext : ∀ k < n + op.isCreate.toNat, P.token (issued seed (k + 1)) (issued seed' (k + 1)))
    (hsuits : P.Suits setting now now' op) (i : ℕ) :
    P.Continue seed seed' (n + op.isCreate.toNat) (SameResult P.Findings)
      (r.perform setting i now op) (r'.perform setting i now' op) := by
  cases op with
  | create root timeout zeroDepth owner label =>
    exact h.create hn (fun k hk => hnext k (Nat.lt_succ_of_le hk)) hsuits i
  | refresh name timeout => exact h.refresh hn hsuits i
  | unlock name => exact h.unlock hn hsuits i
  | confirm names tokens label => exact h.confirm hn hsuits i
  | release label => exact h.release hn label i now now'
  | lookup name => exact h.lookup hn hsuits i
  | delete name => exact h.delete hn hsuits i

variable {start start' : Instant} {N : ℕ}

theorem step (h : P.States seed seed' n r r') {step : Step}
    (hn : n + step.operation.isCreate.toNat ≤ UInt64.size)
    (hnext : ∀ k < n + step.operation.isCreate.toNat,
      P.token (issued seed (k + 1)) (issued seed' (k + 1)))
    (hsuits : P.SuitsFrom setting start start' step) (i : ℕ) :
    P.Continue seed seed' (n + step.operation.isCreate.toNat) P.Reports
      (r.step { setting with start := start } i step)
      (r'.step { setting with start := start' } i step) := by
  obtain ⟨now, now', hnow, hnow', hsuits⟩ := hsuits
  unfold State.step
  dsimp only
  rw [hnow, hnow']
  refine (h.perform hn hnext hsuits i).bind fun hperform => ?_
  exact .ok ⟨⟨rfl, hsuits.instant, rfl, rfl, hperform.1⟩, hperform.2⟩

/-- All steps, run from both starts. -/
theorem steps (h : P.States seed seed' n r r') {steps : List Step}
    (hn : n + creates steps ≤ N) (hN : N ≤ UInt64.size)
    (hnext : ∀ k < N, P.token (issued seed (k + 1)) (issued seed' (k + 1)))
    (hsuits : ∀ step ∈ steps, P.SuitsFrom setting start start' step) (i : ℕ) :
    P.Continue seed seed' (n + creates steps) (List.Forall₂ P.Reports)
      (r.steps { setting with start := start } i steps)
      (r'.steps { setting with start := start' } i steps) := by
  induction steps generalizing r r' n i with
  | nil => exact .ok ⟨.nil, h⟩
  | cons step steps ih =>
    rw [creates_cons, ← Nat.add_assoc] at hn ⊢
    obtain ⟨hfirst, hrest⟩ := List.forall_mem_cons.1 hsuits
    have hle := Nat.le_of_add_right_le hn
    unfold State.steps
    refine (h.step (hle.trans hN) (fun k hk => hnext k (hk.trans_le hle)) hfirst i).bind
      fun hstep => ?_
    refine (ih hstep.2 hn hrest (i + 1)).bind fun hsteps => ?_
    exact .ok ⟨.cons hstep.1 hsteps.1, hsteps.2⟩

end States

end Counterparts

end PathLock
