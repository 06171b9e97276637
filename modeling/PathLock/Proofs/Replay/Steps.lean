import PathLock.Proofs.Replay.Sessions

/-!
# What steps do

An operation that is not mistaken is performed, and what is held is claimed again after it
(`State.Tracked.perform`). Steps in a row are all performed, or those before the first one that is
mistaken (`State.Tracked.steps_or_mistaken`).

* `Operation.Mistaken`, `Step.Mistaken`: the steps that end a run.
* `State.Confirms`: what a confirm leaves, by its label and its result.
-/

namespace PathLock.Replay

/-- Whether the operation is a create. -/
def Operation.isCreate : Operation → Bool
  | .create .. => true
  | _ => false

/-- The operation claims more than two names, or releases a claim that is not outstanding. -/
def Operation.Mistaken (r : State) : Operation → Prop
  | .confirm names _ _ => 2 < names.length
  | .release label => r.claims[label]? = none
  | _ => False

/-- The step is out of the range of instants, or its operation is mistaken. -/
def Step.Mistaken (step : Step) (start : Instant) (r : State) : Prop :=
  step.offset.after? start = none ∨ step.operation.Mistaken r

/-- The number of creates in a list of steps. -/
def creates (steps : List Step) : ℕ := steps.countP (·.operation.isCreate)

theorem creates_cons (step : Step) (steps : List Step) :
    creates (step :: steps) = step.operation.isCreate.toNat + creates steps := by
  unfold creates
  rw [List.countP_cons, Nat.add_comm]
  cases step.operation.isCreate <;> rfl

theorem creates_mono {done steps : List Step} (h : done <+: steps) :
    creates done ≤ creates steps := h.sublist.countP_le

theorem Outcome.ofError_ne_internal {e : LockError} (h : e ∈ LockError.refusals) :
    ofError e ≠ internal := by
  simp only [LockError.refusals, List.mem_cons, List.not_mem_nil, or_false] at h
  rcases h with rfl | rfl | rfl <;> decide

theorem Setting.ofError_ne_internal {setting : Setting} {header : Option String} {e : LockError}
    (h : setting.timeoutOf header = .error e) : Outcome.ofError e ≠ .internal := by
  cases header with
  | none => exact absurd h (by simp [timeoutOf])
  | some header =>
    unfold timeoutOf Timeout.parse at h
    dsimp only at h
    split at h
    · exact absurd h (by simp)
    · rw [← Except.error.inj h]
      exact Outcome.noConfusion

namespace State

variable {r r' : State} {s : Session} {m : Ledger.Session} {seed : UInt64} {n i : ℕ}
  {number : String → ℕ} {claim : Claim} {k : ℕ} {t : LockTable} {op : Operation}

/-- From `r` to `r'`, a confirm with or without a label has this result. -/
inductive Confirms (r r' : State) : Option String → Except LockError Finding → Prop
  /-- A confirm that fails leaves every claim in place, with the locks that it holds. -/
  | failed {label : Option String} {e : LockError} (hclaims : r'.claims = r.claims)
      (hheld : ∀ lock ∈ r.table.locks, lock.held = true → lock ∈ r'.table.locks) :
      Confirms r r' label (.error e)
  /-- A claim without a label is released at once. -/
  | released {claim : Claim} (hclaims : r'.claims = r.claims)
      (hfree : ∀ token ∈ claim.tokens,
        ∃ lock ∈ r'.table.locks, lock.token = token ∧ lock.held = false) :
      Confirms r r' none (.ok (.claimed claim.tokens))
  /-- A claim with a label is kept under it, and the one it replaces is released. -/
  | kept {label : String} {claim : Claim} (hclaims : r'.claims = r.claims.insert label claim)
      (hheld : ∀ token ∈ claim.tokens,
        ∃ lock ∈ r'.table.locks, lock.token = token ∧ lock.held = true)
      (hreplaced : ∀ old, r.claims[label]? = some old →
        ∀ lock ∈ r'.table.locks, lock.token ∈ old.tokens → lock.held = false) :
      Confirms r r' (some label) (.ok (.claimed claim.tokens))

theorem HoldsClaimed.held_of_claim {label token : String} (h : r.HoldsClaimed)
    (hlabel : r.claims[label]? = some claim) (ht : token ∈ claim.tokens)
    (hthere : ∃ lock ∈ r.table.locks, lock.token = token) :
    ∃ lock ∈ r.table.locks, lock.token = token ∧ lock.held = true := by
  obtain ⟨lock, hl, rfl⟩ := hthere
  exact ⟨lock, hl, rfl, (h.held_iff lock hl).2 ⟨label, claim, hlabel, ht⟩⟩

/-! ## Operations -/

/-- What can be said of an operation that was performed. -/
structure Performed (seed : UInt64) (n : ℕ) (r : State) (op : Operation)
    (result : Except LockError Finding) (r' : State) : Prop where
  tracked : r'.Tracked seed n
  outcome : ∀ e, result = .error e → Outcome.ofError e ≠ .internal
  confirms : ∀ names tokens label, op = .confirm names tokens label → r.Confirms r' label result

/-- The operation does not end the run. -/
def Performs (seed : UInt64) (n : ℕ) (r : State) (setting : Setting) (i : ℕ) (now : Instant)
    (op : Operation) : Prop :=
  ∃ result r', r.perform setting i now op = .ok (result, r') ∧ Performed seed n r op result r'

theorem Performs.mono {setting : Setting} {i n' : ℕ} {now : Instant}
    (h : r.Performs seed n setting i now op) (hle : n ≤ n') :
    r.Performs seed n' setting i now op := by
  obtain ⟨result, r', hresult, hperformed⟩ := h
  exact ⟨result, r', hresult, hperformed.tracked.mono hle, hperformed.outcome, hperformed.confirms⟩

/-- A call that makes no lock and no claim. -/
theorem Follows.next (h : r.Follows seed n number none s m) (hn : n ≤ UInt64.size) {call : Call}
    {answer : Answer} (hstep : s.step call = (answer, { s with table := t }))
    (hanswer : answer.isToken = false) :
    Follows { r with table := t } seed n number none { s with table := t } (m.step call).2 :=
  ⟨(h.tracks.step_eq hn hstep hanswer).2, rfl, h.labels⟩

theorem isToken_ofResult {α : Type} {f : α → Answer} (hf : ∀ a, (f a).isToken = false)
    (result : Except LockError α) : (Answer.ofResult f result).isToken = false := by
  cases result with
  | ok a => exact hf a
  | error e => rfl

/-- What such a call is answered breaks no rule. -/
theorem Follows.call (h : r.Follows seed n number none s m) (hn : n ≤ UInt64.size) {α : Type}
    {call : Call} {f : α → Answer} {result : Except LockError α}
    (hstep : s.step call = (.ofResult f result, { s with table := t }))
    (hf : ∀ a, (f a).isToken = false) (g : α → Finding) :
    Tracked seed n { r with table := t } ∧
      ∀ e, result.map g = .error e → Outcome.ofError e ≠ .internal := by
  have hnext := h.next hn hstep (isToken_ofResult hf result)
  refine ⟨⟨n, Nat.le_refl n, number, _, _, hnext⟩, fun e he => ?_⟩
  cases result with
  | ok a => exact absurd he (by simp [Except.map])
  | error e' =>
    rw [← Except.error.inj he]
    exact Outcome.ofError_ne_internal (h.tracks.refusal hn hstep)

theorem keep_unlabelled {r r' : State} (hrelease : r.release claim = (.ok (), r')) :
    r.keep claim none = .ok r' := by
  unfold State.keep
  dsimp only
  rw [hrelease]

theorem keep_of_new {r : State} {label : String} (hlabel : r.claims[label]? = none) :
    r.keep claim (some label) = .ok { r with claims := r.claims.insert label claim } := by
  unfold State.keep
  dsimp only
  rw [hlabel]

theorem keep_of_taken {r r' : State} {label : String} {old : Claim}
    (hlabel : r.claims[label]? = some old)
    (hrelease : { r with claims := r.claims.insert label claim }.release old = (.ok (), r')) :
    r.keep claim (some label) = .ok r' := by
  unfold State.keep
  dsimp only
  rw [hlabel]
  dsimp only
  rw [hrelease]

/-- A claim that was just made is released if it has no label. -/
theorem Follows.keep_none (h : Follows { r with table := t } seed n number (some (k, claim)) s m)
    (hn : n ≤ UInt64.size)
    (hthere : ∀ token ∈ claim.tokens, ∃ lock ∈ t.locks, lock.token = token) :
    ∃ r', { r with table := t }.keep claim none = .ok r' ∧
      r'.Tracked seed n ∧ r.Confirms r' none (.ok (.claimed claim.tokens)) := by
  obtain ⟨r', hrelease, hdrops, htracked⟩ := h.release hn
  refine ⟨r', keep_unlabelled hrelease, htracked, .released hdrops.claims fun token ht => ?_⟩
  obtain ⟨lock, hl, rfl⟩ := hthere token ht
  obtain ⟨k, hk, htoken⟩ := hdrops.stays lock hl
  exact ⟨k, hk, htoken, hdrops.free k hk (htoken ▸ ht)⟩

/-- Otherwise it is kept, and the claim that had the label is released. -/
theorem Follows.keep_some (h : Follows { r with table := t } seed n number (some (k, claim)) s m)
    (hn : n ≤ UInt64.size) (hthere : ∀ token ∈ claim.tokens, ∃ lock ∈ t.locks, lock.token = token)
    (label : String) : ∃ r', { r with table := t }.keep claim (some label) = .ok r' ∧
      r'.Tracked seed n ∧ r.Confirms r' (some label) (.ok (.claimed claim.tokens)) := by
  have hlabels := h.labels.insert label
  have hself : (r.claims.insert label claim)[label]? = some claim :=
    getElem?_insert_iff.2 (.inl ⟨rfl, rfl⟩)
  cases hold : r.claims[label]? with
  | none =>
    rw [hold] at hlabels
    have htracked : Tracked seed n { r with table := t, claims := r.claims.insert label claim } :=
      ⟨n, Nat.le_refl n, _, s, m, h.tracks, h.table, hlabels⟩
    refine ⟨_, keep_of_new hold, htracked, .kept rfl (fun token ht => ?_) fun old hsome => ?_⟩
    · exact htracked.holdsClaimed.held_of_claim hself ht (hthere token ht)
    · rw [hold] at hsome
      exact absurd hsome (by simp)
  -- The new claim has the label before the old one is released, and no lock in common with it.
  | some old =>
    rw [hold] at hlabels
    have hfollows : Follows { r with table := t, claims := r.claims.insert label claim } seed n _
      (some (number label, old)) s m := ⟨h.tracks, h.table, hlabels⟩
    obtain ⟨r', hrelease, hdrops, htracked⟩ := hfollows.release hn
    refine ⟨r', keep_of_taken hold hrelease, htracked,
      .kept hdrops.claims (fun token ht => ?_) fun old' hsome => ?_⟩
    · obtain ⟨lock, hl, rfl⟩ := hthere token ht
      have hlabel : r'.claims[label]? = some claim := by rwa [hdrops.claims]
      exact htracked.holdsClaimed.held_of_claim hlabel ht (hdrops.stays lock hl)
    · rw [hold] at hsome
      obtain rfl := Option.some.inj hsome
      exact hdrops.free

theorem Follows.keep (h : Follows { r with table := t } seed n number (some (k, claim)) s m)
    (hn : n ≤ UInt64.size) (hthere : ∀ token ∈ claim.tokens, ∃ lock ∈ t.locks, lock.token = token)
    (label : Option String) : ∃ r', { r with table := t }.keep claim label = .ok r' ∧
      r'.Tracked seed n ∧ r.Confirms r' label (.ok (.claimed claim.tokens)) := by
  cases label with
  | none => exact h.keep_none hn hthere
  | some label => exact h.keep_some hn hthere label

/-- What tokens are called is of no matter. -/
theorem Tracked.labelToken (h : r.Tracked seed n) (token : String) (label : Option String) :
    (r.labelToken token label).Tracked seed n := by
  obtain ⟨i, hi, number, s, m, hfollows⟩ := h
  cases label with
  | none => exact ⟨i, hi, number, s, m, hfollows⟩
  | some label =>
    exact ⟨i, hi, number, s, m, hfollows.tracks, hfollows.table, hfollows.labels⟩

/-- A create answers as it does on the ledger, whether it succeeds or not. -/
theorem Follows.create_ledger (h : r.Follows seed n number none s m) (hn : n + 1 ≤ UInt64.size)
    (now : Instant) (details : Details) :
    (r.table.create now details).1 = (m.ledger.create now details).1 ∧
      ∃ i ≤ n + 1, Follows { r with table := (r.table.create now details).2 } seed i number none
        { s with table := (r.table.create now details).2 }
        { m with ledger := (m.ledger.create now details).2 } := by
  have hcreated : created [(s.step (.create now details)).1] ≤ 1 := List.countP_le_length
  have hle : n + created [(s.step (.create now details)).1] ≤ UInt64.size := by omega
  have hanswer := (h.tracks.refines.represents.create now details).1
  have hnext := (h.tracks.step hle).2
  have hstep : (s.step (.create now details)).2 =
      { s with table := (r.table.create now details).2 } := by rw [← h.table]; rfl
  rw [h.table] at hanswer
  rw [hstep] at hnext
  exact ⟨hanswer, _, Nat.add_le_add_left hcreated n, hnext, rfl, h.labels⟩

theorem Follows.create (h : r.Follows seed n number none s m) (hn : n + 1 ≤ UInt64.size)
    (now : Instant) (details : Details) :
    Tracked seed (n + 1) { r with table := (r.table.create now details).2 } ∧
      ∀ e, (r.table.create now details).1 = .error e → Outcome.ofError e ≠ .internal := by
  obtain ⟨hanswer, i, hi, hnext⟩ := h.create_ledger hn now details
  refine ⟨⟨i, hi, number, _, _, hnext⟩, fun e he => ?_⟩
  rw [hanswer] at he
  exact Outcome.ofError_ne_internal (Ledger.refusal_of_create he)

theorem Follows.perform_create (h : r.Follows seed n number none s m) (hn : n + 1 ≤ UInt64.size)
    (setting : Setting) (i : ℕ) (now : Instant) (root : String) (timeout : Option String)
    (zeroDepth : Bool) (owner label : Option String) :
    r.Performs seed (n + 1) setting i now (.create root timeout zeroDepth owner label) := by
  unfold Performs perform
  dsimp only
  cases htimeout : setting.timeoutOf timeout with
  | error e =>
    refine ⟨_, _, rfl, ⟨n, Nat.le_succ n, number, s, m, h⟩, ?_, by rintro _ _ _ ⟨⟩⟩
    rintro _ ⟨⟩
    exact Setting.ofError_ne_internal htimeout
  | ok duration =>
    dsimp only
    obtain ⟨htracked, houtcome⟩ := h.create hn now
      { root, duration, ownerXml := owner.getD setting.ownerXml, zeroDepth }
    split
    · rename_i token t hcreate
      rw [hcreate] at htracked
      refine ⟨_, _, rfl, htracked.labelToken token label, ?_, by rintro _ _ _ ⟨⟩⟩
      rintro _ ⟨⟩
    · rename_i e t hcreate
      rw [hcreate] at htracked houtcome
      refine ⟨_, _, rfl, htracked, ?_, by rintro _ _ _ ⟨⟩⟩
      rintro _ ⟨⟩
      exact houtcome e rfl

theorem Follows.perform_refresh (h : r.Follows seed n number none s m) (hn : n ≤ UInt64.size)
    (setting : Setting) (i : ℕ) (now : Instant) (name : String) (timeout : Option String) :
    r.Performs seed n setting i now (.refresh name timeout) := by
  unfold Performs perform
  dsimp only
  cases htimeout : setting.timeoutOf timeout with
  | error e =>
    refine ⟨_, _, rfl, ⟨n, Nat.le_refl n, number, s, m, h⟩, ?_, by rintro _ _ _ ⟨⟩⟩
    rintro _ ⟨⟩
    exact Setting.ofError_ne_internal htimeout
  | ok duration =>
    have hstep : s.step (.refresh now (r.token name) duration) =
        (.ofResult .details (r.table.refresh now (r.token name) duration).1,
          { s with table := (r.table.refresh now (r.token name) duration).2 }) := by
      rw [← h.table]
      rfl
    obtain ⟨htracked, houtcome⟩ := h.call hn hstep (fun _ => rfl) .details
    exact ⟨_, _, rfl, htracked, houtcome, by rintro _ _ _ ⟨⟩⟩

theorem Follows.perform_unlock (h : r.Follows seed n number none s m) (hn : n ≤ UInt64.size)
    (setting : Setting) (i : ℕ) (now : Instant) (name : String) :
    r.Performs seed n setting i now (.unlock name) := by
  have hstep : s.step (.unlock now (r.token name)) =
      (.ofResult (fun _ => .done) (r.table.unlock now (r.token name)).1,
        { s with table := (r.table.unlock now (r.token name)).2 }) := by
    rw [← h.table]
    rfl
  obtain ⟨htracked, houtcome⟩ := h.call hn hstep (fun _ => rfl) fun _ => .nothing
  exact ⟨_, _, rfl, htracked, houtcome, by rintro _ _ _ ⟨⟩⟩

theorem Follows.perform_lookup (h : r.Follows seed n number none s m) (hn : n ≤ UInt64.size)
    (setting : Setting) (i : ℕ) (now : Instant) (name : String) :
    r.Performs seed n setting i now (.lookup name) := by
  have hstep : s.step (.lockAt now name) = (.ofResult .lock (r.table.lockAt now name).1,
      { s with table := (r.table.lockAt now name).2 }) := by
    rw [← h.table]
    rfl
  obtain ⟨htracked, houtcome⟩ := h.call hn hstep (fun _ => rfl) .lock
  exact ⟨_, _, rfl, htracked, houtcome, by rintro _ _ _ ⟨⟩⟩

theorem Follows.perform_delete (h : r.Follows seed n number none s m) (hn : n ≤ UInt64.size)
    (setting : Setting) (i : ℕ) (now : Instant) (name : String) :
    r.Performs seed n setting i now (.delete name) := by
  have hstep : s.step (.delete now name) = (.ofResult (fun _ : Unit => .done) (.ok ()),
      { s with table := r.table.delete now name }) := by
    rw [← h.table]
    rfl
  obtain ⟨htracked, _⟩ := h.call hn hstep (fun _ => rfl) fun _ => .nothing
  exact ⟨_, _, rfl, htracked, by rintro _ ⟨⟩, by rintro _ _ _ ⟨⟩⟩

theorem Follows.perform_confirm (h : r.Follows seed n number none s m) (hn : n ≤ UInt64.size)
    (setting : Setting) (i : ℕ) (now : Instant) {names : List String} (tokens : List String)
    (label : Option String) (hnames : ¬ 2 < names.length) :
    r.Performs seed n setting i now (.confirm names tokens label) := by
  unfold Performs perform
  dsimp only
  rw [if_neg hnames]
  split
  · rename_i claim t hconfirm
    rw [← h.table] at hconfirm
    obtain ⟨hnext, hthere⟩ := h.tracks.confirm_ok hn hconfirm
    have hfollows : Follows { r with table := t } seed n number (some (s.claimsMade, claim)) _ _ :=
      ⟨hnext, rfl, h.labels.add (fun _ he => h.tracks.number_lt he) claim⟩
    obtain ⟨r', hkeep, htracked, hconfirms⟩ := hfollows.keep hn hthere label
    rw [hkeep]
    refine ⟨_, r', rfl, htracked, ?_, ?_⟩
    · rintro _ ⟨⟩
    · rintro _ _ _ ⟨⟩
      exact hconfirms
  · rename_i e t hconfirm
    rw [← h.table] at hconfirm
    obtain ⟨hnext, hrefusal, hheld⟩ := h.tracks.confirm_error hn hconfirm
    rw [h.table] at hheld
    refine ⟨_, _, rfl, ⟨n, Nat.le_refl n, number, _, _, hnext, rfl, h.labels⟩, ?_, ?_⟩
    · rintro _ ⟨⟩
      exact Outcome.ofError_ne_internal hrefusal
    · rintro _ _ _ ⟨⟩
      exact .failed rfl hheld

theorem Follows.perform_release (h : r.Follows seed n number none s m) (hn : n ≤ UInt64.size)
    (setting : Setting) (i : ℕ) (now : Instant) {label : String}
    (hlabel : r.claims[label]? = some claim) :
    r.Performs seed n setting i now (.release label) := by
  have hfollows : Follows { r with claims := r.claims.erase label } seed n number
    (some (number label, claim)) s m := ⟨h.tracks, h.table, h.labels.erase hlabel⟩
  obtain ⟨r', hrelease, _, htracked⟩ := hfollows.release hn
  refine ⟨.ok .nothing, r', ?_, htracked, by rintro _ ⟨⟩, by rintro _ _ _ ⟨⟩⟩
  unfold perform
  dsimp only
  rw [hlabel]
  dsimp only
  rw [hrelease]
  rfl

/-- An operation that is not mistaken is performed. -/
theorem Tracked.perform (h : r.Tracked seed n) (hn : n + op.isCreate.toNat ≤ UInt64.size)
    (setting : Setting) (i : ℕ) (now : Instant) (hop : ¬ op.Mistaken r) :
    r.Performs seed (n + op.isCreate.toNat) setting i now op := by
  obtain ⟨j, hj, number, s, m, hfollows⟩ := h
  have hle : j ≤ UInt64.size := by omega
  cases op with
  | create root timeout zeroDepth owner label =>
    have hnext : j + 1 ≤ UInt64.size := (Nat.add_le_add_right hj 1).trans hn
    have hperforms := hfollows.perform_create hnext setting i now root timeout zeroDepth owner label
    exact hperforms.mono (Nat.add_le_add_right hj 1)
  | refresh name timeout => exact (hfollows.perform_refresh hle setting i now name timeout).mono hj
  | unlock name => exact (hfollows.perform_unlock hle setting i now name).mono hj
  | confirm names tokens label =>
    exact (hfollows.perform_confirm hle setting i now tokens label hop).mono hj
  | release label =>
    obtain ⟨claim, hlabel⟩ := Option.ne_none_iff_exists'.1 hop
    exact (hfollows.perform_release hle setting i now hlabel).mono hj
  | lookup name => exact (hfollows.perform_lookup hle setting i now name).mono hj
  | delete name => exact (hfollows.perform_delete hle setting i now name).mono hj

/-- A mistaken operation ends the run. -/
theorem perform_of_mistaken (h : op.Mistaken r) (setting : Setting) (i : ℕ) (now : Instant) :
    ∃ mistake, r.perform setting i now op = .error (.user mistake) := by
  unfold perform
  cases op with
  | confirm names tokens label => exact ⟨_, if_pos h⟩
  | release label =>
    refine ⟨.claimNotOutstanding i label, ?_⟩
    dsimp only
    rw [show r.claims[label]? = none from h]
  | create root timeout zeroDepth owner label => exact h.elim
  | refresh name timeout => exact h.elim
  | unlock name => exact h.elim
  | lookup name => exact h.elim
  | delete name => exact h.elim

/-! ## Steps -/

variable {setting : Setting} {step : Step} {done steps : List Step} {report : Report}
  {reports : List Report}

theorem step_of_mistaken (h : step.Mistaken setting.start r) (i : ℕ) :
    ∃ mistake, r.step setting i step = .error (.user mistake) := by
  unfold State.step
  cases hnow : step.offset.after? setting.start with
  | none => exact ⟨_, rfl⟩
  | some now =>
    obtain ⟨mistake, hmistake⟩ :=
      perform_of_mistaken (h.resolve_left (by simp [hnow])) setting i now
    refine ⟨mistake, ?_⟩
    dsimp only
    rw [hmistake]
    rfl

theorem Tracked.step_ok (h : r.Tracked seed n)
    (hn : n + step.operation.isCreate.toNat ≤ UInt64.size) (i : ℕ)
    (hstep : ¬ step.Mistaken setting.start r) :
    ∃ report r', r.step setting i step = .ok (report, r') ∧
      Performed seed (n + step.operation.isCreate.toNat) r step.operation report.result r' := by
  obtain ⟨hnow, hop⟩ := not_or.1 hstep
  obtain ⟨now, hnow⟩ := Option.ne_none_iff_exists'.1 hnow
  obtain ⟨result, r', hresult, hperformed⟩ := h.perform hn setting i now hop
  refine ⟨⟨i, now, step.operation.name, step.expected, result⟩, r', ?_, hperformed⟩
  unfold State.step
  rw [hnow]
  dsimp only
  rw [hresult]
  rfl

/-! ## Runs -/

theorem steps_cons_of_ok {i : ℕ} (h : r.step setting i step = .ok (report, r')) :
    r.steps setting i (step :: steps) =
      (r'.steps setting (i + 1) steps).map fun rest => (report :: rest.1, rest.2) := by
  conv_lhs => unfold State.steps
  rw [h]
  show (r'.steps setting (i + 1) steps).bind _ = _
  cases r'.steps setting (i + 1) steps <;> rfl

theorem steps_cons_of_error {i : ℕ} {e : LockError} (h : r.step setting i step = .error e) :
    r.steps setting i (step :: steps) = .error e := by
  unfold State.steps
  rw [h]
  rfl

theorem steps_cons_eq_ok {i : ℕ} (h : r.steps setting i (step :: steps) = .ok (reports, r')) :
    ∃ report r₁ rest, r.step setting i step = .ok (report, r₁) ∧
      r₁.steps setting (i + 1) steps = .ok (rest, r') ∧ reports = report :: rest := by
  cases hstep : r.step setting i step with
  | error e =>
    rw [steps_cons_of_error hstep] at h
    exact absurd h (by simp)
  | ok first =>
    obtain ⟨report, r₁⟩ := first
    rw [steps_cons_of_ok hstep] at h
    cases hrest : r₁.steps setting (i + 1) steps with
    | error e =>
      rw [hrest] at h
      exact absurd h (by simp [Except.map])
    | ok rest =>
      obtain ⟨rest, r₂⟩ := rest
      rw [hrest] at h
      obtain ⟨rfl, rfl⟩ := Prod.mk.inj (Except.ok.inj h)
      exact ⟨report, r₁, rest, rfl, hrest, rfl⟩

/-- A run that meets a mistaken step ends there. -/
theorem steps_of_mistaken {i : ℕ} (hpart : done ++ [step] <+: steps)
    (hdone : r.steps setting i done = .ok (reports, r')) (h : step.Mistaken setting.start r') :
    ∃ mistake, r.steps setting i steps = .error (.user mistake) := by
  induction done generalizing r reports i steps with
  | nil =>
    obtain ⟨rest, rfl⟩ := hpart
    obtain ⟨_, rfl⟩ := Prod.mk.inj (Except.ok.inj hdone)
    obtain ⟨mistake, hmistake⟩ := step_of_mistaken h i
    exact ⟨mistake, steps_cons_of_error hmistake⟩
  | cons first done ih =>
    obtain ⟨rest, rfl⟩ := hpart
    obtain ⟨report, r₁, more, hfirst, hmore, rfl⟩ := steps_cons_eq_ok hdone
    obtain ⟨mistake, hmistake⟩ := ih ⟨rest, rfl⟩ hmore
    refine ⟨mistake, ?_⟩
    rw [List.cons_append, List.cons_append, steps_cons_of_ok hfirst, hmistake]
    rfl

/-- All steps are performed, or those before one that is mistaken. -/
theorem Tracked.steps_or_mistaken (h : r.Tracked seed n) (hn : n + creates steps ≤ UInt64.size)
    (setting : Setting) (i : ℕ) :
    (∃ reports r', r.steps setting i steps = .ok (reports, r') ∧
        r'.Tracked seed (n + creates steps) ∧ ∀ report ∈ reports, report.outcome ≠ .internal) ∨
      ∃ done step reports r', done ++ [step] <+: steps ∧
        r.steps setting i done = .ok (reports, r') ∧ step.Mistaken setting.start r' := by
  induction steps generalizing r n i with
  | nil => exact .inl ⟨[], r, rfl, h, fun _ hin => absurd hin List.not_mem_nil⟩
  | cons step steps ih =>
    rw [creates_cons, ← Nat.add_assoc] at hn ⊢
    by_cases hstep : step.Mistaken setting.start r
    · exact .inr ⟨[], step, [], r, ⟨steps, rfl⟩, rfl, hstep⟩
    · obtain ⟨report, r₁, hreport, hperformed⟩ :=
        h.step_ok (Nat.le_of_add_right_le hn) i hstep
      rcases ih hperformed.tracked hn (i + 1) with
        ⟨reports, r', hsteps, htracked, houtcomes⟩ |
        ⟨done, bad, reports, r', hpart, hdone, hbad⟩
      · refine .inl ⟨report :: reports, r', ?_, htracked, fun other hin => ?_⟩
        · rw [steps_cons_of_ok hreport, hsteps]
          rfl
        · rcases List.mem_cons.1 hin with rfl | hin
          · unfold Report.outcome
            split
            · exact Outcome.noConfusion
            · rename_i e he
              exact hperformed.outcome e he
          · exact houtcomes other hin
      · refine .inr ⟨step :: done, bad, report :: reports, r', ?_, ?_, hbad⟩
        · exact List.cons_prefix_cons.2 ⟨rfl, hpart⟩
        · rw [steps_cons_of_ok hreport, hdone]
          rfl

end State

end PathLock.Replay
