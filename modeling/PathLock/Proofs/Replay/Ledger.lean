import PathLock.Proofs.Replay.Steps

/-!
# The ledger of a script

The table of a script means a ledger (`State.Means`), which answers as the table does and becomes
what the table becomes. So what a script does can be told on the ledger alone, where a claim is its
tokens.

* `Means.create_ok`, `Means.create_error`, `Means.refresh`, `Means.unlock`, `Means.lockAt`,
  `Means.delete`, `Means.confirm_ok`, `Means.confirm_error`: what the ledger becomes.
* `Means.release`, `Means.keep`: claims that are released.
-/

namespace PathLock.Replay.State

variable {r : State} {seed : UInt64} {n : ℕ} {l : Ledger} {dropped : Option Claim} {t : LockTable}
  {claim : Claim} {now : Instant} {token label name₀ name₁ : String} {conditions : List Condition}
  {details : Details} {e : LockError}

/-- After `n` creates that succeeded, the table means this ledger. The claims with labels are
outstanding, and the one that is to be dropped, if there is one. -/
def Means (r : State) (seed : UInt64) (n : ℕ) (dropped : Option Claim) (l : Ledger) : Prop :=
  ∃ number entry s m, r.Follows seed n number entry s m ∧ entry.map (·.2) = dropped ∧ m.ledger = l

theorem means_start (seed : UInt64) :
    Means { table := .empty seed } seed 0 none { counter := seed } :=
  ⟨_, none, _, _, follows_start seed, rfl, rfl⟩

theorem Means.represents (h : r.Means seed n dropped l) : r.table.Represents l := by
  obtain ⟨_, _, _, _, hfollows, _, rfl⟩ := h
  exact hfollows.table ▸ hfollows.tracks.refines.represents

theorem Means.exclusive (h : r.Means seed n dropped l) : l.Exclusive := by
  obtain ⟨_, _, _, _, hfollows, _, rfl⟩ := h
  exact hfollows.tracks.sound.exclusive

theorem Means.next_token (h : r.Means seed n dropped l) :
    Registry.tokenText (l.counter + 1) = issued seed (n + 1) := by
  obtain ⟨_, _, _, _, hfollows, _, rfl⟩ := h
  exact hfollows.tracks.sound.next_token

/-! ## Calls -/

/-- A call that makes no lock and no claim. -/
theorem Means.next (h : r.Means seed n none l) (hn : n ≤ UInt64.size) (call : Call)
    (hstep : ∀ s : Session, s.table = r.table →
      (s.step call).1.isToken = false ∧ (s.step call).2 = { s with table := t })
    {l' : Ledger} (hledger : ∀ m : Ledger.Session, m.ledger = l → (m.step call).2.ledger = l') :
    Means { r with table := t } seed n none l' := by
  obtain ⟨number, entry, s, m, hfollows, hentry, hl⟩ := h
  obtain rfl := Option.map_eq_none_iff.1 hentry
  obtain ⟨hanswer, hnext⟩ := hstep s hfollows.table
  exact ⟨number, none, _, _, hfollows.next hn (Prod.ext rfl hnext) hanswer, rfl, hledger m hl⟩

theorem Means.create_ok (h : r.Means seed n none l) (hn : n < UInt64.size)
    (hcreate : r.table.create now details = (.ok token, t)) :
    Means { r with table := t } seed (n + 1) none (l.create now details).2 := by
  obtain ⟨number, entry, s, m, hfollows, hentry, rfl⟩ := h
  obtain rfl := Option.map_eq_none_iff.1 hentry
  rw [← hfollows.table] at hcreate
  obtain ⟨l', hledger, _, htracks⟩ := hfollows.tracks.create_ok hn hcreate
  exact ⟨number, none, _, _, ⟨htracks, rfl, hfollows.labels⟩, rfl, by rw [hledger]⟩

theorem Means.create_error (h : r.Means seed n none l) (hn : n ≤ UInt64.size)
    (hcreate : r.table.create now details = (.error e, t)) :
    Means { r with table := t } seed n none (l.create now details).2 := by
  refine h.next hn (.create now details) (fun s hs => ?_) fun _ hm => hm ▸ rfl
  unfold Session.step
  dsimp only
  rw [hs, hcreate]
  exact ⟨rfl, rfl⟩

theorem Means.refresh (h : r.Means seed n none l) (hn : n ≤ UInt64.size) (now : Instant)
    (token : String) (duration : Timeout) :
    Means { r with table := (r.table.refresh now token duration).2 } seed n none
      (l.refresh now token duration).2 :=
  h.next hn (.refresh now token duration)
    (fun _ hs => ⟨isToken_ofResult (fun _ => rfl) _, hs ▸ rfl⟩) fun _ hm => hm ▸ rfl

theorem Means.unlock (h : r.Means seed n none l) (hn : n ≤ UInt64.size) (now : Instant)
    (token : String) :
    Means { r with table := (r.table.unlock now token).2 } seed n none (l.unlock now token).2 :=
  h.next hn (.unlock now token)
    (fun _ hs => ⟨isToken_ofResult (fun _ => rfl) _, hs ▸ rfl⟩) fun _ hm => hm ▸ rfl

theorem Means.lockAt (h : r.Means seed n none l) (hn : n ≤ UInt64.size) (now : Instant)
    (name : String) :
    Means { r with table := (r.table.lockAt now name).2 } seed n none (l.lockAt now name).2 :=
  h.next hn (.lockAt now name)
    (fun _ hs => ⟨isToken_ofResult (fun _ => rfl) _, hs ▸ rfl⟩) fun _ hm => hm ▸ rfl

theorem Means.delete (h : r.Means seed n none l) (hn : n ≤ UInt64.size) (now : Instant)
    (name : String) :
    Means { r with table := r.table.delete now name } seed n none (l.delete now name) :=
  h.next hn (.delete now name) (fun _ hs => ⟨rfl, hs ▸ rfl⟩) fun _ hm => hm ▸ rfl

/-! ## Claims -/

/-- The new claim has no label yet. -/
theorem Means.confirm_ok (h : r.Means seed n none l) (hn : n ≤ UInt64.size)
    (hconfirm : r.table.confirm now name₀ name₁ conditions = (.ok claim, t)) :
    Means { r with table := t } seed n (some claim) (l.confirm now name₀ name₁ conditions).2 := by
  obtain ⟨number, entry, s, m, hfollows, hentry, rfl⟩ := h
  obtain rfl := Option.map_eq_none_iff.1 hentry
  rw [← hfollows.table] at hconfirm
  obtain ⟨hnext, _⟩ := hfollows.tracks.confirm_ok hn hconfirm
  have hlabels := hfollows.labels.add (fun _ he => hfollows.tracks.number_lt he) claim
  exact ⟨number, some (s.claimsMade, claim), _, _, ⟨hnext, rfl, hlabels⟩, rfl,
    Ledger.Session.claim_ledger m now name₀ name₁ conditions⟩

theorem Means.confirm_error (h : r.Means seed n none l) (hn : n ≤ UInt64.size)
    (hconfirm : r.table.confirm now name₀ name₁ conditions = (.error e, t)) :
    Means { r with table := t } seed n none (l.confirm now name₀ name₁ conditions).2 := by
  obtain ⟨number, entry, s, m, hfollows, hentry, rfl⟩ := h
  obtain rfl := Option.map_eq_none_iff.1 hentry
  rw [← hfollows.table] at hconfirm
  obtain ⟨hnext, _⟩ := hfollows.tracks.confirm_error hn hconfirm
  exact ⟨number, none, _, _, ⟨hnext, rfl, hfollows.labels⟩, rfl,
    Ledger.Session.claim_ledger m now name₀ name₁ conditions⟩

theorem Means.release (h : r.Means seed n (some claim) l) (hn : n ≤ UInt64.size) :
    ∃ t, r.release claim = (.ok (), { r with table := t }) ∧
      Means { r with table := t } seed n none (l.release claim.tokens) := by
  obtain ⟨number, entry, s, m, hfollows, hentry, rfl⟩ := h
  obtain ⟨⟨k, _⟩, rfl, rfl⟩ := Option.map_eq_some_iff.1 hentry
  obtain ⟨t, hrelease, hnext, hledger, _⟩ := hfollows.release_ok hn
  refine ⟨t, ?_, number, none, _, _, hnext, rfl, hledger⟩
  unfold State.release
  rw [hrelease]

/-- A claim takes a label, and the one that had it is to be dropped. -/
theorem Means.insert (h : r.Means seed n (some claim) l) (label : String) :
    Means { r with claims := r.claims.insert label claim } seed n r.claims[label]? l := by
  obtain ⟨number, entry, s, m, hfollows, hentry, hl⟩ := h
  obtain ⟨⟨k, _⟩, rfl, rfl⟩ := Option.map_eq_some_iff.1 hentry
  refine ⟨_, _, s, m, ⟨hfollows.tracks, hfollows.table, hfollows.labels.insert label⟩, ?_, hl⟩
  rw [Option.map_map]
  exact Option.map_id'

/-- A label is taken from its claim. -/
theorem Means.erase (h : r.Means seed n none l) (hlabel : r.claims[label]? = some claim) :
    Means { r with claims := r.claims.erase label } seed n (some claim) l := by
  obtain ⟨number, entry, s, m, hfollows, hentry, hl⟩ := h
  obtain rfl := Option.map_eq_none_iff.1 hentry
  exact ⟨number, _, s, m, ⟨hfollows.tracks, hfollows.table, hfollows.labels.erase hlabel⟩, rfl, hl⟩

/-- The tokens of the claim that is dropped when this one is kept under a label or without one. -/
def droppedTokens (r : State) (claim : Claim) : Option String → List String
  | some label => (r.claims[label]?.map Claim.tokens).getD []
  | none => claim.tokens

/-- The claims under their labels, and one more if it has a label. -/
def claimsWith (r : State) (claim : Claim) : Option String → Std.TreeMap String Claim
  | some label => r.claims.insert label claim
  | none => r.claims

theorem Means.keep (h : r.Means seed n (some claim) l) (hn : n ≤ UInt64.size)
    (label : Option String) : ∃ t, r.keep claim label =
        .ok { r with table := t, claims := r.claimsWith claim label } ∧
      Means { r with table := t, claims := r.claimsWith claim label } seed n none
        (l.release (r.droppedTokens claim label)) := by
  cases label with
  | none =>
    obtain ⟨t, hrelease, hnext⟩ := h.release hn
    exact ⟨t, keep_unlabelled hrelease, hnext⟩
  | some label =>
    have hinsert := h.insert label
    dsimp only [droppedTokens, claimsWith]
    cases hold : r.claims[label]? with
    | none =>
      rw [hold] at hinsert
      have hnothing : l.release [] = l := Ledger.setHeld_nil l false
      refine ⟨r.table, keep_of_new hold, ?_⟩
      rwa [Option.map_none, Option.getD_none, hnothing]
    | some old =>
      rw [hold] at hinsert
      obtain ⟨t, hrelease, hnext⟩ := hinsert.release hn
      exact ⟨t, keep_of_taken hold hrelease, hnext⟩

theorem Means.labelToken (h : r.Means seed n dropped l) (token : String) (label : Option String) :
    (r.labelToken token label).Means seed n dropped l := by
  obtain ⟨number, entry, s, m, hfollows, hentry, hl⟩ := h
  cases label with
  | none => exact ⟨number, entry, s, m, hfollows, hentry, hl⟩
  | some label =>
    exact ⟨number, entry, s, m, ⟨hfollows.tracks, hfollows.table, hfollows.labels⟩, hentry, hl⟩

end PathLock.Replay.State
