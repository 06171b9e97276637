import Mathlib.Logic.Function.Basic
import PathLock.Proofs.Lock.Outstanding
import PathLock.Replay.Run

/-!
# Scripts as sessions

The steps of a script do to its table what the calls of a session do. The claims of the script are
the outstanding claims of the session, each label standing for a number of its own (`Labels`). In
the middle of a step one more claim may be outstanding: it has no label, or has lost it, and is
released before the step ends.

* `State.Follows`, `State.Tracked`: the state of a script and a session, in the middle of a step and
  between steps.
* `State.Tracked.holdsClaimed`: what is held between steps.
* `State.Follows.release_ok`: the release in the middle of a step succeeds.
-/

namespace PathLock.Replay

variable {number : String → ℕ} {claims : Std.TreeMap String Claim} {dropped : Option (ℕ × Claim)}
  {outstanding : List (ℕ × Claim)} {label l : String} {claim c : Claim} {k : ℕ}

/-! ## Labels and numbers -/

theorem getElem?_insert_iff : (claims.insert label claim)[l]? = some c ↔
    l = label ∧ c = claim ∨ l ≠ label ∧ claims[l]? = some c := by
  rw [Std.TreeMap.getElem?_insert]
  simp only [Std.compare_eq_iff_eq]
  by_cases hl : label = l
  · simp [hl, eq_comm]
  · simp [hl, Ne.symm hl]

theorem getElem?_erase_iff :
    (claims.erase label)[l]? = some c ↔ l ≠ label ∧ claims[l]? = some c := by
  rw [Std.TreeMap.getElem?_erase]
  simp only [Std.compare_eq_iff_eq]
  by_cases hl : label = l
  · simp [hl]
  · simp [hl, Ne.symm hl]

/-- The outstanding claims are those with labels, each with the number of its label, and the one
that is to be dropped, if there is one. -/
structure Labels (number : String → ℕ) (claims : Std.TreeMap String Claim)
    (dropped : Option (ℕ × Claim)) (outstanding : List (ℕ × Claim)) : Prop where
  mem_iff : ∀ k c, (k, c) ∈ outstanding ↔
    dropped = some (k, c) ∨ ∃ label, claims[label]? = some c ∧ number label = k
  injective : ∀ label l claim c, claims[label]? = some claim → claims[l]? = some c →
    number label = number l → label = l
  apart : ∀ k claim, dropped = some (k, claim) →
    ∀ label c, claims[label]? = some c → number label ≠ k

namespace Labels

theorem mem (h : Labels number claims dropped outstanding) (hlabel : claims[label]? = some claim) :
    (number label, claim) ∈ outstanding :=
  (h.mem_iff _ _).2 (.inr ⟨label, hlabel, rfl⟩)

/-- A new claim has no label yet. -/
theorem add (h : Labels number claims none outstanding) (hk : ∀ entry ∈ outstanding, entry.1 < k)
    (claim : Claim) : Labels number claims (some (k, claim)) ((k, claim) :: outstanding) where
  mem_iff j c := by
    rw [List.mem_cons, h.mem_iff]
    simp [eq_comm]
  injective := h.injective
  apart := by
    rintro _ _ ⟨⟩ label c hlabel heq
    exact absurd heq (Nat.ne_of_lt (hk _ (h.mem hlabel)))

/-- A label that is given to a claim is taken from the claim that had it. -/
theorem insert (h : Labels number claims (some (k, claim)) outstanding) (label : String) :
    Labels (Function.update number label k) (claims.insert label claim)
      (claims[label]?.map (number label, ·)) outstanding where
  mem_iff j c := by
    rw [h.mem_iff]
    simp only [getElem?_insert_iff, Option.map_eq_some_iff]
    constructor
    · rintro (⟨⟨⟩⟩ | ⟨l, hl, rfl⟩)
      · exact .inr ⟨label, .inl ⟨rfl, rfl⟩, Function.update_self ..⟩
      -- The claim that had the label keeps its number, and is the one to be dropped from now on.
      · by_cases hne : l = label
        · exact .inl ⟨c, hne ▸ hl, by rw [hne]⟩
        · exact .inr ⟨l, .inr ⟨hne, hl⟩, Function.update_of_ne hne ..⟩
    · rintro (⟨old, hold, ⟨⟩⟩ | ⟨l, ⟨rfl, rfl⟩ | ⟨hne, hl⟩, rfl⟩)
      · exact .inr ⟨label, hold, rfl⟩
      · exact .inl (by rw [Function.update_self])
      · exact .inr ⟨l, hl, (Function.update_of_ne hne ..).symm⟩
  injective a b ca cb ha hb := by
    rcases getElem?_insert_iff.1 ha with ⟨rfl, rfl⟩ | ⟨hnea, hina⟩ <;>
      rcases getElem?_insert_iff.1 hb with ⟨rfl, rfl⟩ | ⟨hneb, hinb⟩
    · exact fun _ => rfl
    · rw [Function.update_self, Function.update_of_ne hneb]
      exact fun heq => absurd heq.symm (h.apart k _ rfl b cb hinb)
    · rw [Function.update_self, Function.update_of_ne hnea]
      exact fun heq => absurd heq (h.apart k _ rfl a ca hina)
    · rw [Function.update_of_ne hnea, Function.update_of_ne hneb]
      exact h.injective a b ca cb hina hinb
  apart j old hdropped l c hl := by
    obtain ⟨_, hold, ⟨⟩⟩ := Option.map_eq_some_iff.1 hdropped
    rcases getElem?_insert_iff.1 hl with ⟨rfl, rfl⟩ | ⟨hne, hl⟩
    · rw [Function.update_self]
      exact (h.apart k _ rfl l old hold).symm
    · rw [Function.update_of_ne hne]
      exact fun heq => hne (h.injective l label c old hl hold heq)

/-- A claim whose label is taken away. -/
theorem erase (h : Labels number claims none outstanding) (hlabel : claims[label]? = some claim) :
    Labels number (claims.erase label) (some (number label, claim)) outstanding where
  mem_iff j c := by
    rw [h.mem_iff]
    simp only [getElem?_erase_iff]
    constructor
    · rintro (⟨⟨⟩⟩ | ⟨l, hl, rfl⟩)
      by_cases hne : l = label
      · rw [hne, hlabel, Option.some.injEq] at hl
        exact .inl (by rw [hne, hl])
      · exact .inr ⟨l, ⟨hne, hl⟩, rfl⟩
    · rintro (⟨⟨⟩⟩ | ⟨l, ⟨_, hl⟩, rfl⟩)
      · exact .inr ⟨label, hlabel, rfl⟩
      · exact .inr ⟨l, hl, rfl⟩
  injective a b ca cb ha hb :=
    h.injective a b ca cb (getElem?_erase_iff.1 ha).2 (getElem?_erase_iff.1 hb).2
  apart := by
    rintro _ _ ⟨⟩ l c hl heq
    obtain ⟨hne, hl⟩ := getElem?_erase_iff.1 hl
    exact hne (h.injective l label c claim hl hlabel heq)

/-- Without the claim that was to be dropped, those with labels are left. -/
theorem filter (h : Labels number claims (some (k, claim)) outstanding) :
    Labels number claims none (outstanding.filter fun entry => entry.1 ≠ k) where
  mem_iff j c := by
    rw [List.mem_filter, h.mem_iff, decide_eq_true_eq]
    constructor
    · rintro ⟨⟨⟨⟩⟩ | hlabel, hne⟩
      · exact absurd rfl hne
      · exact .inr hlabel
    · rintro (⟨⟨⟩⟩ | ⟨l, hl, rfl⟩)
      exact ⟨.inr ⟨l, hl, rfl⟩, h.apart k claim rfl l c hl⟩
  injective := h.injective
  apart := by
    rintro _ _ ⟨⟩

end Labels

namespace State

variable {r r' : State} {s : Session} {m : Ledger.Session} {seed : UInt64} {n : ℕ}

/-! ## Sessions beside scripts -/

/-- The session has the table of the script, and its claims under numbers. -/
structure Follows (r : State) (seed : UInt64) (n : ℕ) (number : String → ℕ)
    (dropped : Option (ℕ × Claim)) (s : Session) (m : Ledger.Session) : Prop where
  tracks : Session.Tracks seed n s m
  table : s.table = r.table
  labels : Labels number r.claims dropped s.outstanding

/-- Between steps all claims have labels, and at most `n` creates have succeeded. -/
def Tracked (seed : UInt64) (n : ℕ) (r : State) : Prop :=
  ∃ i ≤ n, ∃ number s m, r.Follows seed i number none s m

/-- The locks that are held are those still there whose token is in a claim of the script. No token
is in two of its claims, or in one twice. -/
structure HoldsClaimed (r : State) : Prop where
  held_iff : ∀ lock ∈ r.table.locks, lock.held = true ↔
    ∃ (label : String) (claim : Claim), r.claims[label]? = some claim ∧ lock.token ∈ claim.tokens
  once : ∀ (label l : String) (claim c : Claim), r.claims[label]? = some claim →
    r.claims[l]? = some c → ∀ token ∈ claim.tokens, token ∈ c.tokens → label = l
  nodup : ∀ (label : String) (claim : Claim), r.claims[label]? = some claim → claim.tokens.Nodup

theorem follows_start (seed : UInt64) : Follows { table := .empty seed } seed 0 (fun _ => 0) none
    (Session.start seed) (Ledger.Session.start seed) := by
  refine ⟨Session.tracks_start seed, rfl, ?_⟩
  have hnone : ∀ (label : String) (claim : Claim),
      (∅ : Std.TreeMap String Claim)[label]? ≠ some claim := by simp
  exact ⟨by simp [Session.start], fun _ _ _ _ h => absurd h (hnone _ _), fun _ _ h => by cases h⟩

theorem tracked_start (seed : UInt64) : Tracked seed 0 { table := .empty seed } :=
  ⟨0, Nat.le_refl 0, _, _, _, follows_start seed⟩

theorem Follows.mem (h : r.Follows seed n number dropped s m)
    (hlabel : r.claims[label]? = some claim) : (number label, claim) ∈ s.outstanding :=
  h.labels.mem hlabel

/-- What the claim that is to be dropped holds, no claim with a label does. -/
theorem Follows.not_mem_tokens (h : r.Follows seed n number (some (k, claim)) s m)
    (hlabel : r.claims[label]? = some c) {token : String} (ht : token ∈ claim.tokens) :
    token ∉ c.tokens := fun ht' =>
  h.labels.apart k claim rfl label c hlabel
    (h.tracks.number_eq (h.mem hlabel) ((h.labels.mem_iff k claim).2 (.inl rfl)) ht' ht)

theorem Follows.holdsClaimed (h : r.Follows seed n number none s m) : r.HoldsClaimed where
  held_iff lock hl := by
    rw [← h.table] at hl
    rw [h.tracks.held_iff hl]
    constructor
    · rintro ⟨⟨k, claim⟩, he, ht⟩
      obtain ⟨⟨⟩⟩ | ⟨label, hlabel, _⟩ := (h.labels.mem_iff k claim).1 he
      exact ⟨label, claim, hlabel, ht⟩
    · rintro ⟨label, claim, hlabel, ht⟩
      exact ⟨_, h.mem hlabel, ht⟩
  once label l claim c hlabel hl token ht ht' :=
    h.labels.injective label l claim c hlabel hl
      (h.tracks.number_eq (h.mem hlabel) (h.mem hl) ht ht')
  nodup label claim hlabel := h.tracks.nodup_tokens (h.mem hlabel)

theorem Tracked.holdsClaimed (h : r.Tracked seed n) : r.HoldsClaimed := by
  obtain ⟨_, _, _, _, _, hfollows⟩ := h
  exact hfollows.holdsClaimed

theorem Tracked.mono {n' : ℕ} (h : r.Tracked seed n) (hle : n ≤ n') : r.Tracked seed n' := by
  obtain ⟨i, hi, hfollows⟩ := h
  exact ⟨i, hi.trans hle, hfollows⟩

/-! ## Releases -/

/-- The claim that is to be dropped can be released. No lock is lost with it. -/
theorem Follows.release_ok (h : r.Follows seed n number (some (k, claim)) s m)
    (hn : n ≤ UInt64.size) : ∃ t, r.table.release claim = (.ok (), t) ∧
      Follows { r with table := t } seed n number none
        ⟨t, s.claimsMade, s.outstanding.filter fun entry => entry.1 ≠ k⟩ (m.release k).2 ∧
      (m.release k).2.ledger = m.ledger.release claim.tokens ∧
      ∀ lock ∈ r.table.locks, ∃ k ∈ t.locks, k.token = lock.token := by
  have hin := (h.labels.mem_iff k claim).2 (.inl rfl)
  obtain ⟨t, hrelease, hnext, hstays⟩ := h.tracks.release_ok hn hin
  rw [h.table] at hrelease hstays
  exact ⟨t, hrelease, ⟨hnext, rfl, h.labels.filter⟩, h.tracks.release_ledger hin, hstays⟩

/-- From `r` to `r'`, the claim is released and nothing else is done. -/
structure Drops (claim : Claim) (r r' : State) : Prop where
  claims : r'.claims = r.claims
  stays : ∀ lock ∈ r.table.locks, ∃ k ∈ r'.table.locks, k.token = lock.token
  free : ∀ lock ∈ r'.table.locks, lock.token ∈ claim.tokens → lock.held = false

/-- After the release of the claim that was to be dropped, all claims have labels. -/
theorem Follows.release (h : r.Follows seed n number (some (k, claim)) s m)
    (hn : n ≤ UInt64.size) : ∃ r', r.release claim = (.ok (), r') ∧ r.Drops claim r' ∧
      r'.Tracked seed n := by
  obtain ⟨t, hrelease, hfollows, _, hstays⟩ := h.release_ok hn
  refine ⟨{ r with table := t }, ?_, ⟨rfl, hstays, fun lock hl ht => ?_⟩,
    n, Nat.le_refl n, number, _, _, hfollows⟩
  · unfold State.release
    rw [hrelease]
  · rw [Bool.eq_false_iff, Ne, hfollows.holdsClaimed.held_iff lock hl]
    rintro ⟨label, c, hlabel, ht'⟩
    exact h.not_mem_tokens hlabel ht ht'

end State

end PathLock.Replay
