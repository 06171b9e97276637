import Mathlib.Data.UInt
import PathLock.Proofs.Lock.Protection

/-!
# Tokens do not come back

Creates are answered with the numerals that follow the seed, in turn and round the end of the
counter (`Ledger.Session.Sound.tokens_run`), so that no token is issued twice. Once the lock of a
token is gone, no call is answered as if it were there, and no create is answered with the token
(`Session.Tracks.denies_run`). That is so whatever took the lock away
(`Session.tokens_never_return`).
-/

namespace PathLock

/-- The token of a new lock. -/
def Answer.token? : Answer → Option String
  | .token text => some text
  | _ => none

/-- The tokens issued with these answers, in order. -/
def tokensOf (answers : List Answer) : List String := answers.filterMap Answer.token?

theorem tokensOf_cons (answer : Answer) (answers : List Answer) :
    tokensOf (answer :: answers) = tokensOf [answer] ++ tokensOf answers :=
  List.filterMap_append (l := [answer])

theorem issued_eq_repr (seed : UInt64) (k : ℕ) :
    issued seed k = ((seed.toNat + k) % 2 ^ 64).repr := by
  unfold issued Registry.tokenText
  rw [UInt64.toNat_add, UInt64.toNat_ofNat', Nat.add_mod_mod]

/-- As many tokens in a row as the counter has values are all different. -/
theorem nodup_map_issued {seed : UInt64} {n : ℕ} (hn : n ≤ UInt64.size) :
    ((List.range' 1 n).map (issued seed)).Nodup := by
  refine List.Nodup.map_on (fun i hi j hj hij => ?_) List.nodup_range'
  rw [issued_eq_iff] at hij
  simp only [List.mem_range'_1] at hi hj
  dsimp only [UInt64.size] at hn hij
  omega

namespace Call

/-- The answer to the call is that of a table without a lock that has this token, and the token is
not that of a new lock. -/
def Denies (token : String) : Call → Answer → Prop
  | .create .., answer => answer ≠ .token token
  | .refresh _ other _, answer => other = token → answer = .failed .noSuchLock
  | .unlock _ other, answer => other = token → answer = .failed .noSuchLock
  | .confirm .., .claim _ tokens => token ∉ tokens
  | .guard .., .claim _ tokens => token ∉ tokens
  | .lockAt .., .lock info => info.token ≠ token
  | _, _ => True

/-- The call, so answered, takes this lock away: it is unlocked, deleted or has expired. -/
inductive Ends (lock : Lock) : Call → Answer → Prop
  | unlock {now : Instant} : Ends lock (.unlock now lock.token) .done
  | delete {now : Instant} {name : String} {answer : Answer} (hroot : lock.root = Path.clean name) :
      Ends lock (.delete now name) answer
  | expiry {call : Call} {now : Instant} {answer : Answer} (hnow : call.now? = some now)
      (hexpired : lock.expired now = true) : Ends lock call answer

end Call

namespace Ledger

variable {l : Ledger} {lock : Lock} {now : Instant} {token name : String}

theorem lacks_of_unlock_ok (h : (l.unlock now token).1 = .ok ()) :
    (l.unlock now token).2.Lacks token := by
  unfold unlock at h ⊢
  dsimp only at h ⊢
  split at h
  · exact absurd h (by simp)
  · split_ifs at h ⊢ with hheld
    intro lock hl
    exact of_decide_eq_true (List.mem_filter.1 hl).2

theorem Orderly.lacks_delete (h : l.Orderly) (hl : lock ∈ l.locks)
    (hroot : lock.root = Path.clean name) : (l.delete now name).Lacks lock.token := by
  intro other hother htoken
  obtain ⟨hother, hne⟩ := List.mem_filter.1 hother
  rw [h.token_inj other (mem_sweep.1 hother).1 lock hl htoken] at hne
  exact of_decide_eq_true hne hroot

namespace Session

variable {m : Ledger.Session} {seed : UInt64} {n : ℕ} {call : Call} {calls : List Call}

/-! ## Tokens in turn -/

theorem Sound.tokens_step (hm : m.Sound seed n)
    (hn : n + created [(m.step call).1] ≤ UInt64.size) : tokensOf [(m.step call).1] =
      (List.range' (n + 1) (created [(m.step call).1])).map (issued seed) := by
  cases hanswer : (m.step call).1 with
  | token token =>
    obtain ⟨rfl, _⟩ := hm.token_of_step hn hanswer
    simp [tokensOf, created, Answer.token?, Answer.isToken]
  | _ => simp [tokensOf, created, Answer.token?, Answer.isToken]

theorem Sound.tokens_run (hm : m.Sound seed n)
    (hn : n + created (m.run calls).1 ≤ UInt64.size) : tokensOf (m.run calls).1 =
      (List.range' (n + 1) (created (m.run calls).1)).map (issued seed) := by
  induction calls generalizing m n with
  | nil => rfl
  | cons call calls ih =>
    rw [created_run_cons, ← Nat.add_assoc] at hn
    have hcall := Nat.le_of_add_right_le hn
    rw [created_run_cons, run_cons, tokensOf_cons, hm.tokens_step hcall,
      ih (hm.step call hcall) hn, ← List.map_append, Nat.add_right_comm n, List.range'_append_1]

/-! ## Tokens whose lock is gone -/

theorem denies_claim (h : m.ledger.Lacks token) {name₀ name₁ : String}
    {conditions : List Condition} {number : ℕ} {tokens : List String}
    (hanswer : (m.claim now name₀ name₁ conditions).1 = .claim number tokens) :
    token ∉ tokens := by
  intro htoken
  obtain ⟨l', hconfirm, _⟩ := confirm_of_claim hanswer
  obtain ⟨lock, hl, hlock, _⟩ := (free_of_confirm hconfirm).2 token htoken
  exact h.sweep now lock hl hlock

/-- A call that does not issue the token does not know it either. -/
theorem denies_step (ho : m.ledger.Orderly) (h : m.ledger.Lacks token)
    (hanswer : (m.step call).1 ≠ .token token) : call.Denies token (m.step call).1 := by
  cases call with
  | create now details => exact hanswer
  | refresh now other duration =>
    rintro rfl
    exact congrArg (Answer.ofResult .details ·.1) (refresh_of_absent (h.sweep now) duration)
  | unlock now other =>
    rintro rfl
    exact congrArg (Answer.ofResult (fun _ => .done) ·.1) (unlock_of_absent (h.sweep now))
  | confirm now name₀ name₁ conditions =>
    cases hclaim : (m.step (.confirm now name₀ name₁ conditions)).1 with
    | claim number tokens => exact denies_claim h hclaim
    | _ => trivial
  | guard now name₀ name₁ conditions =>
    cases hclaim : (m.step (.guard now name₀ name₁ conditions)).1 with
    | claim number tokens => exact denies_claim h hclaim
    | _ => trivial
  | lockAt now name =>
    cases hlock : (m.step (.lockAt now name)).1 with
    | lock info =>
      obtain ⟨lock, hl, _, rfl⟩ :=
        ho.lockAt_eq_ok_iff.1 (ok_of_ofResult (by simp) (by simp) hlock)
      exact h.sweep now lock hl
    | _ => trivial
  | _ => trivial

/-- A lock that a call takes away is not there any more. -/
theorem Sound.lacks_of_ends (hm : m.Sound seed n) (ho : m.ledger.Orderly)
    (hn : n + created [(m.step call).1] ≤ UInt64.size) (hl : lock ∈ m.ledger.locks)
    (hends : call.Ends lock (m.step call).1) : (m.step call).2.ledger.Lacks lock.token := by
  generalize hanswer : (m.step call).1 = answer at hends
  cases hends with
  | unlock => exact lacks_of_unlock_ok (ok_of_ofResult (by simp) (by simp) hanswer)
  | delete hroot => exact ho.lacks_delete hl hroot
  | expiry hnow hexpired => exact hm.lacks_of_expired ho hn hl hnow hexpired

end Session

end Ledger

namespace Session

variable {s : Session} {m : Ledger.Session} {seed : UInt64} {n : ℕ} {calls : List Call}
  {token : String}

/-- Once the lock of a token is gone, all calls deny the token. -/
theorem Tracks.denies_run (h : Tracks seed n s m) (hissued : IsIssued seed n token)
    (hlacks : m.ledger.Lacks token) (hn : n + created (s.run calls).1 ≤ UInt64.size) :
    ∀ call answer, (call, answer) ∈ calls.zip (s.run calls).1 → call.Denies token answer := by
  induction calls generalizing s m n with
  | nil => exact fun call answer hin => absurd hin List.not_mem_nil
  | cons call calls ih =>
    rw [created_run_cons, ← Nat.add_assoc] at hn
    have hcall := Nat.le_of_add_right_le hn
    obtain ⟨hanswer, hnext⟩ := h.step hcall
    rw [hanswer] at hcall
    have hfresh := h.sound.answer_ne_token hissued hcall
    have hdenies := Ledger.Session.denies_step h.orderly hlacks hfresh
    have hrest := ih hnext (hissued.mono (Nat.le_add_right _ _))
      (h.sound.lacks_step hissued hcall hlacks) hn
    rw [run_cons, List.zip_cons_cons, hanswer]
    intro call' answer' hin
    rcases List.mem_cons.1 hin with heq | hin
    · obtain ⟨rfl, rfl⟩ := Prod.mk.inj heq
      exact hdenies
    · exact hrest call' answer' hin

theorem Tracks.denies_of_ends (h : Tracks seed n s m) {lock : Lock} (hl : lock ∈ m.ledger.locks)
    {ending : Call} (hends : ending.Ends lock (s.step ending).1)
    (hn : n + created (s.run (ending :: calls)).1 ≤ UInt64.size) :
    ∀ call answer, (call, answer) ∈ calls.zip ((s.step ending).2.run calls).1 →
      call.Denies lock.token answer := by
  rw [created_run_cons, ← Nat.add_assoc] at hn
  have hending := Nat.le_of_add_right_le hn
  obtain ⟨hanswer, hnext⟩ := h.step hending
  refine hnext.denies_run ((h.sound.lock_issued lock hl).mono (Nat.le_add_right _ _)) ?_ hn
  rw [hanswer] at hends hending
  exact h.sound.lacks_of_ends h.orderly hending hl hends

theorem tokensOf_run (hcreated : created ((start seed).run calls).1 ≤ UInt64.size) :
    tokensOf ((start seed).run calls).1 =
      (List.range' 1 (created ((start seed).run calls).1)).map (issued seed) := by
  have hanswers := (run_start seed calls hcreated).1
  have hcalls : 0 + created ((Ledger.Session.start seed).run calls).1 ≤ UInt64.size := by
    rwa [Nat.zero_add, ← hanswers]
  have htokens := (Ledger.Session.sound_start seed).tokens_run hcalls
  rwa [Nat.zero_add, ← hanswers] at htokens

/-- The `k`th create that succeeds is answered with the numeral of `seed + k`, no two are answered
alike, and once the lock of a token is gone, whatever took it away, the token is denied for good. -/
theorem tokens_never_return (seed : UInt64) (calls : List Call)
    (hcreated : created ((start seed).run calls).1 ≤ UInt64.size) :
    tokensOf ((start seed).run calls).1 =
        (List.range' 1 (created ((start seed).run calls).1)).map
          (fun k => ((seed.toNat + k) % 2 ^ 64).repr) ∧
      (tokensOf ((start seed).run calls).1).Nodup ∧
      (∀ before later, before ++ later = calls →
        ∀ token ∈ tokensOf ((start seed).run before).1,
          (∀ lock ∈ ((start seed).run before).2.table.locks, lock.token ≠ token) →
            ∀ call answer, (call, answer) ∈ later.zip (((start seed).run before).2.run later).1 →
              call.Denies token answer) ∧
      ∀ before ending later, before ++ ending :: later = calls →
        ∀ lock ∈ ((start seed).run before).2.table.locks,
          ending.Ends lock (((start seed).run before).2.step ending).1 →
            ∀ call answer,
              (call, answer) ∈ later.zip
                ((((start seed).run before).2.step ending).2.run later).1 →
                  call.Denies lock.token answer := by
  refine ⟨?_, ?_, ?_, ?_⟩
  · rw [tokensOf_run hcreated]
    exact List.map_congr_left fun k _ => issued_eq_repr seed k
  · rw [tokensOf_run hcreated]
    exact nodup_map_issued hcreated
  · rintro before later rfl token ht hgone
    rw [created_run_append] at hcreated
    have hbefore := Nat.le_of_add_right_le hcreated
    have htracks := tracks_run hbefore
    rw [tokensOf_run hbefore] at ht
    obtain ⟨k, hk, rfl⟩ := List.mem_map.1 ht
    rw [List.mem_range'_1] at hk
    refine htracks.denies_run ⟨k, hk.1, by omega, rfl⟩ (fun lock hl => ?_) hcreated
    exact hgone lock (htracks.mem_locks.2 hl)
  · rintro before ending later rfl lock hl hends
    rw [created_run_append] at hcreated
    have htracks := tracks_run (Nat.le_of_add_right_le hcreated)
    exact htracks.denies_of_ends (htracks.mem_locks.1 hl) hends hcreated

/-- The first lock is unlocked, the second deleted while it is claimed, and the third expires. The
counter goes round between the first two. -/
def threeLocks : List Call :=
  [.create .epoch { root := "/a", duration := .infinite },
    .create .epoch { root := "/b", duration := .infinite },
    .create .epoch { root := "/c", duration := .seconds 60 },
    .guard .epoch "/b/x" "" [.ofToken "0"],
    .unlock .epoch "18446744073709551615",
    .delete .epoch "/b",
    .countAt (Instant.epoch.after 60)]

/-- A lock where the first one was, and calls with all tokens, from before the third one expired. -/
def oldTokens : List Call :=
  [.create .epoch { root := "/a", duration := .infinite },
    .confirm .epoch "/a" "/a/b" [.ofToken "18446744073709551615", .ofToken "0", .ofToken "2"],
    .dropGuard 0,
    .refresh .epoch "0" .infinite,
    .unlock .epoch "1",
    .lockAt .epoch "/c"]

theorem tokens_never_return_threefold :
    created ((start (2 ^ 64 - 2)).run (threeLocks ++ oldTokens)).1 ≤ UInt64.size ∧
      tokensOf ((start (2 ^ 64 - 2)).run (threeLocks ++ oldTokens)).1 =
        ["18446744073709551615", "0", "1", "2"] ∧
      ∀ token ∈ ["18446744073709551615", "0", "1"], ∀ call answer,
        (call, answer) ∈ oldTokens.zip
          (((start (2 ^ 64 - 2)).run threeLocks).2.run oldTokens).1 → call.Denies token answer := by
  have hcreated : created ((start (2 ^ 64 - 2)).run (threeLocks ++ oldTokens)).1 = 4 := by
    decide +kernel
  have hle : created ((start (2 ^ 64 - 2)).run (threeLocks ++ oldTokens)).1 ≤ UInt64.size := by
    rw [hcreated]
    decide
  obtain ⟨htokens, _, hdenies, _⟩ := tokens_never_return (2 ^ 64 - 2) (threeLocks ++ oldTokens) hle
  refine ⟨hle, ?_, fun token ht => hdenies threeLocks oldTokens rfl token ?_ ?_⟩
  · rw [htokens, hcreated]
    decide +kernel
  · revert token
    decide +kernel
  · revert token
    decide +kernel

-- What the tokens of locks that are gone are answered, and the token that is not.
example : (((start (2 ^ 64 - 2)).run threeLocks).2.run oldTokens).1 =
    [.token "2", .claim 1 ["2"], .done, .failed .noSuchLock, .failed .noSuchLock,
      .failed .noSuchLock] := by
  decide +kernel

end Session

end PathLock
