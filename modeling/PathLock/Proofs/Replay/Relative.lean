import Mathlib.Data.UInt
import PathLock.Proofs.Replay.Claims
import PathLock.Proofs.Replay.Parallel
import PathLock.Proofs.Time.Elapsed

/-!
# Scripts are relative

A script says when its steps come by offsets, and which locks it means by labels. So its outcomes do
not depend on the instant at which it starts, nor on the seed of its tokens, and its reports only in
that all instants are shifted and all tokens replaced (`Script.run_relative`). That takes a script
that names no token outright, and instants that stay in range.
-/

namespace PathLock

/-! ## Offsets -/

namespace Binary64

variable {x : Binary64} {negative : Bool} {digits num den k : ℕ} {exponent m : ℤ}

theorem isNegative_finite : (finite negative digits exponent).isNegative = false ↔
    negative = false ∨ digits = 0 := by
  cases negative <;> simp [isNegative]

theorem isNegative_ofRatio (h : negative = false ∨ num = 0) :
    (ofRatio negative num den).isNegative = false := by
  unfold ofRatio
  by_cases hnum : num = 0
  · rw [if_pos hnum]
    exact isNegative_finite.2 (.inr rfl)
  · rw [if_neg hnum, h.resolve_right hnum]
    dsimp only
    split_ifs <;> rfl

theorem isNegative_timesNat (h : x.isNegative = false) : (x.timesNat k).isNegative = false := by
  cases x with
  | nan => rfl
  | infinite negative => exact h
  | finite negative digits exponent =>
    have hzero : ∀ i, negative = false ∨ digits * k * i = 0 := fun i =>
      (isNegative_finite.1 h).imp_right fun hdigits => by rw [hdigits, Nat.zero_mul, Nat.zero_mul]
    unfold timesNat
    dsimp only
    split_ifs
    · exact isNegative_ofRatio (hzero _)
    · exact isNegative_ofRatio (by simpa using hzero 1)

theorem roundedSize_zero (exponent : ℤ) : roundedSize 0 exponent = 0 := by
  unfold roundedSize
  have hpow : 0 < Nat.pow 2 (-exponent).toNat := Nat.two_pow_pos _
  split_ifs
  · exact Nat.zero_mul _
  · exact Nat.div_eq_of_lt (by omega)

/-- A number that is not negative is not rounded below zero. -/
theorem round?_nonneg (h : x.isNegative = false) (hround : x.round? = some m) : 0 ≤ m := by
  cases x with
  | nan => exact absurd hround (by simp [round?])
  | infinite negative => exact absurd hround (by simp [round?])
  | finite negative digits exponent =>
    obtain rfl := Option.some.inj hround
    rcases isNegative_finite.1 h with rfl | rfl
    · exact Int.natCast_nonneg _
    · rw [roundedSize_zero]
      cases negative <;> exact Int.le_refl 0

end Binary64

namespace Replay

/-- An offset lets time pass, and the same time from every start. -/
theorem Offset.exists_nat {offset : Offset} {start now : Instant}
    (h : offset.after? start = some now) : ∃ d : ℕ, ∀ s, offset.after? s = s.add? d := by
  obtain ⟨millis, hmillis, _⟩ := Option.bind_eq_some_iff.1 h
  have hnonneg := Binary64.round?_nonneg (Binary64.isNegative_timesNat offset.nonnegative) hmillis
  refine ⟨millis.toNat * nanosPerMilli, fun s => ?_⟩
  unfold after?
  rw [hmillis, Int.natCast_mul, Int.toNat_of_nonneg hnonneg]
  rfl

/-- The step comes at an instant, and the lock to which it gives a timeout does not live past the
last one. -/
def Step.Fits (setting : Setting) (start : Instant) (step : Step) : Prop :=
  ∃ now ∈ step.offset.after? start, ∀ timeout ∈ step.operation.timeout? setting, now.Affords timeout

instance (setting : Setting) (start : Instant) (step : Step) :
    Decidable (step.Fits setting start) :=
  inferInstanceAs (Decidable (∃ now ∈ step.offset.after? start, _))

end Replay

/-! ## Tokens -/

/-- The tokens that follow the seeds after the same number of creates, `n` at most. -/
def SameToken (seed seed' : UInt64) (n : ℕ) (token token' : String) : Prop :=
  ∃ k, 1 ≤ k ∧ k ≤ n ∧ token = issued seed k ∧ token' = issued seed' k

theorem SameToken.eq_iff {seed seed' : UInt64} {n : ℕ} {a b x y : String}
    (h : SameToken seed seed' n a b) (h' : SameToken seed seed' n x y) : a = x ↔ b = y := by
  obtain ⟨j, _, _, rfl, rfl⟩ := h
  obtain ⟨k, _, _, rfl, rfl⟩ := h'
  rw [issued_eq_iff, issued_eq_iff]

/-- The name is no decimal numeral of 64 bits, and so never a token. -/
def IsNoNumeral (name : String) : Prop := ∀ k < 2 ^ 64, name ≠ k.repr

theorem IsNoNumeral.issued_ne {name : String} (h : IsNoNumeral name) (seed : UInt64) (k : ℕ) :
    issued seed k ≠ name :=
  (h _ (UInt64.toNat_lt _)).symm

theorem isNoNumeral_of_not_digits {name : String} (h : name.toList.all Char.isDigit = false) :
    IsNoNumeral name := by
  rintro k _ rfl
  rw [Nat.toList_repr, List.all_eq_false] at h
  obtain ⟨c, hc, hdigit⟩ := h
  exact hdigit (Nat.isDigit_of_mem_toDigits (by decide) (by decide) hc)

/-- Instants that come the same time after the starts, tokens that come after the seeds in the same
place, and names that are no tokens. -/
def Counterparts.relative (start start' : Instant) (seed seed' : UInt64) (n : ℕ) :
    Counterparts where
  token := SameToken seed seed' n
  presented token token' := SameToken seed seed' n token token' ∨ token = token' ∧ IsNoNumeral token
  instant := Instant.Shifted start start'
  presented_of_token := .inl
  token_eq_iff := by
    rintro a b x y h (h' | ⟨rfl, hname⟩)
    · exact h.eq_iff h'
    · obtain ⟨k, _, _, rfl, rfl⟩ := h
      exact iff_of_false (hname.issued_ne seed k) (hname.issued_ne seed' k)
  le_iff := Instant.Shifted.le_iff

/-! ## Runs -/

namespace Replay

variable {setting : Setting} {start start' : Instant} {seed seed' : UInt64} {n : ℕ} {step : Step}

theorem Step.Fits.suitsFrom (h : step.Fits setting start) (h' : step.Fits setting start')
    (hnames : ∀ name ∈ step.operation.tokenNames, IsNoNumeral name) :
    (Counterparts.relative start start' seed seed' n).SuitsFrom setting start start' step := by
  obtain ⟨now, hnow, hlast⟩ := h
  obtain ⟨now', hnow', hlast'⟩ := h'
  obtain ⟨d, hd⟩ := Offset.exists_nat hnow
  have hshifted : Instant.Shifted start start' now now' :=
    .of_add? ((hd start).symm.trans hnow) ((hd start').symm.trans hnow')
  refine ⟨now, now', hnow, hnow', hshifted, fun timeout htimeout => ?_, fun name hname => ?_⟩
  · exact hshifted.expiry (hlast timeout htimeout) (hlast' timeout htimeout)
  · exact .inr ⟨rfl, hnames name hname⟩

namespace Script

/-- However far the same steps are run, from two starts and with two seeds: both runs fail with the
same error, or all outcomes are the same, and so are the reports, except that the tokens of one seed
stand for those of the other, and that instants are shifted by the difference of the starts. -/
theorem run_relative (steps : List Step) (setting : Setting) (start start' : Option Instant)
    (seed seed' : UInt64) (hcreates : creates steps ≤ UInt64.size)
    (hnames : ∀ step ∈ steps, ∀ name ∈ step.operation.tokenNames, ∀ k < 2 ^ 64, name ≠ k.repr)
    (hfits : ∀ step ∈ steps, step.Fits setting (start.getD setting.start) ∧
      step.Fits setting (start'.getD setting.start)) :
    ∀ done, done <+: steps →
      SameResult (fun reports reports' =>
          List.Forall₂ (Counterparts.relative (start.getD setting.start)
            (start'.getD setting.start) seed seed' (creates done)).Reports reports reports' ∧
          reports.map Report.outcome = reports'.map Report.outcome)
        (Script.run ⟨start, done⟩ setting seed) (Script.run ⟨start', done⟩ setting seed') := by
  intro done hdone
  have hsuits : ∀ step ∈ done, (Counterparts.relative (start.getD setting.start)
      (start'.getD setting.start) seed seed' (creates done)).SuitsFrom setting
        (start.getD setting.start) (start'.getD setting.start) step := by
    intro step hstep
    have hin := hdone.subset hstep
    exact (hfits step hin).1.suitsFrom (hfits step hin).2 (hnames step hin)
  have hnext : ∀ k < creates done,
      SameToken seed seed' (creates done) (issued seed (k + 1)) (issued seed' (k + 1)) :=
    fun k hk => ⟨k + 1, Nat.le_add_left 1 k, hk, rfl, rfl⟩
  have hruns := (Counterparts.states_start _ seed seed').steps (Nat.zero_add _).le
    ((creates_mono hdone).trans hcreates) hnext hsuits 1
  rw [run_eq, run_eq]
  refine hruns.map fun hsame => ⟨hsame.1, ?_⟩
  exact List.forall₂_eq_eq_eq ▸ List.rel_map (fun _ _ h => h.outcome_eq) hsame.1

/-- After a second and a half. -/
def soon : Offset := ⟨.ofRatio false 3 2, by decide +kernel, by decide +kernel⟩

/-- After a minute and a second. -/
def later : Offset := ⟨.ofRatio false 61 1, by decide +kernel, by decide +kernel⟩

/-- A create is refused, so that its label does not stand for a token when it is presented. What is
claimed outlives its minute, and is released twice at last. -/
def labelled : List Step :=
  [⟨soon, none, .create "/a" none false none (some "lock")⟩,
    ⟨soon, none, .create "/a/b" (some "Second-5") false none (some "inner")⟩,
    ⟨soon, none, .unlock "inner"⟩,
    ⟨soon, none, .confirm ["/a/b"] ["inner", "lock"] (some "claim")⟩,
    ⟨later, none, .lookup "/a"⟩,
    ⟨later, none, .create "/c" (some "Infinite") true none (some "inner")⟩,
    ⟨later, none, .release "claim"⟩,
    ⟨later, none, .refresh "inner" (some "Second-1")⟩,
    ⟨later, none, .release "claim"⟩]

/-- A quarter of a second before the end of a day. -/
def lateInDay : Instant := ⟨86399, 750000000, by decide, by decide, by decide⟩

/-- The second token of the second run is counted from the start again. -/
theorem run_relative_labelled :
    creates labelled ≤ UInt64.size ∧
      (∀ step ∈ labelled, ∀ name ∈ step.operation.tokenNames, ∀ k < 2 ^ 64, name ≠ k.repr) ∧
      (∀ step ∈ labelled, step.Fits minute .epoch ∧ step.Fits minute lateInDay) ∧
      SameResult (fun reports reports' =>
          List.Forall₂ (Counterparts.relative .epoch lateInDay 7 (2 ^ 64 - 2) 3).Reports
            reports reports' ∧
          reports.map Report.outcome = reports'.map Report.outcome)
        (Script.run ⟨none, labelled.dropLast⟩ minute 7)
        (Script.run ⟨some lateInDay, labelled.dropLast⟩ minute (2 ^ 64 - 2)) ∧
      ∃ e, Script.run ⟨none, labelled⟩ minute 7 = .error e ∧
        Script.run ⟨some lateInDay, labelled⟩ minute (2 ^ 64 - 2) = .error e := by
  have hcreates : creates labelled ≤ UInt64.size := by decide +kernel
  have hnames : ∀ step ∈ labelled, ∀ name ∈ step.operation.tokenNames, IsNoNumeral name := by
    have hdigits : ∀ step ∈ labelled, ∀ name ∈ step.operation.tokenNames,
        name.toList.all Char.isDigit = false := by decide +kernel
    exact fun step hstep name hname => isNoNumeral_of_not_digits (hdigits step hstep name hname)
  have hfits : ∀ step ∈ labelled, step.Fits minute .epoch ∧ step.Fits minute lateInDay := by
    decide +kernel
  have hsame := run_relative labelled minute none (some lateInDay) 7 (2 ^ 64 - 2) hcreates hnames
    hfits
  have hfails : (Script.run ⟨none, labelled⟩ minute 7).toOption.isNone = true := by decide +kernel
  refine ⟨hcreates, hnames, hfits, hsame _ (List.dropLast_prefix _), ?_⟩
  have hall := hsame labelled List.prefix_rfl
  cases hrun : Script.run ⟨none, labelled⟩ minute 7 with
  | ok reports =>
    rw [hrun] at hfails
    exact absurd hfails Bool.noConfusion
  | error e =>
    rw [hrun] at hall
    generalize Script.run ⟨some lateInDay, labelled⟩ minute (2 ^ 64 - 2) = run' at hall
    cases hall
    exact ⟨e, rfl, rfl⟩

-- The findings of the second run up to its mistake.
example : ((Script.run ⟨some lateInDay, labelled.dropLast⟩ minute (2 ^ 64 - 2)).map
      (·.map Report.outcome)).toOption =
    some [.ok, .locked, .noSuchLock, .ok, .ok, .ok, .ok, .ok] := by
  decide +kernel

end Script

end Replay

end PathLock
