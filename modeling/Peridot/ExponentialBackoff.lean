import Mathlib.Algebra.Order.Ring.Int
import Mathlib.Data.List.Forall2
import Mathlib.Tactic.Linarith

/-!
# Exponential backoff

`ExponentialBackoff` of `exponential_backoff.cc`.  A `TimeDelta` is a 64-bit signed number of
nanoseconds, and an operation that overflows has no result.
-/

namespace Peridot

namespace TimeDelta

def Fits (nanoseconds : ℤ) : Prop :=
  -2 ^ 63 ≤ nanoseconds ∧ nanoseconds < 2 ^ 63
deriving Decidable

def checked (nanoseconds : ℤ) : Option ℤ :=
  if Fits nanoseconds then some nanoseconds else none

theorem checked_of_fits {nanoseconds : ℤ} (fits : Fits nanoseconds) :
    checked nanoseconds = some nanoseconds :=
  if_pos fits

def fromMilliseconds (milliseconds : ℤ) : Option ℤ :=
  checked (milliseconds * 1000000)

def toMilliseconds (nanoseconds : ℤ) : ℤ :=
  nanoseconds.tdiv 1000000

end TimeDelta

open TimeDelta

/-- The arguments of the constructor, which checks them, in the types in which it gets them. -/
structure BackoffDelays where
  initialDelay : ℤ
  retryFactor : ℕ
  maxDelay : ℤ
  initialDelay_nonneg : 0 ≤ initialDelay
  initialDelay_le : initialDelay ≤ maxDelay
  retryFactor_pos : 0 < retryFactor
  retryFactor_lt : retryFactor < 2 ^ 32
  maxDelay_fits : Fits maxDelay

structure ExponentialBackoff where
  delays : BackoffDelays
  nextDelay : ℤ

/-- A call, with what `distribution(rng_)` draws for each upper bound. -/
inductive BackoffCall where
  | getNext (distribution : (upper : ℕ) → Fin (upper + 1))
  | reset

variable {delay : ℤ}

namespace BackoffDelays

/-- What the constructor gives that takes no delays: 100 milliseconds, 2 and an hour. -/
def default : BackoffDelays :=
  ⟨100 * 1000000, 2, 60 * 60 * 1000000000, by decide, by decide, by decide, by decide, by decide⟩

variable (delays : BackoffDelays)

def maxDelayDividedByFactor : ℤ :=
  delays.maxDelay.tdiv delays.retryFactor

theorem maxDelay_nonneg : 0 ≤ delays.maxDelay :=
  delays.initialDelay_nonneg.trans delays.initialDelay_le

theorem fits_of_le (nonneg : 0 ≤ delay) (le : delay ≤ delays.maxDelay) : Fits delay := by
  have upper := delays.maxDelay_fits.2
  exact ⟨by omega, by omega⟩

theorem le_maxDelayDividedByFactor (delay : ℤ) :
    delay ≤ delays.maxDelayDividedByFactor ↔ delay * delays.retryFactor ≤ delays.maxDelay := by
  have positive : (0 : ℤ) < delays.retryFactor := by exact_mod_cast delays.retryFactor_pos
  rw [maxDelayDividedByFactor, Int.tdiv_eq_ediv_of_nonneg delays.maxDelay_nonneg,
    Int.le_ediv_iff_mul_le positive]

/-- The delay that grows with the number of calls. -/
def delayAfter (count : ℕ) : ℤ :=
  min delays.maxDelay (delays.initialDelay * (delays.retryFactor : ℤ) ^ count)

theorem delayAfter_zero : delays.delayAfter 0 = delays.initialDelay := by
  rw [delayAfter, pow_zero, mul_one]
  exact min_eq_right delays.initialDelay_le

variable (count : ℕ)

theorem delayAfter_le : delays.delayAfter count ≤ delays.maxDelay :=
  min_le_left _ _

theorem delayAfter_nonneg : 0 ≤ delays.delayAfter count := by
  refine le_min delays.maxDelay_nonneg ?_
  exact mul_nonneg delays.initialDelay_nonneg (pow_nonneg (Int.natCast_nonneg _) _)

/-- The growth is by the factor, up to the largest delay. -/
theorem delayAfter_succ : delays.delayAfter (count + 1) =
    min delays.maxDelay (delays.delayAfter count * delays.retryFactor) := by
  have atLeastOne : (1 : ℤ) ≤ delays.retryFactor := by exact_mod_cast delays.retryFactor_pos
  have grown : delays.initialDelay * (delays.retryFactor : ℤ) ^ (count + 1) =
      delays.initialDelay * (delays.retryFactor : ℤ) ^ count * delays.retryFactor := by
    rw [pow_succ, mul_assoc]
  rw [delayAfter, delayAfter, grown]
  rcases le_total delays.maxDelay (delays.initialDelay * (delays.retryFactor : ℤ) ^ count) with
    capped | below
  · -- A delay that has reached the cap stays there, since the factor is at least one.
    have nonneg := delays.maxDelay_nonneg
    have more : delays.maxDelay ≤ delays.maxDelay * delays.retryFactor :=
      le_mul_of_one_le_right nonneg atLeastOne
    have capped' : delays.maxDelay * delays.retryFactor ≤
        delays.initialDelay * (delays.retryFactor : ℤ) ^ count * delays.retryFactor :=
      mul_le_mul_of_nonneg_right capped (by omega)
    rw [min_eq_left capped, min_eq_left more, min_eq_left (more.trans capped')]
  · rw [min_eq_right below]

end BackoffDelays

namespace ExponentialBackoff

def new (delays : BackoffDelays) : ExponentialBackoff :=
  ⟨delays, delays.initialDelay⟩

def getNext (backoff : ExponentialBackoff) (distribution : (upper : ℕ) → Fin (upper + 1)) :
    Option (ℤ × ExponentialBackoff) := do
  let drawn := distribution (toMilliseconds backoff.nextDelay % 2 ^ 64).toNat
  let r ← fromMilliseconds drawn
  let room ← checked (backoff.delays.maxDelay - r)
  let result ← (if room ≥ backoff.nextDelay then checked (backoff.nextDelay + r)
    else some backoff.delays.maxDelay)
  let nextDelay ← (if backoff.nextDelay ≤ backoff.delays.maxDelayDividedByFactor then
      checked (backoff.nextDelay * backoff.delays.retryFactor)
    else some backoff.delays.maxDelay)
  return (result, { backoff with nextDelay })

def reset (backoff : ExponentialBackoff) : ExponentialBackoff :=
  { backoff with nextDelay := backoff.delays.initialDelay }

/-- The results of the calls of `GetNext`, in their order. -/
def run : ExponentialBackoff → List BackoffCall → Option (List ℤ)
  | _, [] => some []
  | backoff, .reset :: calls => run backoff.reset calls
  | backoff, .getNext distribution :: calls => do
    let (result, next) ← backoff.getNext distribution
    let results ← run next calls
    return result :: results

/-- For each call of `GetNext` the number of those before it since the last `Reset`, where
`count` have been before the first one. -/
def numbers : ℕ → List BackoffCall → List ℕ
  | _, [] => []
  | _, .reset :: calls => numbers 0 calls
  | count, .getNext _ :: calls => count :: numbers (count + 1) calls

/-- What the documentation promises: a delay that grows, and a random part of at most it. -/
def Promised (delays : BackoffDelays) (count : ℕ) (result : ℤ) : Prop :=
  ∃ r, 0 ≤ r ∧ r ≤ delays.delayAfter count ∧
    result = min delays.maxDelay (delays.delayAfter count + r)

theorem drawn_le (nonneg : 0 ≤ delay) (fits : Fits delay)
    (distribution : (upper : ℕ) → Fin (upper + 1)) :
    ((distribution (toMilliseconds delay % 2 ^ 64).toNat : ℕ) : ℤ) * 1000000 ≤ delay := by
  have upper := fits.2
  have whole := Int.ediv_mul_le delay (show (1000000 : ℤ) ≠ 0 by decide)
  have milliseconds : toMilliseconds delay = delay / 1000000 := Int.tdiv_eq_ediv_of_nonneg nonneg
  have drawn := (distribution (toMilliseconds delay % 2 ^ 64).toNat).isLt
  omega

variable (delays : BackoffDelays)
include delays

theorem result_eq {r : ℤ} (r_nonneg : 0 ≤ r) (r_le : r ≤ delay) :
    (if delays.maxDelay - r ≥ delay then checked (delay + r) else some delays.maxDelay) =
      some (min delays.maxDelay (delay + r)) := by
  by_cases fits : delays.maxDelay - r ≥ delay
  · have below : delay + r ≤ delays.maxDelay := by omega
    rw [if_pos fits, checked_of_fits (delays.fits_of_le (by omega) below), min_eq_right below]
  · rw [if_neg fits, min_eq_left (by omega)]

/-- The division made beforehand decides exactly whether the product stays below the cap. -/
theorem nextDelay_eq (count : ℕ) : (if delays.delayAfter count ≤ delays.maxDelayDividedByFactor then
      checked (delays.delayAfter count * delays.retryFactor)
    else some delays.maxDelay) = some (delays.delayAfter (count + 1)) := by
  rw [delays.delayAfter_succ]
  have nonneg : 0 ≤ delays.delayAfter count * delays.retryFactor :=
    mul_nonneg (delays.delayAfter_nonneg count) (Int.natCast_nonneg _)
  by_cases below : delays.delayAfter count ≤ delays.maxDelayDividedByFactor
  · have product := (delays.le_maxDelayDividedByFactor _).mp below
    rw [if_pos below, checked_of_fits (delays.fits_of_le nonneg product), min_eq_right product]
  · have product := (delays.le_maxDelayDividedByFactor _).not.mp below
    rw [if_neg below, min_eq_left (by omega)]

theorem getNext_eq (count : ℕ) (distribution : (upper : ℕ) → Fin (upper + 1)) :
    ∃ result, Promised delays count result ∧
      getNext ⟨delays, delays.delayAfter count⟩ distribution =
        some (result, ⟨delays, delays.delayAfter (count + 1)⟩) := by
  have nonneg := delays.delayAfter_nonneg count
  have capped := delays.delayAfter_le count
  have small := drawn_le nonneg (delays.fits_of_le nonneg capped) distribution
  simp only [getNext]
  generalize ((distribution (toMilliseconds (delays.delayAfter count) % 2 ^ 64).toNat : ℕ)) =
    drawn at small ⊢
  have r_nonneg : (0 : ℤ) ≤ (drawn : ℤ) * 1000000 := by omega
  have drawnFits : fromMilliseconds drawn = some ((drawn : ℤ) * 1000000) :=
    checked_of_fits (delays.fits_of_le r_nonneg (small.trans capped))
  have roomFits : checked (delays.maxDelay - (drawn : ℤ) * 1000000) =
      some (delays.maxDelay - (drawn : ℤ) * 1000000) :=
    checked_of_fits (delays.fits_of_le (by omega) (by omega))
  refine ⟨_, ⟨_, r_nonneg, small, rfl⟩, ?_⟩
  simp [drawnFits, roomFits, result_eq delays r_nonneg small, nextDelay_eq delays count]

theorem run_eq (calls : List BackoffCall) (count : ℕ) :
    ∃ results, run ⟨delays, delays.delayAfter count⟩ calls = some results ∧
      List.Forall₂ (Promised delays) (numbers count calls) results := by
  induction calls generalizing count with
  | nil => exact ⟨[], rfl, .nil⟩
  | cons call calls ih =>
    cases call with
    | reset =>
      obtain ⟨results, isRun, promised⟩ := ih 0
      rw [delays.delayAfter_zero] at isRun
      exact ⟨results, isRun, promised⟩
    | getNext distribution =>
      obtain ⟨result, isPromised, isNext⟩ := getNext_eq delays count distribution
      obtain ⟨results, isRun, promised⟩ := ih (count + 1)
      refine ⟨result :: results, ?_, .cons isPromised promised⟩
      simp [run, isNext, isRun]

/-- No operation overflows in any number of calls, and each result is the promised one for the
number of calls since the last `Reset`. -/
theorem getNext_promised (calls : List BackoffCall) :
    ∃ results, (new delays).run calls = some results ∧
      List.Forall₂ (Promised delays) (numbers 0 calls) results := by
  have run := run_eq delays calls 0
  rwa [delays.delayAfter_zero] at run

end ExponentialBackoff

end Peridot
