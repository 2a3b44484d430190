import Mathlib.Data.List.GetD
import Peridot.LinkChange
import Peridot.StepRun

/-!
# The order of generated keys

Keys are compared byte by byte.  Of two texts of one length the order is that of the numbers they
encode, since the dictionary is in the order of its digits.  A key has the time in front of the
random number, of which it encodes sixty bits only.
-/

namespace Peridot

open List

section Lexicographic

variable {α : Type} [LinearOrder α]

theorem append_lt_append_iff {first second : List α} (sameLength : first.length = second.length)
    (firstRest secondRest : List α) : first ++ firstRest < second ++ secondRest ↔
      first < second ∨ first = second ∧ firstRest < secondRest := by
  induction first generalizing second with
  | nil =>
    obtain rfl := length_eq_zero_iff.mp sameLength.symm
    simp
  | cons element first ih =>
    cases second with
    | nil => simp at sameLength
    | cons other second =>
      have tails : first.length = second.length := by simpa using sameLength
      simp only [cons_append, cons_lt_cons_iff, ih tails, cons.injEq]
      by_cases same : element = other
      · simp [same]
      · simp [same]

end Lexicographic

theorem kEncodingDictionary_increasing : kEncodingDictionary.Pairwise (· < ·) := by
  rw [← isChain_iff_pairwise]
  decide +kernel

theorem digit_lt_digit {first second : ℕ} (isLess : first < second) (isDigit : second < 64) :
    kEncodingDictionary.getD first 0 < kEncodingDictionary.getD second 0 := by
  have inFirst : first < kEncodingDictionary.length := isLess.trans isDigit
  have inSecond : second < kEncodingDictionary.length := isDigit
  rw [getD_eq_getElem _ _ inFirst, getD_eq_getElem _ _ inSecond]
  exact pairwise_iff_getElem.mp kEncodingDictionary_increasing _ _ inFirst inSecond isLess

/-- The digits are in the order of the numbers they stand for. -/
theorem digit_lt_iff {first second : ℕ} (firstDigit : first < 64) (secondDigit : second < 64) :
    kEncodingDictionary.getD first 0 < kEncodingDictionary.getD second 0 ↔ first < second := by
  rcases lt_trichotomy first second with isLess | rfl | isGreater
  · exact iff_of_true (digit_lt_digit isLess secondDigit) isLess
  · exact iff_of_false (lt_irrefl _) (lt_irrefl _)
  · exact iff_of_false (digit_lt_digit isGreater firstDigit).asymm isGreater.asymm

theorem length_encodeDigits (count number : ℕ) : (encodeDigits count number).length = count := by
  induction count generalizing number with
  | zero => rfl
  | succ count ih => simp [encodeDigits, ih]

theorem mod_pow_succ (count number : ℕ) :
    number % 64 ^ (count + 1) = 64 * (number / 64 % 64 ^ count) + number % 64 := by
  rw [Nat.pow_succ', Nat.mod_mul, Nat.add_comm]

theorem encodeDigits_eq_iff (count first second : ℕ) :
    encodeDigits count first = encodeDigits count second ↔
      first % 64 ^ count = second % 64 ^ count := by
  induction count generalizing first second with
  | zero => simp [encodeDigits, Nat.mod_one]
  | succ count ih =>
    have firstDigit : first % 64 < 64 := Nat.mod_lt _ (by omega)
    have secondDigit : second % 64 < 64 := Nat.mod_lt _ (by omega)
    have sameDigit : kEncodingDictionary.getD (first % 64) 0 =
        kEncodingDictionary.getD (second % 64) 0 ↔ first % 64 = second % 64 := by
      have isLess := digit_lt_iff firstDigit secondDigit
      have isGreater := digit_lt_iff secondDigit firstDigit
      constructor
      · intro same
        rw [same] at isLess isGreater
        simp only [lt_self_iff_false, false_iff] at isLess isGreater
        omega
      · intro same
        rw [same]
    rw [encodeDigits, encodeDigits, append_singleton_inj, ih, sameDigit, mod_pow_succ, mod_pow_succ]
    omega

/-- Texts of one length are in the order of the lowest digits of their numbers. -/
theorem encodeDigits_lt_iff (count first second : ℕ) :
    encodeDigits count first < encodeDigits count second ↔
      first % 64 ^ count < second % 64 ^ count := by
  induction count generalizing first second with
  | zero => simp [encodeDigits, Nat.mod_one]
  | succ count ih =>
    have firstDigit : first % 64 < 64 := Nat.mod_lt _ (by omega)
    have secondDigit : second % 64 < 64 := Nat.mod_lt _ (by omega)
    have sameLength : (encodeDigits count (first / 64)).length =
        (encodeDigits count (second / 64)).length := by
      rw [length_encodeDigits, length_encodeDigits]
    rw [encodeDigits, encodeDigits, append_lt_append_iff sameLength, ih, encodeDigits_eq_iff,
      cons_lt_cons_iff, digit_lt_iff firstDigit secondDigit, mod_pow_succ, mod_pow_succ]
    simp only [lt_self_iff_false, and_false, or_false]
    omega

namespace KeyGenerator

def initial : KeyGenerator := ⟨0, 0⟩

def lastKey (generator : KeyGenerator) : Bytes :=
  encodeDigits 8 generator.lastGenTime.toNat ++ encodeDigits 10 generator.lastRandom.toNat

/-- The generator after a call, given what the clock and the random numbers give to it. -/
def afterCreate (generator : KeyGenerator) (call : UInt64 × UInt64) : Option KeyGenerator :=
  some (generator.create call.1 call.2).2

def createAll : KeyGenerator → List (UInt64 × UInt64) → List Bytes
  | _, [] => []
  | generator, call :: calls =>
    (generator.create call.1 call.2).1 :: createAll (generator.create call.1 call.2).2 calls

/-- The next number of the same millisecond does not carry out of the bits that are encoded. -/
def HasRoom (generator : KeyGenerator) (call : UInt64 × UInt64) : Prop :=
  call.1 = generator.lastGenTime → generator.lastRandom.toNat % 64 ^ 10 ≠ 64 ^ 10 - 1
deriving Decidable

theorem create_fst (generator : KeyGenerator) (milliseconds randomNumber : UInt64) :
    (generator.create milliseconds randomNumber).1 =
      (generator.create milliseconds randomNumber).2.lastKey := rfl

/-- One more is one more in the digits too, unless all of them are the last one. -/
theorem next_random_lt_iff (random : UInt64) :
    encodeDigits 10 random.toNat < encodeDigits 10 (random + 1).toNat ↔
      random.toNat % 64 ^ 10 ≠ 64 ^ 10 - 1 := by
  rw [encodeDigits_lt_iff, UInt64.toNat_add]
  simp only [UInt64.reduceToNat]
  omega

/-- A key is after the last one exactly if the random number has room. -/
theorem lastKey_lt_create_iff (generator : KeyGenerator) {call : UInt64 × UInt64}
    (notBack : generator.lastGenTime ≤ call.1) (inDigits : call.1.toNat < 64 ^ 8) :
    generator.lastKey < (generator.create call.1 call.2).1 ↔ generator.HasRoom call := by
  have sameLength : (encodeDigits 8 generator.lastGenTime.toNat).length =
      (encodeDigits 8 call.1.toNat).length := by
    rw [length_encodeDigits, length_encodeDigits]
  rw [lastKey, create, append_lt_append_iff sameLength, encodeDigits_lt_iff, encodeDigits_eq_iff]
  have ordered : generator.lastGenTime.toNat ≤ call.1.toNat := notBack
  by_cases sameTime : call.1 = generator.lastGenTime
  · simp only [sameTime, lt_self_iff_false, false_or, true_and, if_true, HasRoom, true_imp_iff]
    exact next_random_lt_iff generator.lastRandom
  · have isLess : generator.lastGenTime.toNat % 64 ^ 8 < call.1.toNat % 64 ^ 8 := by
      have different : call.1.toNat ≠ generator.lastGenTime.toNat := fun same =>
        sameTime (UInt64.toNat_inj.mp same)
      rw [Nat.mod_eq_of_lt inDigits, Nat.mod_eq_of_lt (by omega)]
      omega
    exact iff_of_true (.inl isLess) fun same => absurd same sameTime

/-- The last key and those that follow it, for a clock that goes on from the last time. -/
theorem lastKey_createAll_iff {generator : KeyGenerator} {calls : List (UInt64 × UInt64)}
    (notBack : (generator.lastGenTime :: calls.map Prod.fst).IsChain (· ≤ ·))
    (inDigits : ∀ call ∈ calls, call.1.toNat < 64 ^ 8) :
    (generator.lastKey :: generator.createAll calls).IsChain (· < ·) ↔
      EachStep afterCreate HasRoom generator calls := by
  induction calls generalizing generator with
  | nil => simp [createAll, EachStep]
  | cons call calls ih =>
    obtain ⟨notBefore, notBack⟩ := isChain_cons_cons.mp notBack
    have nextTime : (generator.create call.1 call.2).2.lastGenTime = call.1 := rfl
    have laterDigits := fun other isOther => inDigits other (mem_cons_of_mem call isOther)
    have others := @ih (generator.create call.1 call.2).2 notBack laterDigits
    rw [createAll, isChain_cons_cons, create_fst, others, ← create_fst,
      lastKey_lt_create_iff generator notBefore (inDigits call (mem_cons_self ..)), eachStep_cons]
    simp [afterCreate]

theorem initial_hasRoom (call : UInt64 × UInt64) : initial.HasRoom call := by
  intro _ isLast
  exact absurd isLast (by decide)

/-- For a clock that never goes back, the keys increase exactly if no random number is carried out
of the bits that are encoded. -/
theorem createAll_increasing_iff (calls : List (UInt64 × UInt64))
    (notBack : (calls.map Prod.fst).Pairwise (· ≤ ·))
    (inDigits : ∀ call ∈ calls, call.1.toNat < 64 ^ 8) :
    (initial.createAll calls).Pairwise (· < ·) ↔ EachStep afterCreate HasRoom initial calls := by
  have fromStart : (initial.lastGenTime :: calls.map Prod.fst).IsChain (· ≤ ·) := by
    rw [isChain_iff_pairwise, pairwise_cons]
    exact ⟨fun time _ => UInt64.zero_le, notBack⟩
  rw [← lastKey_createAll_iff fromStart inDigits, ← isChain_iff_pairwise]
  cases calls with
  | nil => simp [createAll]
  | cons call calls =>
    have isFirst : initial.lastKey < (initial.create call.1 call.2).1 :=
      (lastKey_lt_create_iff initial UInt64.zero_le (inDigits call (mem_cons_self ..))).mpr
        (initial_hasRoom call)
    rw [createAll, isChain_cons_cons, and_iff_right isFirst]

/-- Three calls, two of them in one millisecond. -/
theorem createAll_increasing_iff_sample :
    (initial.createAll [(5, 63), (5, 1), (6, 0)]).Pairwise (· < ·) :=
  (createAll_increasing_iff [(5, 63), (5, 1), (6, 0)] (by decide) (by simp)).mpr (by decide)

/-- Sixty bits of one are followed by zeros in the same millisecond. -/
theorem not_createAll_increasing :
    ¬(∀ calls : List (UInt64 × UInt64), (calls.map Prod.fst).Pairwise (· ≤ ·) →
      (∀ call ∈ calls, call.1.toNat < 64 ^ 8) → (initial.createAll calls).Pairwise (· < ·)) := by
  intro increasing
  have keys := increasing [(5, 1152921504606846975), (5, 0)] (by decide) (by simp)
  exact absurd keys (by decide)

end KeyGenerator

end Peridot
