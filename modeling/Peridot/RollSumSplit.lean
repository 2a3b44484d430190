import Peridot.StorageTypes

/-!
# The rolling hash

`bup::RollSumSplit` of `third_party/bup`: a checksum of the last 64 bytes of a stream,
which decides where the stream is cut.  A cut resets the length of the current piece only,
so the cuts of a stream depend on its bytes and not on how these are divided between calls
of `Feed`.
-/

namespace Peridot

open List

def kRollsumCharOffset : UInt64 :=
  31

def kBlobBits : Nat :=
  13

def kBlobSize : UInt64 :=
  8192

def kWindowSize : Nat :=
  64

/-- The state of `RollSumSplit`. -/
structure RollSumSplit where
  minLength : Nat
  maxLength : Nat
  currentLength : Nat
  s1 : UInt64
  s2 : UInt64
  window : Bytes
  windowIndex : Nat

namespace RollSumSplit

/-- The constructor, with its `Reset`. -/
def new (minLength maxLength : Nat) : RollSumSplit where
  minLength := minLength
  maxLength := maxLength
  currentLength := 0
  s1 := UInt64.ofNat kWindowSize * kRollsumCharOffset
  s2 := UInt64.ofNat kWindowSize * (UInt64.ofNat kWindowSize - 1) * kRollsumCharOffset
  window := List.replicate kWindowSize 0
  windowIndex := 0

def add (roll : RollSumSplit) (drop added : UInt8) : RollSumSplit :=
  let s1 := roll.s1 + (added.toUInt64 - drop.toUInt64)
  { roll with
    s1
    s2 := roll.s2 + (s1 - UInt64.ofNat kWindowSize * (drop.toUInt64 + kRollsumCharOffset)) }

def roll (roll : RollSumSplit) (c : UInt8) : RollSumSplit :=
  { roll.add (roll.window.getD roll.windowIndex 0) c with
    window := roll.window.set roll.windowIndex c
    windowIndex := (roll.windowIndex + 1) % kWindowSize }

def digest (roll : RollSumSplit) : UInt32 :=
  ((roll.s1 <<< 16) ||| (roll.s2 &&& 0xffff)).toUInt32

/-- The loop of `Feed` that counts the bits: a word of 32 bits has no more of them. -/
def countOnes : Nat → UInt32 → Nat
  | 0, _ => 0
  | fuel + 1, rsum =>
    if (rsum >>> 1) &&& 1 = 1 then countOnes fuel (rsum >>> 1) + 1 else 0

/-- The number of bits that `Feed` reports at a cut. -/
def bits (roll : RollSumSplit) : Nat :=
  kBlobBits + countOnes 32 (roll.digest >>> UInt32.ofNat kBlobBits)

/-- One byte of the loop of `Feed`. -/
def advance (roll : RollSumSplit) (c : UInt8) : RollSumSplit :=
  { roll.roll c with currentLength := roll.currentLength + 1 }

/-- The test of `Feed` for a cut. -/
def isCut (roll : RollSumSplit) : Bool :=
  roll.minLength ≤ roll.currentLength ∧
    (roll.s2 &&& (kBlobSize - 1) = kBlobSize - 1 ∨ roll.maxLength ≤ roll.currentLength)

def restart (roll : RollSumSplit) : RollSumSplit :=
  { roll with currentLength := 0 }

/-- `Feed`: the position of the next cut and its bits, unless all bytes were used up. -/
def feed : RollSumSplit → Bytes → RollSumSplit × Option (Nat × Nat)
  | roll, [] => (roll, none)
  | roll, c :: buffer =>
    let next := roll.advance c
    if next.isCut then (next.restart, some (1, next.bits))
    else
      let (last, cut) := next.feed buffer
      (last, cut.map fun found => (found.1 + 1, found.2))

/-- What the rolling hash makes of a stream: the pieces it cuts off, each with its bits, and
the state and the bytes that are left after the last cut. -/
structure Cuts where
  pieces : List (Bytes × Nat)
  roll : RollSumSplit
  rest : Bytes

/-- The cuts of `data`, behind the `pending` bytes since the last cut. -/
def cuts (roll : RollSumSplit) (pending : Bytes) : Bytes → Cuts
  | [] => ⟨[], roll, pending⟩
  | c :: data =>
    let next := roll.advance c
    if next.isCut then
      let after := next.restart.cuts [] data
      ⟨(pending ++ [c], next.bits) :: after.pieces, after.roll, after.rest⟩
    else next.cuts (pending ++ [c]) data

variable {roll : RollSumSplit} {pending buffer data : Bytes}

@[simp]
theorem cuts_nil : roll.cuts pending [] = ⟨[], roll, pending⟩ := by simp only [cuts]

theorem cuts_cons_of_isCut {c : UInt8} (isCut : (roll.advance c).isCut = true) :
    roll.cuts pending (c :: data) = ⟨(pending ++ [c], (roll.advance c).bits) ::
          ((roll.advance c).restart.cuts [] data).pieces,
        ((roll.advance c).restart.cuts [] data).roll,
        ((roll.advance c).restart.cuts [] data).rest⟩ := by
  simp only [cuts, if_pos isCut]

theorem cuts_cons_of_not_isCut {c : UInt8} (notCut : ¬(roll.advance c).isCut = true) :
    roll.cuts pending (c :: data) = (roll.advance c).cuts (pending ++ [c]) data := by
  simp only [cuts, if_neg notCut]

theorem cuts_append (first second : Bytes) : roll.cuts pending (first ++ second) =
    ⟨(roll.cuts pending first).pieces ++
        ((roll.cuts pending first).roll.cuts (roll.cuts pending first).rest second).pieces,
      ((roll.cuts pending first).roll.cuts (roll.cuts pending first).rest second).roll,
      ((roll.cuts pending first).roll.cuts (roll.cuts pending first).rest second).rest⟩ := by
  induction first generalizing roll pending with
  | nil => simp
  | cons c first ih =>
    by_cases isCut : (roll.advance c).isCut = true
    · simp [cuts_cons_of_isCut isCut, ih]
    · simp [cuts_cons_of_not_isCut isCut, ih]

theorem cuts_flatten (data : Bytes) :
    ((roll.cuts pending data).pieces.map Prod.fst).flatten ++ (roll.cuts pending data).rest =
      pending ++ data := by
  induction data generalizing roll pending with
  | nil => simp
  | cons c data ih =>
    by_cases isCut : (roll.advance c).isCut = true
    · rw [cuts_cons_of_isCut isCut, map_cons, flatten_cons, append_assoc, ih,
        nil_append, append_assoc, singleton_append]
    · simp [cuts_cons_of_not_isCut isCut, ih]

theorem cuts_of_feed_none (notFound : (roll.feed buffer).2 = none) :
    roll.cuts pending buffer = ⟨[], (roll.feed buffer).1, pending ++ buffer⟩ := by
  induction buffer generalizing roll pending with
  | nil => simp [feed]
  | cons c buffer ih =>
    by_cases isCut : (roll.advance c).isCut = true
    · simp [feed, isCut] at notFound
    · simp only [feed, if_neg isCut, Option.map_eq_none_iff] at notFound
      simp [cuts_cons_of_not_isCut isCut, ih notFound, feed, if_neg isCut]

theorem cuts_of_feed_some {index found : Nat}
    (atCut : (roll.feed buffer).2 = some (index, found)) : 0 < index ∧ index ≤ buffer.length ∧
      roll.cuts pending buffer = ⟨(pending ++ buffer.take index, found) ::
            ((roll.feed buffer).1.cuts [] (buffer.drop index)).pieces,
          ((roll.feed buffer).1.cuts [] (buffer.drop index)).roll,
          ((roll.feed buffer).1.cuts [] (buffer.drop index)).rest⟩ := by
  induction buffer generalizing roll pending index with
  | nil => simp [feed] at atCut
  | cons c buffer ih =>
    by_cases isCut : (roll.advance c).isCut = true
    · simp only [feed, if_pos isCut, Option.some.injEq, Prod.mk.injEq] at atCut
      obtain ⟨rfl, rfl⟩ := atCut
      refine ⟨Nat.one_pos, by simp, ?_⟩
      simp [cuts_cons_of_isCut isCut, feed, if_pos isCut]
    · simp only [feed, if_neg isCut, Option.map_eq_some_iff, Prod.exists, Prod.mk.injEq] at atCut
      obtain ⟨before, bits, atRest, rfl, rfl⟩ := atCut
      obtain ⟨-, inRest, same⟩ := @ih _ (pending ++ [c]) _ atRest
      refine ⟨Nat.succ_pos before, by simpa using inRest, ?_⟩
      simp [cuts_cons_of_not_isCut isCut, same, feed, if_neg isCut]

end RollSumSplit

end Peridot
