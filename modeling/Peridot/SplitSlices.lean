import Peridot.SplitPieces

/-!
# Slices of a source

The same data makes the same pieces however it is delivered, unless the rolling hash cuts at its
end: an empty chunk that comes behind the last cut is then a piece of its own.
-/

namespace Peridot

open List RollSumSplit SplitCode

variable {code : SplitCode}

def isChunk : IterationOutput → Bool
  | .inProgress digest _ => !decide (IsIndexHash digest)
  | _ => false

theorem countP_indexes (code : SplitCode) (groups : List (List ObjectIdentifierAndSize)) :
    (groups.map code.indexOutput).countP isChunk = 0 := by
  rw [countP_eq_zero]
  intro output isIndex
  obtain ⟨group, _, rfl⟩ := mem_map.mp isIndex
  simp [indexOutput, isChunk, isIndexHash_index]

theorem countP_stackChunk (code : SplitCode)
    (stack : List (List ObjectIdentifierAndSize) × List IterationOutput) (data : Bytes) :
    (code.stackChunk stack data).2.countP isChunk = stack.2.countP isChunk + 1 := by
  have isPiece : [code.chunkOutput data].countP isChunk = 1 := by
    simp [chunkOutput, isChunk, not_isIndexHash_value]
  simp only [stackChunk, countP_append, isPiece, countP_indexes, Nat.add_zero]

theorem countP_outcome (code : SplitCode)
    (stack : List (List ObjectIdentifierAndSize) × List IterationOutput) :
    (code.outcome stack).1.countP isChunk = stack.2.countP isChunk := by
  simp only [outcome, countP_append, countP_indexes, Nat.add_zero]
  generalize (LevelStack.collapse _ _ stack.1 0 _).1 = top
  cases top <;> simp [isChunk]

/-- Two ways to deliver the same data have the same result if and only if bytes are left after the
last cut of the data, or the last chunk is empty in both or in none of them. -/
theorem splitDataSource_eq_iff (code : SplitCode) {firstChunks secondChunks : List Bytes}
    {firstLast secondLast : Option Bytes} (sameData : (firstChunks ++ firstLast.toList).flatten =
      (secondChunks ++ secondLast.toList).flatten) :
    ((splitDataSource code firstChunks firstLast).sent =
        (splitDataSource code secondChunks secondLast).sent ∧
      (splitDataSource code firstChunks firstLast).crashed =
        (splitDataSource code secondChunks secondLast).crashed) ↔
      (cutsOf (firstChunks ++ firstLast.toList).flatten).rest ≠ [] ∨
        ((firstChunks ++ firstLast.toList).getLast? = some [] ↔
          (secondChunks ++ secondLast.toList).getLast? = some []) := by
  rw [← Prod.mk.injEq, splitDataSource_eq, splitDataSource_eq]
  generalize firstChunks ++ firstLast.toList = first at sameData ⊢
  generalize secondChunks ++ secondLast.toList = second at sameData ⊢
  simp only [splitStack, ← sameData]
  generalize cutsOf first.flatten = cuts
  by_cases isLeft : cuts.rest = []
  · simp only [isLeft, true_and, ne_eq, not_true_eq_false, false_or]
    generalize cuts.pieces.foldl code.stackPiece ([], []) = stack
    have isOther : code.outcome stack ≠ code.outcome (code.stackChunk stack []) := by
      intro same
      have counts := congrArg (fun outcome => outcome.1.countP isChunk) same
      simp only [countP_outcome, countP_stackChunk] at counts
      omega
    by_cases isFirst : first.getLast? = some [] <;> by_cases isSecond : second.getLast? = some []
    · simp [isFirst, isSecond]
    · simpa [isFirst, isSecond] using isOther.symm
    · simpa [isFirst, isSecond] using isOther
    · simp [isFirst, isSecond]
  · simp [isLeft]

/-- Zeros in one chunk, and in one chunk with an empty one behind it. -/
theorem splitDataSource_eq_iff_zeros : let zeros : Bytes := List.replicate 3 0
    (splitDataSource sampleSplitCode [zeros] (some [])).sent =
        (splitDataSource sampleSplitCode [] (some zeros)).sent ∧
      (splitDataSource sampleSplitCode [zeros] (some [])).crashed =
        (splitDataSource sampleSplitCode [] (some zeros)).crashed := by
  refine (splitDataSource_eq_iff sampleSplitCode (by simp)).mpr (.inl ?_)
  decide

theorem rest_zeros : (cutsOf (List.replicate kMaxChunkSize 0)).rest = [] := by
  obtain ⟨next, same⟩ := @cuts_full 0 []
  rw [append_nil] at same
  have isRest := congrArg RollSumSplit.Cuts.rest same
  rwa [cuts_nil] at isRest

/-- A chunk that is cut at its end, with an empty chunk behind it. -/
theorem not_splitDataSource_eq :
    ¬((splitDataSource sampleSplitCode [List.replicate kMaxChunkSize 0] (some [])).sent =
        (splitDataSource sampleSplitCode [] (some (List.replicate kMaxChunkSize 0))).sent ∧
      (splitDataSource sampleSplitCode [List.replicate kMaxChunkSize 0] (some [])).crashed =
        (splitDataSource sampleSplitCode [] (some (List.replicate kMaxChunkSize 0))).crashed) := by
  rw [splitDataSource_eq_iff sampleSplitCode (by simp)]
  have isNonempty : List.replicate kMaxChunkSize (0 : UInt8) ≠ [] := by
    rw [Ne, replicate_eq_nil_iff]
    decide
  simp [rest_zeros, isNonempty]

end Peridot
