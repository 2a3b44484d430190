import Peridot.SplitContext

/-!
# The pieces of a source

What the splitting sends depends on the cuts of the rolling hash, on the bytes after the last cut,
and on whether a chunk came after these.
-/

namespace Peridot

open SplitCode List RollSumSplit SplitContext

namespace SplitCode

variable (code : SplitCode)

def stackChunk
    (stack : List (List ObjectIdentifierAndSize) × List IterationOutput) (data : Bytes) :
    List (List ObjectIdentifierAndSize) × List IterationOutput :=
  let added := code.addIdentifierAtLevel stack.1 0 (code.chunkIdentifier data)
  (added.1, stack.2 ++ [code.chunkOutput data] ++ added.2.map code.indexOutput)

def stackPiece
    (stack : List (List ObjectIdentifierAndSize) × List IterationOutput) (piece : Bytes × ℕ) :
    List (List ObjectIdentifierAndSize) × List IterationOutput :=
  let added := code.stackChunk stack piece.1
  let flushed := code.buildIndexesBelow added.1 (getLevel piece.2)
  (flushed.1, added.2 ++ flushed.2.map code.indexOutput)

def cutsOf (data : Bytes) : RollSumSplit.Cuts :=
  (RollSumSplit.new kMinChunkSize kMaxChunkSize).cuts [] data

/-- The levels and what was sent when all chunks were delivered: what is left of the data is a
piece, and so is an empty chunk behind it. -/
def splitStack (delivered : List Bytes) :
    List (List ObjectIdentifierAndSize) × List IterationOutput :=
  let cuts := cutsOf delivered.flatten
  let stack := cuts.pieces.foldl code.stackPiece ([], [])
  if cuts.rest = [] ∧ delivered.getLast? ≠ some [] then stack else code.stackChunk stack cuts.rest

/-- What is sent in all when the levels are collapsed, and whether there is nothing to send. -/
def outcome (stack : List (List ObjectIdentifierAndSize) × List IterationOutput) :
    List IterationOutput × Bool :=
  let collapsed := LevelStack.collapse kMaxIdentifiersPerIndex code.buildAndSendIndex stack.1 0
    (stack.1.length + 1)
  (stack.2 ++ collapsed.2.map code.indexOutput ++ (collapsed.1.map fun object =>
      IterationOutput.done object.identifier.objectDigest).toList, collapsed.1.isNone)

end SplitCode

namespace SplitContext

variable {code : SplitCode} {context : SplitContext}

/-- One round of the loop of `ProcessChunk`. -/
def cut (code : SplitCode) (context : SplitContext) (rollSumSplit : RollSumSplit)
    (splitIndex bits : ℕ) : SplitContext :=
  ({ context with rollSumSplit }.buildAndSendNextChunk code splitIndex).buildIndexes code
    (getLevel bits)

theorem cut_eq (code : SplitCode) {before : List Bytes} {view : Bytes}
    (isViews : context.views = before ++ [view]) (rollSumSplit : RollSumSplit)
    (splitIndex bits : ℕ) : context.cut code rollSumSplit splitIndex bits =
      ⟨rollSumSplit, if splitIndex < view.length then [view.drop splitIndex] else [],
        (code.stackPiece (context.currentIdentifiersPerLevel, context.sent)
          (before.flatten ++ view.take splitIndex, bits)).1,
        (code.stackPiece (context.currentIdentifiersPerLevel, context.sent)
          (before.flatten ++ view.take splitIndex, bits)).2, context.crashed⟩ := by
  have isLast : context.views.getLastD [] = view := by simp [isViews]
  have isInit : context.views.dropLast = before := by simp [isViews]
  simp only [cut, buildIndexes, buildAndSendNextChunk, nextChunk, nextViews, isLast, isInit,
    stackPiece, stackChunk]

theorem processViews_nil {fuel : ℕ} (isNil : context.views = []) :
    processViews code fuel context = context := by
  cases fuel with
  | zero => rfl
  | succ fuel => simp [processViews, isNil]

theorem processViews_eq {fuel : ℕ} {context : SplitContext} {before : List Bytes} {view : Bytes}
    (isViews : context.views = before ++ [view]) (enough : view.length < fuel) :
    ∃ views, processViews code fuel context =
        ⟨(context.rollSumSplit.cuts before.flatten view).roll, views,
          ((context.rollSumSplit.cuts before.flatten view).pieces.foldl code.stackPiece
            (context.currentIdentifiersPerLevel, context.sent)).1,
          ((context.rollSumSplit.cuts before.flatten view).pieces.foldl code.stackPiece
            (context.currentIdentifiersPerLevel, context.sent)).2, context.crashed⟩ ∧
      views.flatten = (context.rollSumSplit.cuts before.flatten view).rest ∧
      (views = [] ↔ (context.rollSumSplit.cuts before.flatten view).rest = [] ∧ view ≠ []) := by
  induction fuel generalizing context before view with
  | zero => exact absurd enough (Nat.not_lt_zero _)
  | succ fuel ih =>
    have isLast : context.views.getLast? = some view := by simp [isViews]
    cases isFeed : (context.rollSumSplit.feed view).2 with
    | none =>
      have isPair : context.rollSumSplit.feed view =
          ((context.rollSumSplit.feed view).1, none) := by rw [← isFeed]
      rw [cuts_of_feed_none isFeed]
      refine ⟨context.views, ?_, by simp [isViews], ?_⟩
      · rw [processViews, isLast]
        dsimp only
        rw [isPair]
        rfl
      · simp only [isViews, append_eq_nil_iff, cons_ne_nil, and_false, false_iff, not_and, not_not]
        exact fun isEmpty => isEmpty.2
    | some found =>
      obtain ⟨index, bits⟩ := found
      have isPair : context.rollSumSplit.feed view =
          ((context.rollSumSplit.feed view).1, some (index, bits)) := by rw [← isFeed]
      obtain ⟨positive, inside, sameCuts⟩ : 0 < index ∧ index ≤ view.length ∧
          context.rollSumSplit.cuts before.flatten view = _ :=
        cuts_of_feed_some isFeed
      have isNext : processViews code (fuel + 1) context = processViews code fuel
          (context.cut code (context.rollSumSplit.feed view).1 index bits) := by
        rw [processViews, isLast]
        dsimp only
        rw [isPair]
        rfl
      have isCut := cut_eq code isViews (context.rollSumSplit.feed view).1 index bits
      have isChunk : view ≠ [] := by
        rintro rfl
        exact absurd positive (by simpa using inside)
      rw [isNext, isCut, sameCuts]
      by_cases isInside : index < view.length
      · rw [if_pos isInside]
        obtain ⟨views, isProcessed, isRest, isEmpty⟩ := @ih
          ⟨(context.rollSumSplit.feed view).1, [view.drop index],
            (code.stackPiece (context.currentIdentifiersPerLevel, context.sent)
              (before.flatten ++ view.take index, bits)).1,
            (code.stackPiece (context.currentIdentifiersPerLevel, context.sent)
              (before.flatten ++ view.take index, bits)).2, context.crashed⟩
          [] (view.drop index) rfl (by rw [length_drop]; omega)
        have isLeft : view.drop index ≠ [] := by
          rw [Ne, drop_eq_nil_iff]
          omega
        refine ⟨views, isProcessed, isRest, ?_⟩
        rw [isEmpty]
        simp [isLeft, isChunk]
      · rw [if_neg isInside]
        have noneLeft : view.drop index = [] := drop_eq_nil_iff.mpr (by omega)
        rw [noneLeft, cuts_nil]
        refine ⟨[], processViews_nil rfl, rfl, ?_⟩
        simp [isChunk]

def addChunks (code : SplitCode) (chunks : List Bytes) : SplitContext :=
  chunks.foldl
    (fun (context : SplitContext) chunk => context.addChunk code (some chunk) .toBeContinued)
    SplitContext.new

/-- What is known of the context does not depend on how the data was delivered, apart from an
empty view at the end. -/
theorem addChunks_eq (code : SplitCode) (chunks : List Bytes) : ∃ views, addChunks code chunks =
      ⟨(cutsOf chunks.flatten).roll, views,
        ((cutsOf chunks.flatten).pieces.foldl code.stackPiece ([], [])).1,
        ((cutsOf chunks.flatten).pieces.foldl code.stackPiece ([], [])).2, false⟩ ∧
    views.flatten = (cutsOf chunks.flatten).rest ∧ (views = [] ↔
      (cutsOf chunks.flatten).rest = [] ∧ chunks.getLast? ≠ some []) := by
  induction chunks using List.reverseRecOn with
  | nil => exact ⟨[], rfl, rfl, by simp [cutsOf]⟩
  | append_singleton chunks chunk ih =>
    obtain ⟨before, isBefore, isRest, _⟩ := ih
    have isNext : addChunks code (chunks ++ [chunk]) =
        (addChunks code chunks).processChunk code chunk := by
      rw [addChunks, foldl_concat]
      rfl
    have sameCuts : cutsOf (chunks ++ [chunk]).flatten = _ := (congrArg cutsOf (by simp)).trans
        (cuts_append chunks.flatten chunk)
    rw [isNext, isBefore, sameCuts]
    obtain ⟨views, isProcessed, isFlat, isEmpty⟩ := @processViews_eq code (chunk.length + 1)
      ⟨(cutsOf chunks.flatten).roll, before ++ [chunk],
        ((cutsOf chunks.flatten).pieces.foldl code.stackPiece ([], [])).1,
        ((cutsOf chunks.flatten).pieces.foldl code.stackPiece ([], [])).2, false⟩
      before chunk rfl (Nat.lt_succ_self _)
    dsimp only at isProcessed isFlat isEmpty
    rw [isRest] at isProcessed isFlat isEmpty
    refine ⟨views, ?_, isFlat, ?_⟩
    · rw [processChunk, isProcessed, foldl_append]
      rfl
    · rw [isEmpty, List.getLast?_concat]
      simp only [ne_eq, Option.some.injEq]
      rfl

theorem finish_eq (code : SplitCode) (isRunning : context.crashed = false) :
    ((context.finish code).sent, (context.finish code).crashed) = code.outcome
      (if context.views = [] then (context.currentIdentifiersPerLevel, context.sent)
        else code.stackChunk (context.currentIdentifiersPerLevel, context.sent)
          context.views.flatten) := by
  have allViews (nonempty : context.views ≠ []) :
      context.nextChunk (context.views.getLastD []).length = context.views.flatten := by
    have isSplit := dropLast_append_getLast nonempty
    have isLast : context.views.getLastD [] = context.views.getLast nonempty := by
      rw [getLastD_eq_getLast?, List.getLast?_eq_some_getLast nonempty, Option.getD_some]
    rw [nextChunk, take_length, isLast]
    conv_rhs => rw [← isSplit]
    simp
  by_cases isEmpty : context.views = []
  · rw [finish, if_pos isEmpty, if_pos isEmpty]
    simp only [outcome]
    generalize LevelStack.collapse _ _ context.currentIdentifiersPerLevel _ _ = collapsed
    obtain ⟨top, indexes⟩ := collapsed
    cases top <;> simp [isRunning]
  · rw [finish, if_neg isEmpty, if_neg isEmpty]
    simp only [outcome, buildAndSendNextChunk, allViews isEmpty, stackChunk]
    generalize LevelStack.collapse _ _ _ _ _ = collapsed
    obtain ⟨top, indexes⟩ := collapsed
    cases top <;> simp [isRunning]

end SplitContext

theorem splitDataSource_eq (code : SplitCode) (chunks : List Bytes) (last : Option Bytes) :
    ((splitDataSource code chunks last).sent, (splitDataSource code chunks last).crashed) =
      code.outcome (code.splitStack (chunks ++ last.toList)) := by
  have isFinish : splitDataSource code chunks last =
      (SplitContext.addChunks code (chunks ++ last.toList)).finish code := by
    cases last with
    | none | some chunk => simp [splitDataSource, SplitContext.addChunk, SplitContext.addChunks]
  obtain ⟨views, isAdded, isRest, isEmpty⟩ := addChunks_eq code (chunks ++ last.toList)
  rw [isFinish, isAdded, finish_eq code rfl, splitStack]
  simp only [isEmpty, isRest]

end Peridot
