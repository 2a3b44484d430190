import Peridot.BTreeDiff
import Peridot.BTreePositions
import Peridot.KeyedDiff

/-!
# Correctness of the two-way difference

The state of an `IteratorPair` is described by the entries that each iterator has
still to visit.  The difference of these two lists is what is left to report, and
every turn of the loop of `Advance` takes away exactly what was sent before it.
-/

namespace Peridot

open List Position KeyedList BTreeIterator Entry

variable {entry : Entry} {dropped : List Position}

namespace BTreeIterator

variable {read : NodeReader} {iterator : BTreeIterator}

def rest (read : NodeReader) (iterator : BTreeIterator) : List Entry :=
  Position.entries (iterator.positions read)

structure Ready (read : NodeReader) (iterator : BTreeIterator) : Prop where
  valid : iterator.Valid read
  sorted : KeyedList.Sorted key (iterator.rest read)
  trim : Position.Trim read (iterator.positions read)

section

variable (finished : iterator.finished = true)
include finished

theorem rest_of_finished : iterator.rest read = [] := by
  rw [rest, positions_eq_nil.mpr finished]
  rfl

theorem currentEntry?_of_finished : iterator.currentEntry? = none := by
  obtain ⟨stack, descending⟩ := iterator
  cases stack with
  | nil => rfl
  | cons frame outer => simp [BTreeIterator.finished] at finished

theorem getNextChild_of_finished : iterator.getNextChild = none := by
  obtain ⟨stack, descending⟩ := iterator
  cases stack with
  | nil => rfl
  | cons frame outer => simp [BTreeIterator.finished] at finished

end

variable {moved : BTreeIterator}

theorem Ready.of_positions (ready : iterator.Ready read) (valid : moved.Valid read)
    (positions : iterator.positions read = dropped ++ moved.positions read) : moved.Ready read where
  valid := valid
  sorted := by
    have sorted := ready.sorted
    rw [rest, positions, entries_append] at sorted
    exact (sorted_append.mp sorted).2.1
  trim := by
    have trim := ready.trim
    rw [positions] at trim
    exact trim.of_append

def Drops (read : NodeReader) (passed : List Entry) (iterator moved : BTreeIterator) : Prop :=
  ∃ dropped, iterator.positions read = dropped ++ moved.positions read ∧
    Position.entries dropped = passed ∧ dropped ≠ []

section

variable {passed : List Entry} (drops : Drops read passed iterator moved)
include drops

theorem Drops.rest_eq : iterator.rest read = passed ++ moved.rest read := by
  obtain ⟨dropped, positions, rfl, -⟩ := drops
  rw [rest, positions, entries_append]
  rfl

theorem Drops.length_lt : (moved.positions read).length < (iterator.positions read).length := by
  obtain ⟨dropped, positions, -, notEmpty⟩ := drops
  rw [positions, length_append]
  have := length_pos_of_ne_nil notEmpty
  omega

end

theorem Ready.advance (ready : iterator.Ready read) (notFinished : iterator.finished = false) :
    ∃ moved, iterator.advance read = .ok moved ∧ moved.Ready read ∧
      iterator.Drops read iterator.currentEntry?.toList moved := by
  obtain ⟨moved, advanceOk, valid, positions⟩ := advance_spec ready.valid notFinished
  have split : iterator.positions read = [iterator.current] ++ moved.positions read := positions
  exact ⟨moved, advanceOk, ready.of_positions valid split, [iterator.current], split,
    by simp [current], by simp⟩

theorem unfinished_of_value (value : iterator.currentEntry? = some entry) :
    iterator.finished = false := by
  by_contra finished
  rw [currentEntry?_of_finished (by simpa using finished)] at value
  exact absurd value (by simp)

theorem Ready.head_le (ready : iterator.Ready read) (value : iterator.currentEntry? = some entry) :
    ∀ later ∈ iterator.rest read, entry.key ≤ later.key := by
  obtain ⟨moved, -, -, drops⟩ := ready.advance (unfinished_of_value value)
  have sorted := ready.sorted
  rw [drops.rest_eq, value] at sorted
  rw [drops.rest_eq, value]
  intro later member
  rcases mem_cons.mp member with rfl | behind
  · exact le_rfl
  · exact ((sorted_cons.mp sorted).1 later behind).le

theorem Ready.skipNextSubTree (ready : iterator.Ready read) {child : ObjectIdentifier}
    (next : iterator.getNextChild = some child) : iterator.skipNextSubTree.Ready read ∧
      iterator.Drops read (iterator.currentEntry?.toList ++
        Position.entries (Position.below read (some child))) iterator.skipNextSubTree ∧
      (Position.entries (Position.below read (some child)) = [] →
        iterator.skipNextSubTree.rest read = []) := by
  obtain ⟨valid, positions⟩ := skipNextSubTree_spec ready.valid next
  have regrouped : iterator.positions read =
      ((if iterator.hasValue then [iterator.current] else []) ++
        ⟨none, some child, iterator.getLevel⟩ :: Position.below read (some child)) ++
          iterator.skipNextSubTree.positions read := by
    rw [positions]
    simp
  refine ⟨ready.of_positions valid regrouped, ⟨_, regrouped, ?_, by simp⟩, fun empty => ?_⟩
  · cases value : iterator.currentEntry? <;> simp [hasValue, value, current]
  · have trim := ready.trim
    rw [positions] at trim
    have nothing := trim.of_append.1 child rfl empty
    rw [entries_append, append_eq_nil_iff] at nothing
    exact nothing.2

end BTreeIterator

namespace IteratorPair

variable {read : NodeReader} {pair : IteratorPair}

def orient (diffFromLeftToRight : Bool) (difference : Difference) : Difference :=
  if diffFromLeftToRight then difference else difference.swap

def remaining (read : NodeReader) (pair : IteratorPair) : List Difference :=
  (KeyedList.diff key (pair.left.rest read) (pair.right.rest read)).map
    (orient pair.diffFromLeftToRight)

def size (read : NodeReader) (pair : IteratorPair) : Nat :=
  (pair.left.positions read).length + (pair.right.positions read).length

/-- The rules that `Normalize` establishes, as far as they matter. -/
structure Normalized (pair : IteratorPair) : Prop where
  finished : pair.right.finished = true → pair.left.finished = true
  value : pair.right.hasValue = true → pair.left.finished = true ∨ pair.left.hasValue = true
  order : ∀ leftEntry ∈ pair.left.currentEntry?, ∀ rightEntry ∈ pair.right.currentEntry?,
    rightEntry.key ≤ leftEntry.key

def base (pair : IteratorPair) : BTreeIterator :=
  if pair.diffFromLeftToRight then pair.left else pair.right

def other (pair : IteratorPair) : BTreeIterator :=
  if pair.diffFromLeftToRight then pair.right else pair.left

/-- The iterators are inside two sequences of positions, and all the keys that they have
passed are smaller than all the keys that are left. -/
def Midway (read : NodeReader) (base other : List Position) (pair : IteratorPair) : Prop :=
  ∃ dropped droppedOther, base = dropped ++ pair.base.positions read ∧
    other = droppedOther ++ pair.other.positions read ∧
    ∀ item ∈ Position.entries dropped ++ Position.entries droppedOther,
      ∀ later ∈ pair.base.rest read ++ pair.other.rest read, item.key < later.key

def MovesOn (read : NodeReader) (pair moved : IteratorPair) : Prop :=
  Midway read (pair.base.positions read) (pair.other.positions read) moved

structure Ready (read : NodeReader) (pair : IteratorPair) : Prop where
  left : pair.left.Ready read
  right : pair.right.Ready read

theorem orient_not_swap (flag : Bool) (difference : Difference) :
    orient (!flag) difference.swap = orient flag difference := by
  cases flag <;> simp [orient]

theorem remaining_swap (pair : IteratorPair) : pair.swap.remaining read = pair.remaining read := by
  rw [remaining, remaining, swap, diff_swap, map_map]
  exact map_congr_left fun difference _ => orient_not_swap _ _

theorem size_swap (pair : IteratorPair) : pair.swap.size read = pair.size read :=
  Nat.add_comm _ _

@[simp]
theorem base_swap (pair : IteratorPair) : pair.swap.base = pair.base := by
  cases flag : pair.diffFromLeftToRight <;> simp [swap, base, flag]

@[simp]
theorem other_swap (pair : IteratorPair) : pair.swap.other = pair.other := by
  cases flag : pair.diffFromLeftToRight <;> simp [swap, other, flag]

theorem Ready.swap (ready : pair.Ready read) : pair.swap.Ready read :=
  ⟨ready.right, ready.left⟩

theorem normalize_eq (pair : IteratorPair) :
    pair.normalize = pair ∨ pair.normalize = pair.swap := by
  unfold normalize resetSwap
  grind

@[simp]
theorem base_normalize (pair : IteratorPair) : pair.normalize.base = pair.base := by
  rcases pair.normalize_eq with same | swapped
  · rw [same]
  · rw [swapped, base_swap]

@[simp]
theorem other_normalize (pair : IteratorPair) : pair.normalize.other = pair.other := by
  rcases pair.normalize_eq with same | swapped
  · rw [same]
  · rw [swapped, other_swap]

variable {positions others : List Position}

theorem Midway.swap (midway : Midway read positions others pair) :
    Midway read positions others pair.swap := by
  unfold Midway
  rwa [base_swap, other_swap]

theorem Midway.normalize (midway : Midway read positions others pair) :
    Midway read positions others pair.normalize := by
  unfold Midway
  rwa [base_normalize, other_normalize]

theorem movesOn_of_sides {left right : BTreeIterator} {droppedRight : List Position}
    (positions : pair.left.positions read = dropped ++ left.positions read)
    (positionsRight : pair.right.positions read = droppedRight ++ right.positions read)
    (smaller : ∀ item ∈ Position.entries dropped ++ Position.entries droppedRight,
      ∀ later ∈ left.rest read ++ right.rest read, item.key < later.key) :
    pair.MovesOn read ⟨left, right, pair.diffFromLeftToRight⟩ := by
  cases flag : pair.diffFromLeftToRight with
  | true =>
    refine ⟨dropped, droppedRight, ?_, ?_, ?_⟩
    · simpa [base, flag] using positions
    · simpa [other, flag] using positionsRight
    · simpa [base, other] using smaller
  | false =>
    refine ⟨droppedRight, dropped, ?_, ?_, ?_⟩
    · simpa [base, flag] using positionsRight
    · simpa [other, flag] using positions
    · intro item member later laterMember
      refine smaller item ?_ later ?_
      · rw [mem_append] at member ⊢
        exact member.symm
      · simp only [base, other, Bool.false_eq_true, if_false] at laterMember
        rw [mem_append] at laterMember ⊢
        exact laterMember.symm

theorem MovesOn.refl (pair : IteratorPair) : pair.MovesOn read pair :=
  ⟨[], [], rfl, rfl, by simp⟩

theorem Midway.moveOn {moved : IteratorPair} (midway : Midway read positions others pair)
    (moves : pair.MovesOn read moved) : Midway read positions others moved := by
  obtain ⟨dropped, droppedOther, rfl, rfl, smaller⟩ := midway
  obtain ⟨dropped', droppedOther', positions, positionsOther, smaller'⟩ := moves
  refine ⟨dropped ++ dropped', droppedOther ++ droppedOther', by simp [positions],
    by simp [positionsOther], ?_⟩
  intro item member later laterMember
  have stillLater : later ∈ pair.base.rest read ++ pair.other.rest read := by
    rw [BTreeIterator.rest, BTreeIterator.rest, positions, positionsOther,
      entries_append, entries_append]
    rw [mem_append] at laterMember
    simp only [mem_append]
    rcases laterMember with inBase | inOther
    · exact .inl (.inr inBase)
    · exact .inr (.inr inOther)
  simp only [entries_append, mem_append] at member
  rcases member with (inFirst | inSecond) | (inFirst | inSecond)
  · exact smaller item (by simp [inFirst]) later stillLater
  · exact smaller' item (by simp [inSecond]) later laterMember
  · exact smaller item (by simp [inFirst]) later stillLater
  · exact smaller' item (by simp [inSecond]) later laterMember

theorem remaining_normalize (pair : IteratorPair) :
    pair.normalize.remaining read = pair.remaining read := by
  rcases pair.normalize_eq with same | swapped
  · rw [same]
  · rw [swapped, remaining_swap]

theorem size_normalize (pair : IteratorPair) : pair.normalize.size read = pair.size read := by
  rcases pair.normalize_eq with same | swapped
  · rw [same]
  · rw [swapped, size_swap]

theorem Ready.normalize (ready : pair.Ready read) : pair.normalize.Ready read := by
  rcases pair.normalize_eq with same | swapped
  · rwa [same]
  · rw [swapped]
    exact ready.swap

/-- Without a value on the right, only the end of the iteration matters. -/
theorem Normalized.of_no_value (finished : pair.right.finished = true → pair.left.finished = true)
    (noValue : pair.right.currentEntry? = none) : pair.Normalized where
  finished := finished
  value := by simp [BTreeIterator.hasValue, noValue]
  order := by simp [noValue]

variable {leftEntry rightEntry : Entry} {fuel : Nat}

theorem Normalized.of_values (leftValue : pair.left.currentEntry? = some leftEntry)
    (rightValue : pair.right.currentEntry? = some rightEntry)
    (ordered : rightEntry.key ≤ leftEntry.key) : pair.Normalized where
  finished := by
    intro finished
    rw [BTreeIterator.currentEntry?_of_finished finished] at rightValue
    exact absurd rightValue (by simp)
  value := fun _ => .inr (by simp [BTreeIterator.hasValue, leftValue])
  order := by simpa [leftValue, rightValue] using ordered

section

variable (pair : IteratorPair)

theorem normalize_normalized : pair.normalize.Normalized := by
  by_cases leftFinished : pair.left.finished = true
  · rw [normalize, if_pos leftFinished]
    exact ⟨fun _ => leftFinished, fun _ => .inl leftFinished,
      by simp [BTreeIterator.currentEntry?_of_finished leftFinished]⟩
  by_cases rightFinished : pair.right.finished = true
  · rw [normalize, if_neg leftFinished, if_pos rightFinished]
    exact ⟨fun _ => rightFinished, fun _ => .inl rightFinished,
      by simp [swap, BTreeIterator.currentEntry?_of_finished rightFinished]⟩
  rw [normalize, if_neg leftFinished, if_neg rightFinished]
  cases leftValue : pair.left.currentEntry? with
  | none =>
    cases rightValue : pair.right.currentEntry? with
    | none =>
      simp only
      split
      · exact .of_no_value (fun finished => absurd finished leftFinished) leftValue
      · exact .of_no_value (fun finished => absurd finished rightFinished) rightValue
    | some rightEntry => exact .of_no_value (fun finished => absurd finished leftFinished) leftValue
  | some leftEntry =>
    cases rightValue : pair.right.currentEntry? with
    | none => exact .of_no_value (fun finished => absurd finished rightFinished) rightValue
    | some rightEntry =>
      simp only
      split
      · rename_i less
        exact .of_values rightValue leftValue less.le
      · rename_i notLess
        split
        · rename_i same
          unfold resetSwap
          split
          · exact .of_values leftValue rightValue same.ge
          · exact .of_values rightValue leftValue same.le
        · exact .of_values leftValue rightValue (not_lt.mp notLess)

theorem sendRight_eq : pair.sendRight = orient pair.diffFromLeftToRight
    (pair.left.currentEntry?.filter fun entry =>
      pair.right.currentEntry?.map key = some entry.key, pair.right.currentEntry?) := by
  cases flag : pair.diffFromLeftToRight <;> simp [sendRight, send, orient, flag]

theorem sendLeft_eq : pair.sendLeft = orient pair.diffFromLeftToRight
    (pair.left.currentEntry?, pair.right.currentEntry?.filter fun entry =>
      pair.left.currentEntry?.map key = some entry.key) := by
  cases flag : pair.diffFromLeftToRight <;> simp [sendLeft, send, orient, flag]

end

theorem hasSameNextChild_iff :
    pair.hasSameNextChild = true ↔ ∃ child, pair.left.getNextChild = some child ∧
      pair.right.getNextChild = some child := by
  have unfinished : ∀ child, pair.left.getNextChild = some child → pair.left.finished = false := by
    intro child next
    by_contra finished
    rw [getNextChild_of_finished (by simpa using finished)] at next
    exact absurd next (by simp)
  unfold hasSameNextChild
  cases leftNext : pair.left.getNextChild with
  | none => cases pair.right.getNextChild <;> simp
  | some leftChild =>
    cases rightNext : pair.right.getNextChild with
    | none => simp
    | some rightChild => simp [unfinished leftChild leftNext]

def sent (pair : IteratorPair) : List Difference :=
  if pair.hasDiff then pair.diffs else []

theorem sent_of_no_value (different : pair.hasSameNextChild = false)
    (rightValue : pair.right.currentEntry? = none) : pair.sent = [] := by
  simp [sent, hasDiff, BTreeIterator.hasValue, rightValue, different]

theorem sent_of_same_entry (leftValue : pair.left.currentEntry? = some entry)
    (rightValue : pair.right.currentEntry? = some entry) : pair.sent = [] := by
  simp [sent, diffs, BTreeIterator.hasValue, leftValue, rightValue]

theorem sent_of_changed (leftValue : pair.left.currentEntry? = some leftEntry)
    (rightValue : pair.right.currentEntry? = some rightEntry)
    (sameKey : leftEntry.key = rightEntry.key) (changed : leftEntry ≠ rightEntry) :
    pair.sent = [orient pair.diffFromLeftToRight (some leftEntry, some rightEntry)] := by
  simp [sent, hasDiff, diffs, BTreeIterator.hasValue, leftValue, rightValue, sendRight_eq,
    changed, sameKey, Option.filter_some]

theorem sent_of_left (same : pair.hasSameNextChild = true)
    (leftValue : pair.left.currentEntry? = some leftEntry)
    (rightValue : pair.right.currentEntry? = none) :
    pair.sent = [orient pair.diffFromLeftToRight (some leftEntry, none)] := by
  simp [sent, hasDiff, diffs, BTreeIterator.hasValue, leftValue, rightValue, same, sendLeft_eq]

/-- Two values in front of a common child are sent one after the other. -/
theorem sent_of_both (same : pair.hasSameNextChild = true)
    (leftValue : pair.left.currentEntry? = some leftEntry)
    (rightValue : pair.right.currentEntry? = some rightEntry)
    (different : leftEntry.key ≠ rightEntry.key) :
    pair.sent = [orient pair.diffFromLeftToRight (none, some rightEntry),
      orient pair.diffFromLeftToRight (some leftEntry, none)] := by
  have notSame : leftEntry ≠ rightEntry := fun same => different (congrArg key same)
  simp [sent, hasDiff, diffs, BTreeIterator.hasValue, leftValue, rightValue, same,
    sendRight_eq, sendLeft_eq, notSame, different, Ne.symm different, Option.filter_some]

theorem sent_of_right (normalized : pair.Normalized) (different : pair.hasSameNextChild = false)
    (rightValue : pair.right.currentEntry? = some rightEntry)
    (notBoth : ∀ leftEntry ∈ pair.left.currentEntry?, leftEntry.key ≠ rightEntry.key) :
    pair.sent = [orient pair.diffFromLeftToRight (none, some rightEntry)] := by
  have hasDiff : pair.hasDiff = true := by
    have leftDone := normalized.value (by simp [BTreeIterator.hasValue, rightValue])
    simpa [hasDiff, BTreeIterator.hasValue, rightValue, different] using leftDone
  have notSame : pair.left.currentEntry? ≠ pair.right.currentEntry? := by
    intro same
    exact notBoth rightEntry (same.trans rightValue) rfl
  have noneLeft : (pair.left.currentEntry?.filter fun entry =>
      pair.right.currentEntry?.map key = some entry.key) = none := by
    rw [Option.filter_eq_none_iff]
    intro leftEntry leftValue
    simpa [rightValue] using Ne.symm (notBoth leftEntry leftValue)
  rw [sent, if_pos hasDiff, diffs, if_neg (by simp [notSame]), if_neg (by simp [different]),
    sendRight_eq, noneLeft, rightValue]

theorem sent_of_same_child (normalized : pair.Normalized)
    (same : pair.hasSameNextChild = true) {common leftRest rightRest : List Entry}
    (leftSorted : KeyedList.Sorted key
      (pair.left.currentEntry?.toList ++ (common ++ leftRest)))
    (rightSorted : KeyedList.Sorted key
      (pair.right.currentEntry?.toList ++ (common ++ rightRest)))
    (rightGap : common = [] → rightRest = []) :
    (KeyedList.diff key (pair.left.currentEntry?.toList ++ (common ++ leftRest))
      (pair.right.currentEntry?.toList ++ (common ++ rightRest))).map
        (orient pair.diffFromLeftToRight) =
      pair.sent ++ (KeyedList.diff key leftRest rightRest).map
        (orient pair.diffFromLeftToRight) := by
  cases leftValue : pair.left.currentEntry? with
  | none =>
    cases rightValue : pair.right.currentEntry? with
    | none =>
      have nothing : pair.sent = [] := by
        simp [sent, hasDiff, BTreeIterator.hasValue, leftValue, rightValue]
      rw [nothing, Option.toList_none, nil_append, nil_append, diff_append_common, nil_append]
    | some rightEntry =>
      exfalso
      obtain ⟨child, leftNext, -⟩ := hasSameNextChild_iff.mp same
      rcases normalized.value (by simp [BTreeIterator.hasValue, rightValue]) with
        leftFinished | leftHasValue
      · exact absurd (getNextChild_of_finished leftFinished) (by simp [leftNext])
      · simp [BTreeIterator.hasValue, leftValue] at leftHasValue
  | some leftEntry =>
    cases rightValue : pair.right.currentEntry? with
    | none =>
      rw [leftValue, Option.toList_some, singleton_append] at leftSorted
      rw [rightValue, Option.toList_none, nil_append] at rightSorted
      rw [sent_of_left same leftValue rightValue, Option.toList_some, Option.toList_none,
        nil_append, singleton_append,
        diff_cons_append_common leftSorted rightSorted rightGap]
      rfl
    | some rightEntry =>
      rw [leftValue] at leftSorted
      rw [rightValue] at rightSorted
      have ordered : rightEntry.key ≤ leftEntry.key :=
        normalized.order leftEntry leftValue rightEntry rightValue
      simp only [Option.toList_some, singleton_append] at leftSorted rightSorted ⊢
      by_cases sameEntry : leftEntry = rightEntry
      · subst sameEntry
        rw [sent_of_same_entry leftValue rightValue, diff_cons_same, diff_append_common, nil_append]
      · by_cases sameKey : leftEntry.key = rightEntry.key
        · rw [sent_of_changed leftValue rightValue sameKey sameEntry,
            diff_cons_changed sameKey sameEntry, diff_append_common]
          rfl
        · rw [sent_of_both same leftValue rightValue sameKey,
            diff_cons_cons_append_common leftSorted rightSorted
              (lt_of_le_of_ne ordered (Ne.symm sameKey)) rightGap]
          rfl

/-- One or more turns of the loop of `Advance`: they take away what was sent before. -/
structure Turn (read : NodeReader) (pair moved : IteratorPair) : Prop where
  ready : moved.Ready read
  normalized : moved.Normalized
  smaller : moved.size read < pair.size read
  moves : pair.MovesOn read moved
  remaining : pair.remaining read = pair.sent ++ moved.remaining read

/-- Everything up to a common part is smaller than everything behind it. -/
theorem lt_behind_common {front frontRight common behind behindRight : List Entry}
    (sorted : KeyedList.Sorted key (front ++ common ++ behind))
    (sortedRight : KeyedList.Sorted key (frontRight ++ common ++ behindRight))
    (gap : common = [] → behind = []) (gapRight : common = [] → behindRight = []) :
    ∀ item ∈ (front ++ common) ++ (frontRight ++ common), ∀ later ∈ behind ++ behindRight,
      item.key < later.key := by
  obtain ⟨frontSorted, -, across⟩ := sorted_append.mp sorted
  obtain ⟨frontRightSorted, -, acrossRight⟩ := sorted_append.mp sortedRight
  cases common with
  | nil => simp [gap rfl, gapRight rfl]
  | cons first common =>
    -- Whatever is in front of the common part is smaller than its first entry.
    have inFront := (sorted_append.mp frontSorted).2.2
    have inFrontRight := (sorted_append.mp frontRightSorted).2.2
    intro item member later laterMember
    rcases mem_append.mp laterMember with inBehind | inBehindRight
    · rcases mem_append.mp member with itemLeft | itemRight
      · exact across item itemLeft later inBehind
      · rcases mem_append.mp itemRight with before | inCommon
        · exact (inFrontRight item before first (by simp)).trans
            (across first (by simp) later inBehind)
        · exact across item (mem_append_right _ inCommon) later inBehind
    · rcases mem_append.mp member with itemLeft | itemRight
      · rcases mem_append.mp itemLeft with before | inCommon
        · exact (inFront item before first (by simp)).trans
            (acrossRight first (by simp) later inBehindRight)
        · exact acrossRight item (mem_append_right _ inCommon) later inBehindRight
      · exact acrossRight item itemRight later inBehindRight

section

variable (ready : pair.Ready read)
include ready

theorem advanceOnce_skip (normalized : pair.Normalized) (same : pair.hasSameNextChild = true) :
    ∃ moved, pair.advanceOnce read = .ok moved ∧ pair.Turn read moved := by
  obtain ⟨child, leftNext, rightNext⟩ := hasSameNextChild_iff.mp same
  obtain ⟨leftReady, leftDrops, leftGap⟩ := ready.left.skipNextSubTree leftNext
  obtain ⟨rightReady, rightDrops, rightGap⟩ := ready.right.skipNextSubTree rightNext
  have skippedReady : Ready read { pair with
      left := pair.left.skipNextSubTree
      right := pair.right.skipNextSubTree } := ⟨leftReady, rightReady⟩
  have leftSorted := ready.left.sorted
  have rightSorted := ready.right.sorted
  rw [leftDrops.rest_eq] at leftSorted
  rw [rightDrops.rest_eq] at rightSorted
  refine ⟨_, if_pos same, skippedReady.normalize, normalize_normalized _, ?_, ?_, ?_⟩
  · rw [size_normalize]
    exact Nat.add_lt_add leftDrops.length_lt rightDrops.length_lt
  · obtain ⟨dropped, positions, passed, -⟩ := leftDrops
    obtain ⟨droppedRight, positionsRight, passedRight, -⟩ := rightDrops
    refine (movesOn_of_sides positions positionsRight ?_).normalize
    rw [passed, passedRight]
    exact lt_behind_common leftSorted rightSorted leftGap rightGap
  · rw [remaining_normalize, remaining, leftDrops.rest_eq, rightDrops.rest_eq,
      append_assoc, append_assoc]
    rw [append_assoc] at leftSorted rightSorted
    exact sent_of_same_child normalized same leftSorted rightSorted rightGap

theorem advanceOnce_both (different : pair.hasSameNextChild = false)
    (leftValue : pair.left.currentEntry? = some leftEntry)
    (rightValue : pair.right.currentEntry? = some rightEntry)
    (sameKey : leftEntry.key = rightEntry.key) :
    ∃ moved, pair.advanceOnce read = .ok moved ∧ pair.Turn read moved := by
  obtain ⟨left, leftOk, leftReady, leftDrops⟩ := ready.left.advance (unfinished_of_value leftValue)
  obtain ⟨right, rightOk, rightReady, rightDrops⟩ :=
    ready.right.advance (unfinished_of_value rightValue)
  rw [leftValue] at leftDrops
  rw [rightValue] at rightDrops
  have movedReady : Ready read (swap ⟨left, right, pair.diffFromLeftToRight⟩) :=
    ⟨rightReady, leftReady⟩
  refine ⟨normalize (swap ⟨left, right, pair.diffFromLeftToRight⟩), ?_, movedReady.normalize,
    normalize_normalized _, ?_, ?_, ?_⟩
  · simp [advanceOnce, different, BTreeIterator.hasValue, leftValue, rightValue, sameKey, rightOk,
      leftOk, swap, bind, Except.bind, pure, Except.pure]
  · rw [size_normalize, size_swap]
    exact Nat.add_lt_add leftDrops.length_lt rightDrops.length_lt
  · have leftSorted := ready.left.sorted
    have rightSorted := ready.right.sorted
    rw [leftDrops.rest_eq] at leftSorted
    rw [rightDrops.rest_eq] at rightSorted
    have leftBelow := (sorted_cons.mp leftSorted).1
    have rightBelow := (sorted_cons.mp rightSorted).1
    obtain ⟨dropped, positions, passed, -⟩ := leftDrops
    obtain ⟨droppedRight, positionsRight, passedRight, -⟩ := rightDrops
    refine (movesOn_of_sides positions positionsRight ?_).swap.normalize
    rw [passed, passedRight]
    intro item member later laterMember
    have itemKey : item.key = leftEntry.key := by
      rcases (by simpa using member : item = leftEntry ∨ item = rightEntry) with rfl | rfl
      · rfl
      · exact sameKey.symm
    rcases mem_append.mp laterMember with inLeft | inRight
    · exact itemKey ▸ leftBelow later inLeft
    · rw [itemKey, sameKey]
      exact rightBelow later inRight
  · rw [remaining_normalize, remaining_swap, remaining, remaining, leftDrops.rest_eq,
      rightDrops.rest_eq]
    simp only [Option.toList_some, singleton_append]
    by_cases sameEntry : leftEntry = rightEntry
    · subst sameEntry
      rw [sent_of_same_entry leftValue rightValue, diff_cons_same, nil_append]
    · rw [sent_of_changed leftValue rightValue sameKey sameEntry,
        diff_cons_changed sameKey sameEntry]
      rfl

variable (normalized : pair.Normalized)
include normalized

theorem below_left (rightValue : pair.right.currentEntry? = some rightEntry)
    (notBoth : ∀ leftEntry ∈ pair.left.currentEntry?, leftEntry.key ≠ rightEntry.key) :
    ∀ entry ∈ pair.left.rest read, rightEntry.key < entry.key := by
  cases leftFinished : pair.left.finished with
  | true => simp [rest_of_finished leftFinished]
  | false =>
    have leftHasValue : pair.left.hasValue = true := by
      have leftDone := normalized.value (by simp [BTreeIterator.hasValue, rightValue])
      simpa [leftFinished] using leftDone
    obtain ⟨leftEntry, leftValue⟩ := Option.isSome_iff_exists.mp leftHasValue
    have first : rightEntry.key < leftEntry.key :=
      lt_of_le_of_ne (normalized.order leftEntry leftValue rightEntry rightValue)
        (Ne.symm (notBoth leftEntry leftValue))
    intro entry member
    exact first.trans_le (ready.left.head_le leftValue entry member)

theorem advanceOnce_right (unfinished : pair.finished = false)
    (different : pair.hasSameNextChild = false)
    (notBoth : ∀ leftEntry ∈ pair.left.currentEntry?, ∀ rightEntry ∈ pair.right.currentEntry?,
      leftEntry.key ≠ rightEntry.key) :
    ∃ moved, pair.advanceOnce read = .ok moved ∧ pair.Turn read moved := by
  obtain ⟨right, rightOk, rightReady, rightDrops⟩ := ready.right.advance unfinished
  have movedReady : Ready read { pair with right } := ⟨ready.left, rightReady⟩
  have below : ∀ rightEntry ∈ pair.right.currentEntry?, ∀ entry ∈ pair.left.rest read,
      rightEntry.key < entry.key := fun rightEntry rightValue =>
    below_left ready normalized rightValue fun leftEntry leftValue =>
      notBoth leftEntry leftValue rightEntry rightValue
  refine ⟨normalize { pair with right }, ?_, movedReady.normalize,
    normalize_normalized _, ?_, ?_, ?_⟩
  · have oneSide : (pair.right.hasValue && pair.left.hasValue &&
        pair.right.currentEntry?.map key == pair.left.currentEntry?.map key) =
          false := by
      cases leftValue : pair.left.currentEntry? with
      | none => simp [BTreeIterator.hasValue, leftValue]
      | some leftEntry =>
        cases rightValue : pair.right.currentEntry? with
        | none => simp [BTreeIterator.hasValue, rightValue]
        | some rightEntry =>
          simpa [BTreeIterator.hasValue, leftValue, rightValue] using
            Ne.symm (notBoth leftEntry leftValue rightEntry rightValue)
    simp [advanceOnce, different, oneSide, rightOk]
  · rw [size_normalize]
    exact Nat.add_lt_add_left rightDrops.length_lt _
  · have rightSorted := ready.right.sorted
    rw [rightDrops.rest_eq] at rightSorted
    have rightBelow := (sorted_append.mp rightSorted).2.2
    obtain ⟨droppedRight, positionsRight, passedRight, -⟩ := rightDrops
    refine (movesOn_of_sides (nil_append _).symm positionsRight ?_).normalize
    rw [passedRight]
    intro item member later laterMember
    have value : item ∈ pair.right.currentEntry?.toList := by simpa using member
    rcases mem_append.mp laterMember with inLeft | inRight
    · exact below item (by simpa using value) later inLeft
    · exact rightBelow item value later inRight
  · rw [remaining_normalize, remaining, remaining, rightDrops.rest_eq]
    cases rightValue : pair.right.currentEntry? with
    | none =>
      rw [sent_of_no_value different rightValue]
      rfl
    | some rightEntry =>
      rw [sent_of_right normalized different rightValue fun leftEntry leftValue =>
          notBoth leftEntry leftValue rightEntry rightValue,
        Option.toList_some, singleton_append,
        diff_cons_right (below rightEntry rightValue)]
      rfl

theorem advanceOnce_spec (unfinished : pair.finished = false) :
    ∃ moved, pair.advanceOnce read = .ok moved ∧ pair.Turn read moved := by
  cases same : pair.hasSameNextChild with
  | true => exact advanceOnce_skip ready normalized same
  | false =>
    by_cases both : ∃ leftEntry ∈ pair.left.currentEntry?,
        ∃ rightEntry ∈ pair.right.currentEntry?, leftEntry.key = rightEntry.key
    · obtain ⟨leftEntry, leftValue, rightEntry, rightValue, sameKey⟩ := both
      exact advanceOnce_both ready same leftValue rightValue sameKey
    · push Not at both
      exact advanceOnce_right ready normalized unfinished same both

end

/-- What a call of `SendDiff` hands out, when it is called. -/
theorem sent_of_hasDiff (hasDiff : pair.hasDiff = true) : pair.sent = pair.diffs :=
  if_pos hasDiff

theorem remaining_of_finished (normalized : pair.Normalized) (finished : pair.finished = true) :
    pair.remaining read = [] := by
  rw [remaining, rest_of_finished finished, rest_of_finished (normalized.finished finished)]
  simp

theorem advance_spec (ready : pair.Ready read) (normalized : pair.Normalized)
    (unfinished : pair.finished = false) (enough : pair.size read ≤ fuel) :
    ∃ moved, pair.advance read fuel = .ok moved ∧ pair.Turn read moved ∧
      (moved.finished = true ∨ moved.hasDiff = true) := by
  induction fuel generalizing pair with
  | zero =>
    obtain ⟨next, -, turn⟩ := advanceOnce_spec ready normalized unfinished
    have := turn.smaller
    omega
  | succ fuel ih =>
    obtain ⟨next, nextOk, turn⟩ := advanceOnce_spec ready normalized unfinished
    have smaller := turn.smaller
    by_cases stops : next.finished = true ∨ next.hasDiff = true
    · refine ⟨next, ?_, turn, stops⟩
      have noLoop : (!next.finished && !next.hasDiff) = false := by
        rcases stops with finished | hasDiff
        · simp [finished]
        · simp [hasDiff]
      simp only [advance, nextOk, bind, Except.bind, noLoop]
      rfl
    · push Not at stops
      simp only [ne_eq, Bool.not_eq_true] at stops
      obtain ⟨moved, movedOk, later, movedStops⟩ := ih turn.ready turn.normalized stops.1 (by omega)
      have nothing : next.sent = [] := by simp [sent, stops.2]
      refine ⟨moved, ?_, ⟨later.ready, later.normalized, later.smaller.trans smaller,
        turn.moves.moveOn later.moves, ?_⟩, movedStops⟩
      · simp [advance, nextOk, bind, Except.bind, stops, movedOk]
      · rw [turn.remaining, later.remaining, nothing, nil_append]

theorem runUntil_append {σ α : Type} (onNext : σ → α → σ × Bool) (state : σ)
    (first second : List α) : runUntil onNext state (first ++ second) =
      if (runUntil onNext state first).2 then runUntil onNext (runUntil onNext state first).1 second
      else runUntil onNext state first := by
  induction first generalizing state with
  | nil => rfl
  | cons item first ih =>
    simp only [cons_append, runUntil]
    by_cases continues : (onNext state item).2 = true
    · simp [continues, ih]
    · simp [continues]

theorem sendAll_spec {σ : Type} (onNext : σ → Difference → σ × Bool) (state : σ)
    (ready : pair.Ready read) (normalized : pair.Normalized)
    (stopped : pair.finished = true ∨ pair.hasDiff = true) (enough : pair.size read < fuel) :
    pair.sendAll read onNext fuel state = .ok (runUntil onNext state (pair.remaining read)).1 := by
  induction fuel generalizing pair state with
  | zero => omega
  | succ fuel ih =>
    cases finished : pair.finished with
    | true =>
      rw [remaining_of_finished normalized finished]
      simp [sendAll, finished, runUntil]
      rfl
    | false =>
      have hasDiff : pair.hasDiff = true := by simpa [finished] using stopped
      obtain ⟨moved, movedOk, turn, movedStops⟩ :=
        advance_spec ready normalized finished (by omega : pair.size read ≤ fuel)
      have smaller := turn.smaller
      rw [turn.remaining, sent_of_hasDiff hasDiff, runUntil_append]
      by_cases continues : (pair.sendDiff onNext state).2 = true
      · have later := ih (pair.sendDiff onNext state).1 turn.ready turn.normalized movedStops
          (by omega)
        simp only [sendDiff] at continues later
        simp [sendAll, finished, sendDiff, continues, movedOk, bind, Except.bind, later]
      · simp only [sendDiff] at continues
        simp [sendAll, finished, sendDiff, continues]
        rfl

theorem ready_of_init {level : Entry → Nat} {n : Nat} {root : ObjectIdentifier}
    {slot : Slot Entry n} (stored : Stored read n (some root) slot)
    (sorted : KeyedList.Sorted key (slot.contents n))
    (trimmed : slot.Shaped level n .trimmed) :
    ∃ iterator, BTreeIterator.init read root = .ok iterator ∧ iterator.Ready read ∧
      iterator.rest read = slot.contents n ∧
      iterator.positions read = Position.below read (some root) := by
  obtain ⟨iterator, initOk, valid, positions⟩ := init_spec stored
  have rest : iterator.rest read = slot.contents n := by
    rw [BTreeIterator.rest, positions, entries_below stored]
  refine ⟨iterator, initOk, ⟨valid, ?_, ?_⟩, rest, positions⟩
  · rwa [rest]
  · rw [positions]
    exact trim_below stored trimmed

end IteratorPair

end Peridot
