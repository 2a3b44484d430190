import Peridot.MergeContents

/-!
# Automatic merges

`AutoMergeStrategy`: the changes of the right head are collected first, and compared with
those of the left head as they come.  Heads that changed no key differently are merged;
other conflicts go to the resolver of the client.
-/

namespace Peridot

open KeyedList List

inductive MergeFailure where
  | storage (status : Status)
  | cancelled

/-- `PageChangeIndex`: the right changes from `entry_index` on. -/
structure PageChangeIndex where
  rest : List EntryChange
  distinct : Bool

/-- `on_next` of `OnRightChangeReady`. -/
def PageChangeIndex.onNext (index : PageChangeIndex) (change : EntryChange) :
    PageChangeIndex × Bool :=
  match index.rest.dropWhile fun other => other.entry.key < change.entry.key with
  | [] => (⟨[], index.distinct⟩, false)
  | other :: rest =>
    if change.entry.key = other.entry.key then
      if change.same other then (⟨other :: rest, index.distinct⟩, true)
      else (⟨other :: rest, false⟩, false)
    else (⟨other :: rest, index.distinct⟩, true)

/-- The answers of the storage to the calls of an `AutoMerger`. -/
structure AutoMergeReplies where
  rightDiff : Except MergeFailure (List EntryChange)
  leftDiff : Except MergeFailure (List EntryChange)
  startMergeCommit : Except MergeFailure Unit
  /-- The waiter for the `Put` and `Delete` calls on the journal. -/
  journal : Except MergeFailure Unit
  commitJournal : Except MergeFailure Unit

/-- How an `AutoMerger` ends. -/
inductive AutoMergeOutcome where
  /-- The conflict is handed to a `ConflictResolverClient`. -/
  | delegated
  /-- A merge commit is made. -/
  | committed (contents : Contents)

/-- `OnRightChangeReady`: no key was changed differently on both sides. -/
def onRightChangeReady (replies : AutoMergeReplies) (rightChange : List EntryChange) :
    Except MergeFailure Bool := do
  if rightChange = [] then return true
  let leftChange ← replies.leftDiff
  return (reportChanges PageChangeIndex.onNext ⟨rightChange, true⟩ leftChange).distinct

/-- `OnComparisonDone` and `ApplyDiffOnJournal`. -/
def onComparisonDone (replies : AutoMergeReplies) (left : Contents)
    (rightChanges : List EntryChange) (distinct : Bool) :
    Except MergeFailure AutoMergeOutcome := do
  if ¬distinct then return .delegated
  replies.startMergeCommit
  replies.journal
  replies.commitJournal
  return .committed (rightChanges.foldl applyToMap left)

/-- `AutoMerger::Start`. -/
def autoMerge (replies : AutoMergeReplies) (left : Contents) :
    Except MergeFailure AutoMergeOutcome := do
  let rightChange ← replies.rightDiff
  let distinct ← onRightChangeReady replies rightChange
  onComparisonDone replies left rightChange distinct

def Conflicting (first second : EntryChange) : Prop :=
  first.entry.key = second.entry.key ∧ first.same second = false

section Comparison

variable {rest left : List EntryChange} {change other : EntryChange}

theorem onNext_of_passed
    (passed : (rest.dropWhile fun other => other.entry.key < change.entry.key) = [])
    (distinct : Bool) :
    PageChangeIndex.onNext ⟨rest, distinct⟩ change = (⟨[], distinct⟩, false) := by
  simp only [PageChangeIndex.onNext, passed]

theorem onNext_of_cons {after : List EntryChange}
    (isNext : (rest.dropWhile fun other => other.entry.key < change.entry.key) = other :: after)
    (distinct : Bool) : PageChangeIndex.onNext ⟨rest, distinct⟩ change =
      if change.entry.key = other.entry.key then
        if change.same other then (⟨other :: after, distinct⟩, true)
        else (⟨other :: after, false⟩, false) else (⟨other :: after, distinct⟩, true) := by
  simp only [PageChangeIndex.onNext, isNext]

theorem mem_dropWhile_of_not_lt (inRest : other ∈ rest)
    (notLess : ¬other.entry.key < change.entry.key) :
    other ∈ rest.dropWhile fun other => other.entry.key < change.entry.key := by
  induction rest with
  | nil => simp at inRest
  | cons first rest ih =>
    rw [dropWhile_cons]
    split
    case isTrue less =>
      rcases mem_cons.mp inRest with rfl | inRest
      · exact absurd (by simpa using less) notLess
      · exact ih inRest
    case isFalse => exact inRest

theorem conflicting_iff_of_dropWhile
    (sortedLeft : KeyedList.Sorted (fun change : EntryChange => change.entry.key) (change :: left)) :
    (∃ first ∈ change :: left, ∃ second ∈ rest, Conflicting first second) ↔
      ∃ first ∈ change :: left,
        ∃ second ∈ rest.dropWhile fun other => other.entry.key < change.entry.key,
          Conflicting first second := by
  constructor
  · rintro ⟨first, inLeft, second, inRest, conflicting⟩
    refine ⟨first, inLeft, second, mem_dropWhile_of_not_lt inRest ?_, conflicting⟩
    rw [← conflicting.1]
    rcases mem_cons.mp inLeft with rfl | inLeft
    · exact lt_irrefl _
    · exact ((sorted_cons.mp sortedLeft).1 first inLeft).not_gt
  · rintro ⟨first, inLeft, second, inRest, conflicting⟩
    exact ⟨first, inLeft, second, (dropWhile_suffix _).subset inRest, conflicting⟩

theorem distinct_reportChanges
    (sorted : KeyedList.Sorted (fun change : EntryChange => change.entry.key) rest)
    (sortedLeft : KeyedList.Sorted (fun change : EntryChange => change.entry.key) left) :
    (reportChanges PageChangeIndex.onNext ⟨rest, true⟩ left).distinct = false ↔
      ∃ first ∈ left, ∃ second ∈ rest, Conflicting first second := by
  induction left generalizing rest with
  | nil => simp [reportChanges]
  | cons change left ih =>
    obtain ⟨above, sortedAfter⟩ := sorted_cons.mp sortedLeft
    rw [conflicting_iff_of_dropWhile sortedLeft]
    cases isRest : rest.dropWhile fun other => other.entry.key < change.entry.key with
    | nil => simp [reportChanges, onNext_of_passed isRest]
    | cons other after =>
      have sortedRest : KeyedList.Sorted (fun change : EntryChange => change.entry.key)
          (other :: after) := by
        rw [← isRest]
        exact List.Pairwise.sublist (dropWhile_suffix _).sublist sorted
      have notLess : ¬other.entry.key < change.entry.key := by
        have isHead := List.head?_dropWhile_not
          (fun other : EntryChange => decide (other.entry.key < change.entry.key)) rest
        simpa [isRest] using isHead
      -- Only the next right change can have the key of this left change.
      have isOther : ∀ second ∈ other :: after, change.entry.key = second.entry.key →
          second = other := by
        intro second inRest sameKey
        rcases mem_cons.mp inRest with rfl | inAfter
        · rfl
        · have less := (sorted_cons.mp sortedRest).1 second inAfter
          rw [← sameKey] at less
          exact absurd less notLess
      have goesOn (agrees : ∀ second ∈ other :: after, ¬Conflicting change second) :
          (∃ first ∈ change :: left, ∃ second ∈ other :: after, Conflicting first second) ↔
            ∃ first ∈ left, ∃ second ∈ other :: after, Conflicting first second := by
        rw [exists_mem_cons_iff]
        refine or_iff_right ?_
        rintro ⟨second, inRest, conflicting⟩
        exact agrees second inRest conflicting
      simp only [reportChanges, onNext_of_cons isRest]
      by_cases sameKey : change.entry.key = other.entry.key
      · by_cases same : change.same other = true
        · rw [if_pos sameKey, if_pos same, if_pos rfl, ih sortedRest sortedAfter, goesOn]
          intro second inRest conflicting
          obtain rfl := isOther second inRest conflicting.1
          exact nomatch conflicting.2.symm.trans same
        · rw [if_pos sameKey, if_neg same, if_neg (by simp)]
          simp only [true_iff]
          exact ⟨change, by simp, other, by simp, sameKey, by simpa using same⟩
      · rw [if_neg sameKey, if_pos rfl, ih sortedRest sortedAfter, goesOn]
        intro second inRest conflicting
        obtain rfl := isOther second inRest conflicting.1
        exact sameKey conflicting.1

end Comparison

/-- Both heads changed the key since the common ancestor, with different results. -/
def ChangedDifferently (ancestor left right : Contents) (key : Key) : Prop :=
  ancestor key ≠ left key ∧ ancestor key ≠ right key ∧ left key ≠ right key

theorem exists_conflicting_iff {ancestor left right : Contents}
    {leftChange rightChange : List EntryChange} (leftExact : ExactDiff ancestor left leftChange)
    (rightExact : ExactDiff ancestor right rightChange) :
    (∃ first ∈ leftChange, ∃ second ∈ rightChange, Conflicting first second) ↔
      ∃ key, ChangedDifferently ancestor left right key := by
  have differ {first second : EntryChange} (inLeft : first ∈ leftChange)
      (inRight : second ∈ rightChange) (sameKey : first.entry.key = second.entry.key) :
      Conflicting first second ↔ left first.entry.key ≠ right first.entry.key := by
    rw [leftExact.result first inLeft, sameKey, rightExact.result second inRight, Conflicting,
      and_iff_right sameKey, Bool.eq_false_iff, Ne, Ne, EntryChange.same_iff, and_iff_right sameKey]
  constructor
  · rintro ⟨first, inLeft, second, inRight, conflicting⟩
    have changed := rightExact.changed second inRight
    rw [← conflicting.1] at changed
    exact ⟨first.entry.key, leftExact.changed first inLeft, changed,
      (differ inLeft inRight conflicting.1).mp conflicting⟩
  · rintro ⟨key, leftChanged, rightChanged, different⟩
    obtain ⟨first, inLeft, rfl⟩ := leftExact.complete key leftChanged
    obtain ⟨second, inRight, sameKey⟩ := rightExact.complete _ rightChanged
    exact ⟨first, inLeft, second, inRight, (differ inLeft inRight sameKey.symm).mpr different⟩

variable {replies : AutoMergeReplies}

theorem onRightChangeReady_eq {ancestor left right : Contents}
    {leftChange rightChange : List EntryChange} (isLeft : replies.leftDiff = .ok leftChange)
    (leftExact : ExactDiff ancestor left leftChange)
    (rightExact : ExactDiff ancestor right rightChange) :
    ∃ distinct, onRightChangeReady replies rightChange = .ok distinct ∧
      (distinct = false ↔ ∃ key, ChangedDifferently ancestor left right key) := by
  rw [onRightChangeReady, ← exists_conflicting_iff leftExact rightExact]
  split
  case isTrue isNil => exact ⟨true, rfl, by simp [isNil]⟩
  case isFalse =>
    refine ⟨_, by rw [isLeft]; rfl, ?_⟩
    exact distinct_reportChanges rightExact.sorted leftExact.sorted

theorem onComparisonDone_distinct {left : Contents}
    {rightChanges : List EntryChange} {outcome : AutoMergeOutcome} :
    onComparisonDone replies left rightChanges true = .ok outcome ↔
      replies.startMergeCommit = .ok () ∧ replies.journal = .ok () ∧
        replies.commitJournal = .ok () ∧
        outcome = .committed (rightChanges.foldl applyToMap left) := by
  obtain ⟨rightDiff, leftDiff, start, journal, commit⟩ := replies
  cases start with
  | error failure => simp [onComparisonDone, bind, Except.bind]
  | ok =>
    cases journal with
    | error failure => simp [onComparisonDone, bind, Except.bind]
    | ok =>
      cases commit with
      | error failure => simp [onComparisonDone, bind, Except.bind]
      | ok => simp [onComparisonDone, bind, Except.bind, pure, Except.pure, eq_comm]

/-- The conflict is delegated exactly when a key was changed differently on both sides.
Otherwise, when the storage does not fail, the merge has the changes of both sides. -/
theorem autoMerge_spec {ancestor left right : Contents} {replies : AutoMergeReplies}
    {leftChange rightChange : List EntryChange} (isRight : replies.rightDiff = .ok rightChange)
    (isLeft : replies.leftDiff = .ok leftChange) (leftExact : ExactDiff ancestor left leftChange)
    (rightExact : ExactDiff ancestor right rightChange) : (autoMerge replies left = .ok .delegated ↔
      ∃ key, ChangedDifferently ancestor left right key) ∧
    (∀ merged, autoMerge replies left = .ok (.committed merged) →
      ∀ key, merged key = if ancestor key ≠ right key then right key else left key) ∧
    ((¬∃ key, ChangedDifferently ancestor left right key) →
      replies.startMergeCommit = .ok () → replies.journal = .ok () →
      replies.commitJournal = .ok () →
      ∃ merged, autoMerge replies left = .ok (.committed merged)) := by
  obtain ⟨distinct, isDistinct, conflicts⟩ := onRightChangeReady_eq isLeft leftExact rightExact
  have isMerge : autoMerge replies left =
      onComparisonDone replies left rightChange distinct := by
    simp [autoMerge, isRight, isDistinct, bind, Except.bind]
  rw [isMerge, ← conflicts]
  cases distinct with
  | false => simp [onComparisonDone, pure, Except.pure]
  | true =>
    refine ⟨?_, ?_, ?_⟩
    · simp [onComparisonDone_distinct]
    · intro merged isCommitted key
      obtain ⟨-, -, -, isMerged⟩ := onComparisonDone_distinct.mp isCommitted
      obtain rfl := AutoMergeOutcome.committed.inj isMerged
      exact rightExact.foldl_applyToMap left key
    · intro _ started applied committed
      exact ⟨_, onComparisonDone_distinct.mpr ⟨started, applied, committed, rfl⟩⟩

section

variable {other : AutoMergeReplies} {ancestor left right : Contents}
  {leftChange rightChange : List EntryChange}

theorem ChangedDifferently.comm {key : Key} :
    ChangedDifferently ancestor left right key ↔ ChangedDifferently ancestor right left key := by
  rw [ChangedDifferently, ChangedDifferently, and_left_comm, @ne_comm _ (left key) (right key)]

theorem autoMerge_eq (isRight : replies.rightDiff = .ok rightChange)
    (isLeft : replies.leftDiff = .ok leftChange) (leftExact : ExactDiff ancestor left leftChange)
    (rightExact : ExactDiff ancestor right rightChange) : ∃ distinct,
      autoMerge replies left = onComparisonDone replies left rightChange distinct ∧
      (distinct = false ↔ ∃ key, ChangedDifferently ancestor left right key) := by
  obtain ⟨distinct, isDistinct, conflicts⟩ := onRightChangeReady_eq isLeft leftExact rightExact
  refine ⟨distinct, ?_, conflicts⟩
  simp [autoMerge, isRight, isDistinct, bind, Except.bind]

/-- A device that has the heads the other way round delegates the same conflicts, and its merges have
the same contents. -/
theorem autoMerge_symmetric (isRight : replies.rightDiff = .ok rightChange)
    (isLeft : replies.leftDiff = .ok leftChange) (otherRight : other.rightDiff = .ok leftChange)
    (otherLeft : other.leftDiff = .ok rightChange) (leftExact : ExactDiff ancestor left leftChange)
    (rightExact : ExactDiff ancestor right rightChange) :
    (autoMerge replies left = .ok .delegated ↔ autoMerge other right = .ok .delegated) ∧
      ∀ merged otherMerged, autoMerge replies left = .ok (.committed merged) →
        autoMerge other right = .ok (.committed otherMerged) → merged = otherMerged := by
  obtain ⟨distinct, isMerge, conflicts⟩ := autoMerge_eq isRight isLeft leftExact rightExact
  obtain ⟨otherDistinct, isOther, otherConflicts⟩ :=
    autoMerge_eq otherRight otherLeft rightExact leftExact
  rw [exists_congr fun _ => ChangedDifferently.comm, ← conflicts] at otherConflicts
  obtain rfl : distinct = otherDistinct := by grind
  rw [isMerge, isOther]
  cases distinct with
  | false => simp [onComparisonDone, pure, Except.pure]
  | true =>
    refine ⟨by simp [onComparisonDone_distinct], fun merged otherMerged isDone isOtherDone => ?_⟩
    obtain ⟨-, -, -, isMerged⟩ := onComparisonDone_distinct.mp isDone
    obtain ⟨-, -, -, isOtherMerged⟩ := onComparisonDone_distinct.mp isOtherDone
    obtain rfl := AutoMergeOutcome.committed.inj isMerged
    obtain rfl := AutoMergeOutcome.committed.inj isOtherMerged
    funext key
    have agreed : ¬ChangedDifferently ancestor left right key := fun differs =>
      absurd (conflicts.mpr ⟨key, differs⟩) (by simp)
    rw [rightExact.foldl_applyToMap left key, leftExact.foldl_applyToMap right key]
    unfold ChangedDifferently at agreed
    grind

end

def sampleMergeEntry (key : Key) : Entry :=
  ⟨key, default, .eager⟩

def sampleContents (keys : List Key) : Contents := fun key =>
  if key ∈ keys then some (sampleMergeEntry key) else none

theorem exactDiff_added (base : List Key) {key : Key} (isNew : key ∉ base) :
    ExactDiff (sampleContents base) (sampleContents (key :: base))
      [⟨sampleMergeEntry key, false⟩] := by
  constructor
  case sorted => simp
  case result => simp [sampleContents, sampleMergeEntry, EntryChange.result]
  case changed => simp [sampleContents, sampleMergeEntry, isNew]
  case complete =>
    intro other changed
    refine ⟨_, mem_singleton_self _, ?_⟩
    by_contra different
    refine changed ?_
    have isOther : other ≠ key := fun same => different same.symm
    simp [sampleContents, isOther]

/-- One head adds key 1, the other one key 2. -/
theorem autoMerge_spec_disjoint : ∃ merged,
    autoMerge ⟨.ok [⟨sampleMergeEntry [2], false⟩], .ok [⟨sampleMergeEntry [1], false⟩], .ok (),
      .ok (), .ok ()⟩ (sampleContents [[1]]) = .ok (.committed merged) ∧
    merged [1] = some (sampleMergeEntry [1]) ∧ merged [2] = some (sampleMergeEntry [2]) := by
  have spec := @autoMerge_spec _ _ _
    ⟨.ok [⟨sampleMergeEntry [2], false⟩], .ok [⟨sampleMergeEntry [1], false⟩], .ok (), .ok (),
      .ok ()⟩ _ _ rfl rfl (exactDiff_added [] (by simp)) (exactDiff_added [] (by simp))
  refine ⟨_, rfl, ?_, ?_⟩
  · rw [spec.2.1 _ rfl]
    decide
  · rw [spec.2.1 _ rfl]
    decide

/-- One head adds key 1, the other one key 2. -/
theorem autoMerge_symmetric_disjoint :
    let replies (right left : Key) : AutoMergeReplies :=
      ⟨.ok [⟨sampleMergeEntry right, false⟩], .ok [⟨sampleMergeEntry left, false⟩], .ok (), .ok (),
        .ok ()⟩
    ∃ merged, autoMerge (replies [2] [1]) (sampleContents [[1]]) = .ok (.committed merged) ∧
      autoMerge (replies [1] [2]) (sampleContents [[2]]) = .ok (.committed merged) := by
  intro replies
  have same := (@autoMerge_symmetric (replies [2] [1]) (replies [1] [2]) _ _ _ _ _ rfl rfl rfl rfl
    (exactDiff_added [] (by simp)) (exactDiff_added [] (by simp))).2 _ _ rfl rfl
  exact ⟨_, rfl, same ▸ rfl⟩

end Peridot
