import Peridot.ConflictResolver
import Peridot.AutoMerge

/-!
# Sequences of merges by the client

What the calls of `Merge` and `MergeNonConflictingEntries` make of the left head.
-/

namespace Peridot

open List MergeCall

def lastCall (calls : List MergeCall) (key : Key) : Option MergeCall :=
  (calls.filter fun call => call.mentions key).getLast?

/-- What the last value for a key asks for; a key without a value keeps the left entry. -/
def mergedEntry (left right : Contents) (calls : List MergeCall) (key : Key) : Option Entry :=
  match lastCall calls key with
  | none => left key
  | some call =>
    match call.lastValue key with
    | none => left key
    | some value => call.merged right value

def OnlyEmpty (calls : List MergeCall) (key : Key) : Prop :=
  ∀ call ∈ calls, ∀ value ∈ call.values, value.key = key → call.isEmpty value = true

/-- What the code needs to follow the last value for a key: a deletion has no other value of
its call to undo it, the entry of the right head has the priority that was sent with it, and
an empty value has nothing to do. -/
structure FollowsLast (left right : Contents) (calls : List MergeCall) (key : Key)
    (call : MergeCall) (value : MergedValue) : Prop where
  delete : value.source = .delete →
    ∀ other ∈ call.values, other.key = key → call.isStored other = false
  priority : value.source = .right → call.isStored value = true →
    ∀ entry, right key = some entry → entry.priority = value.priority
  empty : call.isEmpty value = true →
    OnlyEmpty calls key ∧ left key = call.merged right value

/-- Every entry stands under its own key. -/
def Contents.Keyed (contents : Contents) : Prop :=
  ∀ key entry, contents key = some entry → entry.key = key

theorem lastCall_append (calls : List MergeCall) (call : MergeCall) (key : Key) :
    lastCall (calls ++ [call]) key =
      if call.mentions key then some call else lastCall calls key := by
  rw [lastCall, filter_append]
  by_cases mentioned : call.mentions key = true
  · simp [mentioned]
  · simp [mentioned, lastCall]

variable {call : MergeCall} {calls : List MergeCall}

theorem OnlyEmpty.append_iff {key : Key} : OnlyEmpty (calls ++ [call]) key ↔ OnlyEmpty calls key ∧
        ∀ value ∈ call.values, value.key = key → call.isEmpty value = true := by
  simp [OnlyEmpty, or_imp, forall_and]

namespace MergeCall

variable {call : MergeCall} {key : Key} {pending : Contents}

theorem resultAt_of_onlyEmpty
    (onlyEmpty : ∀ value ∈ call.values, value.key = key → call.isEmpty value = true) :
    call.resultAt pending key = pending key := by
  have notStored : call.lastStored key = none :=
    call.lastStored_eq_none.mpr fun value inValues isKey =>
      call.not_isStored_of_isEmpty (onlyEmpty value inValues isKey)
  have notDeleted : ¬call.deletes key = true := by
    rw [deletes_iff]
    rintro ⟨value, inValues, isKey, isDelete⟩
    have isEmpty := onlyEmpty value inValues isKey
    simp [MergeCall.isEmpty, isDelete] at isEmpty
  rw [resultAt, notStored, if_neg notDeleted]

theorem resultAt_of_not_onlyEmpty
    (notEmpty : ¬∀ value ∈ call.values, value.key = key → call.isEmpty value = true)
    {entry : Entry} (isResult : call.resultAt pending key = some entry) :
    entry.objectIdentifier.objectDigest ≠ [] := by
  rw [resultAt] at isResult
  cases isLast : call.lastStored key with
  | some value =>
    obtain ⟨-, -, isStored⟩ := call.mem_of_lastStored isLast
    simp only [isLast, Option.some.injEq] at isResult
    rw [← isResult]
    simpa [MergeCall.isStored] using isStored
  | none =>
    push Not at notEmpty
    obtain ⟨value, inValues, isKey, notEmpty⟩ := notEmpty
    have notStored := call.lastStored_eq_none.mp isLast value inValues isKey
    have isDelete : value.source = .delete := by
      by_contra notDelete
      have isStored := call.isStored_of_not_isEmpty notDelete (by simpa using notEmpty)
      exact absurd (isStored.symm.trans notStored) (by simp)
    have isDeleted : call.deletes key = true :=
      call.deletes_iff.mpr ⟨value, inValues, isKey, isDelete⟩
    simp [isLast, isDeleted] at isResult

end MergeCall

variable {client : ConflictResolverClient}

namespace ConflictResolverClient

variable {left right : Contents} {calls : List MergeCall} {key : Key}

theorem mergeAll_append {last : ConflictResolverClient}
    (answered : client.mergeAll (calls ++ [call]) = some last) :
    ∃ before, client.mergeAll calls = some before ∧ (before.merge call).1 = .ok ∧
      (before.merge call).2 = some last := by
  rw [mergeAll, foldlM_append] at answered
  obtain ⟨before, isBefore, answered⟩ := Option.bind_eq_some_iff.mp answered
  refine ⟨before, isBefore, ?_⟩
  have isLast : (if (before.merge call).1 = .ok then (before.merge call).2 else none) =
      some last := by
    simpa using answered
  split at isLast
  · exact ⟨by assumption, isLast⟩
  · simp at isLast

/-- A key with empty values only still has the left entry; any other value leaves no entry
without a digest. -/
theorem pending_of_mergeAll (answered : (new left).mergeAll calls = some client) :
    (OnlyEmpty calls key ∧ client.journal.pending key = left key) ∨
      (¬OnlyEmpty calls key ∧ ∀ entry, client.journal.pending key = some entry →
        entry.objectIdentifier.objectDigest ≠ []) := by
  induction calls using List.reverseRecOn generalizing client with
  | nil =>
    cases answered
    exact .inl ⟨by simp [OnlyEmpty], rfl⟩
  | append_singleton calls call ih =>
    obtain ⟨before, isBefore, isOk, isNext⟩ := mergeAll_append answered
    obtain ⟨-, -, isResult⟩ := merge_ok isOk isNext
    rw [OnlyEmpty.append_iff, isResult]
    by_cases onlyEmpty : ∀ value ∈ call.values, value.key = key → call.isEmpty value = true
    · rw [resultAt_of_onlyEmpty onlyEmpty]
      rcases ih isBefore with ⟨earlier, unchanged⟩ | ⟨earlier, digest⟩
      · exact .inl ⟨⟨earlier, onlyEmpty⟩, unchanged⟩
      · exact .inr ⟨fun both => earlier both.1, digest⟩
    · exact .inr ⟨fun both => onlyEmpty both.2, fun entry => resultAt_of_not_onlyEmpty onlyEmpty⟩

variable {value : MergedValue}

section

variable {call : MergeCall}
    (exact : ∀ key entry, call.replies.getEntryFromCommit key = .ok entry → right key = some entry)
include exact

/-- The entry that a value of source `RIGHT` is resolved to. -/
theorem right_of_resolved (isRight : value.source = .right)
    (resolved : onNextMergeResult call.replies value = .ok (call.identifier value)) :
    ∃ entry, right value.key = some entry ∧ entry.objectIdentifier = call.identifier value := by
  simp only [onNextMergeResult, isRight] at resolved
  cases answer : call.replies.getEntryFromCommit value.key with
  | error status => simp [answer, Except.map] at resolved
  | ok entry =>
    simp only [answer, Except.map, Except.ok.injEq] at resolved
    exact ⟨entry, exact _ _ answer, resolved⟩

theorem merged_identifier (notDelete : value.source ≠ .delete)
    (resolved : onNextMergeResult call.replies value = .ok (call.identifier value)) :
    ∃ entry, call.merged right value = some entry ∧
      entry.objectIdentifier = call.identifier value := by
  cases isSource : value.source with
  | delete => exact absurd isSource notDelete
  | new => simp [MergeCall.merged, isSource]
  | right =>
    obtain ⟨entry, isEntry, isIdentifier⟩ := right_of_resolved exact isSource resolved
    exact ⟨entry, by simp [MergeCall.merged, isSource, isEntry], isIdentifier⟩

end

/-- The last call with a value for the key follows the last one of them under the conditions
of `FollowsLast`. -/
theorem resultAt_eq_merged_iff {before : ConflictResolverClient}
    (isBefore : (new left).mergeAll calls = some before)
    (keyed : right.Keyed) (exact : ∀ key entry, call.replies.getEntryFromCommit key = .ok entry →
      right key = some entry)
    (resolved : onNextMergeResult call.replies value = .ok (call.identifier value))
    (isLast : call.lastValue key = some value) :
    call.resultAt before.journal.pending key = call.merged right value ↔
      FollowsLast left right (calls ++ [call]) key call value := by
  obtain ⟨inValues, isKey⟩ := call.mem_of_lastValue isLast
  by_cases isDelete : value.source = .delete
  · -- A deletion: only a value that is stored in the same call can undo it.
    have isDeleted : call.deletes key = true :=
      call.deletes_iff.mpr ⟨value, inValues, isKey, isDelete⟩
    have noEntry : call.merged right value = none := by simp [MergeCall.merged, isDelete]
    have isAbsent : call.resultAt before.journal.pending key = none ↔
        call.lastStored key = none := by
      rw [MergeCall.resultAt]
      cases call.lastStored key <;> simp [isDeleted]
    rw [noEntry, isAbsent, call.lastStored_eq_none]
    refine ⟨fun notStored => ⟨fun _ => notStored, ?_, ?_⟩, fun follows => follows.delete isDelete⟩
    · simp [isDelete]
    · simp [MergeCall.isEmpty, isDelete]
  obtain ⟨entry, isEntry, isIdentifier⟩ := merged_identifier exact isDelete resolved
  by_cases isEmpty : call.isEmpty value = true
  · -- An empty value is skipped.
    have noDigest : entry.objectIdentifier.objectDigest = [] := by
      simp only [MergeCall.isEmpty, decide_eq_true_eq] at isEmpty
      rw [isIdentifier, isEmpty.2]
    have notStored := call.not_isStored_of_isEmpty isEmpty
    constructor
    · intro isResult
      refine ⟨fun delete => absurd delete isDelete, fun _ isStored => ?_, fun _ => ?_⟩
      · exact absurd (isStored.symm.trans notStored) (by simp)
      · have onlyEmpty : ∀ value ∈ call.values, value.key = key → call.isEmpty value = true := by
          by_contra notEmpty
          exact resultAt_of_not_onlyEmpty notEmpty (isResult.trans isEntry) noDigest
        rw [resultAt_of_onlyEmpty onlyEmpty] at isResult
        rcases pending_of_mergeAll isBefore with ⟨earlier, unchanged⟩ | ⟨-, digest⟩
        · exact ⟨OnlyEmpty.append_iff.mpr ⟨earlier, onlyEmpty⟩, unchanged.symm.trans isResult⟩
        · exact absurd noDigest (digest entry (isResult.trans isEntry))
    · intro follows
      obtain ⟨onlyEmpty, isLeft⟩ := follows.empty isEmpty
      obtain ⟨earlier, onlyEmpty⟩ := OnlyEmpty.append_iff.mp onlyEmpty
      rw [resultAt_of_onlyEmpty onlyEmpty, ← isLeft]
      rcases pending_of_mergeAll isBefore with ⟨-, unchanged⟩ | ⟨notEmpty, -⟩
      · exact unchanged
      · exact absurd earlier notEmpty
  · -- A value that is stored is the last one that the call stores.
    have isStored := call.isStored_of_not_isEmpty isDelete (by simpa using isEmpty)
    rw [MergeCall.resultAt, call.lastStored_of_lastValue isLast isStored]
    have hasPriority : some (⟨value.key, call.identifier value, value.priority⟩ : Entry) =
        call.merged right value ↔
        (value.source = .right → ∀ entry, right key = some entry →
          entry.priority = value.priority) := by
      cases isSource : value.source with
      | delete => exact absurd isSource isDelete
      | new => simp [MergeCall.merged, isSource]
      | right =>
        obtain ⟨entry, isRight, isIdentifier⟩ := right_of_resolved exact isSource resolved
        have ownKey := keyed _ _ isRight
        rw [isKey] at isRight ownKey
        simp only [MergeCall.merged, isSource, isKey, isRight, Option.some.injEq]
        rw [← isIdentifier]
        obtain ⟨entryKey, identifier, priority⟩ := entry
        subst ownKey
        simp [eq_comm]
    simp only []
    rw [hasPriority]
    constructor
    · intro same
      exact ⟨fun delete => absurd delete isDelete, fun isRight _ => same isRight,
        fun empty => absurd empty isEmpty⟩
    · intro follows isRight
      exact follows.priority isRight isStored

theorem pending_eq_mergedEntry_iff (keyed : right.Keyed)
    (exact : ∀ call ∈ calls, ∀ key entry, call.replies.getEntryFromCommit key = .ok entry →
      right key = some entry) (answered : (new left).mergeAll calls = some client) :
    client.journal.pending key = mergedEntry left right calls key ↔
      ∀ call value, lastCall calls key = some call → call.lastValue key = some value →
        FollowsLast left right calls key call value := by
  induction calls using List.reverseRecOn generalizing client with
  | nil =>
    cases answered
    simp [mergedEntry, lastCall, new]
  | append_singleton calls call ih =>
    obtain ⟨before, isBefore, isOk, isNext⟩ := mergeAll_append answered
    obtain ⟨resolved, -, isResult⟩ := merge_ok isOk isNext
    rw [isResult, mergedEntry, lastCall_append]
    by_cases mentioned : call.mentions key = true
    · obtain ⟨value, isLast⟩ := call.lastValue_of_mentions mentioned
      obtain ⟨inValues, -⟩ := call.mem_of_lastValue isLast
      simp only [mentioned, if_true, isLast]
      rw [resultAt_eq_merged_iff isBefore keyed (exact call (by simp)) (resolved value inValues)
        isLast]
      constructor
      · intro follows other otherValue isCall isValue
        cases isCall
        obtain rfl := Option.some.inj (isLast.symm.trans isValue)
        exact follows
      · intro follows
        exact follows call value rfl isLast
    · have unmentioned : call.mentions key = false := by simpa using mentioned
      have noValue : ∀ value ∈ call.values, value.key = key → call.isEmpty value = true := by
        intro value inValues isKey
        simp only [MergeCall.mentions, any_eq_false, decide_eq_true_eq] at unmentioned
        exact absurd isKey (unmentioned value inValues)
      have sameConditions : ∀ other value,
          FollowsLast left right (calls ++ [call]) key other value ↔
            FollowsLast left right calls key other value := by
        intro other value
        have sameEmpty : OnlyEmpty (calls ++ [call]) key ↔ OnlyEmpty calls key := by
          rw [OnlyEmpty.append_iff, and_iff_left noValue]
        constructor
        · intro follows
          exact ⟨follows.delete, follows.priority, fun empty => by
            rw [← sameEmpty]; exact follows.empty empty⟩
        · intro follows
          exact ⟨follows.delete, follows.priority, fun empty => by
            rw [sameEmpty]; exact follows.empty empty⟩
      rw [call.resultAt_of_not_mentions before.journal.pending unmentioned]
      simp only [unmentioned, Bool.false_eq_true, if_false, sameConditions]
      exact ih (fun call inCalls => exact call (by simp [inCalls])) isBefore

theorem contents_of_done {commitJournal : Status}
    {contents : Contents} (isDone : client.done commitJournal = .ok contents) :
    contents = client.journal.pending := by
  unfold done at isDone
  split at isDone
  case isTrue => simp at isDone
  case isFalse =>
    split at isDone
    · exact (Except.ok.inj isDone).symm
    · simp at isDone

/-- The merge commit has what the last values ask for exactly under the conditions of
`FollowsLast`. -/
theorem done_mergeAll_iff {client : ConflictResolverClient} {commitJournal : Status}
    {contents : Contents} (keyed : right.Keyed)
    (exact : ∀ call ∈ calls, ∀ key entry, call.replies.getEntryFromCommit key = .ok entry →
      right key = some entry) (answered : (new left).mergeAll calls = some client)
    (isDone : client.done commitJournal = .ok contents) :
    (∀ key, contents key = mergedEntry left right calls key) ↔
      ∀ key call value, lastCall calls key = some call → call.lastValue key = some value →
        FollowsLast left right calls key call value := by
  obtain rfl := contents_of_done isDone
  exact forall_congr' fun key => pending_eq_mergedEntry_iff keyed exact answered

def sampleReplies : ResolverReplies where
  getEntryFromCommit _ := .error .notFound
  addObjectFromLocal bytes := .ok ⟨0, 0, bytes⟩
  resolveReference _ := none
  deletion _ := .ok
  put _ := .ok

/-- A value of one byte is put under a key. -/
theorem done_mergeAll_iff_new : ∃ client contents,
    (new (sampleContents [])).mergeAll [⟨[⟨[1], .new, .bytes [7], .lazy⟩], sampleReplies⟩] =
      some client ∧
    client.done .ok = .ok contents ∧ contents [1] = some ⟨[1], ⟨0, 0, [7]⟩, .lazy⟩ := by
  refine ⟨_, _, rfl, rfl, ?_⟩
  have spec := @done_mergeAll_iff (sampleContents []) (sampleContents [])
    [⟨[⟨[1], .new, .bytes [7], .lazy⟩], sampleReplies⟩] _ .ok _ (by simp [Contents.Keyed,
      sampleContents]) (by simp [sampleReplies]) rfl rfl
  rw [spec.mpr ?_]
  · decide
  · intro key call value isCall isValue
    obtain ⟨inCalls, -⟩ := mem_filter.mp (mem_of_getLast? isCall)
    obtain rfl := mem_singleton.mp inCalls
    obtain ⟨inValues, -⟩ := mem_of_lastValue _ isValue
    obtain rfl := mem_singleton.mp inValues
    exact ⟨by simp, by simp, by simp [MergeCall.isEmpty, MergeCall.identifier, onNextMergeResult,
      sampleReplies]⟩

/-- The new value of a key is the empty byte string: the key is left as it was. -/
theorem done_mergeAll_empty_lost : ∃ client contents,
    (new (sampleContents [])).mergeAll [⟨[⟨[1], .new, .bytes [], .eager⟩], sampleReplies⟩] =
      some client ∧ client.done .ok = .ok contents ∧
    ¬∀ key, contents key = mergedEntry (sampleContents []) (sampleContents [])
      [⟨[⟨[1], .new, .bytes [], .eager⟩], sampleReplies⟩] key := by
  refine ⟨_, _, rfl, rfl, ?_⟩
  intro same
  exact absurd (same [1]) (by decide)

end ConflictResolverClient

/-- The changes are the keys at which the three commits differ, with their entries. -/
structure ExactThreeWayDiff (base left right : Contents) (changes : List ThreeWayChange) :
    Prop where
  reported : ∀ change ∈ changes, ∃ key, change = ⟨base key, left key, right key⟩ ∧
    ¬(base key = left key ∧ base key = right key)
  complete : ∀ key, ¬(base key = left key ∧ base key = right key) →
    (⟨base key, left key, right key⟩ : ThreeWayChange) ∈ changes

/-- The key was changed on one side only, or to the same result on both sides. -/
def ChangedWithoutConflict (base left right : Contents) (key : Key) : Prop :=
  ¬(base key = left key ∧ base key = right key) ∧
    (base key = left key ∨ base key = right key ∨ left key = right key)

def changedEntry (base left right : Contents) (key : Key) : Option Entry :=
  if base key = left key then right key else left key

namespace ConflictResolverClient

variable {base left right : Contents} {changes : List ThreeWayChange} {key : Key}
  {hasMergedValues : Bool}

/-- A change is written when it is on the right side only, or on the left side only after a
call of `Merge`. -/
def Writes (base left right : Contents) (hasMergedValues : Bool) (key : Key) : Prop :=
  base key = left key ∧ base key ≠ right key ∨
    base key ≠ left key ∧ base key = right key ∧ hasMergedValues = true

theorem nonConflictingChange_eq_none (notWritten : ¬Writes base left right hasMergedValues key)
    (differs : ¬(base key = left key ∧ base key = right key)) :
    nonConflictingChange hasMergedValues ⟨base key, left key, right key⟩ = none := by
  simp only [Writes, not_or, not_and] at notWritten
  have leftChanged : base key ≠ left key := by
    intro same
    exact notWritten.1 same fun sameRight => differs ⟨same, sameRight⟩
  have noWrite : ¬(base key = right key ∧ hasMergedValues = true) := by
    rintro ⟨same, merged⟩
    exact notWritten.2 leftChanged same merged
  simp only [nonConflictingChange, if_neg leftChanged, if_neg noWrite]

theorem nonConflictingChange_of_writes (keyedBase : base.Keyed) (keyedLeft : left.Keyed)
    (keyedRight : right.Keyed) (written : Writes base left right hasMergedValues key) :
    ∃ change, nonConflictingChange hasMergedValues ⟨base key, left key, right key⟩ =
      some change ∧ change.entry.key = key ∧ change.result = changedEntry base left right key := by
  rcases written with ⟨same, rightChanged⟩ | ⟨leftChanged, same, merged⟩
  · simp only [nonConflictingChange, if_pos same, changedEntry]
    cases isRight : right key with
    | some entry => exact ⟨_, rfl, keyedRight _ _ isRight, rfl⟩
    | none =>
      obtain ⟨entry, isBase⟩ := Option.ne_none_iff_exists'.mp (isRight ▸ rightChanged)
      exact ⟨_, by rw [isBase]; rfl, keyedBase _ _ isBase, rfl⟩
  · simp only [nonConflictingChange, if_neg leftChanged, if_pos (And.intro same merged),
      changedEntry]
    cases isLeft : left key with
    | some entry => exact ⟨_, rfl, keyedLeft _ _ isLeft, rfl⟩
    | none =>
      obtain ⟨entry, isBase⟩ := Option.ne_none_iff_exists'.mp (isLeft ▸ leftChanged)
      exact ⟨_, by rw [isBase]; rfl, keyedBase _ _ isBase, rfl⟩

theorem foldl_nonConflictingChange (keyedBase : base.Keyed) (keyedLeft : left.Keyed)
    (keyedRight : right.Keyed) (exact : ExactThreeWayDiff base left right changes)
    (pending : Contents) : (Writes base left right hasMergedValues key →
      (changes.filterMap (nonConflictingChange hasMergedValues)).foldl applyToMap pending key =
        changedEntry base left right key) ∧ (¬Writes base left right hasMergedValues key →
      (changes.filterMap (nonConflictingChange hasMergedValues)).foldl applyToMap pending key =
        pending key) := by
  have ofWrite {change : EntryChange}
      (inWrites : change ∈ changes.filterMap (nonConflictingChange hasMergedValues)) :
      Writes base left right hasMergedValues change.entry.key ∧
        change.result = changedEntry base left right change.entry.key := by
    obtain ⟨reported, inChanges, isWrite⟩ := mem_filterMap.mp inWrites
    obtain ⟨other, rfl, differs⟩ := exact.reported reported inChanges
    by_cases written : Writes base left right hasMergedValues other
    · obtain ⟨found, isFound, isKey, isResult⟩ :=
        nonConflictingChange_of_writes keyedBase keyedLeft keyedRight written
      obtain rfl := Option.some.inj (isFound.symm.trans isWrite)
      rw [isKey]
      exact ⟨written, isResult⟩
    · rw [nonConflictingChange_eq_none written differs] at isWrite
      simp at isWrite
  rw [foldl_applyToMap]
  cases isLast : lastChange (changes.filterMap (nonConflictingChange hasMergedValues)) key with
  | none =>
    refine ⟨fun written => ?_, fun _ => rfl⟩
    have differs : ¬(base key = left key ∧ base key = right key) := by
      rintro ⟨sameLeft, sameRight⟩
      rcases written with ⟨-, changed⟩ | ⟨changed, -⟩
      · exact changed sameRight
      · exact changed sameLeft
    obtain ⟨found, isFound, isKey, -⟩ :=
      nonConflictingChange_of_writes keyedBase keyedLeft keyedRight written
    have inWrites := mem_filterMap.mpr ⟨_, exact.complete key differs, isFound⟩
    subst isKey
    exact absurd isLast (lastChange_ne_none inWrites)
  | some change =>
    obtain ⟨inWrites, rfl⟩ := mem_of_lastChange isLast
    obtain ⟨written, isResult⟩ := ofWrite inWrites
    exact ⟨fun _ => isResult, absurd written⟩

/-- Before the first call of `Merge`, the journal has the left entries. -/
theorem pending_of_mergeAny (reached : (new left).mergeAny calls = some client)
    (notMerged : client.hasMergedValues = false) : client.journal.pending = left := by
  induction calls using List.reverseRecOn with
  | nil =>
    cases reached
    rfl
  | append_singleton calls call ih =>
    rw [mergeAny, foldlM_append] at reached
    obtain ⟨before, -, isNext⟩ := Option.bind_eq_some_iff.mp reached
    have isMerged : (before.merge call).2 = some client := by simpa using isNext
    unfold merge at isMerged
    simp only [] at isMerged
    split at isMerged
    · simp at isMerged
    · split at isMerged
      · simp at isMerged
      · cases isMerged
        simp at notMerged

/-- After any calls of `Merge`, `MergeNonConflictingEntries` leaves the changed entry at the
keys without conflict, and the others as they were, exactly when the keys that were changed
identically on both sides have their changed entry already. -/
theorem mergeNonConflictingEntries_iff {client : ConflictResolverClient}
    {calls : List MergeCall} {answers : Nat → Status} {diffStatus : Status}
    (keyedBase : base.Keyed) (keyedLeft : left.Keyed) (keyedRight : right.Keyed)
    (exact : ExactThreeWayDiff base left right changes)
    (reached : (new left).mergeAny calls = some client)
    (answered : (client.mergeNonConflictingEntries answers changes diffStatus).1 = .ok) : (∀ key,
      (ChangedWithoutConflict base left right key →
        (client.mergeNonConflictingEntries answers changes diffStatus).2.journal.pending key =
          changedEntry base left right key) ∧ (ChangedDifferently base left right key →
        (client.mergeNonConflictingEntries answers changes diffStatus).2.journal.pending key =
          client.journal.pending key)) ↔ ∀ key, base key ≠ left key → left key = right key →
      client.journal.pending key = left key := by
  have isOk : diffStatus = .ok := by
    by_contra failed
    simp only [mergeNonConflictingEntries, ne_eq, failed, not_false_eq_true, if_true] at answered
  subst isOk
  simp only [mergeNonConflictingEntries, ne_eq, not_true_eq_false, if_false] at answered
  have isPending : (client.mergeNonConflictingEntries answers changes .ok).2.journal.pending =
      (changes.filterMap (nonConflictingChange client.hasMergedValues)).foldl applyToMap
        client.journal.pending := by
    simp only [mergeNonConflictingEntries, MergeJournal.writeAll_ok answered]
  have atKey := fun key => @foldl_nonConflictingChange _ _ _ _ key client.hasMergedValues keyedBase
    keyedLeft keyedRight exact client.journal.pending
  rw [isPending]
  constructor
  · intro holds key leftChanged same
    have notWritten : ¬Writes base left right client.hasMergedValues key := by
      rintro (⟨unchanged, -⟩ | ⟨-, unchanged, -⟩)
      · exact leftChanged unchanged
      · exact leftChanged (unchanged.trans same.symm)
    have isChanged := (holds key).1 ⟨fun both => leftChanged both.1, .inr (.inr same)⟩
    rw [(atKey key).2 notWritten, changedEntry, if_neg leftChanged] at isChanged
    exact isChanged
  · intro kept key
    refine ⟨?_, ?_⟩
    · rintro ⟨differs, unchangedSide⟩
      by_cases written : Writes base left right client.hasMergedValues key
      · exact (atKey key).1 written
      · -- Only changes of the left side are not written.
        have leftChanged : base key ≠ left key := by
          intro unchanged
          exact written (.inl ⟨unchanged, fun same => differs ⟨unchanged, same⟩⟩)
        rw [(atKey key).2 written, changedEntry, if_neg leftChanged]
        rcases unchangedSide with unchanged | unchanged | same
        · exact absurd unchanged leftChanged
        · cases merged : client.hasMergedValues with
          | false => rw [pending_of_mergeAny reached merged]
          | true => exact absurd (.inr ⟨leftChanged, unchanged, merged⟩) written
        · exact kept key leftChanged same
    · rintro ⟨leftChanged, rightChanged, -⟩
      refine (atKey key).2 ?_
      rintro (⟨unchanged, -⟩ | ⟨-, unchanged, -⟩)
      · exact leftChanged unchanged
      · exact rightChanged unchanged

theorem keyed_sampleContents (keys : List Key) : (sampleContents keys).Keyed := by
  intro key entry isEntry
  obtain ⟨-, isEntry⟩ := Option.ite_none_right_eq_some.mp isEntry
  rw [← Option.some.inj isEntry]
  rfl

theorem exactThreeWayDiff_added :
    ExactThreeWayDiff (sampleContents []) (sampleContents [[1]]) (sampleContents [[1]])
      [⟨none, some (sampleMergeEntry [1]), some (sampleMergeEntry [1])⟩] := by
  constructor
  case reported => simp [sampleContents]
  case complete =>
    intro key differs
    by_cases isKey : key = [1]
    · subst isKey
      simp [sampleContents]
    · simp [sampleContents, isKey] at differs

/-- Both heads add the key 1, and no value was merged before. -/
theorem mergeNonConflictingEntries_iff_added :
    ((new (sampleContents [[1]])).mergeNonConflictingEntries (fun _ => .ok)
      [⟨none, some (sampleMergeEntry [1]), some (sampleMergeEntry [1])⟩] .ok).2.journal.pending
        [1] = some (sampleMergeEntry [1]) := by
  have spec := @mergeNonConflictingEntries_iff (sampleContents []) (sampleContents [[1]])
    (sampleContents [[1]]) [⟨none, some (sampleMergeEntry [1]), some (sampleMergeEntry [1])⟩]
    (new (sampleContents [[1]])) [] (fun _ => .ok) .ok (keyed_sampleContents [])
    (keyed_sampleContents _) (keyed_sampleContents _) exactThreeWayDiff_added rfl rfl
  have changed := (spec.mpr fun key _ _ => rfl) [1]
  rw [changed.1 (by simp [ChangedWithoutConflict, sampleContents])]
  decide

/-- Both heads add the key 1, and a call of `Merge` has deleted it: it stays deleted. -/
theorem mergeNonConflictingEntries_keeps_deletion : ∃ client, (new (sampleContents [[1]])).mergeAny
      [⟨[⟨[1], .delete, .bytes [], .eager⟩], sampleReplies⟩] = some client ∧
    (client.mergeNonConflictingEntries (fun _ => .ok)
      [⟨none, some (sampleMergeEntry [1]), some (sampleMergeEntry [1])⟩] .ok).1 = .ok ∧
    ExactThreeWayDiff (sampleContents []) (sampleContents [[1]]) (sampleContents [[1]])
      [⟨none, some (sampleMergeEntry [1]), some (sampleMergeEntry [1])⟩] ∧
    ChangedWithoutConflict (sampleContents []) (sampleContents [[1]]) (sampleContents [[1]]) [1] ∧
    (client.mergeNonConflictingEntries (fun _ => .ok)
      [⟨none, some (sampleMergeEntry [1]), some (sampleMergeEntry [1])⟩] .ok).2.journal.pending
        [1] ≠ changedEntry (sampleContents []) (sampleContents [[1]]) (sampleContents [[1]]) [1] :=
  ⟨_, rfl, rfl, exactThreeWayDiff_added, by simp [ChangedWithoutConflict, sampleContents],
    by decide⟩

end ConflictResolverClient

end Peridot
