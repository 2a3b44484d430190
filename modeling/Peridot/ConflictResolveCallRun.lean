import Peridot.ConflictResolveCall

/-!
# Conflicts are resolved once

The answers of `GetConflictingDiff` and `MergeNonConflictingEntries` may be errors, and a left side
may not be readable: then `Done` ends a merge that is not what was chosen.
-/

namespace Peridot

open List KeyedList

theorem diffEntries_append (first second : List ResolveEvent) :
    diffEntries (first ++ second) = diffEntries first ++ diffEntries second :=
  flatMap_append

theorem lastEntry_append_singleton (entries : List DiffEntry) (entry : DiffEntry) (key : Bytes) :
    lastEntry (entries ++ [entry]) key =
      if entry.key = key then some entry else lastEntry entries key := by
  rw [lastEntry, filter_append]
  by_cases isKey : entry.key = key
  · simp [isKey]
  · simp [isKey, lastEntry]

variable {entries : List DiffEntry} {entry : DiffEntry} {key : Bytes}

theorem key_of_lastEntry (isLast : lastEntry entries key = some entry) : entry.key = key := by
  have inFilter := mem_of_getLast? isLast
  simpa using (mem_filter.mp inFilter).2

theorem toConflictRight_key (conflict : PageConflict) (right : Option SideValue) :
    (toConflictRight conflict right).key = conflict.key := by
  unfold toConflictRight
  split <;> rfl

theorem toConflict_key (entry : DiffEntry) : (toConflict entry).key = entry.key := by
  unfold toConflict
  split
  · exact toConflictRight_key _ _
  · rfl
  · exact toConflictRight_key _ _

structure HoldsEntries (conflicts : List PageConflict) (entries : List DiffEntry) : Prop where
  sorted : KeyedList.Sorted PageConflict.key conflicts
  found : ∀ key, KeyedList.find PageConflict.key conflicts key =
    (lastEntry entries key).map toConflict

variable {conflicts : List PageConflict}

theorem HoldsEntries.foldl_addConflict (holds : HoldsEntries conflicts entries)
    (changeDelta : List DiffEntry) :
    HoldsEntries (changeDelta.foldl ConflictResolveCall.addConflict conflicts)
      (entries ++ changeDelta) := by
  induction changeDelta generalizing conflicts entries with
  | nil => rwa [append_nil]
  | cons entry changeDelta ih =>
    have atKey : ∀ item ∈ [toConflict entry], PageConflict.key item = entry.key :=
      forall_mem_singleton.mpr (toConflict_key entry)
    rw [append_cons]
    refine ih ⟨sorted_replaceAt holds.sorted (pairwise_singleton _ _) atKey, fun key => ?_⟩
    rw [ConflictResolveCall.addConflict, find_replaceAt atKey,
      lastEntry_append_singleton, holds.found]
    by_cases isKey : entry.key = key
    · subst isKey
      simp [find, toConflict_key]
    · rw [if_neg isKey, if_neg (Ne.symm isKey)]

def conflictState (clients : List PageClient) (conflict : PageConflict) : MergedState :=
  match (mergeChanges clients conflict).getLast? with
  | some value => value.state
  | none => .left

variable {conflict : PageConflict} {clients : List PageClient}

theorem key_of_mem_mergeChanges {value : MergedValue}
    (inChanges : value ∈ mergeChanges clients conflict) : value.key = conflict.key := by
  unfold mergeChanges mergedValue at inChanges
  split at inChanges
  · split at inChanges
    · split at inChanges
      · cases inChanges
      · rw [mem_singleton.mp inChanges]
      · split at inChanges <;> rw [mem_singleton.mp inChanges]
    · cases inChanges
  · cases inChanges

theorem filter_flatMap_mergeChanges (sorted : Sorted PageConflict.key conflicts)
    (inConflicts : conflict ∈ conflicts) :
    (conflicts.flatMap (mergeChanges clients)).filter (fun value => value.key = conflict.key) =
      mergeChanges clients conflict := by
  induction conflicts with
  | nil => cases inConflicts
  | cons first conflicts ih =>
    obtain ⟨below, sorted⟩ := sorted_cons.mp sorted
    rw [flatMap_cons, filter_append]
    rcases mem_cons.mp inConflicts with rfl | inRest
    · have own : (mergeChanges clients conflict).filter
          (fun value => value.key = conflict.key) = mergeChanges clients conflict :=
        filter_eq_self.mpr fun value inChanges => decide_eq_true (key_of_mem_mergeChanges inChanges)
      have others : (conflicts.flatMap (mergeChanges clients)).filter
          (fun value => value.key = conflict.key) = [] := by
        refine filter_eq_nil_iff.mpr fun value inChanges isKey => ?_
        obtain ⟨other, inOthers, inChanges⟩ := mem_flatMap.mp inChanges
        have sameKey := (key_of_mem_mergeChanges inChanges).symm.trans (of_decide_eq_true isKey)
        exact (below other inOthers).ne sameKey.symm
      rw [own, others, append_nil]
    · have others : (mergeChanges clients first).filter
          (fun value => value.key = conflict.key) = [] := by
        refine filter_eq_nil_iff.mpr fun value inChanges isKey => ?_
        have sameKey := (key_of_mem_mergeChanges inChanges).symm.trans (of_decide_eq_true isKey)
        exact (below conflict inRest).ne sameKey
      rw [others, nil_append, ih sorted inRest]

theorem mergedState_eq (sorted : Sorted PageConflict.key conflicts)
    (inConflicts : conflict ∈ conflicts) {merges : List (List MergedValue)}
    (isSent : merges.flatten = conflicts.flatMap (mergeChanges clients)) :
    mergedState merges conflict.key = conflictState clients conflict := by
  rw [mergedState, isSent, filter_flatMap_mergeChanges sorted inConflicts]
  rfl

theorem getLast_mergedValue (key : Bytes) (choice : ConflictChoice) :
    (match (mergedValue key choice).getLast? with
      | some value => value.state
      | none => .left) = choice.state := by
  unfold mergedValue ConflictChoice.state
  cases choice.resolution with
  | left => rfl
  | right => rfl
  | merge => cases choice.mergedIsDeleted <;> rfl

theorem conflictState_of_both (hasLeft : conflict.hasLeft = true)
    (hasRight : conflict.hasRight = true) : conflictState clients conflict =
      match firstClient clients conflict.key with
      | some client => (client.onPageConflict conflict).state
      | none => .left := by
  rw [conflictState, mergeChanges, if_pos ⟨hasLeft, hasRight⟩]
  cases firstClient clients conflict.key with
  | some client => exact getLast_mergedValue conflict.key (client.onPageConflict conflict)
  | none => rfl

theorem conflictState_of_one (notBoth : ¬(conflict.hasLeft = true ∧ conflict.hasRight = true)) :
    conflictState clients conflict = .left := by
  rw [conflictState, mergeChanges, if_neg notBoth]
  rfl

theorem conflictState_eq_iff (clients : List PageClient) (entry : DiffEntry) :
    conflictState clients (toConflict entry) = chosenState clients entry ↔
      IsAsked clients entry := by
  obtain ⟨key, left, right⟩ := entry
  cases left with
  | none =>
    have notBoth : ¬((toConflict ⟨key, none, right⟩).hasLeft = true ∧
        (toConflict ⟨key, none, right⟩).hasRight = true) := by
      cases right with
      | none => simp [toConflict, toConflictRight]
      | some side => cases side <;> simp [toConflict, toConflictRight]
    rw [conflictState_of_one notBoth]
    exact iff_of_true rfl (by simp [IsAsked])
  | some left =>
    cases left with
    | unreadable =>
      have notBoth : ¬((toConflict ⟨key, some .unreadable, right⟩).hasLeft = true ∧
          (toConflict ⟨key, some .unreadable, right⟩).hasRight = true) := by
        simp [toConflict]
      rw [conflictState_of_one notBoth, IsAsked]
      simp only [true_imp_iff, eq_comm]
    | value bytes =>
      refine iff_of_true ?_ (by simp [IsAsked])
      cases right with
      | none =>
        rw [conflictState_of_one (by simp [toConflict, toConflictRight])]
        rfl
      | some side =>
        cases side with
        | value other | unreadable =>
          rw [conflictState_of_both rfl rfl]
          simp only [chosenState, toConflict, toConflictRight, SideValue.bytes]
          cases firstClient clients key <;> rfl

namespace ConflictResolveCall

variable {clients : List PageClient} {happened : List ResolveEvent} {call : ConflictResolveCall}

/-- The answers of the diff and of the other entries that have arrived. -/
structure Heard (happened : List ResolveEvent) (call : ConflictResolveCall) : Prop where
  reading : call.hasDiff = false →
    ∀ status changeDelta, .diff status changeDelta ∈ happened → status = .partialResult
  ended : call.hasDiff = true → ∃ status changeDelta, status ≠ .partialResult ∧
    .diff status changeDelta ∈ happened ∧
    ∀ other otherDelta, .diff other otherDelta ∈ happened → other = .partialResult ∨ other = status
  merging : call.mergedNonConflict = false → ∀ status, .nonConflicting status ∉ happened
  merged : call.mergedNonConflict = true → ∃ status, .nonConflicting status ∈ happened ∧
    ∀ other, .nonConflicting other ∈ happened → other = status

/-- The calls of `Merge` and `Done`: none before both answers are there; then one `Merge` for each
conflict that needs it, and `Done` when these are answered. -/
structure Sent (clients : List PageClient) (call : ConflictResolveCall) : Prop where
  before : ¬(call.hasDiff = true ∧ call.mergedNonConflict = true) →
    call.merges = [] ∧ call.awaited = [] ∧ call.mergeCount = 1 ∧ call.doneCalls = 0
  after : call.hasDiff = true ∧ call.mergedNonConflict = true →
    call.merges.flatten = call.conflicts.flatMap (mergeChanges clients) ∧
    call.mergeCount = call.awaited.length ∧
    call.doneCalls = if call.awaited = [] then 1 else 0

structure Follows (clients : List PageClient) (happened : List ResolveEvent)
    (call : ConflictResolveCall) : Prop where
  holds : HoldsEntries call.conflicts (diffEntries happened)
  heard : Heard happened call
  sent : Sent clients call

theorem foldl_mergeConflict (clients : List PageClient) (call : ConflictResolveCall)
    (conflicts : List PageConflict) (counted : call.mergeCount = call.awaited.length + 1) :
    (conflicts.foldl (mergeConflict clients) call).merges.flatten =
        call.merges.flatten ++ conflicts.flatMap (mergeChanges clients) ∧
      (conflicts.foldl (mergeConflict clients) call).mergeCount =
        (conflicts.foldl (mergeConflict clients) call).awaited.length + 1 ∧
      (conflicts.foldl (mergeConflict clients) call).doneCalls = call.doneCalls ∧
      (conflicts.foldl (mergeConflict clients) call).hasDiff = call.hasDiff ∧
      (conflicts.foldl (mergeConflict clients) call).mergedNonConflict = call.mergedNonConflict ∧
      (conflicts.foldl (mergeConflict clients) call).conflicts = call.conflicts := by
  induction conflicts generalizing call with
  | nil => exact ⟨(append_nil _).symm, counted, rfl, rfl, rfl, rfl⟩
  | cons conflict conflicts ih =>
    rw [foldl_cons, flatMap_cons, mergeConflict]
    by_cases nothing : mergeChanges clients conflict = []
    · rw [if_pos nothing, nothing, nil_append]
      exact ih call counted
    · rw [if_neg nothing]
      have nextCounted : call.mergeCount + 1 =
          ((call.awaited ++ [call.merges.length]).length : ℤ) + 1 := by
        rw [length_append, length_singleton, counted]
        push_cast
        rfl
      obtain ⟨isSent, stillCounted, others⟩ := ih { call with
        mergeCount := call.mergeCount + 1
        merges := call.merges ++ [mergeChanges clients conflict]
        awaited := call.awaited ++ [call.merges.length] } nextCounted
      refine ⟨?_, stillCounted, others⟩
      rw [isSent, flatten_append, flatten_singleton, append_assoc]

/-- When one more answer is there, `Done` is called if it was the last. -/
theorem mergeDone_counts (counted : call.mergeCount = call.awaited.length + 1)
    (notDone : call.doneCalls = 0) : call.mergeDone.mergeCount = call.mergeDone.awaited.length ∧
      call.mergeDone.doneCalls = (if call.mergeDone.awaited = [] then 1 else 0) := by
  unfold mergeDone
  have isLast : call.mergeCount - 1 = 0 ↔ call.awaited = [] := by
    rw [counted, ← length_eq_zero_iff]
    omega
  by_cases noneAwaited : call.awaited = []
  · rw [if_pos (isLast.mpr noneAwaited)]
    refine ⟨?_, ?_⟩
    · change call.mergeCount - 1 = call.awaited.length
      omega
    · rw [if_pos noneAwaited, notDone]
  · rw [if_neg (isLast.not.mpr noneAwaited)]
    refine ⟨?_, ?_⟩
    · change call.mergeCount - 1 = call.awaited.length
      omega
    · rw [if_neg noneAwaited, notDone]

theorem mergeDone_frame (call : ConflictResolveCall) :
    call.mergeDone.merges = call.merges ∧ call.mergeDone.awaited = call.awaited ∧
      call.mergeDone.hasDiff = call.hasDiff ∧
      call.mergeDone.mergedNonConflict = call.mergedNonConflict ∧
      call.mergeDone.conflicts = call.conflicts := by
  unfold mergeDone
  split <;> exact ⟨rfl, rfl, rfl, rfl, rfl⟩

theorem cont_frame (clients : List PageClient) (call : ConflictResolveCall)
    (counted : call.mergeCount = call.awaited.length + 1) :
    (call.cont clients).hasDiff = call.hasDiff ∧
      (call.cont clients).mergedNonConflict = call.mergedNonConflict ∧
      (call.cont clients).conflicts = call.conflicts := by
  unfold cont
  split
  · obtain ⟨-, -, -, hasDiff, mergedNonConflict, conflicts⟩ :=
      foldl_mergeConflict clients call call.conflicts counted
    obtain ⟨-, -, sameDiff, sameMerged, sameConflicts⟩ :=
      mergeDone_frame (call.conflicts.foldl (mergeConflict clients) call)
    exact ⟨sameDiff.trans hasDiff, sameMerged.trans mergedNonConflict,
      sameConflicts.trans conflicts⟩
  · exact ⟨rfl, rfl, rfl⟩

theorem cont_sent (call : ConflictResolveCall) (noMerges : call.merges = [])
    (noneAwaited : call.awaited = []) (counted : call.mergeCount = 1)
    (notDone : call.doneCalls = 0) : Sent clients (call.cont clients) := by
  have isCounted : call.mergeCount = call.awaited.length + 1 := by
    rw [counted, noneAwaited]
    rfl
  obtain ⟨sameDiff, sameMerged, sameConflicts⟩ := cont_frame clients call isCounted
  by_cases both : call.hasDiff = true ∧ call.mergedNonConflict = true
  · refine ⟨fun notBoth => absurd ?_ notBoth, fun _ => ?_⟩
    · rw [sameDiff, sameMerged]
      exact both
    · rw [sameConflicts]
      have isCont : call.cont clients =
          (call.conflicts.foldl (mergeConflict clients) call).mergeDone := if_pos both
      obtain ⟨isSent, stillCounted, sameDone, -⟩ :=
        foldl_mergeConflict clients call call.conflicts isCounted
      obtain ⟨sameMerges, -⟩ := mergeDone_frame (call.conflicts.foldl (mergeConflict clients) call)
      rw [isCont]
      refine ⟨?_, mergeDone_counts stillCounted (sameDone.trans notDone)⟩
      rw [sameMerges, isSent, noMerges, flatten_nil, nil_append]
  · have isCont : call.cont clients = call := if_neg both
    rw [isCont]
    exact ⟨fun _ => ⟨noMerges, noneAwaited, counted, notDone⟩, fun isBoth => absurd isBoth both⟩

theorem Heard.other (heard : Heard happened call) (event : ResolveEvent)
    (notDiff : ∀ status changeDelta, event ≠ .diff status changeDelta)
    (notMerged : ∀ status, event ≠ .nonConflicting status) : Heard (happened ++ [event]) call where
  reading isReading status changeDelta inEvents := by
    rw [mem_append, mem_singleton] at inEvents
    exact heard.reading isReading status changeDelta
      (inEvents.resolve_right (notDiff status changeDelta).symm)
  ended isEnded := by
    obtain ⟨status, changeDelta, isLast, inHappened, others⟩ := heard.ended isEnded
    refine ⟨status, changeDelta, isLast, mem_append_left _ inHappened,
      fun other otherDelta inEvents => ?_⟩
    rw [mem_append, mem_singleton] at inEvents
    exact others other otherDelta (inEvents.resolve_right (notDiff other otherDelta).symm)
  merging isMerging status := by
    rw [mem_append, mem_singleton, not_or]
    exact ⟨heard.merging isMerging status, (notMerged status).symm⟩
  merged isMerged := by
    obtain ⟨status, inHappened, others⟩ := heard.merged isMerged
    refine ⟨status, mem_append_left _ inHappened, fun other inEvents => ?_⟩
    rw [mem_append, mem_singleton] at inEvents
    exact others other (inEvents.resolve_right (notMerged other).symm)

variable {next : ConflictResolveCall}

theorem Heard.diff (heard : Heard happened call) (isReading : call.hasDiff = false)
    {status : LedgerStatus} (changeDelta : List DiffEntry)
    (isNext : next.hasDiff = true ↔ status ≠ .partialResult)
    (sameMerged : next.mergedNonConflict = call.mergedNonConflict) :
    Heard (happened ++ [.diff status changeDelta]) next where
  reading stillReading other otherDelta inEvents := by
    have isPartial : status = .partialResult := by
      by_contra notPartial
      exact absurd (isNext.mpr notPartial) (ne_true_of_eq_false stillReading)
    rw [mem_append, mem_singleton] at inEvents
    rcases inEvents with inHappened | isEvent
    · exact heard.reading isReading other otherDelta inHappened
    · rw [(ResolveEvent.diff.inj isEvent).1, isPartial]
  ended isEnded := by
    refine ⟨status, changeDelta, isNext.mp isEnded, by simp, fun other otherDelta inEvents => ?_⟩
    rw [mem_append, mem_singleton] at inEvents
    rcases inEvents with inHappened | isEvent
    · exact .inl (heard.reading isReading other otherDelta inHappened)
    · exact .inr (ResolveEvent.diff.inj isEvent).1
  merging isMerging other := by
    rw [mem_append, mem_singleton, not_or]
    exact ⟨heard.merging (sameMerged ▸ isMerging) other, by simp⟩
  merged isMerged := by
    obtain ⟨other, inHappened, others⟩ := heard.merged (sameMerged ▸ isMerged)
    refine ⟨other, mem_append_left _ inHappened, fun third inEvents => ?_⟩
    rw [mem_append, mem_singleton] at inEvents
    exact others third (inEvents.resolve_right (by simp))

theorem Heard.nonConflicting (heard : Heard happened call)
    (isMerging : call.mergedNonConflict = false) (status : LedgerStatus)
    (isNext : next.mergedNonConflict = true) (sameDiff : next.hasDiff = call.hasDiff) :
    Heard (happened ++ [.nonConflicting status]) next where
  reading isReading other otherDelta inEvents := by
    rw [mem_append, mem_singleton] at inEvents
    exact heard.reading (sameDiff ▸ isReading) other otherDelta (inEvents.resolve_right (by simp))
  ended isEnded := by
    obtain ⟨other, otherDelta, isLast, inHappened, others⟩ := heard.ended (sameDiff ▸ isEnded)
    refine ⟨other, otherDelta, isLast, mem_append_left _ inHappened,
      fun third thirdDelta inEvents => ?_⟩
    rw [mem_append, mem_singleton] at inEvents
    exact others third thirdDelta (inEvents.resolve_right (by simp))
  merging stillMerging := absurd isNext (ne_true_of_eq_false stillMerging)
  merged _ := by
    refine ⟨status, by simp, fun other inEvents => ?_⟩
    rw [mem_append, mem_singleton] at inEvents
    rcases inEvents with inHappened | isEvent
    · exact absurd inHappened (heard.merging isMerging other)
    · exact ResolveEvent.nonConflicting.inj isEvent

theorem Follows.step {event : ResolveEvent} (follows : Follows clients happened call)
    (isStep : ConflictResolveCall.step clients call event = some next) :
    Follows clients (happened ++ [event]) next := by
  cases event with
  | diff status changeDelta =>
    unfold ConflictResolveCall.step at isStep
    dsimp only at isStep
    by_cases isEnded : call.hasDiff = true
    · rw [if_pos isEnded] at isStep
      cases isStep
    have isReading : call.hasDiff = false := by simpa using isEnded
    rw [if_neg isEnded] at isStep
    obtain ⟨noMerges, noneAwaited, counted, notDone⟩ :=
      follows.sent.before fun both => isEnded both.1
    have isCounted : call.mergeCount = call.awaited.length + 1 := by
      rw [counted, noneAwaited]
      rfl
    by_cases failed : status ≠ .ok ∧ status ≠ .partialResult
    · rw [if_pos failed] at isStep
      cases isStep
      obtain ⟨sameDiff, sameMerged, sameConflicts⟩ :=
        cont_frame clients { call with hasDiff := true } isCounted
      refine ⟨?_, follows.heard.diff isReading changeDelta ?_ sameMerged,
        cont_sent _ noMerges noneAwaited counted notDone⟩
      · have noEntries : diffEntries [.diff status changeDelta] = [] := by
          cases status <;> simp_all [diffEntries]
        rw [diffEntries_append, noEntries, append_nil, sameConflicts]
        exact follows.holds
      · exact iff_of_true sameDiff failed.2
    · rw [if_neg failed] at isStep
      have isRead : diffEntries [.diff status changeDelta] = changeDelta := by
        by_cases isOk : status = .ok
        · subst isOk
          simp [diffEntries]
        · have isPartial : status = .partialResult := by
            by_contra notPartial
            exact failed ⟨isOk, notPartial⟩
          subst isPartial
          simp [diffEntries]
      have holds := follows.holds.foldl_addConflict changeDelta
      by_cases isOk : status = .ok
      · rw [if_pos isOk] at isStep
        cases isStep
        obtain ⟨sameDiff, sameMerged, sameConflicts⟩ :=
          cont_frame clients { call with
            conflicts := changeDelta.foldl addConflict call.conflicts
            hasDiff := true } isCounted
        refine ⟨?_, follows.heard.diff isReading changeDelta ?_ sameMerged,
          cont_sent _ noMerges noneAwaited counted notDone⟩
        · rw [diffEntries_append, isRead, sameConflicts]
          exact holds
        · exact iff_of_true sameDiff (by simp [isOk])
      · rw [if_neg isOk] at isStep
        cases isStep
        have isPartial : status = .partialResult := by
          by_contra notPartial
          exact failed ⟨isOk, notPartial⟩
        refine ⟨?_, follows.heard.diff isReading changeDelta ?_ rfl, ?_⟩
        · rw [diffEntries_append, isRead]
          exact holds
        · exact iff_of_false isEnded fun notPartial => notPartial isPartial
        · exact ⟨fun _ => ⟨noMerges, noneAwaited, counted, notDone⟩,
            fun both => absurd both.1 isEnded⟩
  | nonConflicting status =>
    unfold ConflictResolveCall.step at isStep
    dsimp only at isStep
    by_cases isMerged : call.mergedNonConflict = true
    · rw [if_pos isMerged] at isStep
      cases isStep
    have isMerging : call.mergedNonConflict = false := by simpa using isMerged
    rw [if_neg isMerged] at isStep
    cases isStep
    obtain ⟨noMerges, noneAwaited, counted, notDone⟩ :=
      follows.sent.before fun both => isMerged both.2
    have isCounted : call.mergeCount = call.awaited.length + 1 := by
      rw [counted, noneAwaited]
      rfl
    obtain ⟨sameDiff, sameMerged, sameConflicts⟩ :=
      cont_frame clients { call with mergedNonConflict := true } isCounted
    refine ⟨?_, follows.heard.nonConflicting isMerging status sameMerged sameDiff,
      cont_sent _ noMerges noneAwaited counted notDone⟩
    have noEntries : diffEntries [.nonConflicting status] = [] := by simp [diffEntries]
    rw [diffEntries_append, noEntries, append_nil, sameConflicts]
    exact follows.holds
  | merged index status =>
    unfold ConflictResolveCall.step at isStep
    dsimp only at isStep
    by_cases isAwaited : index ∈ call.awaited
    · rw [if_pos isAwaited] at isStep
      cases isStep
      have both : call.hasDiff = true ∧ call.mergedNonConflict = true := by
        by_contra notBoth
        rw [(follows.sent.before notBoth).2.1] at isAwaited
        cases isAwaited
      obtain ⟨isSent, counted, isDone⟩ := follows.sent.after both
      have notNil : call.awaited ≠ [] := ne_nil_of_mem isAwaited
      rw [if_neg notNil] at isDone
      obtain ⟨sameMerges, -, sameDiff, sameMerged, sameConflicts⟩ :=
        mergeDone_frame { call with awaited := call.awaited.erase index }
      have oneLess : call.mergeCount = ((call.awaited.erase index).length : ℤ) + 1 := by
        have positive := length_pos_of_mem isAwaited
        rw [counted, length_erase_of_mem isAwaited]
        omega
      refine ⟨?_, ?_, fun notBoth => absurd both ?_, fun _ => ?_⟩
      · have noEntries : diffEntries [.merged index status] = [] := by simp [diffEntries]
        rw [diffEntries_append, noEntries, append_nil, sameConflicts]
        exact follows.holds
      · have heard := follows.heard.other (.merged index status) (by simp) (by simp)
        refine ⟨?_, ?_, ?_, ?_⟩
        · rw [sameDiff]
          exact heard.reading
        · rw [sameDiff]
          exact heard.ended
        · rw [sameMerged]
          exact heard.merging
        · rw [sameMerged]
          exact heard.merged
      · rwa [sameDiff, sameMerged] at notBoth
      · rw [sameMerges, sameConflicts]
        exact ⟨isSent, mergeDone_counts oneLess isDone⟩
    · rw [if_neg isAwaited] at isStep
      cases isStep

theorem follows_start : Follows clients [] start where
  holds := ⟨sorted_nil, fun _ => rfl⟩
  heard := by refine ⟨?_, ?_, ?_, ?_⟩ <;> simp [start]
  sent := ⟨fun _ => ⟨rfl, rfl, rfl, rfl⟩, fun both => by simp [start] at both⟩

theorem Follows.run {later : List ResolveEvent} {final : ConflictResolveCall}
    (follows : Follows clients happened call)
    (isRun : runSteps (ConflictResolveCall.step clients) call later = some final) :
    Follows clients (happened ++ later) final := by
  induction later generalizing call happened with
  | nil =>
    cases isRun
    rwa [append_nil]
  | cons event later ih =>
    obtain ⟨next, isStep, isRun⟩ := runSteps_cons.mp isRun
    rw [append_cons]
    exact ih (follows.step isStep) isRun

theorem Sent.done_iff (sent : Sent clients call) : call.doneCalls = 1 ↔ call.Settled := by
  by_cases both : call.hasDiff = true ∧ call.mergedNonConflict = true
  · have isDone := (sent.after both).2.2
    by_cases noneAwaited : call.awaited = []
    · rw [if_pos noneAwaited] at isDone
      exact iff_of_true isDone ⟨both.1, both.2, noneAwaited⟩
    · rw [if_neg noneAwaited] at isDone
      exact iff_of_false (by omega) fun settled => noneAwaited settled.2.2
  · have notDone := (sent.before both).2.2.2
    exact iff_of_false (by omega) fun settled => both ⟨settled.1, settled.2.1⟩

theorem Sent.once (sent : Sent clients call) : call.doneCalls ≤ 1 := by
  by_cases both : call.hasDiff = true ∧ call.mergedNonConflict = true
  · rw [(sent.after both).2.2]
    split <;> omega
  · rw [(sent.before both).2.2.2]
    omega

/-- All answers but those of `Merge` are successes if the last ones are. -/
theorem Heard.succeeds (heard : Heard happened call)
    (read : ∃ changeDelta, .diff .ok changeDelta ∈ happened)
    (merged : .nonConflicting .ok ∈ happened) : ∀ event ∈ happened, event.Succeeds := by
  intro event inHappened
  cases event with
  | diff status changeDelta =>
    obtain ⟨okDelta, isRead⟩ := read
    cases isEnded : call.hasDiff with
    | false => exact .inr (heard.reading isEnded status changeDelta inHappened)
    | true =>
      obtain ⟨last, -, -, -, others⟩ := heard.ended isEnded
      obtain rfl : LedgerStatus.ok = last := (others _ _ isRead).resolve_left (by decide)
      exact (others _ _ inHappened).symm
  | nonConflicting status =>
    cases isMerged : call.mergedNonConflict with
    | false => exact absurd merged (heard.merging isMerged .ok)
    | true =>
      obtain ⟨last, -, others⟩ := heard.merged isMerged
      exact (others _ inHappened).trans (others _ merged).symm
  | merged index status => trivial

/-- What the calls of `Merge` leave at a key. -/
theorem Follows.mergedState_eq (follows : Follows clients happened call) (settled : call.Settled)
    (isLast : lastEntry (diffEntries happened) key = some entry) :
    mergedState call.merges key = conflictState clients (toConflict entry) := by
  have isFound := follows.holds.found key
  rw [isLast] at isFound
  have isSent := (follows.sent.after ⟨settled.1, settled.2.1⟩).1
  have isState := Peridot.mergedState_eq follows.holds.sorted (mem_of_find isFound) isSent
  rwa [toConflict_key, key_of_lastEntry isLast] at isState

/-- A conflict is resolved as it is chosen in exactly the runs in which, if all answers are there,
they were successes, and each client that chooses was asked. -/
theorem resolvesConflict_run (clients : List PageClient) (events : List ResolveEvent)
    {final : ConflictResolveCall}
    (isRun : runSteps (ConflictResolveCall.step clients) start events = some final) :
    ResolvesConflict clients events final ↔ (final.Settled → (∀ event ∈ events, event.Succeeds) ∧
      ∀ key entry, lastEntry (diffEntries events) key = some entry → IsAsked clients entry) := by
  have follows : Follows clients events final := follows_start.run isRun
  have done_iff := follows.sent.done_iff
  constructor
  · intro resolves settled
    have isDone := done_iff.mpr settled
    refine ⟨follows.heard.succeeds (resolves.read isDone) (resolves.merged isDone), ?_⟩
    intro key entry isLast
    rw [← conflictState_eq_iff, ← follows.mergedState_eq settled isLast]
    exact resolves.contents isDone key entry isLast
  · intro succeeds
    refine ⟨follows.sent.once, fun isDone => (done_iff.mp isDone).2.2, fun isDone => ?_,
      fun isDone => ?_, fun settled _ => done_iff.mpr settled,
      fun isDone key entry isLast => ?_⟩
    · have settled := done_iff.mp isDone
      obtain ⟨status, changeDelta, notPartial, inEvents, -⟩ := follows.heard.ended settled.1
      have isOk : status = .ok :=
        ((succeeds settled).1 _ inEvents).resolve_right notPartial
      exact ⟨changeDelta, isOk ▸ inEvents⟩
    · have settled := done_iff.mp isDone
      obtain ⟨status, inEvents, -⟩ := follows.heard.merged settled.2.1
      have isOk : status = .ok := (succeeds settled).1 _ inEvents
      exact isOk ▸ inEvents
    · have settled := done_iff.mp isDone
      rw [follows.mergedState_eq settled isLast, conflictState_eq_iff]
      exact (succeeds settled).2 key entry isLast

end ConflictResolveCall

def samplePageClient : PageClient where
  keyPrefix := [1]
  onPageConflict conflict := ⟨.merge, conflict.left ++ conflict.right, false⟩

def sampleResolveEvents : List ResolveEvent :=
  [.diff .partialResult [⟨[1, 2], some (.value [3]), some (.value [4])⟩], .nonConflicting .ok,
    .diff .ok [⟨[1, 3], some (.value [5]), none⟩], .merged 0 .ok]

theorem resolvesConflict_run_sample :
    ∃ final, runSteps (ConflictResolveCall.step [samplePageClient]) ConflictResolveCall.start
        sampleResolveEvents = some final ∧
      (ResolvesConflict [samplePageClient] sampleResolveEvents final ↔ (final.Settled →
        (∀ event ∈ sampleResolveEvents, event.Succeeds) ∧
        ∀ key entry, lastEntry (diffEntries sampleResolveEvents) key = some entry →
          IsAsked [samplePageClient] entry)) :=
  ⟨_, rfl, ConflictResolveCall.resolvesConflict_run [samplePageClient] sampleResolveEvents rfl⟩

/-- The second part of the diff fails, and `Done` is called when the first part is merged. -/
theorem not_resolvesConflict_run :
    ∃ final, runSteps (ConflictResolveCall.step [samplePageClient]) ConflictResolveCall.start
        [.diff .partialResult [⟨[1, 2], some (.value [3]), some (.value [4])⟩],
          .nonConflicting .ok, .diff .ioError [], .merged 0 .ok] = some final ∧
      ¬ResolvesConflict [samplePageClient]
        [.diff .partialResult [⟨[1, 2], some (.value [3]), some (.value [4])⟩],
          .nonConflicting .ok, .diff .ioError [], .merged 0 .ok] final := by
  refine ⟨_, rfl, fun resolves => ?_⟩
  obtain ⟨changeDelta, inEvents⟩ := resolves.read rfl
  simp at inEvents

end Peridot
