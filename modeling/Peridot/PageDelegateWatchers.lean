import Peridot.CallList
import Peridot.PageDelegateHead

/-!
# The watchers of a page connection

What every watcher has received, and which commit it will have when nothing is on the way.
-/

namespace Peridot

open BranchTracker List Option

/-- A property of watchers that the branch tracker keeps by itself. -/
structure WatcherInvariant (Holds : PageWatcherContainer → Prop) : Prop where
  setOnDrainedCallback : ∀ {watcher : PageWatcherContainer} (onDrained : Option DrainedCallback),
    Holds watcher → Holds (watcher.setOnDrainedCallback onDrained)
  updateCommit : ∀ {watcher : PageWatcherContainer} (commit : CommitId),
    Holds watcher → Holds (watcher.updateCommit commit)

namespace BranchTracker

variable {Holds : PageWatcherContainer → Prop} {graph : CommitGraph} {tracker next : BranchTracker}

section

variable (kept : WatcherInvariant Holds)
include kept

variable (holds : ∀ watcher ∈ tracker.watchers, Holds watcher)
include holds

theorem forall_watchers_onNewCommits (commits : List CommitId) :
    ∀ watcher ∈ (tracker.onNewCommits graph commits).watchers, Holds watcher := by
  rcases onNewCommits_cases tracker commits with unmoved | ⟨head, -, isMoved⟩
  · rw [unmoved]
    exact holds
  · rw [isMoved]
    simp only []
    split
    · exact holds
    · exact forall_mem_map.mpr fun watcher inWatchers =>
        kept.updateCommit head (holds watcher inWatchers)

theorem forall_watchers_startTransaction {onDrained : DrainedCallback}
    (isStarted : tracker.startTransaction onDrained = some next) :
    ∀ watcher ∈ next.watchers, Holds watcher := by
  unfold startTransaction at isStarted
  split at isStarted
  · simp at isStarted
  · cases isStarted
    exact forall_mem_map.mpr fun watcher inWatchers =>
      kept.setOnDrainedCallback _ (holds watcher inWatchers)

theorem forall_watchers_stopTransaction {commit : Option CommitId}
    (isStopped : tracker.stopTransaction commit = some next) :
    ∀ watcher ∈ next.watchers, Holds watcher := by
  unfold stopTransaction at isStopped
  split at isStopped
  · split at isStopped
    · cases isStopped
      exact holds
    · simp at isStopped
  · cases isStopped
    unfold updateWatchers
    split
    · exact holds
    · exact forall_mem_map.mpr fun watcher inWatchers =>
        kept.updateCommit _ (kept.setOnDrainedCallback _ (holds watcher inWatchers))

end

theorem forall_watchers_updateWatcher (holds : ∀ watcher ∈ tracker.watchers, Holds watcher)
    {index : Nat} {react : PageWatcherContainer → Option PageWatcherContainer}
    (isUpdated : tracker.updateWatcher index react = some next)
    (reacts : ∀ watcher after, tracker.watchers[index]? = some watcher →
      react watcher = some after → Holds watcher → Holds after) :
    ∀ watcher ∈ next.watchers, Holds watcher := by
  unfold updateWatcher at isUpdated
  split at isUpdated
  · simp at isUpdated
  case h_2 before isBefore =>
    obtain ⟨after, isAfter, rfl⟩ := map_eq_some_iff.mp isUpdated
    intro watcher inWatchers
    rcases mem_or_eq_of_mem_set inWatchers with inWatchers | rfl
    · exact holds watcher inWatchers
    · exact reacts before watcher isBefore isAfter (holds before (mem_of_getElem? isBefore))

end BranchTracker

namespace PageConnection

variable {Holds : PageWatcherContainer → Prop} {graph : CommitGraph} {limits : MessageLimits}
  {connection next : PageConnection} {event : ConnectionEvent}

section

variable (kept : WatcherInvariant Holds)
  (holds : ∀ watcher ∈ connection.tracker.watchers, Holds watcher)
include kept holds

theorem forall_watchers_runInTransaction
    (isNext : connection.runInTransaction = some next) :
    ∀ watcher ∈ next.tracker.watchers, Holds watcher := by
  unfold runInTransaction at isNext
  split at isNext
  · cases isNext
    exact holds
  · obtain ⟨tracker, isStarted, rfl⟩ := map_eq_some_iff.mp isNext
    exact forall_watchers_startTransaction kept holds isStarted

theorem forall_watchers_startNext {queue : List PageOperation}
    (isNext : startNext queue connection = some next) :
    ∀ watcher ∈ next.tracker.watchers, Holds watcher := by
  refine startNext_rule (fun started => ∀ watcher ∈ started.tracker.watchers, Holds watcher)
    (fun started => ∀ watcher ∈ started.tracker.watchers, Holds watcher) ?_ ?_ holds isNext
  · intro started holds queue _
    refine ⟨holds, fun _ => holds, holds, ?_, fun _ => holds, fun _ _ => ⟨holds, holds⟩⟩
    intro next isNext
    exact @forall_watchers_runInTransaction Holds { started with queue } next kept holds
      isNext
  · intro _ started tracker holds isStopped
    exact forall_watchers_stopTransaction kept holds isStopped

variable (isNew : ∀ keyPrefix commitId, Holds (.new keyPrefix commitId))
include isNew

theorem forall_watchers_onAnswer {answer : StorageAnswer}
    (isNext : connection.onAnswer graph answer = some next) :
    ∀ watcher ∈ next.tracker.watchers, Holds watcher := by
  rcases onAnswer_cases isNext with finishes | ⟨-, isRun⟩ | ⟨base, -, rfl⟩ | ⟨base, -, rfl⟩ |
    ⟨-, isFinished⟩ | ⟨base, -, stops⟩ | ⟨base, tracker, -, -, isStarted, rfl⟩
  · rcases finishes with isFinished | ⟨commitId, keyPrefix, -, -, isFinished⟩
    · exact forall_watchers_startNext kept holds isFinished
    · refine forall_watchers_startNext kept ?_ isFinished
      exact forall_mem_concat.mpr ⟨holds, isNew keyPrefix commitId⟩
  · exact forall_watchers_runInTransaction kept holds isRun
  · exact holds
  · exact holds
  · exact @forall_watchers_startNext Holds { connection with stopping := connection.stopping + 1 }
      next kept holds _ isFinished
  · have stopped {commit : Option CommitId} (isStopped : connection.stopThenFinish commit = some next) :
        ∀ watcher ∈ next.tracker.watchers, Holds watcher := by
      obtain ⟨tracker, isStopped, isFinished⟩ := bind_eq_some_iff.mp isStopped
      exact forall_watchers_startNext kept
        (forall_watchers_stopTransaction kept holds isStopped) isFinished
    rcases stops with ⟨-, isStopped⟩ | ⟨commit, -, -, isStopped⟩
    · exact stopped isStopped
    · exact stopped isStopped
  · exact forall_watchers_startTransaction kept holds isStarted

/-- What a step of a watcher keeps, a step of the connection keeps for all its watchers. -/
theorem forall_watchers_step
    (changes : ∀ index diff answer watcher after, event = .pageChange index diff answer →
      connection.tracker.watchers[index]? = some watcher → Holds watcher →
      watcher.onPageChange limits graph.timestamp diff answer = some after → Holds after)
    (acknowledges : ∀ call (watcher after : PageWatcherContainer), Holds watcher →
      watcher.onAcknowledged call = some after → Holds after)
    (isNext : connection.step graph limits event = some next) :
    ∀ watcher ∈ next.tracker.watchers, Holds watcher := by
  obtain ⟨handled, isHandled, isAnswered⟩ := bind_eq_some_iff.mp isNext
  have holdsHandled : ∀ watcher ∈ handled.tracker.watchers, Holds watcher := by
    cases event with
    | call operation =>
      simp only [handle] at isHandled
      split at isHandled
      · simp at isHandled
      · split at isHandled
        · exact @forall_watchers_startNext Holds { connection with
            closed := decide (operation = .close) } handled kept holds _ isHandled
        · cases isHandled
          exact holds
    | answer answer => exact forall_watchers_onAnswer kept holds isNew isHandled
    | newCommits commits =>
      cases isHandled
      exact forall_watchers_onNewCommits kept holds commits
    | pageChange index diff answer =>
      obtain ⟨tracker, isUpdated, rfl⟩ := map_eq_some_iff.mp isHandled
      exact forall_watchers_updateWatcher holds isUpdated
        fun watcher after isWatcher isAfter isHeld =>
          changes index diff answer watcher after rfl isWatcher isHeld isAfter
    | acknowledge index call =>
      obtain ⟨tracker, isUpdated, rfl⟩ := map_eq_some_iff.mp isHandled
      exact forall_watchers_updateWatcher holds isUpdated
        fun watcher after _ isAfter isHeld => acknowledges call watcher after isHeld isAfter
    | disconnect index =>
      cases isHandled
      exact fun watcher inWatchers => holds watcher (mem_of_mem_eraseIdx inWatchers)
    | stop =>
      simp only [handle] at isHandled
      split at isHandled
      · simp at isHandled
      · obtain ⟨tracker, isStopped, rfl⟩ := map_eq_some_iff.mp isHandled
        exact forall_watchers_stopTransaction kept holds isStopped
  unfold answerDrained at isAnswered
  split at isAnswered
  · exact forall_watchers_startNext kept holdsHandled isAnswered
  · cases isAnswered
    exact holdsHandled

end

/-- The differences that are answered are those between the two commits. -/
def ExactDiffs (graph : CommitGraph) (connection : PageConnection) : ConnectionEvent → Prop
  | .pageChange index diff (.ok changes) => ∀ watcher pending,
      connection.tracker.watchers[index]? = some watcher → watcher.diffs[diff]? = some pending →
      ExactDiffFrom watcher.keyPrefix (graph.contents pending.base)
        (graph.contents pending.newCommit) changes
  | _ => True

theorem watcherInvariant_watching : WatcherInvariant (PageWatcherContainer.Watching graph) where
  setOnDrainedCallback onDrained watching := watching.setOnDrainedCallback onDrained
  updateCommit commit watching := watching.updateCommit commit

theorem watching_step (watching : ∀ watcher ∈ connection.tracker.watchers, watcher.Watching graph)
    (exact : connection.ExactDiffs graph event)
    (isNext : connection.step graph limits event = some next) :
    ∀ watcher ∈ next.tracker.watchers, watcher.Watching graph := by
  refine forall_watchers_step watcherInvariant_watching watching
    PageWatcherContainer.watching_new ?_
    (fun call watcher after isWatching isNext => isWatching.onAcknowledged isNext) isNext
  rintro index diff answer watcher after rfl isWatcher isWatching isNext
  refine isWatching.onPageChange ?_ isNext
  rintro changes rfl pending isPending
  exact exact watcher pending isWatcher isPending

/-- In every run, each watcher has at most one outstanding call, is sent whole changes one
after the other, and has the contents of the last commit when the last page of a change is
acknowledged. -/
theorem watchers_receive_run {commitId : CommitId} {events : List ConnectionEvent}
    (exact : EachStep (step graph limits) (ExactDiffs graph) (new commitId) events)
    (isRun : runSteps (step graph limits) (new commitId) events = some connection) :
    ∀ watcher ∈ connection.tracker.watchers, watcher.calls.length ≤ 1 ∧
      (∃ isOpen, ChangesSent (watcher.sent.map Prod.snd) isOpen) ∧
      ∀ index call after, watcher.calls[index]? = some call →
        call.state = .completed ∨ call.state = .partialCompleted →
        watcher.onAcknowledged index = some after → after.lastCommit = call.newCommit ∧
          after.received graph = (graph.contents after.lastCommit).under after.keyPrefix := by
  have watching : ∀ watcher ∈ connection.tracker.watchers, watcher.Watching graph :=
    invariant_runSteps (fun connection => ∀ watcher ∈ connection.tracker.watchers,
      watcher.Watching graph) watching_step (by simp [new, BranchTracker.new]) exact isRun
  intro watcher inWatchers
  have isWatching := watching watcher inWatchers
  exact ⟨isWatching.calls_length, isWatching.changesSent,
    fun index call after isCall isLast isNext =>
      isWatching.received_onAcknowledged isCall isLast isNext⟩

def sampleWatcherRun : List ConnectionEvent :=
  [.call (.getSnapshot (some [])), .answer .ok, .newCommits [[1]],
    .pageChange 0 0 (.ok [⟨sampleMergeEntry [1], false⟩])]

theorem exactDiffs_sampleWatcherRun :
    EachStep (step sampleGraph sampleLimits) (ExactDiffs sampleGraph) (new [0])
      sampleWatcherRun := by
  have waiting : (runSteps (step sampleGraph sampleLimits) (new [0])
      (sampleWatcherRun.take 3)).map (·.tracker.watchers) =
        some [{ PageWatcherContainer.new [] [0] with
          changeInFlight := true, diffs := [⟨[0], [1]⟩] }] := by decide
  have isExact := exactDiff_added [] (show [1] ∉ ([] : List Key) by simp)
  rw [← take_append_drop 3 sampleWatcherRun, eachStep_append]
  constructor
  · simp [sampleWatcherRun, EachStep, ExactDiffs]
  · intro connection isRun
    rw [isRun, map_some, some.injEq] at waiting
    refine ⟨?_, fun _ _ => trivial⟩
    intro watcher pending isWatcher isPending
    rw [waiting] at isWatcher
    cases isWatcher
    cases isPending
    exact ⟨isExact.sorted, fun change _ => not_lt_nil _, isExact.result,
      fun key _ changed => isExact.complete key changed⟩

def sampleWatcher : PageWatcherContainer :=
  { PageWatcherContainer.new [] [0] with
    changeInFlight := true
    calls := [⟨.completed, [1], []⟩]
    sent := [(⟨0, [sampleMergeEntry [1]], []⟩, .completed)] }

/-- The client acknowledges the change and has the new commit. -/
theorem watchers_receive_run_added : ∃ connection after,
    runSteps (step sampleGraph sampleLimits) (new [0]) sampleWatcherRun = some connection ∧
    sampleWatcher ∈ connection.tracker.watchers ∧ sampleWatcher.onAcknowledged 0 = some after ∧
    after.received sampleGraph = (sampleContents [[1]]).under [] := by
  have hasWatcher : (runSteps (step sampleGraph sampleLimits) (new [0]) sampleWatcherRun).map
      (·.tracker.watchers) = some [sampleWatcher] := by decide
  obtain ⟨connection, isRun, isWatchers⟩ := map_eq_some_iff.mp hasWatcher
  have inWatchers : sampleWatcher ∈ connection.tracker.watchers := by simp [isWatchers]
  have received := watchers_receive_run exactDiffs_sampleWatcherRun isRun sampleWatcher inWatchers
  exact ⟨connection, _, isRun, inWatchers, rfl, (received.2.2 0 _ _ rfl (by decide) rfl).2⟩

end PageConnection

end Peridot
