import Peridot.PageSyncTold

/-!
# The phases of a page download

Besides the batches and the `GetObject` calls, a `PageDownload` does one thing at a time: it
waits for one answer or one retry, or for its watcher.
-/

namespace Peridot

open List Option DownloadCall

/-- The calls that `StartDownload` and `SetRemoteWatcher` make one after the other. -/
def DownloadCall.isMain : DownloadCall → Bool
  | getSyncMetadata _ _ => true
  | getCommits _ => true
  | setWatcher => false
  | getObject _ => false
  | retry .startDownload => true
  | retry .setRemoteWatcher => true
  | retry .getObject => false

def LaterBatch (batch : Option BatchDownload) : Prop :=
  ∀ running ∈ batch, running.isBacklog → running.stage = .failed

/-- What the download waits for, whether a `SetWatcher` is not answered yet, the commit state, the
binding of the watcher and the batch. -/
inductive DownloadPhase : Option DownloadCall → Bool → DownloadSyncState → Option PositionToken →
    Option BatchDownload → Prop where
  | stopped : DownloadPhase none false .stopped none none
  | reading (lastCommitTs : Option PositionToken) :
      DownloadPhase (some (.getSyncMetadata .startDownload lastCommitTs)) false .backlog none none
  | listing (positionToken : PositionToken) :
      DownloadPhase (some (.getCommits positionToken)) false .backlog none none
  | adding {batch : BatchDownload} (isBacklog : batch.isBacklog)
      (isRunning : batch.stage ≠ .failed) : DownloadPhase none false .backlog none (some batch)
  | retrying : DownloadPhase (some (.retry .startDownload)) false .temporaryError none none
  | setting {batch : Option BatchDownload} (lastCommitTs : Option PositionToken) (isSet : Bool)
      (later : LaterBatch batch) :
      DownloadPhase (some (.getSyncMetadata .setRemoteWatcher lastCommitTs)) isSet
        .settingRemoteWatcher none batch
  | resetting {batch : Option BatchDownload} (isSet : Bool) (later : LaterBatch batch) :
      DownloadPhase (some (.retry .setRemoteWatcher)) isSet .temporaryError none batch
  | watching {batch : Option BatchDownload} {commitState : DownloadSyncState} (isSet : Bool)
      (position : PositionToken) (isWatching : commitState = .idle ∨ commitState = .inProgress)
      (later : LaterBatch batch) : DownloadPhase none isSet commitState (some position) batch
  | failed {batch : Option BatchDownload} (isSet : Bool) (later : LaterBatch batch) :
      DownloadPhase none isSet .permanentError none batch
  | failedSetting {batch : Option BatchDownload} (lastCommitTs : Option PositionToken)
      (isSet : Bool) (later : LaterBatch batch) :
      DownloadPhase (some (.getSyncMetadata .setRemoteWatcher lastCommitTs)) isSet .permanentError
        none batch
  | failedResetting {batch : Option BatchDownload} (isSet : Bool) (later : LaterBatch batch) :
      DownloadPhase (some (.retry .setRemoteWatcher)) isSet .permanentError none batch

theorem laterBatch_none : LaterBatch none :=
  nofun

theorem laterBatch_some {batch : BatchDownload} (other : ¬batch.isBacklog) :
    LaterBatch (some batch) := by
  intro running isRunning isBacklog
  cases isRunning
  exact absurd isBacklog other

theorem LaterBatch.not_isBacklog {batch : BatchDownload} (later : LaterBatch (some batch))
    (isRunning : batch.stage ≠ .failed) : ¬batch.isBacklog :=
  fun isBacklog => isRunning (later batch rfl isBacklog)

variable {positionToken position : PositionToken}

namespace DownloadPhase

variable {main : Option DownloadCall} {isSet : Bool} {commitState : DownloadSyncState}
  {watcherBinding : Option PositionToken} {batch : Option BatchDownload} {use : SyncMetadataUse}

/-- Once a watcher has been set, it does not matter whether `SetWatcher` was answered. -/
theorem answered (phase : DownloadPhase main true commitState watcherBinding batch)
    (isSet : Bool) : DownloadPhase main isSet commitState watcherBinding batch := by
  cases phase with
  | setting lastCommitTs _ later => exact .setting lastCommitTs isSet later
  | resetting _ later => exact .resetting isSet later
  | watching _ position isWatching later => exact .watching isSet position isWatching later
  | failed _ later => exact .failed isSet later
  | failedSetting lastCommitTs _ later => exact .failedSetting lastCommitTs isSet later
  | failedResetting _ later => exact .failedResetting isSet later

theorem read (lastCommitTs : PositionToken)
    (phase : DownloadPhase (some (.getSyncMetadata use none)) isSet commitState watcherBinding
      batch) : DownloadPhase (some (.getSyncMetadata use (some lastCommitTs))) isSet commitState
      watcherBinding batch := by
  cases phase with
  | reading => exact .reading (some lastCommitTs)
  | setting _ _ later => exact .setting (some lastCommitTs) isSet later
  | failedSetting _ _ later => exact .failedSetting (some lastCommitTs) isSet later

variable {lastCommitTs : Option PositionToken}

theorem list (positionToken : PositionToken)
    (phase : DownloadPhase (some (.getSyncMetadata .startDownload lastCommitTs)) isSet commitState
      watcherBinding batch) :
    DownloadPhase (some (.getCommits positionToken)) isSet commitState watcherBinding batch := by
  cases phase
  exact .listing positionToken

theorem ne_stopped (phase : DownloadPhase main isSet commitState watcherBinding batch)
    (isRunning : main.isSome ∨ isSet ∨ watcherBinding.isSome ∨ batch.isSome) :
    commitState ≠ .stopped := by
  cases phase with
  | stopped => simp at isRunning
  | watching _ _ isWatching _ => rcases isWatching with rfl | rfl <;> decide
  | _ => decide

theorem start (phase : DownloadPhase main isSet .stopped watcherBinding batch) :
    main = none ∧ batch = none ∧
      DownloadPhase (some (.getSyncMetadata .startDownload none)) isSet .backlog watcherBinding
        batch := by
  cases phase with
  | stopped => exact ⟨rfl, rfl, .reading none⟩
  | watching _ _ isWatching _ => rcases isWatching with isIdle | isIdle <;> cases isIdle

section

variable (phase : DownloadPhase (some (.getCommits positionToken)) isSet commitState watcherBinding
  batch)
include phase

theorem setAfterListing :
    DownloadPhase (some (.getSyncMetadata .setRemoteWatcher none)) isSet .settingRemoteWatcher
      watcherBinding batch := by
  cases phase
  exact .setting none false laterBatch_none

theorem addAfterListing {backlog : BatchDownload}
    (isBacklog : backlog.isBacklog) (isRunning : backlog.stage ≠ .failed) :
    DownloadPhase none isSet commitState watcherBinding (some backlog) := by
  cases phase
  exact .adding isBacklog isRunning

theorem listing_backlog : commitState = .backlog ∧ batch = none := by
  cases phase
  exact ⟨rfl, rfl⟩

theorem retryListing :
    DownloadPhase (some (.retry .startDownload)) isSet .temporaryError watcherBinding batch := by
  cases phase
  exact .retrying

end

theorem retrying_temporaryError (phase : DownloadPhase (some (.retry .startDownload)) isSet
    commitState watcherBinding batch) : commitState = .temporaryError ∧ batch = none := by
  cases phase
  exact ⟨rfl, rfl⟩

theorem later_ne_backlog (phase : DownloadPhase main isSet commitState watcherBinding batch)
    (isLater : isSet ∨ watcherBinding.isSome ∨
      (∃ lastCommitTs, main = some (.getSyncMetadata .setRemoteWatcher lastCommitTs)) ∨
      main = some (.retry .setRemoteWatcher) ∨ (batch.isSome ∧ LaterBatch batch)) :
    commitState ≠ .backlog := by
  cases phase with
  | adding isBacklog isRunning =>
    rcases isLater with isSet | isBound | ⟨_, isMain⟩ | isMain | ⟨-, later⟩
    · cases isSet
    · cases isBound
    · cases isMain
    · cases isMain
    · exact absurd isBacklog (later.not_isBacklog isRunning)
  | watching _ _ isWatching _ => rcases isWatching with rfl | rfl <;> decide
  | reading => simp at isLater
  | listing => simp at isLater
  | _ => decide

theorem startAgain (phase : DownloadPhase (some (.retry .startDownload)) isSet commitState
      watcherBinding batch) :
    DownloadPhase (some (.getSyncMetadata .startDownload none)) isSet .backlog watcherBinding
      batch := by
  cases phase
  exact .reading none

section

variable
    (phase : DownloadPhase (some (.retry .setRemoteWatcher)) isSet commitState watcherBinding batch)
include phase

theorem setAgain :
    DownloadPhase (some (.getSyncMetadata .setRemoteWatcher none)) isSet .settingRemoteWatcher
      watcherBinding batch := by
  cases phase with
  | resetting _ later | failedResetting _ later => exact .setting none isSet later

theorem giveUp (isFailed : commitState = .permanentError) :
    DownloadPhase none isSet commitState watcherBinding batch := by
  cases phase with
  | resetting => cases isFailed
  | failedResetting _ later => exact .failed isSet later

end

theorem watch (position : PositionToken)
    (phase : DownloadPhase (some (.getSyncMetadata .setRemoteWatcher lastCommitTs)) isSet
      commitState watcherBinding batch) : DownloadPhase none true .idle (some position) batch := by
  cases phase with
  | setting _ _ later | failedSetting _ _ later => exact .watching true position (.inl rfl) later

theorem failRead (phase : DownloadPhase (some (.getSyncMetadata use lastCommitTs)) isSet commitState
      watcherBinding batch) : DownloadPhase none isSet .permanentError none batch := by
  cases phase with
  | reading => exact .failed false laterBatch_none
  | setting _ _ later | failedSetting _ _ later => exact .failed isSet later

theorem failLater (phase : DownloadPhase main true commitState watcherBinding batch) :
    DownloadPhase main true .permanentError none batch := by
  cases phase with
  | setting lastCommitTs _ later | failedSetting lastCommitTs _ later =>
    exact .failedSetting lastCommitTs true later
  | resetting _ later | failedResetting _ later => exact .failedResetting true later
  | watching _ _ _ later | failed _ later => exact .failed true later

theorem failBatch {running : BatchDownload}
    (phase : DownloadPhase main isSet commitState watcherBinding (some running)) :
    DownloadPhase main isSet .permanentError none (some { running with stage := .failed }) := by
  have later : LaterBatch (some { running with stage := .failed }) := by
    intro other isOther _
    cases isOther
    rfl
  cases phase with
  | adding => exact .failed false later
  | setting lastCommitTs _ _ | failedSetting lastCommitTs _ _ =>
    exact .failedSetting lastCommitTs isSet later
  | resetting _ _ | failedResetting _ _ => exact .failedResetting isSet later
  | watching _ _ _ _ | failed _ _ => exact .failed isSet later

section

variable {running : BatchDownload} {following : Option BatchDownload}
  (phase : DownloadPhase main isSet commitState watcherBinding (some running))
include phase

theorem advanceBatch (isRunning : running.stage ≠ .failed) {stage : BatchStage}
    (goesOn : stage ≠ .failed) :
    DownloadPhase main isSet commitState watcherBinding (some { running with stage }) := by
  have later (before : LaterBatch (some running)) :
      LaterBatch (some { running with stage }) :=
    laterBatch_some (before.not_isBacklog isRunning)
  cases phase with
  | adding isBacklog _ => exact .adding isBacklog goesOn
  | setting lastCommitTs _ before => exact .setting lastCommitTs isSet (later before)
  | resetting _ before => exact .resetting isSet (later before)
  | watching _ position isWatching before =>
    exact .watching isSet position isWatching (later before)
  | failed _ before => exact .failed isSet (later before)
  | failedSetting lastCommitTs _ before => exact .failedSetting lastCommitTs isSet (later before)
  | failedResetting _ before => exact .failedResetting isSet (later before)

/-- The batch of the backlog runs in `DOWNLOAD_BACKLOG`, where nothing else does. -/
theorem backlogDone (isBacklog : running.isBacklog) (isRunning : running.stage ≠ .failed) :
    main = none ∧ commitState = .backlog ∧
      ∀ {following : Option BatchDownload}, LaterBatch following →
        DownloadPhase (some (.getSyncMetadata .setRemoteWatcher none)) isSet
          .settingRemoteWatcher watcherBinding following := by
  have never {p : Prop} (later : LaterBatch (some running)) : p :=
    absurd isBacklog (later.not_isBacklog isRunning)
  cases phase with
  | adding => exact ⟨rfl, rfl, .setting none false⟩
  | setting _ _ later | resetting _ later | watching _ _ _ later | failed _ later
  | failedSetting _ _ later | failedResetting _ later =>
    exact never later

/-- Another batch is done, and is followed by one or none. -/
theorem replaceBatch (other : ¬running.isBacklog) (later : LaterBatch following) :
    DownloadPhase main isSet commitState watcherBinding following := by
  cases phase with
  | adding isBacklog _ => exact absurd isBacklog other
  | setting lastCommitTs _ _ => exact .setting lastCommitTs isSet later
  | resetting _ _ => exact .resetting isSet later
  | watching _ position isWatching _ => exact .watching isSet position isWatching later
  | failed _ _ => exact .failed isSet later
  | failedSetting lastCommitTs _ _ => exact .failedSetting lastCommitTs isSet later
  | failedResetting _ _ => exact .failedResetting isSet later

end

theorem becomeIdle (phase : DownloadPhase main isSet .inProgress watcherBinding batch) :
    DownloadPhase main isSet .idle watcherBinding batch := by
  cases phase with
  | watching _ position _ later => exact .watching isSet position (.inl rfl) later

theorem deliver (upTo : PositionToken) {next : DownloadSyncState}
    (isNext : next = commitState ∨ next = .inProgress)
    (isFollowing : following = batch ∨ LaterBatch following)
    (phase : DownloadPhase main isSet commitState (some position) batch) :
    DownloadPhase main isSet next (some upTo) following := by
  cases phase with
  | watching _ _ isWatching later =>
    have stillLater : LaterBatch following := by
      rcases isFollowing with rfl | stillLater
      · exact later
      · exact stillLater
    refine .watching isSet upTo ?_ stillLater
    rcases isNext with rfl | rfl
    · exact isWatching
    · exact .inr rfl

theorem disconnect (phase : DownloadPhase main isSet commitState (some position) batch) :
    main = none ∧ DownloadPhase (some (.retry .setRemoteWatcher)) isSet .temporaryError none batch ∧
      DownloadPhase none isSet .permanentError none batch := by
  cases phase with
  | watching _ _ _ later => exact ⟨rfl, .resetting isSet later, .failed isSet later⟩

end DownloadPhase

namespace PageDownload

structure InPhase (download : PageDownload) (main : Option DownloadCall) : Prop where
  calls : download.calls.filter isMain = main.toList
  phase : DownloadPhase main (decide (.setWatcher ∈ download.calls)) download.commitState
    download.watcherBinding download.batchDownload

namespace InPhase

variable {download : PageDownload} {main : Option DownloadCall} {call next : DownloadCall}
    {watcherBinding : Option PositionToken} {commitState : DownloadSyncState}
    {batch : Option BatchDownload}

theorem eq_some (inPhase : download.InPhase main) (inCalls : call ∈ download.calls)
    (isMain : call.isMain) : main = some call := by
  have inMain : call ∈ main.toList := by
    rw [← inPhase.calls]
    exact mem_filter.mpr ⟨inCalls, isMain⟩
  exact mem_toList.mp inMain

theorem filter_take (inPhase : download.InPhase (some call)) :
    (download.calls.erase call).filter isMain = [] := by
  rw [← erase_filter, inPhase.calls]
  exact erase_cons_head call []

theorem filter_take_other (inPhase : download.InPhase main) (other : ¬call.isMain) :
    (download.calls.erase call).filter isMain = main.toList := by
  rw [← erase_filter, ← inPhase.calls]
  refine erase_of_not_mem fun inMain => other ?_
  exact (mem_filter.mp inMain).2

theorem setWatcher_take (other : call ≠ .setWatcher) (calls : List DownloadCall) :
    (.setWatcher ∈ calls.erase call) = (.setWatcher ∈ calls) :=
  propext (mem_erase_of_ne other.symm)

theorem take (inPhase : download.InPhase (some call)) (isMain : call.isMain)
    (follows : DownloadPhase none (decide (.setWatcher ∈ download.calls)) commitState watcherBinding
      batch) : InPhase { download with
      calls := download.calls.erase call
      commitState
      watcherBinding
      batchDownload := batch } none where
  calls := inPhase.filter_take
  phase := by
    have other : call ≠ .setWatcher := by
      rintro rfl
      cases isMain
    dsimp only
    rw [decide_eq_decide.mpr (iff_of_eq (setWatcher_take other download.calls))]
    exact follows

theorem replace (inPhase : download.InPhase (some call)) (isMain : call.isMain) (isNextMain : next.isMain)
    (follows : DownloadPhase (some next) (decide (.setWatcher ∈ download.calls)) commitState
      watcherBinding batch) : InPhase { download with
      calls := download.calls.erase call ++ [next]
      commitState
      watcherBinding
      batchDownload := batch } (some next) where
  calls := by
    dsimp only
    rw [filter_append, inPhase.filter_take, filter_singleton, isNextMain]
    rfl
  phase := by
    have other : call ≠ .setWatcher := by
      rintro rfl
      cases isMain
    have otherNext : next ≠ .setWatcher := by
      rintro rfl
      cases isNextMain
    have same : .setWatcher ∈ download.calls.erase call ++ [next] ↔
        .setWatcher ∈ download.calls := by
      rw [mem_append, mem_singleton, setWatcher_take other]
      exact or_iff_left otherNext.symm
    dsimp only
    rw [decide_eq_decide.mpr same]
    exact follows

theorem send (inPhase : download.InPhase none) (isMain : next.isMain)
    (follows : DownloadPhase (some next) (decide (.setWatcher ∈ download.calls)) commitState
      watcherBinding batch) : InPhase { download with
      calls := download.calls ++ [next]
      commitState
      watcherBinding
      batchDownload := batch } (some next) where
  calls := by
    dsimp only
    rw [filter_append, inPhase.calls, filter_singleton, isMain]
    rfl
  phase := by
    have other : next ≠ .setWatcher := by
      rintro rfl
      cases isMain
    have same : .setWatcher ∈ download.calls ++ [next] ↔ .setWatcher ∈ download.calls := by
      rw [mem_append, mem_singleton]
      exact or_iff_left other.symm
    dsimp only
    rw [decide_eq_decide.mpr same]
    exact follows

variable (inPhase : download.InPhase main)
include inPhase

theorem keep (follows : DownloadPhase main (decide (.setWatcher ∈ download.calls)) commitState
      watcherBinding batch) (commitsToDownload : List CommitId) (positionToken : PositionToken) :
    InPhase { download with
      commitState
      watcherBinding
      batchDownload := batch
      commitsToDownload
      positionToken } main :=
  ⟨inPhase.calls, follows⟩

theorem getObject (currentGetObjectCalls : Int) {calls : List DownloadCall}
    (sameMain : calls.filter isMain = download.calls.filter isMain)
    (sameWatcher : .setWatcher ∈ calls ↔ .setWatcher ∈ download.calls) : InPhase { download with
      currentGetObjectCalls
      calls } main where
  calls := by
    dsimp only
    rw [sameMain, inPhase.calls]
  phase := by
    dsimp only
    rw [decide_eq_decide.mpr sameWatcher]
    exact inPhase.phase

theorem answered
    (follows : DownloadPhase main true commitState watcherBinding download.batchDownload) :
    InPhase { download with
      commitState
      watcherBinding
      calls := download.calls.erase .setWatcher } main where
  calls := inPhase.filter_take_other (by decide)
  phase := follows.answered _

end InPhase

end PageDownload

namespace SyncWorld

variable {world next : SyncWorld} {main : Option DownloadCall} {commits : List CommitId}
    {upTo : PositionToken}

/-- The download is in a phase, and has started when the client has started it. -/
structure Phased (world : SyncWorld) : Prop where
  inPhase : ∃ main, world.download.InPhase main
  started : world.sync.started = true ↔ world.download.commitState ≠ .stopped

theorem onWatcherMetadata_phase {lastCommitTs : PositionToken} (inPhase : world.download.InPhase
      (some (.getSyncMetadata .setRemoteWatcher (some lastCommitTs)))) :
    ((world.takeDownload (.getSyncMetadata .setRemoteWatcher (some lastCommitTs))).onWatcherMetadata
      lastCommitTs).download.InPhase none := by
  rw [download_onWatcherMetadata]
  refine ⟨?_, ?_⟩
  · dsimp only [takeDownload]
    rw [filter_append, inPhase.filter_take]
    rfl
  · have isSet : .setWatcher ∈ world.download.calls.erase
        (.getSyncMetadata .setRemoteWatcher (some lastCommitTs)) ++ [.setWatcher] := by simp
    simp only [takeDownload, isSet, decide_true]
    exact inPhase.phase.watch lastCommitTs

theorem onGetCommits_phase (inPhase : world.download.InPhase (some (.getCommits positionToken)))
    (isNext : (world.takeDownload (.getCommits positionToken)).onGetCommits commits upTo =
      some next) : ∃ main, next.download.InPhase main := by
  unfold onGetCommits at isNext
  dsimp only at isNext
  split at isNext
  · refine ⟨some (.getSyncMetadata .setRemoteWatcher none), ?_⟩
    rw [download_setRemoteWatcher isNext]
    exact inPhase.replace rfl rfl inPhase.phase.setAfterListing
  · obtain ⟨-, rfl⟩ := downloadBatch_eq_some.mp isNext
    exact ⟨none, inPhase.take rfl (inPhase.phase.addAfterListing rfl nofun)⟩

section

variable (inPhase : world.download.InPhase main)
include inPhase

section

variable {callable : DownloadRetry} (inCalls : .retry callable ∈ world.download.calls)
include inCalls

theorem onDownloadRetry_phase
    (isNext : (world.takeDownload (.retry callable)).onDownloadRetry callable = some next) :
    ∃ main, next.download.InPhase main := by
  cases callable with
  | startDownload =>
    obtain rfl := inPhase.eq_some inCalls rfl
    cases isNext
    refine ⟨some (.getSyncMetadata .startDownload none), ?_⟩
    rw [download_startDownload]
    exact inPhase.replace rfl rfl inPhase.phase.startAgain
  | setRemoteWatcher =>
    obtain rfl := inPhase.eq_some inCalls rfl
    refine ⟨some (.getSyncMetadata .setRemoteWatcher none), ?_⟩
    rw [download_setRemoteWatcher isNext]
    exact inPhase.replace rfl rfl inPhase.phase.setAgain
  | getObject =>
    cases isNext
    refine ⟨main, inPhase.getObject _ ?_ ?_⟩
    · dsimp only [takeDownload, setGetObjectCalls]
      rw [filter_append, inPhase.filter_take_other (by decide), inPhase.calls]
      exact append_nil _
    · dsimp only [takeDownload, setGetObjectCalls]
      rw [mem_append, PageDownload.InPhase.setWatcher_take (by decide)]
      simp

theorem takeRetry_phase (isFailed : world.download.commitState = .permanentError) :
    ∃ main, (world.takeDownload (.retry callable)).download.InPhase main := by
  cases callable with
  | startDownload =>
    obtain rfl := inPhase.eq_some inCalls rfl
    obtain ⟨isRetrying, -⟩ := inPhase.phase.retrying_temporaryError
    exact nomatch isRetrying.symm.trans isFailed
  | setRemoteWatcher =>
    obtain rfl := inPhase.eq_some inCalls rfl
    exact ⟨none, inPhase.take rfl (inPhase.phase.giveUp isFailed)⟩
  | getObject =>
    refine ⟨main, inPhase.getObject _ ?_ ?_⟩
    · exact (inPhase.filter_take_other (by decide)).trans inPhase.calls.symm
    · exact iff_of_eq (PageDownload.InPhase.setWatcher_take (by decide) _)

end

theorem getObject_phase (currentGetObjectCalls : Int)
    (call : DownloadCall) (isOther : ¬call.isMain) (isNotWatcher : call ≠ .setWatcher)
    (calls : List DownloadCall) (areOther : ∀ other ∈ calls, ¬other.isMain)
    (areNotWatchers : .setWatcher ∉ calls) : PageDownload.InPhase { world.download with
      currentGetObjectCalls
      calls := world.download.calls.erase call ++ calls } main := by
  refine inPhase.getObject _ ?_ ?_
  · rw [filter_append, inPhase.filter_take_other isOther, inPhase.calls,
      filter_eq_nil_iff.mpr areOther, append_nil]
  · rw [mem_append, PageDownload.InPhase.setWatcher_take isNotWatcher]
    exact or_iff_left areNotWatchers

theorem onGetObject_phase (stage : GetObjectStage) :
    ((world.takeDownload (.getObject stage)).onGetObject stage).download.InPhase main := by
  have follows (currentGetObjectCalls : Int) :=
    getObject_phase inPhase currentGetObjectCalls (.getObject stage) nofun nofun
  cases stage with
  | objectName | content | dataSource => exact follows _ _ (by simp [isMain]) (by simp)
  | decryptObject =>
    have ended := follows (world.download.currentGetObjectCalls - 1) [] (by simp) (by simp)
    rw [append_nil] at ended
    exact ended

theorem handleGetObjectError_phase (stage : GetObjectStage) (isPermanent : Bool) :
    ((world.takeDownload (.getObject stage)).handleGetObjectError isPermanent).download.InPhase
      main := by
  have follows (currentGetObjectCalls : Int) :=
    getObject_phase inPhase currentGetObjectCalls (.getObject stage) nofun nofun
  unfold handleGetObjectError
  dsimp only
  split
  · have ended := follows (world.download.currentGetObjectCalls - 1) [] (by simp) (by simp)
    rw [append_nil] at ended
    exact ended
  · exact follows (world.download.currentGetObjectCalls - 1) [.retry .getObject]
      (by simp [isMain]) (by simp)

theorem onNewRemoteCommits_phase (isBound : world.download.watcherBinding = some position)
    (isNext : (world.setWatcherBinding (some upTo)).onNewRemoteCommits commits upTo = some next) :
    next.download.InPhase main := by
  have phase := inPhase.phase
  rw [isBound] at phase
  unfold onNewRemoteCommits at isNext
  split at isNext
  · cases isNext
    exact inPhase.keep (phase.deliver upTo (.inl rfl) (.inl rfl)) _ _
  · obtain ⟨-, rfl⟩ := downloadBatch_eq_some.mp isNext
    rw [download_setCommitState]
    exact inPhase.keep (phase.deliver upTo (.inr rfl) (.inr (laterBatch_some Bool.false_ne_true))) _ _

theorem onError_phase {status : CloudStatus}
    (isBound : world.download.watcherBinding.isSome) (isNext : world.onError status = some next) :
    ∃ main, next.download.InPhase main := by
  obtain ⟨position, isBound⟩ := isSome_iff_exists.mp isBound
  have phase := inPhase.phase
  rw [isBound] at phase
  obtain ⟨rfl, resets, fails⟩ := phase.disconnect
  unfold onError at isNext
  obtain ⟨-, isNext⟩ := ite_none_right_eq_some.mp isNext
  split at isNext
  · cases isNext
    refine ⟨some (.retry .setRemoteWatcher), ?_⟩
    dsimp only [sendDownload]
    rw [download_setCommitState]
    exact inPhase.send rfl resets
  · cases isNext
    refine ⟨none, ?_⟩
    rw [download_handleDownloadCommitError]
    exact inPhase.keep fails _ _

variable {batch : BatchDownload} (isBatch : world.download.batchDownload = some batch)
include isBatch

theorem onBatchDone_phase (isRunning : batch.stage ≠ .failed)
    (isNext : world.onBatchDone batch.isBacklog = some next) :
    ∃ main, next.download.InPhase main := by
  obtain ⟨middle, isMiddle, isLast⟩ := onBatchDone_cases isNext
  have phase := inPhase.phase
  rw [isBatch] at phase
  rcases isMiddle with ⟨isBacklog, isMiddle⟩ | ⟨other, rfl⟩
  · -- `on_done` of the backlog sets the watcher.
    obtain ⟨rfl, -, sets⟩ := phase.backlogDone isBacklog isRunning
    have download := download_setRemoteWatcher isMiddle
    refine ⟨some (.getSyncMetadata .setRemoteWatcher none), ?_⟩
    rcases isLast with ⟨-, inProgress, -⟩ | ⟨-, -, rfl⟩ | ⟨-, rfl⟩
    · rw [download] at inProgress
      cases inProgress
    · rw [dropBatch, download]
      exact inPhase.send rfl (sets laterBatch_none)
    · let queued : BatchDownload :=
        ⟨world.download.commitsToDownload, world.download.positionToken, false, .decrypting⟩
      have follows := inPhase.send rfl (sets (@laterBatch_some queued Bool.false_ne_true))
      rw [startQueue, download]
      exact follows.keep follows.phase _ _
  · have replaced {following : Option BatchDownload} (later : LaterBatch following) :=
      phase.replaceBatch other later
    refine ⟨main, ?_⟩
    rcases isLast with ⟨-, inProgress, rfl⟩ | ⟨-, -, rfl⟩ | ⟨-, rfl⟩
    · rw [download_setCommitState]
      have follows := replaced laterBatch_none
      rw [inProgress] at follows
      exact inPhase.keep follows.becomeIdle _ _
    · exact inPhase.keep (replaced laterBatch_none) _ _
    · exact inPhase.keep (replaced (laterBatch_some Bool.false_ne_true)) _ _

theorem advanceBatch_phase (isNext : world.advanceBatch batch = some next) :
    ∃ main, next.download.InPhase main := by
  have phase := inPhase.phase
  rw [isBatch] at phase
  have advances {stage : BatchStage} (isRunning : batch.stage ≠ .failed) (goesOn : stage ≠ .failed) :
      (world.setBatchStage batch stage).download.InPhase main :=
    inPhase.keep (phase.advanceBatch isRunning goesOn) _ _
  unfold advanceBatch at isNext
  split at isNext
  case h_1 isStage | h_3 isStage | h_4 isStage =>
    cases isNext
    exact ⟨main, advances (by rw [isStage]; decide) (by decide)⟩
  case h_2 isStage =>
    cases isNext
    refine ⟨main, ?_⟩
    rw [addCommitsFromSync, (onlyUpload_notifyWatchers _ .sync).download]
    exact advances (by rw [isStage]; decide) (by decide)
  case h_5 isStage => exact onBatchDone_phase inPhase isBatch (by rw [isStage]; decide) isNext
  case h_6 => cases isNext

end

variable {action : PageDownloadAction}

theorem stepDownload_phase (inPhase : world.download.InPhase main)
    (isStep : world.stepDownload action = some next) : ∃ main, next.download.InPhase main := by
  have phase := inPhase.phase
  cases downloadStep_of_eq_some isStep with
  | getObject =>
    refine ⟨main, inPhase.getObject _ ?_ ?_⟩
    · rw [filter_append]
      exact append_nil _
    · rw [mem_append]
      exact or_iff_left (by simp)
  | readSyncMetadata inCalls =>
    obtain rfl := inPhase.eq_some inCalls rfl
    exact ⟨_, inPhase.replace rfl rfl (phase.read world.storage.timestamp)⟩
  | startsDownload inCalls =>
    obtain rfl := inPhase.eq_some inCalls rfl
    exact ⟨_, inPhase.replace rfl rfl (phase.list _)⟩
  | setsRemoteWatcher inCalls =>
    obtain rfl := inPhase.eq_some inCalls rfl
    exact ⟨none, onWatcherMetadata_phase inPhase⟩
  | failSyncMetadata inCalls =>
    obtain rfl := inPhase.eq_some inCalls rfl
    use none
    rw [download_handleDownloadCommitError]
    exact inPhase.take rfl phase.failRead
  | answerGetCommits _ inCalls isNext =>
    obtain rfl := inPhase.eq_some inCalls rfl
    exact onGetCommits_phase inPhase isNext
  | failGetCommits inCalls =>
    obtain rfl := inPhase.eq_some inCalls rfl
    use some (.retry .startDownload)
    rw [download_onGetCommitsError]
    exact inPhase.replace rfl rfl phase.retryListing
  | answerSetWatcher inCalls =>
    simp only [inCalls, decide_true] at phase
    exact ⟨main, inPhase.answered phase⟩
  | failSetWatcher inCalls =>
    simp only [inCalls, decide_true] at phase
    use main
    rw [download_handleDownloadCommitError]
    exact inPhase.answered phase.failLater
  | answerGetObject => exact ⟨main, onGetObject_phase inPhase _⟩
  | failGetObject => exact ⟨main, handleGetObjectError_phase inPhase _ _⟩
  | retry inCalls _ isNext => exact onDownloadRetry_phase inPhase inCalls isNext
  | retryFailed inCalls isFailed => exact takeRetry_phase inPhase inCalls isFailed
  | onNewCommits isBound _ isNext => exact ⟨main, onNewRemoteCommits_phase inPhase isBound isNext⟩
  | onError isBound isNext => exact onError_phase inPhase isBound isNext
  | advanceBatch isBatch isNext => exact advanceBatch_phase inPhase isBatch isNext
  | failBatch isBatch =>
    rw [isBatch] at phase
    use main
    rw [download_handleDownloadCommitError]
    exact inPhase.keep phase.failBatch _ _

theorem stepDownload_stopped (inPhase : world.download.InPhase main)
    (isStep : world.stepDownload action = some next) :
    next.download.commitState = .stopped ↔ world.download.commitState = .stopped := by
  have phase := inPhase.phase
  -- A step that sets another state is not one of a stopped download.
  have changes (isSet : next.download.commitState ≠ .stopped)
      (isRunning : world.download.commitState = .stopped → False) :
      next.download.commitState = .stopped ↔ world.download.commitState = .stopped :=
    iff_of_false isSet isRunning
  have called {call : DownloadCall} (inCalls : call ∈ world.download.calls) (isMain : call.isMain)
      (isStopped : world.download.commitState = .stopped) : False := by
    obtain rfl := inPhase.eq_some inCalls isMain
    rw [isStopped] at phase
    exact phase.ne_stopped (.inl rfl) rfl
  cases downloadStep_of_eq_some isStep with
  | getObject | readSyncMetadata | startsDownload | answerSetWatcher | retryFailed => exact Iff.rfl
  | setsRemoteWatcher inCalls =>
    refine changes ?_ (called inCalls rfl)
    rw [download_onWatcherMetadata]
    nofun
  | failSyncMetadata inCalls =>
    refine changes ?_ (called inCalls rfl)
    rw [download_handleDownloadCommitError]
    nofun
  | answerGetCommits _ inCalls isNext =>
    unfold onGetCommits at isNext
    dsimp only at isNext
    split at isNext
    · refine changes ?_ (called inCalls rfl)
      rw [download_setRemoteWatcher isNext]
      nofun
    · obtain ⟨-, rfl⟩ := downloadBatch_eq_some.mp isNext
      exact Iff.rfl
  | failGetCommits inCalls =>
    refine changes ?_ (called inCalls rfl)
    rw [download_onGetCommitsError]
    nofun
  | failSetWatcher inCalls =>
    refine changes ?_ (phase.ne_stopped (.inr (.inl (decide_eq_true inCalls))))
    rw [download_handleDownloadCommitError]
    nofun
  | @answerGetObject stage => cases stage <;> exact Iff.rfl
  | @failGetObject _ isPermanent => cases isPermanent <;> exact Iff.rfl
  | @retry callable _ inCalls _ isNext =>
    cases callable with
    | startDownload =>
      cases isNext
      refine changes ?_ (called inCalls rfl)
      rw [download_startDownload]
      nofun
    | setRemoteWatcher =>
      refine changes ?_ (called inCalls rfl)
      rw [download_setRemoteWatcher isNext]
      nofun
    | getObject =>
      cases isNext
      exact Iff.rfl
  | onNewCommits isBound _ isNext =>
    unfold onNewRemoteCommits at isNext
    split at isNext
    · cases isNext
      exact Iff.rfl
    · obtain ⟨-, rfl⟩ := downloadBatch_eq_some.mp isNext
      refine changes ?_ (phase.ne_stopped (.inr (.inr (.inl (by rw [isBound]; rfl)))))
      rw [download_setCommitState]
      nofun
  | onError isBound isNext =>
    refine changes ?_ (phase.ne_stopped (.inr (.inr (.inl isBound))))
    unfold onError at isNext
    obtain ⟨-, isNext⟩ := ite_none_right_eq_some.mp isNext
    split at isNext
    · cases isNext
      dsimp only [sendDownload]
      rw [download_setCommitState]
      nofun
    · cases isNext
      rw [download_handleDownloadCommitError]
      nofun
  | advanceBatch isBatch isNext =>
    have isRunning : world.download.commitState ≠ .stopped :=
      phase.ne_stopped (.inr (.inr (.inr (by rw [isBatch]; rfl))))
    unfold advanceBatch at isNext
    split at isNext
    · cases isNext
      exact Iff.rfl
    · cases isNext
      rw [addCommitsFromSync, (onlyUpload_notifyWatchers _ .sync).download]
      exact Iff.rfl
    · cases isNext
      exact Iff.rfl
    · cases isNext
      exact Iff.rfl
    · refine iff_of_false ?_ isRunning
      obtain ⟨middle, isMiddle, isLast⟩ := onBatchDone_cases isNext
      have isMiddleRunning : middle.download.commitState ≠ .stopped := by
        rcases isMiddle with ⟨-, isMiddle⟩ | ⟨-, isWorld⟩
        · rw [download_setRemoteWatcher isMiddle]
          nofun
        · rw [isWorld]
          exact isRunning
      rcases isLast with ⟨-, -, rfl⟩ | ⟨-, -, rfl⟩ | ⟨-, rfl⟩
      · rw [download_setCommitState]
        nofun
      · exact isMiddleRunning
      · exact isMiddleRunning
    · cases isNext
  | failBatch isBatch =>
    refine changes ?_ (phase.ne_stopped (.inr (.inr (.inr (by rw [isBatch]; rfl)))))
    rw [download_handleDownloadCommitError]
    nofun

theorem phased_new (storage : SyncStorage) (cloud : List CommitId) : (new storage cloud).Phased :=
  ⟨⟨none, rfl, .stopped⟩, by simp [new]⟩

theorem Phased.of_same {before after : SyncWorld} (phased : before.Phased)
    (same : SameDownload before after) : after.Phased := by
  obtain ⟨⟨main, inPhase⟩, started⟩ := phased
  refine ⟨⟨main, ?_⟩, ?_⟩
  · rw [same.download]
    exact inPhase
  · rw [same.started, same.download]
    exact started

variable (phased : world.Phased)
include phased

theorem Phased.startDownload (isNew : ¬world.sync.started) : Phased (SyncWorld.startDownload
      { world with sync.started := true }) := by
  obtain ⟨⟨main, inPhase⟩, started⟩ := phased
  have isStopped : world.download.commitState = .stopped :=
    not_not.mp fun isRunning => isNew (started.mpr isRunning)
  have phase := inPhase.phase
  rw [isStopped] at phase
  obtain ⟨rfl, -, follows⟩ := phase.start
  refine ⟨⟨some (.getSyncMetadata .startDownload none), ?_⟩, ?_⟩
  · rw [download_startDownload]
    exact inPhase.send rfl follows
  · rw [download_startDownload, (sameClient_startDownload _).started]
    simp

theorem Phased.stepDownload (isStep : world.stepDownload action = some next) : next.Phased := by
  obtain ⟨main, inPhase⟩ := phased.inPhase
  refine ⟨stepDownload_phase inPhase isStep, ?_⟩
  rw [(sameClient_stepDownload isStep).started, phased.started, not_iff_not]
  exact (stepDownload_stopped inPhase isStep).symm

theorem Phased.step {parents : CommitId → List CommitId}
    {action : SyncAction} (isStep : world.step parents action = some next) : next.Phased := by
  obtain ⟨changed, change, same⟩ := downloadChange_of_step isStep
  refine Phased.of_same ?_ same
  cases change with
  | start isNew => exact phased.startDownload isNew
  | download isStep => exact phased.stepDownload isStep
  | restart => exact phased_new world.storage world.cloud
  | upload => exact phased
  | _ => exact ⟨phased.inPhase, phased.started⟩

end SyncWorld

end Peridot
