import Peridot.CallList
import Peridot.PageSyncPhase
import Peridot.PageSyncPosition

/-!
# When the backlog is downloaded

The client is told that the backlog is downloaded when `DOWNLOAD_BACKLOG` is left, for whatever
reason but a permanent error.
-/

namespace Peridot

open List DownloadCall

def DownloadCall.isStarting : DownloadCall → Bool
  | getSyncMetadata .startDownload _ => true
  | getCommits _ => true
  | retry .startDownload => true
  | _ => false

variable {call : DownloadCall}

theorem DownloadCall.isMain_of_isStarting (isStarting : call.isStarting) : call.isMain := by
  cases call with
  | retry callable => cases callable <;> first | rfl | cases isStarting
  | _ => first | rfl | cases isStarting

/-- A download that waits for nothing is not on the way to the backlog. -/
theorem PageDownload.InPhase.not_isStarting {download : PageDownload}
    (inPhase : download.InPhase none) : ∀ call ∈ download.calls, ¬call.isStarting := by
  intro call inCalls isStarting
  have isMain := isMain_of_isStarting isStarting
  exact absurd (inPhase.eq_some inCalls isMain) nofun

def SyncEvent.isBacklog : SyncEvent → Bool
  | gotCommits _ => false
  | backlogDownloaded _ => true

/-- The client is told at most once, when all commits of an answer are stored. -/
structure BacklogOnce (log : List SyncEvent) : Prop where
  once : log.countP SyncEvent.isBacklog ≤ 1
  complete : ∀ before stored after, log = before ++ .backlogDownloaded stored :: after →
    ∃ commits, .gotCommits commits ∈ before ∧ ∀ commit ∈ commits, commit ∈ stored

theorem backlogOnce_of_none {log : List SyncEvent} (isNone : log.countP SyncEvent.isBacklog = 0) :
    BacklogOnce log where
  once := by omega
  complete := by
    rintro before stored after rfl
    rw [countP_append, countP_cons_of_pos (by rfl)] at isNone
    omega

variable {commits : List CommitId}

theorem backlogOnce_told {stored : List CommitId}
    (areStored : ∀ commit ∈ commits, commit ∈ stored) :
    BacklogOnce [.gotCommits commits, .backlogDownloaded stored] where
  once := by simp [SyncEvent.isBacklog]
  complete := by
    intro before other after isLog
    cases before with
    | nil => cases isLog
    | cons first before =>
      obtain ⟨rfl, isRest⟩ := cons.inj isLog
      cases before with
      | nil =>
        obtain ⟨isEvent, -⟩ := cons.inj isRest
        obtain rfl := SyncEvent.backlogDownloaded.inj isEvent
        exact ⟨commits, by simp, areStored⟩
      | cons second before =>
        obtain ⟨-, isLast⟩ := cons.inj isRest
        cases before <;> cases isLast

namespace SyncWorld

variable {world next : SyncWorld} {positionToken upTo : PositionToken} {newState : DownloadSyncState}
    {action : PageDownloadAction} {batch : BatchDownload}

theorem getMergedState_eq_backlog {commitState : DownloadSyncState} {calls : Int} :
    getMergedState commitState calls = .backlog ↔ commitState = .backlog := by
  unfold getMergedState
  split
  · rfl
  case isFalse isIdle =>
    rw [not_not.mp isIdle]
    split <;> decide

def ToldBacklog (world : SyncWorld) : Prop :=
  world.sync.downloadState = .backlog ↔ world.download.commitState = .backlog

theorem toldInvariant_toldBacklog : ToldInvariant ToldBacklog where
  setCommitState := by
    intro world newState told
    rw [ToldBacklog, download_setCommitState]
    rcases setCommitState_cases world newState with ⟨isSet, same⟩ | ⟨-, isTold⟩
    · rw [isSet]
      exact told.trans (by rw [← getMergedState_eq_backlog, same, getMergedState_eq_backlog])
    · rw [isTold, (tellsDownload_setDownloadState _ _).downloadState]
      exact getMergedState_eq_backlog
  download := by
    intro world download storage log sameState _ told
    rw [ToldBacklog, sameState]
    exact told
  of_same := by
    intro before after same told
    rw [ToldBacklog, same.downloadState, same.download]
    exact told

section

variable (told : world.ToldBacklog)
include told

theorem ToldBacklog.stepDownload (isStep : world.stepDownload action = some next) :
    next.ToldBacklog :=
  toldInvariant_toldBacklog.stepDownload told (fun _ => told) isStep

theorem log_setCommitState
    (isQuiet : world.download.commitState ≠ .backlog ∨ newState = .permanentError) :
    (world.setCommitState newState).log = world.log := by
  rcases setCommitState_cases world newState with ⟨isSet, -⟩ | ⟨-, isTold⟩
  · rw [isSet]
  · rw [isTold, (tellsDownload_setDownloadState _ _).log, toldBacklog, if_neg, append_nil]
    rintro ⟨inBacklog, notFailed, -⟩
    rcases isQuiet with isQuiet | rfl
    · exact isQuiet (told.mp inBacklog)
    · exact notFailed rfl

theorem log_leaveBacklog (inBacklog : world.download.commitState = .backlog)
    (isLeft : newState ≠ .backlog ∧ newState ≠ .permanentError ∧ newState ≠ .idle) :
    (world.setCommitState newState).log = world.log ++
      if world.sync.onBacklogDownloaded then [.backlogDownloaded world.storage.commits] else [] := by
  rcases setCommitState_cases world newState with ⟨-, same⟩ | ⟨-, isTold⟩
  · rw [inBacklog, getMergedState_eq_backlog.mpr rfl] at same
    exact absurd (getMergedState_eq_backlog.mp same.symm) isLeft.1
  · have merged : getMergedState newState world.download.currentGetObjectCalls = newState := by
      rw [getMergedState, if_pos isLeft.2.2]
    rw [isTold, (tellsDownload_setDownloadState _ _).log, toldBacklog, merged]
    have isBacklog : world.sync.downloadState = .backlog := told.mpr inBacklog
    simp only [isBacklog, isLeft.2.1, ne_eq, not_false_iff, true_and]

end

/-- What is logged so far: nothing until `GetCommits` is answered, then its commits, until the
batch of the backlog is done. -/
structure Backlogged (world : SyncWorld) : Prop where
  phased : world.Phased
  told : world.ToldBacklog
  stopped : world.download.commitState = .stopped → world.log = []
  starting : ∀ call ∈ world.download.calls, call.isStarting → world.log = []
  adding : ∀ batch ∈ world.download.batchDownload, world.download.commitState = .backlog →
    world.log = [.gotCommits batch.commits]
  stored : ∀ batch ∈ world.download.batchDownload, batch.stage.isStored →
    ∀ commit ∈ batch.commits, commit ∈ world.storage.commits
  once : BacklogOnce world.log

def failsGetCommits : SyncAction → Bool
  | .download (.failGetCommits _) => true
  | _ => false

/-- `GetCommits` does not fail, if the client wants to be told of the backlog. -/
def GetsBacklog (world : SyncWorld) (action : SyncAction) : Prop :=
  failsGetCommits action → ¬world.sync.onBacklogDownloaded
deriving Decidable

/-- A step that logs nothing, and is not one towards the backlog. -/
theorem Backlogged.keep (backlogged : world.Backlogged) (phased : next.Phased)
    (told : next.ToldBacklog) (log : next.log = world.log)
    (stopped : next.download.commitState = .stopped → world.download.commitState = .stopped)
    (starting : ∀ call ∈ next.download.calls, call.isStarting →
      ∃ other ∈ world.download.calls, other.isStarting)
    (adding : ∀ batch ∈ next.download.batchDownload, next.download.commitState = .backlog →
      world.log = [.gotCommits batch.commits])
    (stored : ∀ batch ∈ next.download.batchDownload, batch.stage.isStored →
      ∀ commit ∈ batch.commits, commit ∈ next.storage.commits) : next.Backlogged where
  phased := phased
  told := told
  stopped := fun isStopped => log.trans (backlogged.stopped (stopped isStopped))
  starting := fun call inCalls isStarting => by
    obtain ⟨other, inBefore, isOther⟩ := starting call inCalls isStarting
    exact log.trans (backlogged.starting other inBefore isOther)
  adding := fun batch isBatch isBacklog => log.trans (adding batch isBatch isBacklog)
  stored := stored
  once := by
    rw [log]
    exact backlogged.once

/-- Once the backlog is left and is not on the way again, only the log matters. -/
theorem backlogged_of_once (phased : world.Phased) (told : world.ToldBacklog)
    (once : BacklogOnce world.log)
    (isLater : world.download.commitState ≠ .stopped ∧ world.download.commitState ≠ .backlog)
    (noStarting : ∀ call ∈ world.download.calls, ¬call.isStarting)
    (stored : ∀ batch ∈ world.download.batchDownload, batch.stage.isStored →
      ∀ commit ∈ batch.commits, commit ∈ world.storage.commits) : world.Backlogged where
  phased := phased
  told := told
  stopped := fun isStopped => absurd isStopped isLater.1
  starting := fun call inCalls isStarting => absurd isStarting (noStarting call inCalls)
  adding := fun _ _ isBacklog => absurd isBacklog isLater.2
  stored := stored
  once := once

theorem log_setRemoteWatcher (isNext : world.setRemoteWatcher = some next)
    (told : world.ToldBacklog) (isLater : world.download.commitState ≠ .backlog) :
    next.log = world.log := by
  obtain ⟨-, rfl⟩ := setRemoteWatcher_eq_some.mp isNext
  exact log_setCommitState told (.inl isLater)

theorem log_finishBacklog (isNext : world.setRemoteWatcher = some next)
    (told : world.ToldBacklog) (inBacklog : world.download.commitState = .backlog) :
    next.log = world.log ++
      if world.sync.onBacklogDownloaded then [.backlogDownloaded world.storage.commits] else [] := by
  obtain ⟨-, rfl⟩ := setRemoteWatcher_eq_some.mp isNext
  exact log_leaveBacklog told inBacklog (by decide)

section

variable (told : world.ToldBacklog)
include told

theorem log_onWatcherMetadata (isLater : world.download.commitState ≠ .backlog)
    (lastCommitTs : PositionToken) : (world.onWatcherMetadata lastCommitTs).log = world.log := by
  have bound : ((world.setWatcherBinding (some lastCommitTs)).sendDownload
      .setWatcher).ToldBacklog := told
  exact log_setCommitState bound (.inl isLater)

theorem log_handleDownloadCommitError : world.handleDownloadCommitError.log = world.log := by
  have unbound : ((world.setWatcherBinding none).setSyncDelegate false).ToldBacklog := told
  exact log_setCommitState unbound (.inr rfl)

theorem log_startDownload (isLater : world.download.commitState ≠ .backlog) :
    world.startDownload.log = world.log :=
  log_setCommitState told (.inl isLater)

end

theorem Backlogged.failed (backlogged : world.Backlogged) {failing : SyncWorld}
    (phased : next.Phased) (isNext : next = failing.handleDownloadCommitError)
    (told : failing.ToldBacklog) (log : failing.log = world.log)
    (calls : ∀ call ∈ failing.download.calls, call.isStarting →
      ∃ other ∈ world.download.calls, other.isStarting) (storage : failing.storage = world.storage)
    (batch : failing.download.batchDownload = world.download.batchDownload ∨
      ∀ batch ∈ failing.download.batchDownload, batch.stage = .failed) : next.Backlogged := by
  subst isNext
  refine backlogged.keep phased (toldInvariant_toldBacklog.busy.handleDownloadCommitError told)
    ((log_handleDownloadCommitError told).trans log) ?_ ?_ ?_ ?_
  · rw [download_handleDownloadCommitError]
    nofun
  · rw [download_handleDownloadCommitError]
    exact calls
  · rw [download_handleDownloadCommitError]
    nofun
  · rw [download_handleDownloadCommitError, handleDownloadCommitError,
      (setsCommitState _ _).storage]
    intro running isRunning isStored
    rcases batch with same | areFailed
    · rw [show running ∈ failing.download.batchDownload ↔ running ∈ world.download.batchDownload
        from by rw [same]] at isRunning
      intro commit inBatch
      have stored := backlogged.stored running isRunning isStored commit inBatch
      rw [← storage] at stored
      exact stored
    · rw [areFailed running isRunning] at isStored
      cases isStored

/-- Nothing but calls that are not on the way to the backlog, and the `GetObject` calls, is new. -/
theorem Backlogged.calls (backlogged : world.Backlogged) {currentGetObjectCalls : Int}
    {calls : List DownloadCall} (phased : Phased { world with download := { world.download with
      currentGetObjectCalls
      calls } })
    (starting : ∀ call ∈ calls, call.isStarting →
      ∃ other ∈ world.download.calls, other.isStarting) :
    Backlogged { world with download := { world.download with
      currentGetObjectCalls
      calls } } :=
  backlogged.keep phased backlogged.told rfl (fun isStopped => isStopped) starting
    backlogged.adding backlogged.stored

theorem starting_of_subset {calls : List DownloadCall} (subset : calls ⊆ world.download.calls) :
    ∀ call ∈ calls, call.isStarting → ∃ other ∈ world.download.calls, other.isStarting :=
  fun call inCalls isStarting => ⟨call, subset inCalls, isStarting⟩

theorem starting_take {others : List DownloadCall}
    (areOther : ∀ other ∈ others, ¬other.isStarting) :
    ∀ other ∈ world.download.calls.erase call ++ others, other.isStarting →
      ∃ before ∈ world.download.calls, before.isStarting := by
  intro other inCalls isStarting
  rcases mem_append.mp inCalls with inCalls | isNew
  · exact ⟨other, mem_of_mem_erase inCalls, isStarting⟩
  · exact absurd isStarting (areOther other isNew)

theorem starting_replace {next : DownloadCall} (inCalls : call ∈ world.download.calls)
    (isStarting : next.isStarting → call.isStarting) :
    ∀ other ∈ world.download.calls.erase call ++ [next], other.isStarting →
      ∃ before ∈ world.download.calls, before.isStarting := by
  intro other isOther isOtherStarting
  rcases mem_append.mp isOther with isOther | isNew
  · exact ⟨other, mem_of_mem_erase isOther, isOtherStarting⟩
  · rw [mem_singleton.mp isNew] at isOtherStarting
    exact ⟨call, inCalls, isStarting isOtherStarting⟩

section

variable (backlogged : world.Backlogged)
include backlogged

theorem Backlogged.onWatcherMetadata {lastCommitTs : PositionToken}
    (inCalls : .getSyncMetadata .setRemoteWatcher (some lastCommitTs) ∈ world.download.calls)
    (phased : ((world.takeDownload
      (.getSyncMetadata .setRemoteWatcher (some lastCommitTs))).onWatcherMetadata
        lastCommitTs).Phased) :
    ((world.takeDownload (.getSyncMetadata .setRemoteWatcher (some lastCommitTs))).onWatcherMetadata
      lastCommitTs).Backlogged := by
  obtain ⟨main, inPhase⟩ := backlogged.phased.inPhase
  obtain rfl := inPhase.eq_some inCalls rfl
  have isLater := inPhase.phase.later_ne_backlog (.inr (.inr (.inl ⟨_, rfl⟩)))
  have told : (world.takeDownload (.getSyncMetadata .setRemoteWatcher
      (some lastCommitTs))).ToldBacklog := backlogged.told
  refine backlogged.keep phased (toldInvariant_toldBacklog.onWatcherMetadata told lastCommitTs)
    (log_onWatcherMetadata told isLater lastCommitTs) ?_ ?_ ?_ ?_
  all_goals rw [download_onWatcherMetadata]
  · nofun
  · exact starting_take (by simp [DownloadCall.isStarting])
  · nofun
  · rw [SyncWorld.onWatcherMetadata, (setsCommitState _ _).storage]
    exact backlogged.stored

theorem Backlogged.onGetCommits (inCalls : .getCommits positionToken ∈ world.download.calls)
    (phased : next.Phased) (told : next.ToldBacklog) (isNext : (world.takeDownload
      (.getCommits positionToken)).onGetCommits commits upTo = some next) : next.Backlogged := by
  obtain ⟨main, inPhase⟩ := backlogged.phased.inPhase
  obtain rfl := inPhase.eq_some inCalls rfl
  obtain ⟨inBacklog, isNone⟩ := inPhase.phase.listing_backlog
  have isEmpty := backlogged.starting _ inCalls rfl
  -- Of the calls that are left, none is on the way to the backlog.
  have isLast : ∀ call ∈ world.download.calls.erase (.getCommits positionToken),
      ¬call.isStarting := by
    intro call inRest isStarting
    have isMain := isMain_of_isStarting isStarting
    have inNil : call ∈ (world.download.calls.erase (.getCommits positionToken)).filter
        DownloadCall.isMain := mem_filter.mpr ⟨inRest, isMain⟩
    rw [inPhase.filter_take] at inNil
    cases inNil
  unfold SyncWorld.onGetCommits at isNext
  dsimp only at isNext
  have isEmptyBatch : (world.takeDownload (.getCommits positionToken)).download.batchDownload =
      none := isNone
  split at isNext
  case isTrue noCommits =>
    -- There is no backlog: the client is told at once.
    subst noCommits
    have download := download_setRemoteWatcher isNext
    have log : next.log = world.log ++ [.gotCommits []] ++
        if world.sync.onBacklogDownloaded then [.backlogDownloaded world.storage.commits]
        else [] :=
      log_finishBacklog isNext backlogged.told inBacklog
    refine ⟨phased, told, ?_, ?_, ?_, ?_, ?_⟩
    · rw [download]
      nofun
    · rw [download]
      intro call inNext isStarting
      rcases mem_append.mp inNext with inRest | isNew
      · exact absurd isStarting (isLast call inRest)
      · rw [mem_singleton.mp isNew] at isStarting
        cases isStarting
    · rw [download]
      nofun
    · rw [download]
      intro batch isBatch
      dsimp only at isBatch
      exact nomatch isEmptyBatch.symm.trans isBatch
    · rw [log, isEmpty]
      split
      · exact backlogOnce_told nofun
      · exact backlogOnce_of_none rfl
  case isFalse hasCommits =>
    obtain ⟨-, rfl⟩ := downloadBatch_eq_some.mp isNext
    refine ⟨phased, told, ?_, ?_, ?_, ?_, ?_⟩
    · exact fun isStopped => nomatch inBacklog.symm.trans isStopped
    · exact fun call inRest isStarting => absurd isStarting (isLast call inRest)
    · intro batch isBatch _
      cases isBatch
      exact congrArg (· ++ [.gotCommits commits]) isEmpty
    · intro batch isBatch isStored
      cases isBatch
      cases isStored
    · have once : BacklogOnce (world.log ++ [.gotCommits commits]) := by
        rw [isEmpty]
        exact backlogOnce_of_none rfl
      exact once

theorem Backlogged.onBatchDone (isBatch : world.download.batchDownload = some batch)
    (isStage : batch.stage = .saved) (phased : next.Phased) (told : next.ToldBacklog)
    (isNext : world.onBatchDone batch.isBacklog = some next) : next.Backlogged := by
  obtain ⟨main, inPhase⟩ := backlogged.phased.inPhase
  have phase := inPhase.phase
  rw [isBatch] at phase
  have isRunning : batch.stage ≠ .failed := by
    rw [isStage]
    decide
  have isStored := backlogged.stored batch isBatch (by rw [isStage]; rfl)
  obtain ⟨middle, isMiddle, isLast⟩ := onBatchDone_cases isNext
  rcases isMiddle with ⟨isBacklog, isMiddle⟩ | ⟨other, rfl⟩
  · -- The watcher is set, and a batch may follow.
    obtain ⟨rfl, inBacklog, -⟩ := phase.backlogDone isBacklog isRunning
    have download := download_setRemoteWatcher isMiddle
    have once : BacklogOnce middle.log := by
      rw [log_finishBacklog isMiddle backlogged.told inBacklog,
        backlogged.adding batch isBatch inBacklog]
      split
      · exact backlogOnce_told isStored
      · exact backlogOnce_of_none rfl
    have noStarting : ∀ call ∈ middle.download.calls, ¬call.isStarting := by
      rw [download]
      exact forall_mem_concat.mpr ⟨inPhase.not_isStarting, nofun⟩
    have isSetting : middle.download.commitState = .settingRemoteWatcher := by rw [download]
    have isLater : middle.download.commitState ≠ .stopped ∧
        middle.download.commitState ≠ .backlog := by
      rw [isSetting]
      decide
    rcases isLast with ⟨-, inProgress, -⟩ | ⟨-, -, rfl⟩ | ⟨-, rfl⟩
    · exact nomatch isSetting.symm.trans inProgress
    · exact backlogged_of_once phased told once isLater noStarting
        (fun batch isBatch => nomatch isBatch)
    · refine backlogged_of_once phased told once isLater noStarting ?_
      intro batch isBatch isStored
      cases isBatch
      cases isStored
  · have isLater : middle.download.commitState ≠ .backlog :=
      phase.later_ne_backlog (.inr (.inr (.inr (.inr ⟨rfl, laterBatch_some other⟩))))
    have dropped : middle.dropBatch.ToldBacklog := backlogged.told
    rcases isLast with ⟨-, -, rfl⟩ | ⟨-, -, rfl⟩ | ⟨-, rfl⟩
    · refine backlogged.keep phased told (log_setCommitState dropped (.inl isLater)) ?_ ?_ ?_ ?_
      · rw [download_setCommitState]
        nofun
      · rw [download_setCommitState]
        exact starting_of_subset (List.Subset.refl _)
      · rw [download_setCommitState]
        nofun
      · rw [download_setCommitState]
        exact fun batch isBatch => nomatch isBatch
    · refine backlogged.keep phased told rfl (fun isStopped => isStopped)
        (starting_of_subset (List.Subset.refl _)) ?_ ?_
      · exact fun batch isBatch => nomatch isBatch
      · exact fun batch isBatch => nomatch isBatch
    · refine backlogged.keep phased told rfl (fun isStopped => isStopped)
        (starting_of_subset (List.Subset.refl _)) ?_ ?_
      · exact fun _ _ isBacklog => absurd isBacklog isLater
      · intro following isFollowing isStored
        cases isFollowing
        cases isStored

end

theorem Backlogged.of_same {before after : SyncWorld} (backlogged : before.Backlogged)
    (same : SameDownload before after) : after.Backlogged := by
  refine backlogged.keep (backlogged.phased.of_same same)
    (toldInvariant_toldBacklog.of_same same backlogged.told) same.log ?_ ?_ ?_ ?_
  · rw [same.download]
    exact fun isStopped => isStopped
  · rw [same.download]
    exact starting_of_subset (List.Subset.refl _)
  · rw [same.download]
    exact backlogged.adding
  · rw [same.download, same.commits]
    exact backlogged.stored

section

variable (backlogged : world.Backlogged)
include backlogged

theorem Backlogged.advanceBatch (isBatch : world.download.batchDownload = some batch)
    (phased : next.Phased)
    (told : next.ToldBacklog) (isNext : world.advanceBatch batch = some next) :
    next.Backlogged := by
  -- Another stage of the same batch.
  have staged {stage : BatchStage} {storage : SyncStorage}
      (phased : Phased { world.setBatchStage batch stage with storage })
      (isStored : stage.isStored → ∀ commit ∈ batch.commits, commit ∈ storage.commits) :
      Backlogged { world.setBatchStage batch stage with storage } := by
    refine backlogged.keep phased backlogged.told rfl (fun isStopped => isStopped)
      (starting_of_subset (List.Subset.refl _)) ?_ ?_
    · intro running isRunning inBacklog
      cases isRunning
      exact backlogged.adding batch isBatch inBacklog
    · intro running isRunning
      cases isRunning
      exact isStored
  unfold SyncWorld.advanceBatch at isNext
  split at isNext
  case h_1 isStage =>
    cases isNext
    exact staged phased nofun
  case h_2 isStage =>
    cases isNext
    have same := (onlyUpload_notifyWatchers { world.setBatchStage batch .added with
      storage.commits := world.storage.commits ++ batch.commits.filter (· ∉ world.storage.commits)
      storage.unsynced := world.storage.unsynced.filter (· ∉ batch.commits) } .sync).toSameDownload
    refine (staged (phased.of_same same.symm) fun _ commit inBatch => ?_).of_same same
    by_cases isKnown : commit ∈ world.storage.commits
    · exact mem_append_left _ isKnown
    · exact mem_append_right _ (mem_filter.mpr ⟨inBatch, by simpa using isKnown⟩)
  case h_3 isStage | h_4 isStage =>
    cases isNext
    exact staged phased fun _ => backlogged.stored batch isBatch (by rw [isStage]; rfl)
  case h_5 isStage => exact backlogged.onBatchDone isBatch isStage phased told isNext
  case h_6 => cases isNext

theorem Backlogged.onError {status : CloudStatus}
    (isBound : world.download.watcherBinding.isSome) (phased : next.Phased)
    (told : next.ToldBacklog) (isNext : world.onError status = some next) : next.Backlogged := by
  obtain ⟨main, inPhase⟩ := backlogged.phased.inPhase
  unfold SyncWorld.onError at isNext
  obtain ⟨-, isNext⟩ := Option.ite_none_right_eq_some.mp isNext
  split at isNext
  · cases isNext
    have isLater := inPhase.phase.later_ne_backlog (.inr (.inl isBound))
    have unbound : (world.setWatcherBinding none).ToldBacklog := backlogged.told
    refine backlogged.keep phased told (log_setCommitState unbound (.inl isLater)) ?_ ?_ ?_ ?_
    all_goals dsimp only [sendDownload]; rw [download_setCommitState]
    · nofun
    · intro call inCalls isStarting
      rcases mem_append.mp inCalls with inCalls | isNew
      · exact ⟨call, inCalls, isStarting⟩
      · rw [mem_singleton.mp isNew] at isStarting
        cases isStarting
    · nofun
    · rw [(setsCommitState _ _).storage]
      exact backlogged.stored
  · cases isNext
    exact backlogged.failed phased rfl backlogged.told rfl
      (starting_of_subset (List.Subset.refl _)) rfl (.inl rfl)

theorem Backlogged.onNewRemoteCommits {position : PositionToken}
    (isBound : world.download.watcherBinding = some position)
    (phased : next.Phased) (told : next.ToldBacklog)
    (isNext : (world.setWatcherBinding (some upTo)).onNewRemoteCommits commits upTo = some next) :
    next.Backlogged := by
  obtain ⟨main, inPhase⟩ := backlogged.phased.inPhase
  have isLater := inPhase.phase.later_ne_backlog (.inr (.inl (by rw [isBound]; rfl)))
  unfold SyncWorld.onNewRemoteCommits at isNext
  split at isNext
  · cases isNext
    exact backlogged.keep phased told rfl (fun isStopped => isStopped)
      (starting_of_subset (List.Subset.refl _)) backlogged.adding backlogged.stored
  · obtain ⟨-, rfl⟩ := downloadBatch_eq_some.mp isNext
    have bound : (world.setWatcherBinding (some upTo)).ToldBacklog := backlogged.told
    refine backlogged.keep phased told (log_setCommitState bound (.inl isLater)) ?_ ?_ ?_ ?_
    · rw [download_setCommitState]
      nofun
    · rw [download_setCommitState]
      exact starting_of_subset (List.Subset.refl _)
    · rw [download_setCommitState]
      nofun
    · intro batch isBatch isStored
      cases isBatch
      cases isStored

theorem Backlogged.onDownloadRetry {callable : DownloadRetry}
    (inCalls : .retry callable ∈ world.download.calls) (phased : next.Phased)
    (told : next.ToldBacklog)
    (isNext : (world.takeDownload (.retry callable)).onDownloadRetry callable = some next) :
    next.Backlogged := by
  obtain ⟨main, inPhase⟩ := backlogged.phased.inPhase
  have taken : (world.takeDownload (.retry callable)).ToldBacklog := backlogged.told
  cases callable with
  | startDownload =>
    cases isNext
    obtain rfl := inPhase.eq_some inCalls rfl
    obtain ⟨isRetrying, isNone⟩ := inPhase.phase.retrying_temporaryError
    have isLater : world.download.commitState ≠ .backlog := by
      rw [isRetrying]
      decide
    refine backlogged.keep phased told (log_startDownload taken isLater) ?_ ?_ ?_ ?_
    all_goals rw [download_startDownload]
    · nofun
    · exact starting_replace inCalls fun _ => rfl
    · intro batch isBatch
      exact nomatch isNone.symm.trans isBatch
    · intro batch isBatch
      exact nomatch isNone.symm.trans isBatch
  | setRemoteWatcher =>
    obtain rfl := inPhase.eq_some inCalls rfl
    have isLater := inPhase.phase.later_ne_backlog (.inr (.inr (.inr (.inl rfl))))
    have isSet : (world.takeDownload (.retry .setRemoteWatcher)).setRemoteWatcher = some next :=
      isNext
    have download := download_setRemoteWatcher isSet
    have log := log_setRemoteWatcher isSet taken isLater
    refine backlogged.keep phased told log ?_ ?_ ?_ ?_
    all_goals rw [download]
    · nofun
    · exact starting_take (by simp [DownloadCall.isStarting])
    · nofun
    · obtain ⟨-, rfl⟩ := setRemoteWatcher_eq_some.mp isSet
      dsimp only [sendDownload]
      rw [(setsCommitState _ _).storage]
      exact backlogged.stored
  | getObject =>
    cases isNext
    exact backlogged.calls phased (starting_take (by simp [DownloadCall.isStarting]))

theorem Backlogged.onGetCommitsError (gets : ¬world.sync.onBacklogDownloaded)
    (inCalls : .getCommits positionToken ∈ world.download.calls)
    (phased : (world.takeDownload (.getCommits positionToken)).onGetCommitsError.Phased)
    (told : (world.takeDownload (.getCommits positionToken)).onGetCommitsError.ToldBacklog) :
    (world.takeDownload (.getCommits positionToken)).onGetCommitsError.Backlogged := by
  obtain ⟨main, inPhase⟩ := backlogged.phased.inPhase
  obtain rfl := inPhase.eq_some inCalls rfl
  obtain ⟨inBacklog, isNone⟩ := inPhase.phase.listing_backlog
  have taken : (world.takeDownload (.getCommits positionToken)).ToldBacklog := backlogged.told
  have log : (world.takeDownload (.getCommits positionToken)).onGetCommitsError.log = world.log ++
        if world.sync.onBacklogDownloaded then [.backlogDownloaded world.storage.commits] else [] :=
    log_leaveBacklog taken inBacklog (by decide)
  rw [if_neg gets, append_nil] at log
  refine backlogged.keep phased told log ?_ ?_ ?_ ?_
  all_goals rw [download_onGetCommitsError]
  · nofun
  · exact starting_replace inCalls fun _ => rfl
  · nofun
  · intro batch isBatch
    exact nomatch isNone.symm.trans isBatch

theorem Backlogged.stepDownload (gets : world.GetsBacklog (.download action))
    (isStep : world.stepDownload action = some next) : next.Backlogged := by
  have phased := backlogged.phased.stepDownload isStep
  have told := backlogged.told.stepDownload isStep
  have stillStarting (call : DownloadCall) :=
    starting_of_subset (erase_subset : world.download.calls.erase call ⊆ _)
  cases downloadStep_of_eq_some isStep with
  | getObject =>
    refine backlogged.calls phased fun call inCalls isStarting => ?_
    rcases mem_append.mp inCalls with inCalls | isNew
    · exact ⟨call, inCalls, isStarting⟩
    · rw [mem_singleton.mp isNew] at isStarting
      cases isStarting
  | @readSyncMetadata use inCalls =>
    refine backlogged.calls phased (starting_replace inCalls fun isStarting => ?_)
    cases use with
    | startDownload => rfl
    | setRemoteWatcher => exact isStarting
  | startsDownload inCalls => exact backlogged.calls phased (starting_replace inCalls fun _ => rfl)
  | setsRemoteWatcher inCalls => exact backlogged.onWatcherMetadata inCalls phased
  | failSyncMetadata | failSetWatcher =>
    exact backlogged.failed phased rfl backlogged.told rfl (stillStarting _) rfl (.inl rfl)
  | answerGetCommits _ inCalls isNext => exact backlogged.onGetCommits inCalls phased told isNext
  | failGetCommits inCalls => exact backlogged.onGetCommitsError (gets rfl) inCalls phased told
  | answerSetWatcher | retryFailed => exact backlogged.calls phased (stillStarting _)
  | @answerGetObject stage =>
    cases stage with
    | objectName | content | dataSource =>
      exact backlogged.calls phased (starting_take (by simp [DownloadCall.isStarting]))
    | decryptObject => exact backlogged.calls phased (stillStarting _)
  | @failGetObject _ isPermanent =>
    cases isPermanent with
    | true => exact backlogged.calls phased (stillStarting _)
    | false => exact backlogged.calls phased (starting_take (by simp [DownloadCall.isStarting]))
  | retry inCalls _ isNext => exact backlogged.onDownloadRetry inCalls phased told isNext
  | onNewCommits isBound _ isNext => exact backlogged.onNewRemoteCommits isBound phased told isNext
  | onError isBound isNext => exact backlogged.onError isBound phased told isNext
  | advanceBatch isBatch isNext => exact backlogged.advanceBatch isBatch phased told isNext
  | failBatch =>
    refine backlogged.failed phased rfl backlogged.told rfl
      (starting_of_subset (List.Subset.refl _)) rfl (.inr ?_)
    intro running isRunning
    cases isRunning
    rfl

end

theorem backlogged_new (storage : SyncStorage) (cloud : List CommitId) :
    (new storage cloud).Backlogged where
  phased := phased_new storage cloud
  told := by simp [ToldBacklog, new]
  stopped := fun _ => rfl
  starting := fun call inCalls => nomatch inCalls
  adding := fun batch isBatch => nomatch isBatch
  stored := fun batch isBatch => nomatch isBatch
  once := backlogOnce_of_none rfl

theorem Backlogged.step {parents : CommitId → List CommitId} (backlogged : world.Backlogged)
    {action : SyncAction} (gets : world.GetsBacklog action)
    (isStep : world.step parents action = some next) : next.Backlogged := by
  obtain ⟨changed, change, same⟩ := downloadChange_of_step isStep
  refine Backlogged.of_same ?_ same
  have phased := (backlogged.phased.step isStep).of_same same.symm
  cases change with
  | start isNew =>
    have isStopped : world.download.commitState = .stopped :=
      not_not.mp fun isRunning => isNew (backlogged.phased.started.mpr isRunning)
    have isNone : world.download.batchDownload = none := by
      obtain ⟨main, inPhase⟩ := backlogged.phased.inPhase
      have phase := inPhase.phase
      rw [isStopped] at phase
      exact phase.start.2.1
    have told : ToldBacklog { world with sync.started := true } :=
      backlogged.told
    have log : (startDownload
        { world with sync.started := true }).log = [] :=
      (log_startDownload told (by rw [isStopped]; decide)).trans (backlogged.stopped isStopped)
    refine ⟨phased, toldInvariant_toldBacklog.busy.startDownload told, fun _ => log, fun _ _ _ => log,
      ?_, ?_, ?_⟩
    · rw [download_startDownload]
      exact fun batch isBatch => nomatch isNone.symm.trans isBatch
    · rw [download_startDownload]
      exact fun batch isBatch => nomatch isNone.symm.trans isBatch
    · rw [log]
      exact backlogOnce_of_none rfl
  | addCommitFromLocal =>
    exact { backlogged with
      phased
      stored := fun batch isBatch isStored other inBatch =>
        mem_append_left _ (backlogged.stored batch isBatch isStored other inBatch) }
  | download isStep => exact backlogged.stepDownload gets isStep
  | restart => exact backlogged_new world.storage world.cloud
  | _ => exact { backlogged with phased }

/-- If `GetCommits` does not fail, the client is told at most once that the backlog is downloaded,
and then it is. -/
theorem backlogOnce_run (parents : CommitId → List CommitId) (storage : SyncStorage)
    (cloud : List CommitId) {actions : List SyncAction} {final : SyncWorld}
    (gets : EachStep (step parents) GetsBacklog (new storage cloud) actions)
    (isRun : runSteps (step parents) (new storage cloud) actions = some final) :
    BacklogOnce final.log :=
  (invariant_runSteps Backlogged (fun backlogged gets isStep => backlogged.step gets isStep)
    (backlogged_new storage cloud) gets isRun).once

def backlogRun : List SyncAction :=
  [.setOnBacklogDownloaded, .start, .download (.readSyncMetadata .startDownload),
    .download (.answerSyncMetadata .startDownload 0), .download (.answerGetCommits 0 1)] ++
    downloadedBatch

theorem backlogOnce_run_batch :
    ∃ final, runSteps (step sampleParents) (new (unsyncedStorage [[0]]) [[1]]) backlogRun =
        some final ∧
      final.log = [.gotCommits [[1]], .backlogDownloaded [[0], [1]]] ∧ BacklogOnce final.log := by
  refine ⟨_, rfl, rfl, ?_⟩
  exact @backlogOnce_run sampleParents (unsyncedStorage [[0]]) [[1]] backlogRun _
    (by decide +kernel) rfl

/-- `GetCommits` fails twice: the client is told both times, though nothing is downloaded. -/
theorem backlog_told_twice :
    ∃ actions final, runSteps (step sampleParents) (new (unsyncedStorage [[0]]) [[1]]) actions =
        some final ∧
      final.log = [.backlogDownloaded [[0]], .backlogDownloaded [[0]]] ∧ ¬BacklogOnce final.log := by
  refine ⟨[.setOnBacklogDownloaded, .start, .download (.readSyncMetadata .startDownload),
    .download (.answerSyncMetadata .startDownload 0), .download (.failGetCommits 0),
    .download (.retry .startDownload), .download (.readSyncMetadata .startDownload),
    .download (.answerSyncMetadata .startDownload 0), .download (.failGetCommits 0)], _, rfl, rfl,
    fun once => absurd once.once (by decide)⟩

end SyncWorld

end Peridot
