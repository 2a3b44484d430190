import Peridot.PageSyncPhase
import Peridot.PageSyncPosition

/-!
# When a page download is idle

`PageDownload` tells its delegate the merge of the commit state and of the number of `GetObject`
calls, and is not idle while a batch is being downloaded, as long as objects come and go only
during other downloads and the watcher is not set during a batch.
-/

namespace Peridot

namespace SyncWorld

variable {world next : SyncWorld} {action : PageDownloadAction} {batch : BatchDownload}

def mergedState (world : SyncWorld) : DownloadSyncState :=
  getMergedState world.download.commitState world.download.currentGetObjectCalls

def ToldState (world : SyncWorld) : Prop :=
  world.sync.downloadState = world.mergedState

def BusyBatch (world : SyncWorld) : Prop :=
  ∀ batch ∈ world.download.batchDownload, batch.stage ≠ .failed →
    world.download.commitState ≠ .idle

theorem toldInvariant_toldState : ToldInvariant ToldState where
  setCommitState := by
    intro world newState told
    rcases setCommitState_cases world newState with ⟨isSet, same⟩ | ⟨-, isTold⟩
    · rw [isSet]
      exact told.trans same
    · rw [ToldState, mergedState, download_setCommitState, isTold]
      exact (tellsDownload_setDownloadState _ _).downloadState
  download := by
    intro world download storage log sameState sameCalls told
    rw [ToldState, mergedState, sameState, sameCalls]
    exact told
  of_same := by
    intro before after same told
    rw [ToldState, mergedState, same.downloadState, same.download]
    exact told

/-- A `GetObject` call starts or ends only when that does not change the merged state. -/
def KeepsMergedState (world : SyncWorld) (action : SyncAction) : Prop :=
  getMergedState world.download.commitState (world.getObjectCallsAfter action) = world.mergedState

theorem ToldState.stepDownload (told : world.ToldState)
    (keeps : world.KeepsMergedState (.download action))
    (isStep : world.stepDownload action = some next) : next.ToldState :=
  toldInvariant_toldState.stepDownload told (fun _ => told.trans keeps.symm) isStep

/-- The answer on which `SetRemoteWatcher` binds the watcher. -/
def setsWatcher : SyncAction → Bool
  | .download (.answerSyncMetadata .setRemoteWatcher _) => true
  | _ => false

def SetsWatcherAlone (world : SyncWorld) (action : SyncAction) : Prop :=
  setsWatcher action → ∀ batch ∈ world.download.batchDownload, batch.stage = .failed

theorem busyBatch_of_none (isNone : next.download.batchDownload = none) : next.BusyBatch := by
  intro batch isBatch
  exact nomatch isNone.symm.trans isBatch

theorem busyBatch_of_ne (isSet : next.download.commitState ≠ .idle) : next.BusyBatch :=
  fun _ _ _ => isSet

/-- A batch starts that no other one precedes: that of the backlog, or that of the watcher. -/
theorem BusyBatch.onBatchDone (busy : world.BusyBatch)
    (isBatch : world.download.batchDownload = some batch) (isRunning : batch.stage ≠ .failed)
    {isBacklog : Bool} (isNext : world.onBatchDone isBacklog = some next) : next.BusyBatch := by
  obtain ⟨middle, isMiddle, isLast⟩ := onBatchDone_cases isNext
  have isSet : middle.download.commitState ≠ .idle := by
    rcases isMiddle with ⟨-, isMiddle⟩ | ⟨-, isWorld⟩
    · rw [download_setRemoteWatcher isMiddle]
      nofun
    · rw [isWorld]
      exact busy batch isBatch isRunning
  rcases isLast with ⟨-, -, rfl⟩ | ⟨-, -, rfl⟩ | ⟨-, rfl⟩
  · refine busyBatch_of_none ?_
    rw [download_setCommitState]
    rfl
  · exact busyBatch_of_none rfl
  · exact busyBatch_of_ne isSet

theorem BusyBatch.advanceBatch (busy : world.BusyBatch)
    (isBatch : world.download.batchDownload = some batch)
    (isNext : world.advanceBatch batch = some next) : next.BusyBatch := by
  unfold SyncWorld.advanceBatch at isNext
  split at isNext
  case h_1 isStage | h_3 isStage | h_4 isStage =>
    cases isNext
    exact busyBatch_of_ne (busy batch isBatch (by rw [isStage]; decide))
  case h_2 isStage =>
    cases isNext
    refine busyBatch_of_ne ?_
    rw [addCommitsFromSync, (onlyUpload_notifyWatchers _ .sync).download]
    exact busy batch isBatch (by rw [isStage]; decide)
  case h_5 isStage => exact busy.onBatchDone isBatch (by rw [isStage]; decide) isNext
  case h_6 => cases isNext

theorem BusyBatch.stepDownload (busy : world.BusyBatch) (phased : world.Phased)
    (alone : world.SetsWatcherAlone (.download action))
    (isStep : world.stepDownload action = some next) : next.BusyBatch := by
  obtain ⟨main, inPhase⟩ := phased.inPhase
  cases downloadStep_of_eq_some isStep with
  | getObject | readSyncMetadata | startsDownload | answerSetWatcher | retryFailed => exact busy
  | setsRemoteWatcher =>
    intro batch isBatch isRunning
    rw [download_onWatcherMetadata] at isBatch
    exact absurd (alone rfl batch isBatch) isRunning
  | failSyncMetadata | failSetWatcher | failBatch =>
    refine busyBatch_of_ne ?_
    rw [download_handleDownloadCommitError]
    nofun
  | answerGetCommits _ inCalls isNext =>
    obtain rfl := inPhase.eq_some inCalls rfl
    unfold onGetCommits at isNext
    dsimp only at isNext
    split at isNext
    · refine busyBatch_of_ne ?_
      rw [download_setRemoteWatcher isNext]
      nofun
    · obtain ⟨-, rfl⟩ := downloadBatch_eq_some.mp isNext
      refine busyBatch_of_ne ?_
      change world.download.commitState ≠ .idle
      rw [inPhase.phase.listing_backlog.1]
      decide
  | failGetCommits =>
    refine busyBatch_of_ne ?_
    rw [download_onGetCommitsError]
    nofun
  | @answerGetObject stage => cases stage <;> exact busy
  | @failGetObject _ isPermanent => cases isPermanent <;> exact busy
  | @retry callable _ _ _ isNext =>
    cases callable with
    | startDownload =>
      cases isNext
      refine busyBatch_of_ne ?_
      rw [download_startDownload]
      nofun
    | setRemoteWatcher =>
      refine busyBatch_of_ne ?_
      rw [download_setRemoteWatcher isNext]
      nofun
    | getObject =>
      cases isNext
      exact busy
  | onNewCommits _ _ isNext =>
    unfold onNewRemoteCommits at isNext
    split at isNext
    · cases isNext
      exact busy
    · obtain ⟨-, rfl⟩ := downloadBatch_eq_some.mp isNext
      refine busyBatch_of_ne ?_
      rw [download_setCommitState]
      nofun
  | onError _ isNext =>
    unfold SyncWorld.onError at isNext
    obtain ⟨-, isNext⟩ := Option.ite_none_right_eq_some.mp isNext
    refine busyBatch_of_ne ?_
    split at isNext
    · cases isNext
      dsimp only [sendDownload]
      rw [download_setCommitState]
      nofun
    · cases isNext
      rw [download_handleDownloadCommitError]
      nofun
  | advanceBatch isBatch isNext => exact busy.advanceBatch isBatch isNext

/-- The download is not idle while a batch is being downloaded, unless it has failed, and its
delegate was last told the merged state. -/
structure ReportsDownload (world : SyncWorld) : Prop where
  busy : ∀ batch ∈ world.download.batchDownload, batch.stage ≠ .failed →
    world.download.isIdle = false ∨ world.download.commitState = .permanentError
  told : world.ToldState

structure Reporting (world : SyncWorld) : Prop where
  phased : world.Phased
  told : world.ToldState
  busy : world.BusyBatch

/-- The steps that keep the reports right: no `GetObject` call changes the merged state, and the
watcher is not set while a batch is being downloaded. -/
def KeepsReports (world : SyncWorld) (action : SyncAction) : Prop :=
  world.KeepsMergedState action ∧ world.SetsWatcherAlone action

instance decidableKeepsReports (world : SyncWorld) (action : SyncAction) :
    Decidable (world.KeepsReports action) :=
  inferInstanceAs (Decidable ((_ = _) ∧
    (_ → ∀ batch ∈ world.download.batchDownload, batch.stage = .failed)))

/-- While a batch is being downloaded, only a permanent error can make the download idle. -/
theorem Reporting.reports (reporting : world.Reporting) : world.ReportsDownload where
  told := reporting.told
  busy := by
    intro batch isBatch isRunning
    have notIdle := reporting.busy batch isBatch isRunning
    obtain ⟨main, inPhase⟩ := reporting.phased.inPhase
    have notStopped := inPhase.phase.ne_stopped (.inr (.inr (.inr (by rw [isBatch]; rfl))))
    unfold PageDownload.isIdle getMergedState
    rw [if_pos notIdle]
    cases isState : world.download.commitState
    case idle => exact absurd isState notIdle
    case stopped => exact absurd isState notStopped
    case permanentError => exact .inr rfl
    all_goals exact .inl rfl

theorem reporting_new (storage : SyncStorage) (cloud : List CommitId) :
    (new storage cloud).Reporting :=
  ⟨phased_new storage cloud, rfl, nofun⟩

theorem Reporting.step {parents : CommitId → List CommitId} (reporting : world.Reporting)
    {action : SyncAction} (keeps : world.KeepsReports action)
    (isStep : world.step parents action = some next) : next.Reporting := by
  suffices follows : next.ToldState ∧ next.BusyBatch from
    ⟨reporting.phased.step isStep, follows.1, follows.2⟩
  obtain ⟨changed, change, same⟩ := downloadChange_of_step isStep
  suffices follows : changed.ToldState ∧ changed.BusyBatch by
    refine ⟨toldInvariant_toldState.of_same same follows.1, ?_⟩
    rw [BusyBatch, same.download]
    exact follows.2
  cases change with
  | start =>
    refine ⟨toldInvariant_toldState.busy.startDownload reporting.told, busyBatch_of_ne ?_⟩
    rw [download_startDownload]
    nofun
  | download isStep => exact ⟨reporting.told.stepDownload keeps.1 isStep,
      reporting.busy.stepDownload reporting.phased keeps.2 isStep⟩
  | restart =>
    have fresh := reporting_new world.storage world.cloud
    exact ⟨fresh.told, fresh.busy⟩
  | _ => exact ⟨reporting.told, reporting.busy⟩

/-- In a run in which no `GetObject` call changes the merged state and no watcher is set during a
batch, the download reports what it does. -/
theorem reportsDownload_run (parents : CommitId → List CommitId) (storage : SyncStorage)
    (cloud : List CommitId) {actions : List SyncAction} {final : SyncWorld}
    (keeps : EachStep (step parents) KeepsReports (new storage cloud) actions)
    (isRun : runSteps (step parents) (new storage cloud) actions = some final) :
    final.ReportsDownload :=
  (invariant_runSteps Reporting (fun reporting keeps isStep => reporting.step keeps isStep)
    (reporting_new storage cloud) keeps isRun).reports

/-- A commit is delivered, and an object is downloaded while it is being added. -/
def objectInBatch : List SyncAction :=
  emptyBacklog 0 ++
    [.publish [1], .download (.onNewCommits 1), .download .getObject,
      .download (.answerGetObject .objectName), .download (.answerGetObject .content),
      .download (.answerGetObject .dataSource), .download (.answerGetObject .decryptObject)]

theorem reportsDownload_run_object :
    ∃ final, runSteps (step sampleParents) (new (unsyncedStorage [[0]]) []) objectInBatch =
        some final ∧ final.ReportsDownload :=
  ⟨_, rfl, @reportsDownload_run sampleParents (unsyncedStorage [[0]]) [] objectInBatch _
    (by decide +kernel) rfl⟩

/-- The connection fails while a commit is being decrypted, and the watcher is set again: the
download counts as idle.  And an object that is downloaded at another time is never told. -/
theorem batch_not_reported : (∃ actions final batch,
    runSteps (step sampleParents) (new (unsyncedStorage [[0]]) []) actions = some final ∧
      final.download.batchDownload = some batch ∧ batch.stage = .decrypting ∧
      final.download.isIdle = true ∧ final.sync.errorCallbackAlreadyCalled = false ∧
      final.download.commitState = .idle) ∧ ∃ actions final,
      runSteps (step sampleParents) (new (unsyncedStorage [[0]]) []) actions = some final ∧
        final.sync.downloadState = .idle ∧ final.mergedState = .inProgress := by
  constructor
  · exact ⟨emptyBacklog 0 ++
      [.publish [1], .download (.onNewCommits 1), .download (.onError .networkError),
        .download (.retry .setRemoteWatcher), .download (.readSyncMetadata .setRemoteWatcher),
        .download (.answerSyncMetadata .setRemoteWatcher 0)], _, _, rfl, rfl, rfl, rfl, rfl, rfl⟩
  · exact ⟨emptyBacklog 0 ++ [.download .getObject], _, rfl, rfl, rfl⟩

end SyncWorld

end Peridot
