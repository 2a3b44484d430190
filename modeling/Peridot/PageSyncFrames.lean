import Peridot.PageSync

/-!
# What the parts of a page synchronization leave alone

`PageUpload` changes neither the download nor the contents of the storage, and of the download
`SetCommitState` changes only the commit state.
-/

namespace Peridot

open Option

namespace SyncWorld

variable {world next : SyncWorld}

structure SameClient (before after : SyncWorld) : Prop where
  cloud : after.cloud = before.cloud
  started : after.sync.started = before.sync.started
  enableUpload : after.sync.enableUpload = before.sync.enableUpload
  onBacklogDownloaded : after.sync.onBacklogDownloaded = before.sync.onBacklogDownloaded

theorem SameClient.refl (world : SyncWorld) : SameClient world world :=
  ⟨rfl, rfl, rfl, rfl⟩

/-- What the download depends on is the same: all of it, the log, and the stored commits. -/
structure SameDownload (before after : SyncWorld) : Prop extends SameClient before after where
  commits : after.storage.commits = before.storage.commits
  timestamp : after.storage.timestamp = before.storage.timestamp
  syncDelegate : after.storage.syncDelegate = before.storage.syncDelegate
  download : after.download = before.download
  log : after.log = before.log
  downloadState : after.sync.downloadState = before.sync.downloadState

/-- Only the upload, and what `PageSyncImpl` was told about it, may differ. -/
structure OnlyUpload (before after : SyncWorld) : Prop extends SameDownload before after where
  storage : after.storage = before.storage

variable {first second third before after : SyncWorld} {react : SyncWorld → Option SyncWorld}

theorem SameClient.trans (before : SameClient first second) (after : SameClient second third) :
    SameClient first third where
  cloud := after.cloud.trans before.cloud
  started := after.started.trans before.started
  enableUpload := after.enableUpload.trans before.enableUpload
  onBacklogDownloaded := after.onBacklogDownloaded.trans before.onBacklogDownloaded

theorem SameDownload.trans (before : SameDownload first second)
    (after : SameDownload second third) : SameDownload first third where
  toSameClient := before.toSameClient.trans after.toSameClient
  commits := after.commits.trans before.commits
  timestamp := after.timestamp.trans before.timestamp
  syncDelegate := after.syncDelegate.trans before.syncDelegate
  download := after.download.trans before.download
  log := after.log.trans before.log
  downloadState := after.downloadState.trans before.downloadState

theorem SameDownload.symm (same : SameDownload before after) : SameDownload after before :=
  ⟨⟨same.cloud.symm, same.started.symm, same.enableUpload.symm, same.onBacklogDownloaded.symm⟩,
    same.commits.symm, same.timestamp.symm, same.syncDelegate.symm, same.download.symm,
    same.log.symm, same.downloadState.symm⟩

theorem OnlyUpload.refl (world : SyncWorld) : OnlyUpload world world :=
  ⟨⟨.refl world, rfl, rfl, rfl, rfl, rfl, rfl⟩, rfl⟩

theorem OnlyUpload.trans (before : OnlyUpload first second) (after : OnlyUpload second third) :
    OnlyUpload first third :=
  ⟨before.toSameDownload.trans after.toSameDownload, after.storage.trans before.storage⟩

section

variable (world : SyncWorld)

/-- The members of `PageUpload` may be set at will. -/
theorem onlyUpload_upload (upload : PageUpload) :
    OnlyUpload world { world with upload } :=
  ⟨⟨⟨rfl, rfl, rfl, rfl⟩, rfl, rfl, rfl, rfl, rfl, rfl⟩, rfl⟩

theorem onlyUpload_setUploadState (nextUploadState : UploadSyncState) :
    OnlyUpload world (world.setUploadState nextUploadState) := by
  unfold setUploadState handleSyncError
  split <;> exact ⟨⟨⟨rfl, rfl, rfl, rfl⟩, rfl, rfl, rfl, rfl, rfl, rfl⟩, rfl⟩

theorem onlyUpload_setState (newState : UploadSyncState) :
    OnlyUpload world (world.setState newState) := by
  unfold setState
  split
  · exact .refl world
  · exact (onlyUpload_upload world _).trans (onlyUpload_setUploadState _ newState)

theorem onlyUpload_uploadUnsyncedCommits : OnlyUpload world world.uploadUnsyncedCommits := by
  unfold uploadUnsyncedCommits
  split
  · exact onlyUpload_setState world .idle
  split
  · exact .refl world
  · exact onlyUpload_upload world _

theorem onlyUpload_startUpload : OnlyUpload world world.startUpload := by
  unfold startUpload
  split
  · exact ((onlyUpload_upload world _).trans (onlyUpload_setState _ .setup)).trans
      (onlyUpload_uploadUnsyncedCommits _)
  · exact onlyUpload_uploadUnsyncedCommits world

theorem onlyUpload_onNewLocalCommits (source : ChangeSource) :
    OnlyUpload world (world.onNewLocalCommits source) := by
  unfold onNewLocalCommits
  split
  · exact .refl world
  have flag := onlyUpload_upload world { world.upload with commitsToUpload := true }
  simp only []
  split
  · exact flag.trans (onlyUpload_setState _ _)
  split
  · exact flag
  · exact (flag.trans (onlyUpload_setState _ _)).trans (onlyUpload_uploadUnsyncedCommits _)

theorem onlyUpload_notifyWatchers (source : ChangeSource) :
    OnlyUpload world (world.notifyWatchers source) := by
  unfold notifyWatchers
  generalize world.storage.commitWatchers = count
  induction count generalizing world with
  | zero => exact .refl world
  | succ count ih => exact (onlyUpload_onNewLocalCommits world source).trans (ih _)

end

theorem onlyUpload_onHeadCommitIds {commits : UnsyncedList} {heads : List CommitId}
    (isNext : world.onHeadCommitIds commits heads = some next) : OnlyUpload world next := by
  unfold onHeadCommitIds handleUnsyncedCommits at isNext
  split at isNext
  · cases isNext
    exact .refl world
  split at isNext
  · cases isNext
  split at isNext
  · cases isNext
    exact onlyUpload_setState world _
  split at isNext
  · cases isNext
    exact (onlyUpload_upload world _).trans (onlyUpload_setState _ _)
  split at isNext
  · cases isNext
  · cases isNext
    exact (onlyUpload_setState world _).trans (onlyUpload_upload _ _)

theorem onlyUpload_onUploadDone (world : SyncWorld) : OnlyUpload world world.onUploadDone :=
  (onlyUpload_upload world _).trans (onlyUpload_uploadUnsyncedCommits _)

theorem onlyUpload_onUploadError (world : SyncWorld) (errorType : ErrorType) :
    OnlyUpload world (world.onUploadError errorType) := by
  cases errorType with
  | temporary => exact (onlyUpload_setState world .temporaryError).trans (onlyUpload_upload _ _)
  | permanent => exact (onlyUpload_setState world .permanentError).trans (onlyUpload_upload _ _)

theorem answerDownload_eq_some {call : DownloadCall} : world.answerDownload call react = some next ↔
      call ∈ world.download.calls ∧ react (world.takeDownload call) = some next := by
  rw [answerDownload, ite_none_right_eq_some]

theorem answerUpload_eq_some {call : UploadCall} : world.answerUpload call react = some next ↔
      call ∈ world.upload.calls ∧ react (world.takeUpload call) = some next := by
  rw [answerUpload, ite_none_right_eq_some]

/-- What a step of the download makes of the world. -/
inductive DownloadStep (world : SyncWorld) : PageDownloadAction → SyncWorld → Prop where
  | getObject : DownloadStep world .getObject world.getObject
  | readSyncMetadata {use : SyncMetadataUse}
      (inCalls : .getSyncMetadata use none ∈ world.download.calls) :
      DownloadStep world (.readSyncMetadata use)
        ((world.takeDownload (.getSyncMetadata use none)).sendDownload
          (.getSyncMetadata use (some world.storage.timestamp)))
  | startsDownload {lastCommitTs : PositionToken}
      (inCalls : .getSyncMetadata .startDownload (some lastCommitTs) ∈ world.download.calls) :
      DownloadStep world (.answerSyncMetadata .startDownload lastCommitTs)
        ((world.takeDownload (.getSyncMetadata .startDownload (some lastCommitTs))).sendDownload
          (.getCommits lastCommitTs))
  | setsRemoteWatcher {lastCommitTs : PositionToken}
      (inCalls : .getSyncMetadata .setRemoteWatcher (some lastCommitTs) ∈ world.download.calls) :
      DownloadStep world (.answerSyncMetadata .setRemoteWatcher lastCommitTs)
        ((world.takeDownload (.getSyncMetadata .setRemoteWatcher (some lastCommitTs))).onWatcherMetadata
          lastCommitTs)
  | failSyncMetadata {use : SyncMetadataUse} {lastCommitTs : Option PositionToken}
      (inCalls : .getSyncMetadata use lastCommitTs ∈ world.download.calls) :
      DownloadStep world (.failSyncMetadata use lastCommitTs)
        (world.takeDownload (.getSyncMetadata use lastCommitTs)).handleDownloadCommitError
  | answerGetCommits {positionToken upTo : PositionToken} {next : SyncWorld}
      (inLog : upTo ≤ world.cloud.length) (inCalls : .getCommits positionToken ∈ world.download.calls)
      (isNext : (world.takeDownload (.getCommits positionToken)).onGetCommits
        ((world.takeDownload (.getCommits positionToken)).commitsBetween positionToken upTo) upTo =
          some next) :
      DownloadStep world (.answerGetCommits positionToken upTo) next
  | failGetCommits {positionToken : PositionToken}
      (inCalls : .getCommits positionToken ∈ world.download.calls) :
      DownloadStep world (.failGetCommits positionToken)
        (world.takeDownload (.getCommits positionToken)).onGetCommitsError
  | answerSetWatcher (inCalls : .setWatcher ∈ world.download.calls) :
      DownloadStep world .answerSetWatcher (world.takeDownload .setWatcher)
  | failSetWatcher (inCalls : .setWatcher ∈ world.download.calls) :
      DownloadStep world .failSetWatcher (world.takeDownload .setWatcher).handleDownloadCommitError
  | answerGetObject {stage : GetObjectStage} (inCalls : .getObject stage ∈ world.download.calls) :
      DownloadStep world (.answerGetObject stage)
        ((world.takeDownload (.getObject stage)).onGetObject stage)
  | failGetObject {stage : GetObjectStage} {isPermanent : Bool}
      (inCalls : .getObject stage ∈ world.download.calls) :
      DownloadStep world (.failGetObject stage isPermanent)
        ((world.takeDownload (.getObject stage)).handleGetObjectError isPermanent)
  | retry {callable : DownloadRetry} {next : SyncWorld}
      (inCalls : .retry callable ∈ world.download.calls)
      (notFailed : world.download.commitState ≠ .permanentError)
      (isNext : (world.takeDownload (.retry callable)).onDownloadRetry callable = some next) :
      DownloadStep world (.retry callable) next
  | retryFailed {callable : DownloadRetry} (inCalls : .retry callable ∈ world.download.calls)
      (isFailed : world.download.commitState = .permanentError) :
      DownloadStep world (.retry callable) (world.takeDownload (.retry callable))
  | onNewCommits {position upTo : PositionToken} {next : SyncWorld}
      (isBound : world.download.watcherBinding = some position) (inLog : upTo ≤ world.cloud.length)
      (isNext : (world.setWatcherBinding (some upTo)).onNewRemoteCommits
        (world.commitsBetween position upTo) upTo = some next) :
      DownloadStep world (.onNewCommits upTo) next
  | onError {status : CloudStatus} {next : SyncWorld}
      (isBound : world.download.watcherBinding.isSome) (isNext : world.onError status = some next) :
      DownloadStep world (.onError status) next
  | advanceBatch {batch : BatchDownload} {next : SyncWorld}
      (isBatch : world.download.batchDownload = some batch)
      (isNext : world.advanceBatch batch = some next) : DownloadStep world .advanceBatch next
  | failBatch {batch : BatchDownload} (isBatch : world.download.batchDownload = some batch)
      (isRunning : batch.stage ≠ .failed) :
      DownloadStep world .failBatch (world.setBatchStage batch .failed).handleDownloadCommitError

theorem downloadStep_of_eq_some {action : PageDownloadAction}
    (isStep : world.stepDownload action = some next) : DownloadStep world action next := by
  cases action <;> dsimp only [stepDownload] at isStep
  case getObject =>
    obtain ⟨-, isNext⟩ := ite_none_right_eq_some.mp isStep
    cases isNext
    exact .getObject
  case answerSyncMetadata use lastCommitTs =>
    obtain ⟨inCalls, isNext⟩ := answerDownload_eq_some.mp isStep
    cases use <;> cases isNext
    · exact .startsDownload inCalls
    · exact .setsRemoteWatcher inCalls
  case answerGetCommits positionToken upTo =>
    obtain ⟨⟨-, inLog⟩, isStep⟩ := ite_none_right_eq_some.mp isStep
    obtain ⟨inCalls, isNext⟩ := answerDownload_eq_some.mp isStep
    exact .answerGetCommits inLog inCalls isNext
  case failGetObject stage isPermanent =>
    obtain ⟨-, isStep⟩ := ite_none_left_eq_some.mp isStep
    obtain ⟨inCalls, isNext⟩ := answerDownload_eq_some.mp isStep
    cases isNext
    exact .failGetObject inCalls
  case retry callable =>
    obtain ⟨inCalls, isNext⟩ := answerDownload_eq_some.mp isStep
    split at isNext
    case isTrue notFailed => exact .retry inCalls notFailed isNext
    case isFalse isFailed =>
      cases isNext
      exact .retryFailed inCalls (not_not.mp isFailed)
  case onNewCommits upTo =>
    split at isStep
    case h_1 => cases isStep
    case h_2 position isBound =>
      obtain ⟨⟨-, inLog⟩, isNext⟩ := ite_none_right_eq_some.mp isStep
      exact .onNewCommits isBound inLog isNext
  case onError status =>
    obtain ⟨isBound, isNext⟩ := ite_none_right_eq_some.mp isStep
    exact .onError isBound isNext
  case advanceBatch =>
    obtain ⟨batch, isBatch, isNext⟩ := bind_eq_some_iff.mp isStep
    exact .advanceBatch isBatch isNext
  case failBatch =>
    obtain ⟨batch, isBatch, isNext⟩ := bind_eq_some_iff.mp isStep
    obtain ⟨isRunning, isNext⟩ := ite_none_left_eq_some.mp isNext
    cases isNext
    exact .failBatch isBatch isRunning
  -- The other steps answer a call, and always go on.
  all_goals
    obtain ⟨inCalls, isNext⟩ := answerDownload_eq_some.mp isStep
    cases isNext
  case readSyncMetadata => exact .readSyncMetadata inCalls
  case failSyncMetadata => exact .failSyncMetadata inCalls
  case failGetCommits => exact .failGetCommits inCalls
  case answerSetWatcher => exact .answerSetWatcher inCalls
  case failSetWatcher => exact .failSetWatcher inCalls
  case answerGetObject => exact .answerGetObject inCalls

variable {parents : CommitId → List CommitId}

section

variable (world : SyncWorld)

theorem sameDownload_storage (unsynced : List CommitId) (commitWatchers : Nat) :
    SameDownload world { world with storage := { world.storage with
      unsynced
      commitWatchers } } :=
  ⟨⟨rfl, rfl, rfl, rfl⟩, rfl, rfl, rfl, rfl, rfl, rfl⟩

theorem sameDownload_handleUploadError : SameDownload world world.handleUploadError := by
  unfold handleUploadError
  simp only []
  split
  · exact (sameDownload_storage world _ _).trans (onlyUpload_setState _ _).toSameDownload
  · exact (onlyUpload_setState world _).toSameDownload

variable (commits : UnsyncedList)

theorem onlyUpload_verifyUnsyncedCommits :
    OnlyUpload world (world.verifyUnsyncedCommits commits) := by
  unfold verifyUnsyncedCommits
  split
  · exact (onlyUpload_setState world .idle).trans (onlyUpload_upload _ _)
  · exact onlyUpload_upload world _

theorem sameDownload_onUnsyncedCommits : SameDownload world (world.onUnsyncedCommits commits) := by
  unfold onUnsyncedCommits
  simp only []
  split
  · exact (sameDownload_storage world _ _).trans
      (onlyUpload_verifyUnsyncedCommits _ commits).toSameDownload
  · exact (onlyUpload_verifyUnsyncedCommits world commits).toSameDownload

end

theorem sameDownload_stepUpload {action : PageUploadAction}
    (isStep : world.stepUpload parents action = some next) : SameDownload world next := by
  have taken (call : UploadCall) : SameDownload world (world.takeUpload call) :=
    (onlyUpload_upload world _).toSameDownload
  cases action <;> dsimp only [stepUpload] at isStep
  case readUnsyncedCommits | readHeadCommitIds =>
      obtain ⟨-, isNext⟩ := answerUpload_eq_some.mp isStep
      cases isNext
      exact (taken _).trans (onlyUpload_upload _ _).toSameDownload
  case answerUnsyncedCommits commits =>
      obtain ⟨-, isNext⟩ := answerUpload_eq_some.mp isStep
      cases isNext
      exact (taken _).trans (sameDownload_onUnsyncedCommits _ commits)
  case failUnsyncedCommits commits =>
      obtain ⟨-, isNext⟩ := answerUpload_eq_some.mp isStep
      cases isNext
      exact ((taken _).trans (onlyUpload_setState _ _).toSameDownload).trans
        (sameDownload_handleUploadError _)
  case answerHeadCommitIds commits heads =>
      obtain ⟨-, isNext⟩ := answerUpload_eq_some.mp isStep
      exact (taken _).trans (onlyUpload_onHeadCommitIds isNext).toSameDownload
  case failHeadCommitIds commits heads =>
      obtain ⟨-, isNext⟩ := answerUpload_eq_some.mp isStep
      cases isNext
      exact (taken _).trans (sameDownload_handleUploadError _)
  case retry =>
      obtain ⟨-, isNext⟩ := answerUpload_eq_some.mp isStep
      cases isNext
      refine (taken .retry).trans ?_
      split
      · exact (onlyUpload_uploadUnsyncedCommits _).toSameDownload
      · exact (OnlyUpload.refl _).toSameDownload
  case markCommitSynced commit =>
      obtain ⟨-, rfl⟩ := ite_none_right_eq_some.mp isStep |>.imp_right some.inj
      exact sameDownload_storage world _ _
  case uploadDone =>
      obtain ⟨-, isNext⟩ := ite_none_right_eq_some.mp isStep
      cases isNext
      exact (onlyUpload_onUploadDone world).toSameDownload
  case uploadError errorType =>
      obtain ⟨-, isNext⟩ := ite_none_right_eq_some.mp isStep
      cases isNext
      exact (onlyUpload_onUploadError world errorType).toSameDownload

/-- What a step makes of the download, and of what it depends on. -/
inductive DownloadChange (world : SyncWorld) : SyncAction → SyncWorld → Prop where
  | setOnBacklogDownloaded : DownloadChange world .setOnBacklogDownloaded
      { world with sync.onBacklogDownloaded := true }
  | start (isNew : ¬world.sync.started) : DownloadChange world .start
      (startDownload { world with sync.started := true })
  | enableUpload : DownloadChange world .enableUpload
      { world with sync.enableUpload := true }
  | publish {commit : CommitId} :
      DownloadChange world (.publish commit) { world with cloud := world.cloud ++ [commit] }
  | addCommitFromLocal {commit : CommitId} : DownloadChange world (.addCommitFromLocal commit)
      { world with storage := { world.storage with
        commits := world.storage.commits ++ [commit]
        unsynced := world.storage.unsynced ++ [commit] } }
  | download {action : PageDownloadAction} {next : SyncWorld}
      (isStep : world.stepDownload action = some next) :
      DownloadChange world (.download action) next
  | upload {action : PageUploadAction} : DownloadChange world (.upload action) world
  | restart : DownloadChange world .restart (new world.storage world.cloud)

/-- What a step does besides, it does to the upload. -/
theorem downloadChange_of_step {action : SyncAction}
    (isStep : world.step parents action = some next) :
    ∃ changed, DownloadChange world action changed ∧ SameDownload changed next := by
  cases action <;> dsimp only [step] at isStep
  case setOnBacklogDownloaded =>
    obtain ⟨-, isNext⟩ := ite_none_left_eq_some.mp isStep
    cases isNext
    exact ⟨_, .setOnBacklogDownloaded, sameDownload_storage _ _ _⟩
  case start =>
    obtain ⟨isNew, isNext⟩ := ite_none_left_eq_some.mp isStep
    cases isNext
    refine ⟨_, .start isNew, ?_⟩
    split
    · exact (onlyUpload_startUpload _).toSameDownload
    · exact sameDownload_storage _ _ _
  case enableUpload =>
    cases isStep
    refine ⟨_, .enableUpload, ?_⟩
    split
    · exact (onlyUpload_startUpload _).toSameDownload
    · exact sameDownload_storage _ _ _
  case publish commit =>
    cases isStep
    exact ⟨_, .publish, sameDownload_storage _ _ _⟩
  case addCommitFromLocal commit =>
    obtain ⟨-, isNext⟩ := ite_none_left_eq_some.mp isStep
    cases isNext
    exact ⟨_, .addCommitFromLocal, (onlyUpload_notifyWatchers _ .localChange).toSameDownload⟩
  case download action => exact ⟨next, .download isStep, sameDownload_storage _ _ _⟩
  case upload action => exact ⟨world, .upload, sameDownload_stepUpload isStep⟩
  case restart =>
    cases isStep
    exact ⟨_, .restart, sameDownload_storage _ _ _⟩

/-- `SetDownloadState` tells the client of the download, and may start the upload. -/
structure TellsDownload (nextDownloadState : DownloadSyncState) (before after : SyncWorld) : Prop
    extends SameClient before after where
  storage : after.storage = before.storage
  download : after.download = before.download
  log : after.log = before.log ++ before.toldBacklog nextDownloadState
  downloadState : after.sync.downloadState = nextDownloadState

section

variable (world : SyncWorld)

section

variable (nextDownloadState : DownloadSyncState)

theorem onlyUpload_startUploadWhenIdle :
    OnlyUpload world (world.startUploadWhenIdle nextDownloadState) := by
  unfold startUploadWhenIdle
  split
  · exact onlyUpload_startUpload world
  · exact .refl world

theorem tellsDownload_setDownloadState :
    TellsDownload nextDownloadState world (world.setDownloadState nextDownloadState) := by
  unfold setDownloadState
  simp only []
  have handled : OnlyUpload world
      (if nextDownloadState = .permanentError then world.handleSyncError else world) := by
    split <;> exact ⟨⟨⟨rfl, rfl, rfl, rfl⟩, rfl, rfl, rfl, rfl, rfl, rfl⟩, rfl⟩
  generalize (if nextDownloadState = .permanentError then world.handleSyncError else world) =
    first at handled
  have told : first.toldBacklog nextDownloadState = world.toldBacklog nextDownloadState := by
    rw [toldBacklog, toldBacklog, handled.downloadState, handled.onBacklogDownloaded,
      handled.storage]
  have starts := onlyUpload_startUploadWhenIdle
    { first with log := first.log ++ first.toldBacklog nextDownloadState } nextDownloadState
  refine ⟨handled.toSameClient.trans ?_, starts.storage.trans handled.storage,
    starts.download.trans handled.download, by rw [starts.log, told, handled.log], rfl⟩
  exact ⟨starts.cloud, starts.started, starts.enableUpload, starts.onBacklogDownloaded⟩

end

/-- `SetCommitState` sets the commit state, and tells of it if that can be seen. -/
theorem setCommitState_cases (newState : DownloadSyncState) : world.setCommitState newState =
        { world with download.commitState := newState } ∧
        getMergedState world.download.commitState world.download.currentGetObjectCalls =
          getMergedState newState world.download.currentGetObjectCalls ∨
      getMergedState world.download.commitState world.download.currentGetObjectCalls ≠
          getMergedState newState world.download.currentGetObjectCalls ∧
        world.setCommitState newState = setDownloadState
          { world with download.commitState := newState }
          (getMergedState newState world.download.currentGetObjectCalls) := by
  unfold setCommitState
  split
  case isTrue same =>
    subst same
    exact .inl ⟨rfl, rfl⟩
  simp only []
  split
  case isTrue differs => exact .inr ⟨differs, rfl⟩
  case isFalse same => exact .inl ⟨rfl, not_not.mp same⟩

end

/-- Of the download, `SetCommitState` changes only the commit state. -/
structure SetsCommitState (newState : DownloadSyncState) (before after : SyncWorld) : Prop
    extends SameClient before after where
  storage : after.storage = before.storage
  download : after.download = { before.download with commitState := newState }

theorem setsCommitState (world : SyncWorld) (newState : DownloadSyncState) :
    SetsCommitState newState world (world.setCommitState newState) := by
  rcases setCommitState_cases world newState with ⟨isSet, -⟩ | ⟨-, isTold⟩
  · rw [isSet]
    exact ⟨⟨rfl, rfl, rfl, rfl⟩, rfl, rfl⟩
  · rw [isTold]
    have tells := tellsDownload_setDownloadState { world with download.commitState := newState }
      (getMergedState newState world.download.currentGetObjectCalls)
    exact ⟨⟨tells.cloud, tells.started, tells.enableUpload, tells.onBacklogDownloaded⟩,
      tells.storage, tells.download⟩

theorem setRemoteWatcher_eq_some : world.setRemoteWatcher = some next ↔
    (world.download.commitState = .backlog ∨ world.download.commitState = .temporaryError) ∧
      next = (world.setCommitState .settingRemoteWatcher).sendDownload
        (.getSyncMetadata .setRemoteWatcher none) := by
  rw [setRemoteWatcher, ite_none_right_eq_some, some.injEq, eq_comm (b := next)]

variable {commits : List CommitId} {positionToken : PositionToken} {isBacklog : Bool}

theorem downloadBatch_eq_some : world.downloadBatch commits positionToken isBacklog = some next ↔
      world.download.batchDownload = none ∧ next = { world with download := { world.download with
          batchDownload := some ⟨commits, positionToken, isBacklog, .decrypting⟩ } } := by
  rw [downloadBatch, ite_none_left_eq_some, some.injEq, eq_comm (b := next), not_isSome_iff_eq_none]

def startQueue (world : SyncWorld) : SyncWorld :=
  { world with download := { world.download with
    batchDownload := some ⟨world.download.commitsToDownload, world.download.positionToken, false,
      .decrypting⟩
    commitsToDownload := []
    positionToken := 0 } }

theorem onBatchDone_cases (isNext : world.onBatchDone isBacklog = some next) :
    ∃ middle, (isBacklog ∧ world.setRemoteWatcher = some middle ∨ ¬isBacklog ∧ middle = world) ∧
      (middle.download.commitsToDownload = [] ∧ middle.download.commitState = .inProgress ∧
          next = middle.dropBatch.setCommitState .idle ∨
        middle.download.commitsToDownload = [] ∧ middle.download.commitState ≠ .inProgress ∧
          next = middle.dropBatch ∨
        middle.download.commitsToDownload ≠ [] ∧ next = middle.startQueue) := by
  obtain ⟨middle, isMiddle, isNext⟩ := bind_eq_some_iff.mp isNext
  refine ⟨middle, ?_, ?_⟩
  · split at isMiddle
    case isTrue backlog => exact .inl ⟨backlog, isMiddle⟩
    case isFalse other => exact .inr ⟨other, (some.inj isMiddle).symm⟩
  · unfold downloadQueue at isNext
    split at isNext
    case isTrue isEmpty =>
      cases isNext
      split
      case isTrue inProgress => exact .inl ⟨isEmpty, inProgress, rfl⟩
      case isFalse other => exact .inr (.inl ⟨isEmpty, other, rfl⟩)
    case isFalse others =>
      obtain ⟨-, rfl⟩ := downloadBatch_eq_some.mp isNext
      exact .inr (.inr ⟨others, rfl⟩)

section

variable (world : SyncWorld)

theorem download_setCommitState (newState : DownloadSyncState) :
    (world.setCommitState newState).download = { world.download with commitState := newState } :=
  (setsCommitState world newState).download

theorem download_startDownload : world.startDownload.download = { world.download with
      commitState := .backlog
      calls := world.download.calls ++ [.getSyncMetadata .startDownload none] } := by
  simp only [startDownload, sendDownload, setSyncDelegate, download_setCommitState]

theorem download_handleDownloadCommitError :
    world.handleDownloadCommitError.download = { world.download with
      watcherBinding := none
      commitState := .permanentError } := by
  simp only [handleDownloadCommitError, setSyncDelegate, setWatcherBinding, download_setCommitState]

end

theorem download_setRemoteWatcher (isNext : world.setRemoteWatcher = some next) :
    next.download = { world.download with
      commitState := .settingRemoteWatcher
      calls := world.download.calls ++ [.getSyncMetadata .setRemoteWatcher none] } := by
  obtain ⟨-, rfl⟩ := setRemoteWatcher_eq_some.mp isNext
  simp only [sendDownload, download_setCommitState]

theorem download_onWatcherMetadata (world : SyncWorld) (lastCommitTs : PositionToken) :
    (world.onWatcherMetadata lastCommitTs).download = { world.download with
      watcherBinding := some lastCommitTs
      calls := world.download.calls ++ [.setWatcher]
      commitState := .idle } := by
  simp only [onWatcherMetadata, sendDownload, setWatcherBinding, download_setCommitState]

theorem download_onGetCommitsError (world : SyncWorld) :
    world.onGetCommitsError.download = { world.download with
      commitState := .temporaryError
      calls := world.download.calls ++ [.retry .startDownload] } := by
  simp only [onGetCommitsError, sendDownload, download_setCommitState]

variable (world : SyncWorld)

theorem sameClient_download (storage : SyncStorage) (download : PageDownload)
    (log : List SyncEvent) : SameClient world { world with
      storage
      download
      log } :=
  ⟨rfl, rfl, rfl, rfl⟩

theorem sameClient_setCommitState (newState : DownloadSyncState) :
    SameClient world (world.setCommitState newState) :=
  (setsCommitState world newState).toSameClient

theorem sameClient_startDownload : SameClient world world.startDownload :=
  (sameClient_setCommitState world .backlog).trans (sameClient_download _ _ _ _)

end SyncWorld

end Peridot
