import Peridot.PageSyncFrames

/-!
# The stored position of a page synchronization

Up to the position that is stored, all commits of the cloud are in the storage, whatever
happens to the watcher, to the batches and to the process.
-/

namespace Peridot

open List Option

def Covers (stored cloud : List CommitId) (position : PositionToken) (others : List CommitId) :
    Prop :=
  position ≤ cloud.length ∧ ∀ commit ∈ cloud.take position, commit ∈ stored ∨ commit ∈ others

section Covers

variable {stored cloud others rest : List CommitId} {position upTo : PositionToken}

theorem covers_zero (stored cloud others : List CommitId) : Covers stored cloud 0 others :=
  ⟨Nat.zero_le _, fun commit inTake => by simp at inTake⟩

variable (covers : Covers stored cloud position others)
include covers

theorem Covers.mono {laterStored laterCloud : List CommitId} (isPrefix : cloud <+: laterCloud)
    (kept : ∀ commit ∈ stored, commit ∈ laterStored)
    (others_kept : ∀ commit ∈ others, commit ∈ laterStored ∨ commit ∈ rest) :
    Covers laterStored laterCloud position rest := by
  obtain ⟨newer, rfl⟩ := isPrefix
  refine ⟨by simpa using Nat.le_add_right_of_le covers.1, fun commit inTake => ?_⟩
  rw [take_append_of_le_length covers.1] at inTake
  rcases covers.2 commit inTake with isStored | isOther
  · exact .inl (kept commit isStored)
  · exact others_kept commit isOther

theorem Covers.weaken (included : ∀ commit ∈ others, commit ∈ rest) :
    Covers stored cloud position rest :=
  covers.mono (prefix_refl cloud) (fun _ isStored => isStored)
    fun commit isOther => .inr (included commit isOther)

theorem Covers.deliver (inLog : upTo ≤ cloud.length) :
    Covers stored cloud upTo (others ++ (cloud.take upTo).drop position) := by
  refine ⟨inLog, fun commit inTake => ?_⟩
  rw [← take_append_drop position (cloud.take upTo), mem_append] at inTake
  rcases inTake with isBefore | isBetween
  · have inTake : commit ∈ cloud.take position := by
      rw [take_take] at isBefore
      exact mem_of_mem_take (i := upTo) (by rwa [take_take, Nat.min_comm])
    exact (covers.2 commit inTake).imp_right fun isOther => mem_append_left _ isOther
  · exact .inr (mem_append_right others isBetween)

end Covers

def DownloadCall.position : DownloadCall → Option PositionToken
  | getSyncMetadata _ lastCommitTs => lastCommitTs
  | getCommits positionToken => some positionToken
  | setWatcher => none
  | getObject _ => none
  | retry _ => none

/-- Whether `AddCommitsFromSync` has stored the commits of the batch. -/
def BatchStage.isStored : BatchStage → Bool
  | decrypting => false
  | adding => false
  | added => true
  | saving => true
  | saved => true
  | failed => false

variable {batch : BatchDownload} {commits : List CommitId} {upTo : PositionToken}
    {call : DownloadCall}

namespace PageDownload

def pendingCommits (download : PageDownload) : List CommitId :=
  (download.batchDownload.elim [] BatchDownload.commits) ++ download.commitsToDownload

/-- Every position that is stored or in use is one up to which all commits are accounted for. -/
structure Synced (stored cloud : List CommitId) (timestamp : PositionToken)
    (download : PageDownload) : Prop where
  timestamp : Covers stored cloud timestamp []
  calls : ∀ call ∈ download.calls, ∀ token ∈ call.position, Covers stored cloud token []
  batch : ∀ batch ∈ download.batchDownload, Covers stored cloud batch.positionToken batch.commits
  inStorage : ∀ batch ∈ download.batchDownload, batch.stage.isStored →
    ∀ commit ∈ batch.commits, commit ∈ stored
  queue : Covers stored cloud download.positionToken download.pendingCommits
  watcher : ∀ position ∈ download.watcherBinding,
    Covers stored cloud position download.pendingCommits
  drained : download.batchDownload = none → download.commitsToDownload = []

namespace Synced

variable {stored cloud : List CommitId} {timestamp : PositionToken} {download : PageDownload}
  (synced : Synced stored cloud timestamp download)
include synced

theorem mono {laterStored laterCloud : List CommitId} (isPrefix : cloud <+: laterCloud)
    (kept : ∀ commit ∈ stored, commit ∈ laterStored) :
    Synced laterStored laterCloud timestamp download where
  timestamp := synced.timestamp.mono isPrefix kept fun _ isOther => .inr isOther
  calls := fun call inCalls token isToken =>
    (synced.calls call inCalls token isToken).mono isPrefix kept fun _ isOther => .inr isOther
  batch := fun batch isBatch =>
    (synced.batch batch isBatch).mono isPrefix kept fun _ isOther => .inr isOther
  inStorage := fun batch isBatch isStored commit inBatch =>
    kept commit (synced.inStorage batch isBatch isStored commit inBatch)
  queue := synced.queue.mono isPrefix kept fun _ isOther => .inr isOther
  watcher := fun position isBound =>
    (synced.watcher position isBound).mono isPrefix kept fun _ isOther => .inr isOther
  drained := synced.drained

/-- Neither the states nor the `GetObject` calls matter. -/
theorem states (commitState : DownloadSyncState) (currentGetObjectCalls : Int) :
    Synced stored cloud timestamp { download with
      commitState
      currentGetObjectCalls } :=
  ⟨synced.timestamp, synced.calls, synced.batch, synced.inStorage, synced.queue, synced.watcher,
    synced.drained⟩

theorem send (isKnown : ∀ token ∈ call.position, Covers stored cloud token []) :
    Synced stored cloud timestamp { download with calls := download.calls ++ [call] } where
  __ := synced
  calls := fun other inCalls => by
    rcases mem_append.mp inCalls with inCalls | isLast
    · exact synced.calls other inCalls
    · rw [mem_singleton.mp isLast]
      exact isKnown

theorem take (call : DownloadCall) :
    Synced stored cloud timestamp { download with calls := download.calls.erase call } where
  __ := synced
  calls := fun other inCalls => synced.calls other (mem_of_mem_erase inCalls)

theorem bind {watcherBinding : Option PositionToken} (isKnown : ∀ position ∈ watcherBinding,
      Covers stored cloud position download.pendingCommits) :
    Synced stored cloud timestamp { download with watcherBinding } :=
  ⟨synced.timestamp, synced.calls, synced.batch, synced.inStorage, synced.queue, isKnown,
    synced.drained⟩

theorem stage (isBatch : download.batchDownload = some batch) {stage : BatchStage}
    (isStored : stage.isStored → ∀ commit ∈ batch.commits, commit ∈ stored) :
    Synced stored cloud timestamp { download with
      batchDownload := some { batch with stage } } where
  __ := synced
  batch := fun next isNext => by
    cases isNext
    exact synced.batch batch isBatch
  inStorage := fun next isNext isNextStored => by
    cases isNext
    exact isStored isNextStored
  queue := by
    have queue := synced.queue
    rw [pendingCommits, isBatch] at queue
    exact queue
  watcher := fun position isBound => by
    have watcher := synced.watcher position isBound
    rw [pendingCommits, isBatch] at watcher
    exact watcher
  drained := nofun

theorem start (isIdle : download.batchDownload = none)
    (isBacklog : Bool) (covers : Covers stored cloud upTo commits)
    (isWatched : ∀ position ∈ download.watcherBinding, Covers stored cloud position commits) :
    Synced stored cloud timestamp { download with
      batchDownload := some ⟨commits, upTo, isBacklog, .decrypting⟩ } where
  __ := synced
  batch := fun next isNext => by
    cases isNext
    exact covers
  inStorage := fun next isNext isStored => by
    cases isNext
    cases isStored
  queue := by
    have queue := synced.queue
    rw [pendingCommits, isIdle, synced.drained isIdle] at queue
    exact queue.weaken fun commit isOther => by simp at isOther
  watcher := fun position isBound => by
    refine (isWatched position isBound).weaken fun commit inCommits => ?_
    exact mem_append_left _ inCommits
  drained := nofun

theorem enqueue {position : PositionToken}
    (isBound : download.watcherBinding = some position) (inLog : upTo ≤ cloud.length)
    (isRunning : download.batchDownload ≠ none) : Synced stored cloud timestamp { download with
      watcherBinding := some upTo
      commitsToDownload := download.commitsToDownload ++ (cloud.take upTo).drop position
      positionToken := upTo } := by
  have covers := (synced.watcher position isBound).deliver inLog
  rw [pendingCommits, append_assoc] at covers
  exact
    { timestamp := synced.timestamp
      __ := synced
      queue := covers
      watcher := fun other isOther => by
        cases isOther
        exact covers
      drained := fun isNone => absurd isNone isRunning }

theorem finish (isBatch : download.batchDownload = some batch) (isStored : batch.stage.isStored) :
    Synced stored cloud timestamp { download with
        batchDownload := some ⟨download.commitsToDownload, download.positionToken, false,
          .decrypting⟩
        commitsToDownload := []
        positionToken := 0 } ∧
      (download.commitsToDownload = [] →
        Synced stored cloud timestamp { download with batchDownload := none }) := by
  have inStorage := synced.inStorage batch isBatch isStored
  have without {position : PositionToken}
      (covers : Covers stored cloud position download.pendingCommits) :
      Covers stored cloud position download.commitsToDownload := by
    refine covers.mono (prefix_refl cloud) (fun _ isStored => isStored) fun commit isOther => ?_
    rw [pendingCommits, isBatch] at isOther
    exact (mem_append.mp isOther).imp_left (inStorage commit)
  refine ⟨⟨synced.timestamp, synced.calls, ?_, ?_, covers_zero _ _ _, ?_, fun isNone => ?_⟩,
    fun isEmpty => ⟨synced.timestamp, synced.calls, ?_, ?_, without synced.queue, ?_,
      fun _ => isEmpty⟩⟩
  · intro next isNext
    cases isNext
    exact without synced.queue
  · intro next isNext isNextStored
    cases isNext
    cases isNextStored
  · intro position isBound
    exact (without (synced.watcher position isBound)).weaken fun commit inQueue =>
      mem_append_left _ inQueue
  · cases isNone
  · intro next isNext
    cases isNext
  · intro next isNext
    cases isNext
  · exact fun position isBound => without (synced.watcher position isBound)

end Synced

end PageDownload

namespace SyncWorld

variable {world next : SyncWorld}

/-- Every position that is stored or in use is one up to which all commits are accounted for. -/
def Synced (world : SyncWorld) : Prop :=
  world.download.Synced world.storage.commits world.cloud world.storage.timestamp

theorem Synced.of_same {before after : SyncWorld} (synced : before.Synced)
    (same : SameDownload before after) : after.Synced := by
  rw [Synced, same.commits, same.cloud, same.timestamp, same.download]
  exact synced

section

variable (synced : world.Synced)
include synced

theorem Synced.setCommitState (newState : DownloadSyncState) :
    (world.setCommitState newState).Synced := by
  have sets := setsCommitState world newState
  rw [Synced, sets.storage, sets.cloud, sets.download]
  exact synced.states newState _

theorem Synced.send (isKnown : ∀ token ∈ call.position,
    Covers world.storage.commits world.cloud token []) : (world.sendDownload call).Synced :=
  PageDownload.Synced.send synced isKnown

theorem Synced.take (call : DownloadCall) : (world.takeDownload call).Synced :=
  PageDownload.Synced.take synced call

theorem Synced.startDownload : world.startDownload.Synced := by
  have delegated : ((world.setCommitState .backlog).setSyncDelegate true).Synced :=
    synced.setCommitState .backlog
  exact delegated.send nofun

theorem Synced.handleDownloadCommitError : world.handleDownloadCommitError.Synced := by
  have unbound : ((world.setWatcherBinding none).setSyncDelegate false).Synced :=
    PageDownload.Synced.bind synced nofun
  exact unbound.setCommitState .permanentError

theorem Synced.setRemoteWatcher (isNext : world.setRemoteWatcher = some next) : next.Synced := by
  obtain ⟨-, rfl⟩ := setRemoteWatcher_eq_some.mp isNext
  exact (synced.setCommitState .settingRemoteWatcher).send nofun

end

theorem batchDownload_setRemoteWatcher (isNext : world.setRemoteWatcher = some next) :
    next.download.batchDownload = world.download.batchDownload := by
  obtain ⟨-, rfl⟩ := setRemoteWatcher_eq_some.mp isNext
  rw [sendDownload, (setsCommitState world .settingRemoteWatcher).download]

section

variable (synced : world.Synced) {isBacklog : Bool}
include synced

section

variable (isBatch : world.download.batchDownload = some batch)
include isBatch

theorem Synced.onBatchDone (isStored : batch.stage.isStored)
    (isNext : world.onBatchDone isBacklog = some next) : next.Synced := by
  obtain ⟨middle, isMiddle, isNext⟩ := onBatchDone_cases isNext
  have ⟨middleSynced, isMiddleBatch⟩ :
      middle.Synced ∧ middle.download.batchDownload = some batch := by
    rcases isMiddle with ⟨-, isMiddle⟩ | ⟨-, rfl⟩
    · exact ⟨synced.setRemoteWatcher isMiddle, by
        rw [batchDownload_setRemoteWatcher isMiddle, isBatch]⟩
    · exact ⟨synced, isBatch⟩
  obtain ⟨starts, stops⟩ := PageDownload.Synced.finish middleSynced isMiddleBatch isStored
  rcases isNext with ⟨isEmpty, -, rfl⟩ | ⟨isEmpty, -, rfl⟩ | ⟨-, rfl⟩
  · have dropped : middle.dropBatch.Synced := stops isEmpty
    exact dropped.setCommitState .idle
  · exact stops isEmpty
  · exact starts

theorem Synced.setBatchStage {stage : BatchStage}
    (isStored : stage.isStored → batch.stage.isStored) : (world.setBatchStage batch stage).Synced :=
  PageDownload.Synced.stage synced isBatch fun isNow => synced.inStorage batch isBatch (isStored isNow)

theorem Synced.advanceBatch (isNext : world.advanceBatch batch = some next) : next.Synced := by
  unfold SyncWorld.advanceBatch at isNext
  split at isNext
  · cases isNext
    exact synced.setBatchStage isBatch nofun
  · cases isNext
    -- The commits are stored before the batch counts as stored.
    suffices stored : Synced { world.setBatchStage batch .added with storage :=
        { world.storage with
          commits := world.storage.commits ++ batch.commits.filter (· ∉ world.storage.commits)
          unsynced := world.storage.unsynced.filter (· ∉ batch.commits) } } from
      stored.of_same (onlyUpload_notifyWatchers _ .sync).toSameDownload
    refine PageDownload.Synced.stage (PageDownload.Synced.mono synced (prefix_refl _)
      fun _ isStored => mem_append_left _ isStored) isBatch fun _ commit inBatch => ?_
    by_cases isStored : commit ∈ world.storage.commits
    · exact mem_append_left _ isStored
    · exact mem_append_right _ (mem_filter.mpr ⟨inBatch, by simpa using isStored⟩)
  case h_3 isAdded =>
    cases isNext
    exact synced.setBatchStage isBatch fun _ => by rw [isAdded]; rfl
  case h_4 isSaving =>
    cases isNext
    have saved : (world.setBatchStage batch .saved).Synced :=
      synced.setBatchStage isBatch fun _ => by rw [isSaving]; rfl
    have inStorage := synced.inStorage batch isBatch (by rw [isSaving]; rfl)
    exact { saved with
      timestamp := (synced.batch batch isBatch).mono (prefix_refl _)
        (fun _ isStored => isStored) fun commit inBatch => .inl (inStorage commit inBatch) }
  case h_5 isSaved => exact synced.onBatchDone isBatch (by rw [isSaved]; rfl) isNext
  · cases isNext

end

theorem Synced.onWatcherMetadata {lastCommitTs : PositionToken}
    (covers : Covers world.storage.commits world.cloud lastCommitTs []) :
    (world.onWatcherMetadata lastCommitTs).Synced := by
  have bound : (world.setWatcherBinding (some lastCommitTs)).Synced := by
    refine PageDownload.Synced.bind synced fun position isBound => ?_
    cases isBound
    exact covers.weaken fun commit isOther => by simp at isOther
  have sent : ((world.setWatcherBinding (some lastCommitTs)).sendDownload .setWatcher).Synced :=
    bound.send nofun
  exact sent.setCommitState .idle

theorem Synced.downloadBatch {positionToken : PositionToken}
    (covers : Covers world.storage.commits world.cloud positionToken commits)
    (isNext : world.downloadBatch commits positionToken isBacklog = some next) : next.Synced := by
  obtain ⟨isIdle, rfl⟩ := downloadBatch_eq_some.mp isNext
  refine PageDownload.Synced.start synced isIdle isBacklog covers fun position isBound => ?_
  refine (synced.watcher position isBound).weaken fun commit isPending => ?_
  rw [PageDownload.pendingCommits, isIdle, synced.drained isIdle] at isPending
  simp at isPending

theorem Synced.onGetCommits (covers : Covers world.storage.commits world.cloud upTo commits)
    (isNext : world.onGetCommits commits upTo = some next) : next.Synced := by
  unfold SyncWorld.onGetCommits at isNext
  dsimp only at isNext
  have logged : SyncWorld.Synced
      { world with log := world.log ++ [SyncEvent.gotCommits commits] } := synced
  split at isNext
  · exact logged.setRemoteWatcher isNext
  · exact logged.downloadBatch covers isNext

theorem Synced.onNewRemoteCommits {position : PositionToken}
    (isBound : world.download.watcherBinding = some position) (inLog : upTo ≤ world.cloud.length)
    (isNext : (world.setWatcherBinding (some upTo)).onNewRemoteCommits
      (world.commitsBetween position upTo) upTo = some next) : next.Synced := by
  unfold SyncWorld.onNewRemoteCommits at isNext
  split at isNext
  case isTrue isRunning =>
    cases isNext
    exact PageDownload.Synced.enqueue synced isBound inLog (isSome_iff_ne_none.mp isRunning)
  case isFalse isIdle =>
    have isIdle : world.download.batchDownload = none := not_isSome_iff_eq_none.mp isIdle
    have covers := (synced.watcher position isBound).deliver inLog
    rw [PageDownload.pendingCommits, isIdle, synced.drained isIdle] at covers
    obtain ⟨-, rfl⟩ := downloadBatch_eq_some.mp isNext
    have sets := setsCommitState (world.setWatcherBinding (some upTo)) .inProgress
    rw [Synced, sets.storage, sets.cloud, sets.download]
    -- The watcher counts as unbound until its commits are those of a batch.
    have unbound := PageDownload.Synced.bind synced fun position (isNone : position ∈ none) => by
      cases isNone
    have started := unbound.start isIdle false covers nofun
    have bound := started.bind fun other (isOther : other ∈ some upTo) => ?_
    · exact bound.states .inProgress _
    cases isOther
    refine covers.weaken fun commit inCommits => ?_
    exact mem_append_left _ inCommits

theorem Synced.onError {status : CloudStatus}
    (isNext : world.onError status = some next) : next.Synced := by
  obtain ⟨-, isNext⟩ := ite_none_right_eq_some.mp isNext
  have unbound : (world.setWatcherBinding none).Synced := PageDownload.Synced.bind synced nofun
  split at isNext
  · cases isNext
    exact (unbound.setCommitState .temporaryError).send nofun
  · cases isNext
    exact synced.handleDownloadCommitError

theorem Synced.getObject : world.getObject.Synced := by
  have counted : (world.setGetObjectCalls (world.download.currentGetObjectCalls + 1)).Synced :=
    PageDownload.Synced.states synced _ _
  exact counted.send nofun

theorem Synced.onGetObject (stage : GetObjectStage) : (world.onGetObject stage).Synced := by
  cases stage with
  | objectName | content | dataSource => exact synced.send nofun
  | decryptObject => exact PageDownload.Synced.states synced _ _

theorem Synced.handleGetObjectError (isPermanent : Bool) :
    (world.handleGetObjectError isPermanent).Synced := by
  have fewer : (world.setGetObjectCalls (world.download.currentGetObjectCalls - 1)).Synced :=
    PageDownload.Synced.states synced _ _
  unfold SyncWorld.handleGetObjectError
  dsimp only
  split
  · exact fewer
  · exact fewer.send nofun

theorem Synced.onDownloadRetry {callable : DownloadRetry}
    (isNext : world.onDownloadRetry callable = some next) : next.Synced := by
  cases callable with
  | startDownload =>
    cases isNext
    exact synced.startDownload
  | setRemoteWatcher => exact synced.setRemoteWatcher isNext
  | getObject =>
    cases isNext
    exact synced.getObject

theorem Synced.stepDownload {action : PageDownloadAction}
    (isStep : world.stepDownload action = some next) : next.Synced := by
  cases downloadStep_of_eq_some isStep with
  | getObject => exact synced.getObject
  | readSyncMetadata =>
    refine (synced.take _).send fun token isToken => ?_
    cases isToken
    exact synced.timestamp
  | startsDownload inCalls =>
    refine (synced.take _).send fun token isToken => ?_
    cases isToken
    exact synced.calls _ inCalls _ rfl
  | setsRemoteWatcher inCalls =>
    exact (synced.take _).onWatcherMetadata (synced.calls _ inCalls _ rfl)
  | failSyncMetadata | failSetWatcher => exact (synced.take _).handleDownloadCommitError
  | answerGetCommits inLog inCalls isNext =>
    have covers := (synced.calls _ inCalls _ rfl).deliver inLog
    exact (synced.take _).onGetCommits covers isNext
  | failGetCommits => exact ((synced.take _).setCommitState .temporaryError).send nofun
  | answerSetWatcher | retryFailed => exact synced.take _
  | answerGetObject => exact (synced.take _).onGetObject _
  | failGetObject => exact (synced.take _).handleGetObjectError _
  | retry _ _ isNext => exact (synced.take _).onDownloadRetry isNext
  | onNewCommits isBound inLog isNext => exact synced.onNewRemoteCommits isBound inLog isNext
  | onError _ isNext => exact synced.onError isNext
  | advanceBatch isBatch isNext => exact synced.advanceBatch isBatch isNext
  | @failBatch batch isBatch =>
    have staged : (world.setBatchStage batch .failed).Synced := synced.setBatchStage isBatch nofun
    exact staged.handleDownloadCommitError

theorem Synced.step {parents : CommitId → List CommitId}
    {action : SyncAction} (isStep : world.step parents action = some next) : next.Synced := by
  obtain ⟨changed, change, same⟩ := downloadChange_of_step isStep
  refine Synced.of_same ?_ same
  cases change with
  | start => exact Synced.startDownload synced
  | publish => exact PageDownload.Synced.mono synced (prefix_append _ _) fun _ isStored => isStored
  | addCommitFromLocal =>
    exact PageDownload.Synced.mono synced (prefix_refl _) fun _ isStored =>
      mem_append_left _ isStored
  | download isStep => exact synced.stepDownload isStep
  | restart =>
    refine ⟨synced.timestamp, ?_, ?_, ?_, covers_zero _ _ _, ?_, fun _ => rfl⟩
    · exact fun call inCalls => by cases inCalls
    · exact fun batch isBatch => by cases isBatch
    · exact fun batch isBatch => by cases isBatch
    · exact fun position isBound => by cases isBound
  | _ => exact synced

end

/-- A page that has not been synchronized: nothing has been downloaded yet. -/
def unsyncedStorage (commits : List CommitId) : SyncStorage where
  commits := commits
  unsynced := []
  timestamp := 0
  commitWatchers := 0
  syncDelegate := false

theorem synced_new (commits cloud : List CommitId) :
    (new (unsyncedStorage commits) cloud).Synced := by
  refine ⟨covers_zero _ _ _, ?_, ?_, ?_, covers_zero _ _ _, ?_, fun _ => rfl⟩
  · exact fun call inCalls => by cases inCalls
  · exact fun batch isBatch => by cases isBatch
  · exact fun batch isBatch => by cases isBatch
  · exact fun position isBound => by cases isBound

/-- Up to the position that is stored, every commit of the cloud is in the storage, after any
run of the synchronization. -/
theorem stored_up_to_timestamp (parents : CommitId → List CommitId) (commits cloud : List CommitId)
    {actions : List SyncAction} {final : SyncWorld}
    (isRun : runSteps (step parents) (new (unsyncedStorage commits) cloud) actions = some final) :
    ∀ commit ∈ final.cloud.take final.storage.timestamp, commit ∈ final.storage.commits := by
  have synced : final.Synced :=
    invariant_runSteps Synced (fun synced _ isStep => synced.step isStep)
      (synced_new commits cloud) (eachStep_true actions _) isRun
  intro commit inTake
  exact (synced.timestamp.2 commit inTake).resolve_right fun isOther => by simp at isOther

def sampleParents (commit : CommitId) : List CommitId :=
  if commit = [1] then [[0]] else if commit = [2] then [[1]] else []

/-- The download starts, and there is nothing in the cloud after the stored position. -/
def emptyBacklog (position : PositionToken) : List SyncAction :=
  [.start, .download (.readSyncMetadata .startDownload),
    .download (.answerSyncMetadata .startDownload position),
    .download (.answerGetCommits position position),
    .download (.readSyncMetadata .setRemoteWatcher),
    .download (.answerSyncMetadata .setRemoteWatcher position)]

def downloadedBatch : List SyncAction :=
  List.replicate 5 (.download .advanceBatch)

/-- The connection fails while the first commit is being added; it is delivered again by the new
watcher, and the process starts again after the second one. -/
def reconnectedRun : List SyncAction :=
  emptyBacklog 0 ++
    [.publish [1], .download (.onNewCommits 1), .download (.onError .networkError),
      .download (.retry .setRemoteWatcher), .download (.readSyncMetadata .setRemoteWatcher),
      .download (.answerSyncMetadata .setRemoteWatcher 0), .publish [2],
      .download (.onNewCommits 1), .download (.onNewCommits 2)] ++
    downloadedBatch ++ downloadedBatch ++ [.restart]

theorem stored_up_to_timestamp_reconnected :
    ∃ final, runSteps (step sampleParents) (new (unsyncedStorage [[0]]) []) reconnectedRun =
        some final ∧ final.storage.timestamp = 2 ∧
      ∀ commit ∈ final.cloud.take final.storage.timestamp, commit ∈ final.storage.commits :=
  ⟨_, rfl, rfl, @stored_up_to_timestamp sampleParents [[0]] [] reconnectedRun _ rfl⟩

end SyncWorld

end Peridot
