import Peridot.BatchUpload
import Peridot.SyncState

/-!
# Synchronizing a page with the cloud

`PageSyncImpl` with its `PageDownload` and `PageUpload`.  Calls to the storage, to the cloud
and to the encryption service are answered later: the state holds those that are not answered
yet, and what the storage has read for them.  The cloud keeps an append-only log of commits,
and a position token names a position of it.
-/

namespace Peridot

/-- `cloud_provider::Status`. -/
inductive CloudStatus where
  | ok
  | authError
  | argumentError
  | internalError
  | networkError
  | notFound
  | parseError
  | serverError
  | unknownError
deriving DecidableEq

/-- `IsPermanentError` of `page_download.cc`. -/
def CloudStatus.isPermanentError : CloudStatus → Bool
  | ok => false
  | authError => false
  | networkError => false
  | argumentError => true
  | internalError => true
  | notFound => true
  | parseError => true
  | serverError => true
  | unknownError => true

/-- How many commits of the log are up to a position; the empty token is 0. -/
abbrev PositionToken := Nat

/-- How far a `BatchDownload` has got. -/
inductive BatchStage where
  | decrypting
  /-- `AddCommitsFromSync` is called. -/
  | adding
  /-- The commits are stored, and the call is not answered yet. -/
  | added
  /-- `SetSyncMetadata` is called. -/
  | saving
  /-- The position is stored, and the call is not answered yet. -/
  | saved
  /-- `on_error` was called. -/
  | failed
deriving DecidableEq

/-- `BatchDownload`, with the `on_done` of its `DownloadBatch`. -/
structure BatchDownload where
  commits : List CommitId
  positionToken : PositionToken
  /-- Whether `on_done` is `BacklogDownloaded`. -/
  isBacklog : Bool
  stage : BatchStage

/-- Whose `GetSyncMetadata` it is. -/
inductive SyncMetadataUse where
  | startDownload
  | setRemoteWatcher
deriving DecidableEq

/-- What a `GetObject` call waits for. -/
inductive GetObjectStage where
  | objectName
  | content
  | dataSource
  | decryptObject
deriving DecidableEq

/-- A closure given to `PageDownload::RetryWithBackoff`. -/
inductive DownloadRetry where
  | startDownload
  | setRemoteWatcher
  | getObject
deriving DecidableEq

/-- What `PageDownload` waits for. -/
inductive DownloadCall where
  /-- With the token, once the storage has read it. -/
  | getSyncMetadata (use : SyncMetadataUse) (lastCommitTs : Option PositionToken)
  | getCommits (positionToken : PositionToken)
  | setWatcher
  | getObject (stage : GetObjectStage)
  | retry (callable : DownloadRetry)
deriving DecidableEq

/-- The members of `PageDownload`, and what it waits for. -/
structure PageDownload where
  batchDownload : Option BatchDownload
  commitsToDownload : List CommitId
  positionToken : PositionToken
  commitState : DownloadSyncState
  currentGetObjectCalls : Int
  /-- `watcher_binding_`, with the position up to which the watcher was told commits. -/
  watcherBinding : Option PositionToken
  calls : List DownloadCall

structure UnsyncedList where
  commits : List CommitId
  /-- How many batch uploads had ended. -/
  uploadsEnded : Nat
deriving DecidableEq

/-- What `PageUpload` waits for, besides its batch upload. -/
inductive UploadCall where
  /-- With the answer, once the storage has read it. -/
  | getUnsyncedCommits (commits : Option UnsyncedList)
  | getHeadCommitIds (commits : UnsyncedList) (heads : Option (List CommitId))
  /-- The closure given to `PageUpload::RetryWithBackoff`. -/
  | retry
deriving DecidableEq

/-- The members of `PageUpload`, and what it waits for. -/
structure PageUpload where
  batchUpload : Option (List CommitId)
  /-- The batch upload has failed for good, and does nothing more. -/
  batchFailed : Bool
  commitsToUpload : Bool
  state : UploadSyncState
  calls : List UploadCall
  /-- How many batch uploads have ended. -/
  uploadsEnded : Nat

/-- The members of `PageSyncImpl`. -/
structure PageSyncImpl where
  started : Bool
  enableUpload : Bool
  errorCallbackAlreadyCalled : Bool
  /-- Whether the client has set the callback. -/
  onBacklogDownloaded : Bool
  downloadState : DownloadSyncState
  uploadState : UploadSyncState

structure SyncStorage where
  commits : List CommitId
  unsynced : List CommitId
  /-- The sync metadata under `kTimestampKey`. -/
  timestamp : PositionToken
  /-- How often `PageUpload` is in `watchers_`. -/
  commitWatchers : Nat
  syncDelegate : Bool

/-- What a client can tell apart of the download of the backlog. -/
inductive SyncEvent where
  /-- `GetCommits` is answered with these commits. -/
  | gotCommits (commits : List CommitId)
  /-- `on_backlog_downloaded` is called, when these commits are stored. -/
  | backlogDownloaded (stored : List CommitId)

structure SyncWorld where
  storage : SyncStorage
  /-- The commits of the page in the cloud. -/
  cloud : List CommitId
  download : PageDownload
  upload : PageUpload
  sync : PageSyncImpl
  log : List SyncEvent

def SyncStorage.heads (parents : CommitId → List CommitId) (storage : SyncStorage) :
    List CommitId :=
  storage.commits.filter fun commit => storage.commits.all fun child => commit ∉ parents child

def SyncWorld.new (storage : SyncStorage) (cloud : List CommitId) : SyncWorld where
  storage := { storage with commitWatchers := 0, syncDelegate := false }
  cloud := cloud
  download :=
    { batchDownload := none
      commitsToDownload := []
      positionToken := 0
      commitState := .stopped
      currentGetObjectCalls := 0
      watcherBinding := none
      calls := [] }
  upload :=
    { batchUpload := none
      batchFailed := false
      commitsToUpload := false
      state := .stopped
      calls := []
      uploadsEnded := 0 }
  sync :=
    { started := false
      enableUpload := false
      errorCallbackAlreadyCalled := false
      onBacklogDownloaded := false
      downloadState := .stopped
      uploadState := .stopped }
  log := []

def getMergedState (commitState : DownloadSyncState) (currentGetObjectCalls : Int) :
    DownloadSyncState :=
  if commitState ≠ .idle then commitState
  else if currentGetObjectCalls = 0 then .idle else .inProgress

def PageDownload.isIdle (download : PageDownload) : Bool :=
  match getMergedState download.commitState download.currentGetObjectCalls with
  | .stopped => true
  | .idle => true
  | .permanentError => true
  | .backlog => false
  | .temporaryError => false
  | .settingRemoteWatcher => false
  | .inProgress => false

namespace SyncWorld

/-- `PageSyncImpl::HandleError`. -/
def handleSyncError (world : SyncWorld) : SyncWorld :=
  { world with sync.errorCallbackAlreadyCalled := true }

def setUploadState (world : SyncWorld) (nextUploadState : UploadSyncState) : SyncWorld :=
  let world := if nextUploadState = .permanentError then world.handleSyncError else world
  { world with sync.uploadState := nextUploadState }

def setState (world : SyncWorld) (newState : UploadSyncState) : SyncWorld :=
  if newState = world.upload.state then world
  else setUploadState { world with upload.state := newState } newState

def setCommitsToUpload (world : SyncWorld) (commitsToUpload : Bool) : SyncWorld :=
  { world with upload.commitsToUpload := commitsToUpload }

def setBatchUpload (world : SyncWorld) (batchUpload : Option (List CommitId)) : SyncWorld :=
  { world with upload.batchUpload := batchUpload }

/-- A call whose answer `PageUpload` waits for. -/
def sendUpload (world : SyncWorld) (call : UploadCall) : SyncWorld :=
  { world with upload.calls := world.upload.calls ++ [call] }

def takeUpload (world : SyncWorld) (call : UploadCall) : SyncWorld :=
  { world with upload.calls := world.upload.calls.erase call }

def uploadUnsyncedCommits (world : SyncWorld) : SyncWorld :=
  if ¬world.upload.commitsToUpload then world.setState .idle
  else if world.upload.batchUpload.isSome then world
  else world.sendUpload (.getUnsyncedCommits none)

def startUpload (world : SyncWorld) : SyncWorld :=
  if world.upload.state = .stopped then
    ((world.setCommitsToUpload true).setState .setup).uploadUnsyncedCommits
  else world.uploadUnsyncedCommits

/-- `PageUpload::OnNewCommits`. -/
def onNewLocalCommits (world : SyncWorld) (source : ChangeSource) : SyncWorld :=
  if source ≠ .localChange then world
  else
    let world := world.setCommitsToUpload true
    if ¬world.download.isIdle then world.setState .waitRemoteDownload
    else if world.upload.state = .temporaryError then world
    else (world.setState .pending).uploadUnsyncedCommits

/-- `PageStorageImpl::NotifyWatchers`, for the watchers that are this `PageUpload`. -/
def notifyWatchers (world : SyncWorld) (source : ChangeSource) : SyncWorld :=
  (fun world => onNewLocalCommits world source)^[world.storage.commitWatchers] world

/-- `PageUpload::HandleError`. -/
def handleUploadError (world : SyncWorld) : SyncWorld :=
  let world :=
    if world.upload.state > .setup then
      { world with storage :=
        { world.storage with commitWatchers := world.storage.commitWatchers - 1 } }
    else world
  world.setState .permanentError

def verifyUnsyncedCommits (world : SyncWorld) (commits : UnsyncedList) : SyncWorld :=
  if commits.commits = [] then (world.setState .idle).setCommitsToUpload false
  else world.sendUpload (.getHeadCommitIds commits none)

/-- The answer to the `GetUnsyncedCommits` of `UploadUnsyncedCommits`. -/
def onUnsyncedCommits (world : SyncWorld) (commits : UnsyncedList) : SyncWorld :=
  let world :=
    if world.upload.state = .setup then
      { world with storage :=
        { world.storage with commitWatchers := world.storage.commitWatchers + 1 } }
    else world
  world.verifyUnsyncedCommits commits

def handleUnsyncedCommits (world : SyncWorld) (commits : UnsyncedList) : Option SyncWorld :=
  -- The two `FXL_DCHECK`s.
  if world.upload.batchUpload.isSome ∨ ¬world.upload.commitsToUpload then none
  else some ((world.setState .inProgress).setBatchUpload (some commits.commits))

/-- The answer to the `GetHeadCommitIds` of `VerifyUnsyncedCommits`. -/
def onHeadCommitIds (world : SyncWorld) (commits : UnsyncedList) (heads : List CommitId) :
    Option SyncWorld :=
  if world.upload.batchUpload.isSome then some world
  -- `FXL_DCHECK(!heads.empty())`
  else if heads = [] then none
  else if ¬world.download.isIdle then some (world.setState .waitRemoteDownload)
  else if heads.length > 1 then
    some ((world.setCommitsToUpload false).setState .waitTooManyLocalHeads)
  else world.handleUnsyncedCommits commits

/-- The batch upload calls `on_done`. -/
def onUploadDone (world : SyncWorld) : SyncWorld :=
  let world := world.setBatchUpload none
  uploadUnsyncedCommits { world with upload :=
    { world.upload with uploadsEnded := world.upload.uploadsEnded + 1 } }

/-- The batch upload calls `on_error`. -/
def onUploadError (world : SyncWorld) : ErrorType → SyncWorld
  | .temporary =>
    let world := (world.setState .temporaryError).setBatchUpload none
    sendUpload { world with upload :=
      { world.upload with uploadsEnded := world.upload.uploadsEnded + 1 } } .retry
  | .permanent =>
    let world := world.setState .permanentError
    { world with upload.batchFailed := true }

/-- The call of `on_backlog_downloaded_` in `SetDownloadState`. -/
def toldBacklog (world : SyncWorld) (nextDownloadState : DownloadSyncState) : List SyncEvent :=
  if world.sync.downloadState = .backlog ∧ nextDownloadState ≠ .permanentError ∧
      world.sync.onBacklogDownloaded then [.backlogDownloaded world.storage.commits]
  else []

/-- The start of the upload in `SetDownloadState`. -/
def startUploadWhenIdle (world : SyncWorld) (nextDownloadState : DownloadSyncState) : SyncWorld :=
  if world.sync.downloadState ≠ .idle ∧ nextDownloadState = .idle ∧ world.sync.enableUpload then
    world.startUpload
  else world

def setDownloadState (world : SyncWorld) (nextDownloadState : DownloadSyncState) : SyncWorld :=
  let world := if nextDownloadState = .permanentError then world.handleSyncError else world
  let world := { world with log := world.log ++ world.toldBacklog nextDownloadState }
  let world := world.startUploadWhenIdle nextDownloadState
  { world with sync.downloadState := nextDownloadState }

def setCommitState (world : SyncWorld) (newState : DownloadSyncState) : SyncWorld :=
  if newState = world.download.commitState then world
  else
    let oldMergedState :=
      getMergedState world.download.commitState world.download.currentGetObjectCalls
    let newMergedState := getMergedState newState world.download.currentGetObjectCalls
    let world := { world with download.commitState := newState }
    if oldMergedState ≠ newMergedState then world.setDownloadState newMergedState else world

/-- A call whose answer `PageDownload` waits for. -/
def sendDownload (world : SyncWorld) (call : DownloadCall) : SyncWorld :=
  { world with download.calls := world.download.calls ++ [call] }

def takeDownload (world : SyncWorld) (call : DownloadCall) : SyncWorld :=
  { world with download.calls := world.download.calls.erase call }

def setSyncDelegate (world : SyncWorld) (syncDelegate : Bool) : SyncWorld :=
  { world with storage.syncDelegate := syncDelegate }

def setWatcherBinding (world : SyncWorld) (watcherBinding : Option PositionToken) : SyncWorld :=
  { world with download.watcherBinding := watcherBinding }

def startDownload (world : SyncWorld) : SyncWorld :=
  ((world.setCommitState .backlog).setSyncDelegate true).sendDownload
    (.getSyncMetadata .startDownload none)

def handleDownloadCommitError (world : SyncWorld) : SyncWorld :=
  ((world.setWatcherBinding none).setSyncDelegate false).setCommitState .permanentError

def setRemoteWatcher (world : SyncWorld) : Option SyncWorld :=
  -- The `FXL_DCHECK`.
  if world.download.commitState = .backlog ∨ world.download.commitState = .temporaryError then
    some ((world.setCommitState .settingRemoteWatcher).sendDownload
      (.getSyncMetadata .setRemoteWatcher none))
  else none

/-- The answer to the `GetSyncMetadata` of `SetRemoteWatcher`. -/
def onWatcherMetadata (world : SyncWorld) (lastCommitTs : PositionToken) : SyncWorld :=
  ((world.setWatcherBinding (some lastCommitTs)).sendDownload .setWatcher).setCommitState .idle

def downloadBatch (world : SyncWorld) (commits : List CommitId) (positionToken : PositionToken)
    (isBacklog : Bool) : Option SyncWorld :=
  -- `FXL_DCHECK(!batch_download_)`
  if world.download.batchDownload.isSome then none
  else some { world with download := { world.download with
    batchDownload := some ⟨commits, positionToken, isBacklog, .decrypting⟩ } }

/-- The answer to the `GetCommits` of `StartDownload`. -/
def onGetCommits (world : SyncWorld) (commits : List CommitId) (positionToken : PositionToken) :
    Option SyncWorld :=
  let world := { world with log := world.log ++ [SyncEvent.gotCommits commits] }
  if commits = [] then world.setRemoteWatcher
  else world.downloadBatch commits positionToken true

/-- `GetCommits` fails. -/
def onGetCommitsError (world : SyncWorld) : SyncWorld :=
  (world.setCommitState .temporaryError).sendDownload (.retry .startDownload)

/-- `PageDownload::OnNewCommits`. -/
def onNewRemoteCommits (world : SyncWorld) (commits : List CommitId)
    (positionToken : PositionToken) : Option SyncWorld :=
  if world.download.batchDownload.isSome then
    some { world with download := { world.download with
      commitsToDownload := world.download.commitsToDownload ++ commits
      positionToken } }
  else (world.setCommitState .inProgress).downloadBatch commits positionToken false

def onError (world : SyncWorld) (status : CloudStatus) : Option SyncWorld :=
  -- The `FXL_DCHECK`.
  if world.download.commitState = .idle ∨ world.download.commitState = .inProgress then
    if ¬status.isPermanentError then
      some (((world.setWatcherBinding none).setCommitState .temporaryError).sendDownload
        (.retry .setRemoteWatcher))
    else some world.handleDownloadCommitError
  else none

/-- `batch_download_.reset()`. -/
def dropBatch (world : SyncWorld) : SyncWorld :=
  { world with download.batchDownload := none }

/-- The commits that were told meanwhile are downloaded, if there are any. -/
def downloadQueue (world : SyncWorld) : Option SyncWorld :=
  if world.download.commitsToDownload = [] then
    some (if world.download.commitState = .inProgress then world.setCommitState .idle else world)
  else
    downloadBatch { world with download := { world.download with
      commitsToDownload := []
      positionToken := 0 } } world.download.commitsToDownload world.download.positionToken false

/-- The batch is done: the first closure of `DownloadBatch`. -/
def onBatchDone (world : SyncWorld) (isBacklog : Bool) : Option SyncWorld :=
  (if isBacklog then world.setRemoteWatcher else some world).bind fun world =>
    world.dropBatch.downloadQueue

def setGetObjectCalls (world : SyncWorld) (calls : Int) : SyncWorld :=
  { world with download.currentGetObjectCalls := calls }

def getObject (world : SyncWorld) : SyncWorld :=
  (world.setGetObjectCalls (world.download.currentGetObjectCalls + 1)).sendDownload
    (.getObject .objectName)

/-- What follows the answer of a stage of `GetObject`. -/
def onGetObject (world : SyncWorld) : GetObjectStage → SyncWorld
  | .objectName => world.sendDownload (.getObject .content)
  | .content => world.sendDownload (.getObject .dataSource)
  | .dataSource => world.sendDownload (.getObject .decryptObject)
  | .decryptObject => world.setGetObjectCalls (world.download.currentGetObjectCalls - 1)

def handleGetObjectError (world : SyncWorld) (isPermanent : Bool) : SyncWorld :=
  let world := world.setGetObjectCalls (world.download.currentGetObjectCalls - 1)
  if isPermanent then world else world.sendDownload (.retry .getObject)

def onDownloadRetry (world : SyncWorld) : DownloadRetry → Option SyncWorld
  | .startDownload => some world.startDownload
  | .setRemoteWatcher => world.setRemoteWatcher
  | .getObject => some world.getObject

/-- `AddCommitsFromSync`: new commits are stored, and all are marked as synced. -/
def addCommitsFromSync (world : SyncWorld) (commits : List CommitId) : SyncWorld :=
  notifyWatchers { world with storage := { world.storage with
    commits := world.storage.commits ++ commits.filter (· ∉ world.storage.commits)
    unsynced := world.storage.unsynced.filter (· ∉ commits) } } .sync

/-- `AddCommitFromLocal` of a commit that is not there yet. -/
def addCommitFromLocal (world : SyncWorld) (commit : CommitId) : SyncWorld :=
  notifyWatchers { world with storage := { world.storage with
    commits := world.storage.commits ++ [commit]
    unsynced := world.storage.unsynced ++ [commit] } } .localChange

def setBatchStage (world : SyncWorld) (batch : BatchDownload) (stage : BatchStage) : SyncWorld :=
  { world with download := { world.download with
    batchDownload := some { batch with stage } } }

def advanceBatch (world : SyncWorld) (batch : BatchDownload) : Option SyncWorld :=
  match batch.stage with
  | .decrypting => some (world.setBatchStage batch .adding)
  | .adding => some ((world.setBatchStage batch .added).addCommitsFromSync batch.commits)
  | .added => some (world.setBatchStage batch .saving)
  | .saving =>
    let world := world.setBatchStage batch .saved
    some { world with storage.timestamp := batch.positionToken }
  | .saved => world.onBatchDone batch.isBacklog
  | .failed => none

def failBatch (world : SyncWorld) (batch : BatchDownload) : Option SyncWorld :=
  if batch.stage = .failed then none
  else some (world.setBatchStage batch .failed).handleDownloadCommitError

end SyncWorld

/-- What happens to `PageDownload`. -/
inductive PageDownloadAction where
  /-- The storage needs an object. -/
  | getObject
  /-- The storage reads the position for a `GetSyncMetadata`. -/
  | readSyncMetadata (use : SyncMetadataUse)
  | answerSyncMetadata (use : SyncMetadataUse) (lastCommitTs : PositionToken)
  | failSyncMetadata (use : SyncMetadataUse) (lastCommitTs : Option PositionToken)
  /-- The cloud answers with the commits between the two positions. -/
  | answerGetCommits (positionToken upTo : PositionToken)
  | failGetCommits (positionToken : PositionToken)
  | answerSetWatcher
  | failSetWatcher
  | answerGetObject (stage : GetObjectStage)
  | failGetObject (stage : GetObjectStage) (isPermanent : Bool)
  | retry (callable : DownloadRetry)
  /-- The watcher is told the commits up to a position. -/
  | onNewCommits (upTo : PositionToken)
  | onError (status : CloudStatus)
  | advanceBatch
  | failBatch
deriving DecidableEq

/-- What happens to `PageUpload`. -/
inductive PageUploadAction where
  /-- The storage lists the unsynced commits for a `GetUnsyncedCommits`. -/
  | readUnsyncedCommits
  | answerUnsyncedCommits (commits : UnsyncedList)
  | failUnsyncedCommits (commits : Option UnsyncedList)
  /-- The storage lists the heads for a `GetHeadCommitIds`. -/
  | readHeadCommitIds (commits : UnsyncedList)
  | answerHeadCommitIds (commits : UnsyncedList) (heads : List CommitId)
  | failHeadCommitIds (commits : UnsyncedList) (heads : Option (List CommitId))
  | retry
  /-- The batch upload marks one of its commits as synced. -/
  | markCommitSynced (commit : CommitId)
  | uploadDone
  | uploadError (errorType : ErrorType)
deriving DecidableEq

/-- What happens to a page, its storage, the cloud and the synchronization. -/
inductive SyncAction where
  | setOnBacklogDownloaded
  | start
  | enableUpload
  /-- A device adds a commit to the cloud. -/
  | publish (commit : CommitId)
  | addCommitFromLocal (commit : CommitId)
  | download (action : PageDownloadAction)
  | upload (action : PageUploadAction)
  /-- The process starts again. -/
  | restart
deriving DecidableEq

namespace SyncWorld

def answerDownload (world : SyncWorld) (call : DownloadCall)
    (react : SyncWorld → Option SyncWorld) : Option SyncWorld :=
  if call ∈ world.download.calls then react (world.takeDownload call) else none

def answerUpload (world : SyncWorld) (call : UploadCall)
    (react : SyncWorld → Option SyncWorld) : Option SyncWorld :=
  if call ∈ world.upload.calls then react (world.takeUpload call) else none

def commitsBetween (world : SyncWorld) (first last : PositionToken) : List CommitId :=
  (world.cloud.take last).drop first

def stepDownload (world : SyncWorld) : PageDownloadAction → Option SyncWorld
  | .getObject => if world.storage.syncDelegate then some world.getObject else none
  | .readSyncMetadata use =>
    world.answerDownload (.getSyncMetadata use none) fun world =>
      some (world.sendDownload (.getSyncMetadata use (some world.storage.timestamp)))
  | .answerSyncMetadata use lastCommitTs =>
    world.answerDownload (.getSyncMetadata use (some lastCommitTs)) fun world =>
      match use with
      | .startDownload => some (world.sendDownload (.getCommits lastCommitTs))
      | .setRemoteWatcher => some (world.onWatcherMetadata lastCommitTs)
  | .failSyncMetadata use lastCommitTs =>
    world.answerDownload (.getSyncMetadata use lastCommitTs) fun world =>
      some world.handleDownloadCommitError
  | .answerGetCommits positionToken upTo =>
    if positionToken ≤ upTo ∧ upTo ≤ world.cloud.length then
      world.answerDownload (.getCommits positionToken) fun world =>
        world.onGetCommits (world.commitsBetween positionToken upTo) upTo
    else none
  | .failGetCommits positionToken =>
    world.answerDownload (.getCommits positionToken) fun world => some world.onGetCommitsError
  | .answerSetWatcher => world.answerDownload .setWatcher some
  | .failSetWatcher =>
    world.answerDownload .setWatcher fun world => some world.handleDownloadCommitError
  | .answerGetObject stage =>
    world.answerDownload (.getObject stage) fun world => some (world.onGetObject stage)
  | .failGetObject stage isPermanent =>
    -- Reading the data fails for good.
    if stage = .dataSource ∧ ¬isPermanent then none
    else world.answerDownload (.getObject stage) fun world =>
      some (world.handleGetObjectError isPermanent)
  | .retry callable =>
    world.answerDownload (.retry callable) fun world =>
      if world.download.commitState ≠ .permanentError then world.onDownloadRetry callable
      else some world
  | .onNewCommits upTo =>
    match world.download.watcherBinding with
    | none => none
    | some position =>
      if position ≤ upTo ∧ upTo ≤ world.cloud.length then
        (world.setWatcherBinding (some upTo)).onNewRemoteCommits
          (world.commitsBetween position upTo) upTo
      else none
  | .onError status =>
    if world.download.watcherBinding.isSome then world.onError status else none
  | .advanceBatch => world.download.batchDownload.bind world.advanceBatch
  | .failBatch => world.download.batchDownload.bind world.failBatch

def isUploading (world : SyncWorld) : Bool :=
  world.upload.batchUpload.isSome && !world.upload.batchFailed

def stepUpload (parents : CommitId → List CommitId) (world : SyncWorld) :
    PageUploadAction → Option SyncWorld
  | .readUnsyncedCommits =>
    world.answerUpload (.getUnsyncedCommits none) fun world =>
      some (world.sendUpload (.getUnsyncedCommits
        (some ⟨world.storage.unsynced, world.upload.uploadsEnded⟩)))
  | .answerUnsyncedCommits commits =>
    world.answerUpload (.getUnsyncedCommits (some commits)) fun world =>
      some (world.onUnsyncedCommits commits)
  | .failUnsyncedCommits commits =>
    world.answerUpload (.getUnsyncedCommits commits) fun world =>
      some (world.setState .permanentError).handleUploadError
  | .readHeadCommitIds commits =>
    world.answerUpload (.getHeadCommitIds commits none) fun world =>
      some (world.sendUpload (.getHeadCommitIds commits (some (world.storage.heads parents))))
  | .answerHeadCommitIds commits heads =>
    world.answerUpload (.getHeadCommitIds commits (some heads)) fun world =>
      world.onHeadCommitIds commits heads
  | .failHeadCommitIds commits heads =>
    world.answerUpload (.getHeadCommitIds commits heads) fun world =>
      some world.handleUploadError
  | .retry =>
    world.answerUpload .retry fun world =>
      some (if world.upload.state ≠ .permanentError then world.uploadUnsyncedCommits else world)
  | .markCommitSynced commit =>
    if world.isUploading ∧ commit ∈ world.upload.batchUpload.getD [] then
      some { world with storage :=
        { world.storage with unsynced := world.storage.unsynced.filter (· ≠ commit) } }
    else none
  | .uploadDone => if world.isUploading then some world.onUploadDone else none
  | .uploadError errorType =>
    if world.isUploading then some (world.onUploadError errorType) else none

def step (parents : CommitId → List CommitId) (world : SyncWorld) : SyncAction → Option SyncWorld
  | .setOnBacklogDownloaded =>
    -- The two `FXL_DCHECK`s of `SetOnBacklogDownloaded`.
    if world.sync.onBacklogDownloaded ∨ world.sync.started then none
    else some { world with sync.onBacklogDownloaded := true }
  | .start =>
    -- `FXL_DCHECK(!started_)`
    if world.sync.started then none
    else
      let world := startDownload { world with sync.started := true }
      some (if world.sync.enableUpload then world.startUpload else world)
  | .enableUpload =>
    let world := { world with sync.enableUpload := true }
    some (if world.sync.started ∧ world.sync.uploadState = .stopped then world.startUpload
      else world)
  | .publish commit => some { world with cloud := world.cloud ++ [commit] }
  | .addCommitFromLocal commit =>
    if commit ∈ world.storage.commits then none else some (world.addCommitFromLocal commit)
  | .download action => world.stepDownload action
  | .upload action => world.stepUpload parents action
  | .restart => some (new world.storage world.cloud)

end SyncWorld

end Peridot
