import Peridot.PageSyncPhase

/-!
# What starts an upload

The upload of a page depends on the download only where `SetDownloadState` starts it, and where
`OnNewCommits` waits for the download.
-/

namespace Peridot

open Option Function PageUpload

namespace PageUpload

/-- What `UploadUnsyncedCommits` makes of the upload. -/
def afterUploadUnsynced (upload : PageUpload) : PageUpload :=
  if ¬upload.commitsToUpload then { upload with state := .idle }
  else if upload.batchUpload.isSome then upload
  else { upload with calls := upload.calls ++ [.getUnsyncedCommits none] }

/-- What `StartUpload` makes of the upload. -/
def afterStart (upload : PageUpload) : PageUpload :=
  if upload.state = .stopped then
    afterUploadUnsynced { upload with
      commitsToUpload := true
      state := .setup }
  else upload.afterUploadUnsynced

/-- What `OnNewCommits` makes of the upload, when a commit is local. -/
def afterNewCommits (upload : PageUpload) (isIdle : Bool) : PageUpload :=
  if ¬isIdle then { upload with
    commitsToUpload := true
    state := .waitRemoteDownload }
  else if upload.state = .temporaryError then { upload with commitsToUpload := true }
  else afterUploadUnsynced { upload with
    commitsToUpload := true
    state := .pending }

def send (upload : PageUpload) (call : UploadCall) : PageUpload :=
  { upload with calls := upload.calls ++ [call] }

def take (upload : PageUpload) (call : UploadCall) : PageUpload :=
  { upload with calls := upload.calls.erase call }

def endBatch (upload : PageUpload) : PageUpload :=
  { upload with
    batchUpload := none
    uploadsEnded := upload.uploadsEnded + 1 }

/-- How often the storage is watched after `GetUnsyncedCommits` is answered. -/
def watchersAfter (upload : PageUpload) (commitWatchers : Nat) : Nat :=
  if upload.state = .setup then commitWatchers + 1 else commitWatchers

end PageUpload

variable {upload : PageUpload} {before : SyncWorld}

namespace SyncWorld

variable {world next : SyncWorld}

/-- `PageSyncImpl` knows the state of the upload. -/
def ToldUpload (world : SyncWorld) : Prop :=
  world.sync.uploadState = world.upload.state

structure Uploads (upload : PageUpload) (before after : SyncWorld) : Prop where
  only : OnlyUpload before after
  upload : after.upload = upload
  told : before.ToldUpload → after.ToldUpload

theorem Uploads.refl (world : SyncWorld) : Uploads world.upload world world :=
  ⟨.refl world, rfl, fun told => told⟩

variable {first second third : SyncWorld}

theorem Uploads.trans {middle last : PageUpload} (before : Uploads middle first second)
    (after : Uploads last second third) : Uploads last first third :=
  ⟨before.only.trans after.only, after.upload, fun told => after.told (before.told told)⟩

section

variable (world : SyncWorld)

theorem uploads_upload (sameState : upload.state = world.upload.state) :
    Uploads upload world { world with upload } :=
  ⟨onlyUpload_upload world upload, rfl, fun told => told.trans sameState.symm⟩

theorem uploads_setState (newState : UploadSyncState) :
    Uploads { world.upload with state := newState } world (world.setState newState) where
  only := onlyUpload_setState world newState
  upload := by
    unfold setState
    split
    case isTrue same =>
      subst same
      rfl
    case isFalse differs =>
      unfold setUploadState handleSyncError
      split <;> rfl
  told := by
    intro told
    unfold setState
    split
    · exact told
    · unfold setUploadState handleSyncError
      split <;> rfl

theorem uploads_uploadUnsyncedCommits :
    Uploads world.upload.afterUploadUnsynced world world.uploadUnsyncedCommits := by
  unfold uploadUnsyncedCommits PageUpload.afterUploadUnsynced
  split
  · exact uploads_setState world .idle
  split
  · exact .refl world
  · exact uploads_upload world rfl

theorem uploads_startUpload : Uploads world.upload.afterStart world world.startUpload := by
  unfold startUpload PageUpload.afterStart
  split
  · have flag : Uploads { world.upload with commitsToUpload := true } world
        (world.setCommitsToUpload true) := uploads_upload world rfl
    have setup := flag.trans (uploads_setState (world.setCommitsToUpload true) .setup)
    have uploads := uploads_uploadUnsyncedCommits ((world.setCommitsToUpload true).setState .setup)
    rw [setup.upload] at uploads
    exact setup.trans uploads
  · exact uploads_uploadUnsyncedCommits world

theorem uploads_onNewLocalCommits :
    Uploads (world.upload.afterNewCommits world.download.isIdle) world
      (world.onNewLocalCommits .localChange) := by
  have flag : Uploads { world.upload with commitsToUpload := true } world
      (world.setCommitsToUpload true) := uploads_upload world rfl
  unfold onNewLocalCommits PageUpload.afterNewCommits
  have sameDownload : (world.setCommitsToUpload true).download = world.download := rfl
  have sameState : (world.setCommitsToUpload true).upload.state = world.upload.state := rfl
  rw [if_neg (show ¬ChangeSource.localChange ≠ .localChange from not_not.mpr rfl)]
  dsimp only
  rw [sameDownload, sameState]
  split
  · exact flag.trans (uploads_setState (world.setCommitsToUpload true) .waitRemoteDownload)
  split
  · exact flag
  · have pending := flag.trans (uploads_setState (world.setCommitsToUpload true) .pending)
    have uploads := uploads_uploadUnsyncedCommits ((world.setCommitsToUpload true).setState .pending)
    rw [pending.upload] at uploads
    exact pending.trans uploads

theorem uploads_notifyLocal :
    Uploads ((fun upload : PageUpload => upload.afterNewCommits world.download.isIdle)^[
      world.storage.commitWatchers] world.upload) world (world.notifyWatchers .localChange) := by
  unfold notifyWatchers
  generalize world.storage.commitWatchers = count
  induction count generalizing world with
  | zero => exact .refl world
  | succ count ih =>
    have told := uploads_onNewLocalCommits world
    have others := ih (world.onNewLocalCommits .localChange)
    rw [told.only.download, told.upload] at others
    exact told.trans others

end

/-- A local commit is stored, and `PageUpload` is told as often as it watches the storage. -/
structure AddsLocal (commit : CommitId) (before after : SyncWorld) : Prop where
  commits : after.storage.commits = before.storage.commits ++ [commit]
  unsynced : after.storage.unsynced = before.storage.unsynced ++ [commit]
  commitWatchers : after.storage.commitWatchers = before.storage.commitWatchers
  upload : after.upload =
    (fun upload : PageUpload => upload.afterNewCommits before.download.isIdle)^[
      before.storage.commitWatchers] before.upload
  download : after.download = before.download
  started : after.sync.started = before.sync.started
  enableUpload : after.sync.enableUpload = before.sync.enableUpload
  downloadState : after.sync.downloadState = before.sync.downloadState
  told : before.ToldUpload → after.ToldUpload

theorem addsLocal_addCommitFromLocal (world : SyncWorld) (commit : CommitId) :
    AddsLocal commit world (world.addCommitFromLocal commit) := by
  have notified := uploads_notifyLocal { world with storage := { world.storage with
    commits := world.storage.commits ++ [commit]
    unsynced := world.storage.unsynced ++ [commit] } }
  have only := notified.only
  have sameWatchers := congrArg SyncStorage.commitWatchers only.storage
  exact
    { commits := congrArg SyncStorage.commits only.storage
      unsynced := congrArg SyncStorage.unsynced only.storage
      commitWatchers := sameWatchers
      upload := notified.upload
      __ := only
      told := notified.told }

theorem notifyWatchers_sync (world : SyncWorld) : world.notifyWatchers .sync = world := by
  unfold notifyWatchers
  generalize world.storage.commitWatchers = count
  induction count with
  | zero => rfl
  | succ count ih =>
    rw [iterate_succ_apply, onNewLocalCommits, if_pos (by decide)]
    exact ih

/-- The download is not idle, and its delegate does not think that it is. -/
def IsBusy (world : SyncWorld) : Prop :=
  world.download.commitState ≠ .idle ∧ world.sync.downloadState ≠ .idle

/-- What the download does next to the upload, when it does not become idle. -/
structure KeepsUpload (before after : SyncWorld) : Prop where
  upload : after.upload = before.upload
  commitWatchers : after.storage.commitWatchers = before.storage.commitWatchers
  commits : after.storage.commits = before.storage.commits
  unsynced : after.storage.unsynced = before.storage.unsynced
  told : before.ToldUpload → after.ToldUpload
  busy : before.IsBusy → after.IsBusy

/-- The download may become idle, which may start the upload, and commits may be stored. -/
structure MayStart (idles starts : Prop) (added : List CommitId) (before after : SyncWorld) :
    Prop where
  upload : starts ∧ after.upload = before.upload.afterStart ∨ ¬starts ∧ after.upload = before.upload
  commitWatchers : after.storage.commitWatchers = before.storage.commitWatchers
  commits : after.storage.commits =
    before.storage.commits ++ added.filter (· ∉ before.storage.commits)
  unsynced : after.storage.unsynced = before.storage.unsynced.filter (· ∉ added)
  told : before.ToldUpload → after.ToldUpload
  busy : ¬idles → before.IsBusy → after.IsBusy

theorem KeepsUpload.refl (world : SyncWorld) : KeepsUpload world world :=
  ⟨rfl, rfl, rfl, rfl, id, id⟩

theorem KeepsUpload.trans (before : KeepsUpload first second) (after : KeepsUpload second third) :
    KeepsUpload first third where
  upload := after.upload.trans before.upload
  commitWatchers := after.commitWatchers.trans before.commitWatchers
  commits := after.commits.trans before.commits
  unsynced := after.unsynced.trans before.unsynced
  told := fun told => after.told (before.told told)
  busy := fun busy => after.busy (before.busy busy)

theorem KeepsUpload.mayStart {after : SyncWorld} (keeps : KeepsUpload before after)
    {idles starts : Prop} (notStarts : ¬starts) : MayStart idles starts [] before after where
  upload := .inr ⟨notStarts, keeps.upload⟩
  __ := keeps
  commits := by rw [keeps.commits, List.filter_nil, List.append_nil]
  unsynced := by simp [keeps.unsynced]
  busy := fun _ => keeps.busy

theorem MayStart.after {idles starts : Prop} {added : List CommitId}
    (mayStart : MayStart idles starts added second third) (keeps : KeepsUpload first second) :
    MayStart idles starts added first third where
  upload := by
    rw [← keeps.upload]
    exact mayStart.upload
  commitWatchers := mayStart.commitWatchers.trans keeps.commitWatchers
  commits := by rw [mayStart.commits, keeps.commits]
  unsynced := by rw [mayStart.unsynced, keeps.unsynced]
  told := fun told => mayStart.told (keeps.told told)
  busy := fun notIdle busy => mayStart.busy notIdle (keeps.busy busy)

/-- The download may be set at will, but for the commit state. -/
theorem keepsUpload_download (world : SyncWorld) {storage : SyncStorage} {download : PageDownload}
    {log : List SyncEvent} (sameState : download.commitState = world.download.commitState)
    (sameStorage : storage.commitWatchers = world.storage.commitWatchers ∧
      storage.commits = world.storage.commits ∧ storage.unsynced = world.storage.unsynced) :
    KeepsUpload world { world with
      storage
      download
      log } where
  upload := rfl
  commitWatchers := sameStorage.1
  commits := sameStorage.2.1
  unsynced := sameStorage.2.2
  told := fun told => told
  busy := fun busy => ⟨by rw [sameState]; exact busy.1, busy.2⟩

/-- `SetCommitState(DOWNLOAD_IDLE)` starts the upload: it is enabled, the delegate has not been
told that the download is idle, and no `GetObject` call hides that it is. -/
def StartsUpload (world : SyncWorld) : Prop :=
  world.sync.enableUpload ∧ world.sync.downloadState ≠ .idle ∧
    world.download.commitState ≠ .idle ∧ world.download.currentGetObjectCalls = 0

instance decidableStartsUpload (world : SyncWorld) : Decidable world.StartsUpload :=
  inferInstanceAs (Decidable (_ ∧ _ ∧ _ ∧ _))

theorem getMergedState_eq_idle {commitState : DownloadSyncState} {calls : Int} :
    getMergedState commitState calls = .idle ↔ commitState = .idle ∧ calls = 0 := by
  unfold getMergedState
  split
  case isTrue isOther => exact iff_of_false isOther fun isIdle => isOther isIdle.1
  case isFalse isIdle =>
    split
    case isTrue noCalls => exact iff_of_true rfl ⟨not_not.mp isIdle, noCalls⟩
    case isFalse calls => exact iff_of_false nofun fun isIdle => calls isIdle.2

section

variable (world : SyncWorld)

theorem setDownloadState_cases (nextDownloadState : DownloadSyncState) :
    (world.sync.downloadState ≠ .idle ∧ nextDownloadState = .idle ∧ world.sync.enableUpload) ∧
        (world.setDownloadState nextDownloadState).upload = world.upload.afterStart ∧
        (world.ToldUpload → (world.setDownloadState nextDownloadState).ToldUpload) ∨
      ¬(world.sync.downloadState ≠ .idle ∧ nextDownloadState = .idle ∧ world.sync.enableUpload) ∧
        (world.setDownloadState nextDownloadState).upload = world.upload ∧
        (world.ToldUpload → (world.setDownloadState nextDownloadState).ToldUpload) := by
  unfold setDownloadState
  dsimp only
  by_cases isError : nextDownloadState = .permanentError
  · subst isError
    rw [if_pos rfl, startUploadWhenIdle, if_neg (by simp)]
    exact .inr ⟨by simp, rfl, fun told => told⟩
  · rw [if_neg isError, startUploadWhenIdle]
    dsimp only
    have starts := uploads_startUpload
      { world with log := world.log ++ world.toldBacklog nextDownloadState }
    split
    case isTrue isStart => exact .inl ⟨isStart, starts.upload, starts.told⟩
    case isFalse isOther => exact .inr ⟨isOther, rfl, fun told => told⟩

theorem mayStart_setCommitState (newState : DownloadSyncState) :
    MayStart (newState = .idle) (newState = .idle ∧ world.StartsUpload) [] world
      (world.setCommitState newState) := by
  have merged := @getMergedState_eq_idle newState world.download.currentGetObjectCalls
  have isOld := @getMergedState_eq_idle world.download.commitState
    world.download.currentGetObjectCalls
  have sets := setsCommitState world newState
  refine ⟨?_, by rw [sets.storage], by simp [sets.storage], by simp [sets.storage], ?_, ?_⟩
  · rcases setCommitState_cases world newState with ⟨isSet, same⟩ | ⟨differs, isTold⟩
    · rw [isSet]
      refine .inr ⟨?_, rfl⟩
      rintro ⟨isIdle, -, -, notIdle, noCalls⟩
      rw [same] at isOld
      exact notIdle (isOld.mp (merged.mpr ⟨isIdle, noCalls⟩)).1
    · have sameStart : (world.sync.downloadState ≠ .idle ∧
          getMergedState newState world.download.currentGetObjectCalls = .idle ∧
          world.sync.enableUpload) ↔ newState = .idle ∧ world.StartsUpload := by
        constructor
        · rintro ⟨notTold, isIdle, isEnabled⟩
          obtain ⟨isIdleState, noCalls⟩ := merged.mp isIdle
          refine ⟨isIdleState, isEnabled, notTold, fun wasIdle => differs ?_, noCalls⟩
          rw [isIdle, isOld.mpr ⟨wasIdle, noCalls⟩]
        · rintro ⟨isIdle, isEnabled, notTold, -, noCalls⟩
          exact ⟨notTold, merged.mpr ⟨isIdle, noCalls⟩, isEnabled⟩
      rw [isTold, ← sameStart]
      rcases setDownloadState_cases
          { world with download.commitState := newState }
          (getMergedState newState world.download.currentGetObjectCalls) with
        ⟨isStart, upload, -⟩ | ⟨notStart, upload, -⟩
      · exact .inl ⟨isStart, upload⟩
      · exact .inr ⟨notStart, upload⟩
  · intro told
    rcases setCommitState_cases world newState with ⟨isSet, -⟩ | ⟨-, isTold⟩
    · rw [isSet]
      exact told
    · rw [isTold]
      rcases setDownloadState_cases
          { world with download.commitState := newState }
          (getMergedState newState world.download.currentGetObjectCalls) with
        ⟨-, -, kept⟩ | ⟨-, -, kept⟩
      · exact kept told
      · exact kept told
  · intro notIdle busy
    refine ⟨by rw [sets.download]; exact notIdle, ?_⟩
    rcases setCommitState_cases world newState with ⟨isSet, -⟩ | ⟨-, isTold⟩
    · rw [isSet]
      exact busy.2
    · rw [isTold, (tellsDownload_setDownloadState _ _).downloadState]
      exact fun isIdle => notIdle (merged.mp isIdle).1

theorem keepsUpload_setOther {newState : DownloadSyncState}
    (isOther : newState ≠ .idle) : KeepsUpload world (world.setCommitState newState) := by
  have mayStart := mayStart_setCommitState world newState
  have sets := setsCommitState world newState
  refine ⟨?_, mayStart.commitWatchers, by rw [sets.storage], by rw [sets.storage], mayStart.told,
    mayStart.busy isOther⟩
  rcases mayStart.upload with ⟨⟨isIdle, -⟩, -⟩ | ⟨-, same⟩
  · exact absurd isIdle isOther
  · exact same

theorem busyInvariant_keepsUpload : BusyInvariant (KeepsUpload world) where
  setOther isOther keeps := keeps.trans (keepsUpload_setOther _ isOther)
  download _ {_ _ _} sameState _ sameStorage keeps :=
    keeps.trans (keepsUpload_download _ sameState sameStorage)

theorem keepsUpload_startDownload : KeepsUpload world world.startDownload :=
  (busyInvariant_keepsUpload world).startDownload (.refl world)

theorem mayStart_onWatcherMetadata (lastCommitTs : PositionToken) :
    MayStart True world.StartsUpload [] world (world.onWatcherMetadata lastCommitTs) := by
  have bound : KeepsUpload world
      ((world.setWatcherBinding (some lastCommitTs)).sendDownload .setWatcher) :=
    keepsUpload_download world rfl ⟨rfl, rfl, rfl⟩
  have starts := (mayStart_setCommitState
    ((world.setWatcherBinding (some lastCommitTs)).sendDownload .setWatcher) .idle).after bound
  rw [and_iff_right rfl] at starts
  exact ⟨starts.upload, starts.commitWatchers, starts.commits, starts.unsynced, starts.told,
    absurd trivial⟩

end

theorem mayStart_onBatchDone {isBacklog : Bool} (isNext : world.onBatchDone isBacklog = some next) :
    MayStart (world.download.commitState = .inProgress ∧ world.download.commitsToDownload = [])
      ((world.download.commitState = .inProgress ∧ world.download.commitsToDownload = []) ∧
        world.StartsUpload) [] world next := by
  obtain ⟨middle, isMiddle, isLast⟩ := onBatchDone_cases isNext
  rcases isMiddle with ⟨-, isMiddle⟩ | ⟨-, rfl⟩
  · -- A watcher can not be set while a batch makes the download be in progress.
    have notInProgress : world.download.commitState ≠ .inProgress := by
      obtain ⟨isState, -⟩ := setRemoteWatcher_eq_some.mp isMiddle
      rcases isState with isState | isState <;> rw [isState] <;> decide
    have before := (busyInvariant_keepsUpload world).setRemoteWatcher (.refl world) isMiddle
    suffices keeps : KeepsUpload world next from
      keeps.mayStart fun isIdle => notInProgress isIdle.1.1
    rcases isLast with ⟨-, inProgress, -⟩ | ⟨-, -, rfl⟩ | ⟨-, rfl⟩
    · rw [download_setRemoteWatcher isMiddle] at inProgress
      cases inProgress
    · exact before.trans (keepsUpload_download middle rfl ⟨rfl, rfl, rfl⟩)
    · exact before.trans (keepsUpload_download middle rfl ⟨rfl, rfl, rfl⟩)
  · have dropped : KeepsUpload middle middle.dropBatch :=
      keepsUpload_download middle rfl ⟨rfl, rfl, rfl⟩
    rcases isLast with ⟨isEmpty, inProgress, rfl⟩ | ⟨-, other, rfl⟩ | ⟨others, rfl⟩
    · have starts := (mayStart_setCommitState middle.dropBatch .idle).after dropped
      have isIdle : middle.download.commitState = .inProgress ∧
          middle.download.commitsToDownload = [] := ⟨inProgress, isEmpty⟩
      rw [and_iff_right rfl] at starts
      rw [and_iff_right isIdle]
      exact ⟨starts.upload, starts.commitWatchers, starts.commits, starts.unsynced, starts.told,
        absurd isIdle⟩
    · exact dropped.mayStart fun isIdle => other isIdle.1.1
    · have started : KeepsUpload middle middle.startQueue :=
        keepsUpload_download middle rfl ⟨rfl, rfl, rfl⟩
      exact started.mayStart fun isIdle => others isIdle.1.2

/-- The steps that call `SetCommitState(DOWNLOAD_IDLE)`. -/
def becomesIdle (world : SyncWorld) : PageDownloadAction → Bool
  | .answerSyncMetadata .setRemoteWatcher _ => true
  | .advanceBatch =>
    world.download.batchDownload.any (fun batch => batch.stage = .saved) &&
      (world.download.commitState = .inProgress && world.download.commitsToDownload = [])
  | _ => false

def addedCommits (world : SyncWorld) : PageDownloadAction → List CommitId
  | .advanceBatch =>
    match world.download.batchDownload with
    | some batch => if batch.stage = .adding then batch.commits else []
    | none => []
  | _ => []

theorem mayStart_advanceBatch {batch : BatchDownload}
    (isBatch : world.download.batchDownload = some batch)
    (isNext : world.advanceBatch batch = some next) :
    MayStart (world.becomesIdle .advanceBatch) (world.becomesIdle .advanceBatch ∧ world.StartsUpload)
      (world.addedCommits .advanceBatch) world next := by
  have other (isStage : batch.stage ≠ .saved) :
      ¬(world.becomesIdle .advanceBatch ∧ world.StartsUpload) := by
    simp [becomesIdle, isBatch, isStage]
  have none (isStage : batch.stage ≠ .adding) : world.addedCommits .advanceBatch = [] := by
    simp [addedCommits, isBatch, isStage]
  have staged (stage : BatchStage) : KeepsUpload world (world.setBatchStage batch stage) :=
    keepsUpload_download world rfl ⟨rfl, rfl, rfl⟩
  unfold advanceBatch at isNext
  split at isNext
  case h_1 isStage =>
    cases isNext
    rw [none (by rw [isStage]; decide)]
    exact (staged .adding).mayStart (other (by rw [isStage]; decide))
  case h_2 isStage =>
    cases isNext
    have added : world.addedCommits .advanceBatch = batch.commits := by
      simp [addedCommits, isBatch, isStage]
    rw [added, addCommitsFromSync, notifyWatchers_sync]
    exact ⟨.inr ⟨other (by rw [isStage]; decide), rfl⟩, rfl, rfl, rfl, fun told => told,
      fun _ busy => busy⟩
  case h_3 isStage =>
    cases isNext
    rw [none (by rw [isStage]; decide)]
    exact (staged .saving).mayStart (other (by rw [isStage]; decide))
  case h_4 isStage =>
    cases isNext
    rw [none (by rw [isStage]; decide)]
    refine KeepsUpload.mayStart ?_ (other (by rw [isStage]; decide))
    exact (staged .saved).trans (keepsUpload_download (world.setBatchStage batch .saved) rfl
      ⟨rfl, rfl, rfl⟩)
  case h_5 isStage =>
    rw [none (by rw [isStage]; decide)]
    have idles : world.becomesIdle .advanceBatch = true ↔
        world.download.commitState = .inProgress ∧ world.download.commitsToDownload = [] := by
      simp [becomesIdle, isBatch, isStage]
    rw [idles]
    exact mayStart_onBatchDone isNext
  case h_6 => cases isNext

theorem upload_startDownload (world : SyncWorld) : world.startDownload.upload = world.upload :=
  (keepsUpload_startDownload world).upload

theorem mayStart_stepDownload {action : PageDownloadAction}
    (isStep : world.stepDownload action = some next) :
    MayStart (world.becomesIdle action) (world.becomesIdle action ∧ world.StartsUpload)
      (world.addedCommits action) world next := by
  have taken (call : DownloadCall) : KeepsUpload world (world.takeDownload call) :=
    keepsUpload_download world rfl ⟨rfl, rfl, rfl⟩
  have kept := busyInvariant_keepsUpload world
  have quiet {other : Prop} (keeps : KeepsUpload world next) :
      MayStart (false = true) (false = true ∧ other) [] world next :=
    keeps.mayStart fun never => nomatch never.1
  cases downloadStep_of_eq_some isStep with
  | getObject | readSyncMetadata | startsDownload =>
    exact quiet (keepsUpload_download world rfl ⟨rfl, rfl, rfl⟩)
  | @setsRemoteWatcher lastCommitTs =>
    have starts := (mayStart_onWatcherMetadata (world.takeDownload
      (.getSyncMetadata .setRemoteWatcher (some lastCommitTs))) lastCommitTs).after (taken _)
    have isIdle : world.becomesIdle (.answerSyncMetadata .setRemoteWatcher lastCommitTs) = true :=
      rfl
    rw [and_iff_right isIdle, isIdle, eq_self]
    exact starts
  | failSyncMetadata | failSetWatcher => exact quiet (kept.handleDownloadCommitError (taken _))
  | answerGetCommits _ _ isNext => exact quiet (kept.onGetCommits (taken _) isNext)
  | @failGetCommits positionToken =>
    have failed := (taken (.getCommits positionToken)).trans
      (keepsUpload_setOther _ (show DownloadSyncState.temporaryError ≠ .idle by decide))
    exact quiet (failed.trans (keepsUpload_download _ rfl ⟨rfl, rfl, rfl⟩))
  | answerSetWatcher | retryFailed => exact quiet (taken _)
  | @answerGetObject stage =>
    refine quiet ?_
    cases stage <;> exact keepsUpload_download world rfl ⟨rfl, rfl, rfl⟩
  | @failGetObject _ isPermanent =>
    refine quiet ?_
    cases isPermanent <;> exact keepsUpload_download world rfl ⟨rfl, rfl, rfl⟩
  | @retry callable _ _ _ isNext =>
    cases callable with
    | startDownload =>
      cases isNext
      exact quiet (kept.startDownload (taken _))
    | setRemoteWatcher => exact quiet (kept.setRemoteWatcher (taken _) isNext)
    | getObject =>
      cases isNext
      exact quiet (keepsUpload_download world rfl ⟨rfl, rfl, rfl⟩)
  | @onNewCommits _ upTo _ _ _ isNext =>
    have bound : KeepsUpload world (world.setWatcherBinding (some upTo)) :=
      keepsUpload_download world rfl ⟨rfl, rfl, rfl⟩
    exact quiet (kept.onNewRemoteCommits bound isNext)
  | onError _ isNext => exact quiet (kept.onError (.refl world) isNext)
  | advanceBatch isBatch isNext => exact mayStart_advanceBatch isBatch isNext
  | @failBatch batch =>
    have staged : KeepsUpload world (world.setBatchStage batch .failed) :=
      keepsUpload_download world rfl ⟨rfl, rfl, rfl⟩
    exact quiet (kept.handleDownloadCommitError staged)

/-- What a step makes of the upload, and how often it watches the storage then. -/
inductive UploadChange (parents : CommitId → List CommitId) (world : SyncWorld) :
    PageUploadAction → PageUpload → Nat → Prop where
  | readUnsynced (inCalls : .getUnsyncedCommits none ∈ world.upload.calls) :
      UploadChange parents world .readUnsyncedCommits
        ((world.upload.take (.getUnsyncedCommits none)).send (.getUnsyncedCommits
          (some ⟨world.storage.unsynced, world.upload.uploadsEnded⟩)))
        world.storage.commitWatchers
  | noneUnsynced {commits : UnsyncedList}
      (inCalls : .getUnsyncedCommits (some commits) ∈ world.upload.calls)
      (isEmpty : commits.commits = []) :
      UploadChange parents world (.answerUnsyncedCommits commits)
        { world.upload.take (.getUnsyncedCommits (some commits)) with
          state := .idle
          commitsToUpload := false }
        (world.upload.watchersAfter world.storage.commitWatchers)
  | someUnsynced {commits : UnsyncedList}
      (inCalls : .getUnsyncedCommits (some commits) ∈ world.upload.calls)
      (notEmpty : commits.commits ≠ []) :
      UploadChange parents world (.answerUnsyncedCommits commits)
        ((world.upload.take (.getUnsyncedCommits (some commits))).send
          (.getHeadCommitIds commits none))
        (world.upload.watchersAfter world.storage.commitWatchers)
  | failUnsynced {commits : Option UnsyncedList}
      (inCalls : .getUnsyncedCommits commits ∈ world.upload.calls) {commitWatchers : Nat} :
      UploadChange parents world (.failUnsyncedCommits commits)
        { world.upload.take (.getUnsyncedCommits commits) with state := .permanentError }
        commitWatchers
  | readHeads {commits : UnsyncedList}
      (inCalls : .getHeadCommitIds commits none ∈ world.upload.calls) :
      UploadChange parents world (.readHeadCommitIds commits)
        ((world.upload.take (.getHeadCommitIds commits none)).send (.getHeadCommitIds commits
          (some (world.storage.heads parents))))
        world.storage.commitWatchers
  | headsOther {commits : UnsyncedList} {heads : List CommitId}
      (inCalls : .getHeadCommitIds commits (some heads) ∈ world.upload.calls)
      (isBatch : world.upload.batchUpload.isSome) :
      UploadChange parents world (.answerHeadCommitIds commits heads)
        (world.upload.take (.getHeadCommitIds commits (some heads))) world.storage.commitWatchers
  | headsWait {commits : UnsyncedList} {heads : List CommitId}
      (inCalls : .getHeadCommitIds commits (some heads) ∈ world.upload.calls)
      (noBatch : world.upload.batchUpload = none) (isBusy : ¬world.download.isIdle) :
      UploadChange parents world (.answerHeadCommitIds commits heads)
        { world.upload.take (.getHeadCommitIds commits (some heads)) with
          state := .waitRemoteDownload }
        world.storage.commitWatchers
  | headsSeveral {commits : UnsyncedList} {heads : List CommitId}
      (inCalls : .getHeadCommitIds commits (some heads) ∈ world.upload.calls)
      (noBatch : world.upload.batchUpload = none) (isIdle : world.download.isIdle)
      (several : 1 < heads.length) :
      UploadChange parents world (.answerHeadCommitIds commits heads)
        { world.upload.take (.getHeadCommitIds commits (some heads)) with
          commitsToUpload := false
          state := .waitTooManyLocalHeads }
        world.storage.commitWatchers
  | headsEnter {commits : UnsyncedList} {heads : List CommitId}
      (enters : world.upload.batchUpload = none ∧ world.upload.commitsToUpload)
      (inCalls : .getHeadCommitIds commits (some heads) ∈ world.upload.calls) :
      UploadChange parents world (.answerHeadCommitIds commits heads)
        { world.upload.take (.getHeadCommitIds commits (some heads)) with
          state := .inProgress
          batchUpload := some commits.commits }
        world.storage.commitWatchers
  | failHeads {commits : UnsyncedList} {heads : Option (List CommitId)}
      (inCalls : .getHeadCommitIds commits heads ∈ world.upload.calls) {commitWatchers : Nat} :
      UploadChange parents world (.failHeadCommitIds commits heads)
        { world.upload.take (.getHeadCommitIds commits heads) with state := .permanentError }
        commitWatchers
  | retry (inCalls : .retry ∈ world.upload.calls)
      (notFailed : world.upload.state ≠ .permanentError) :
      UploadChange parents world .retry (world.upload.take .retry).afterUploadUnsynced
        world.storage.commitWatchers
  | giveUp (inCalls : .retry ∈ world.upload.calls)
      (isFailed : world.upload.state = .permanentError) :
      UploadChange parents world .retry (world.upload.take .retry) world.storage.commitWatchers
  | marked {commit : CommitId} :
      UploadChange parents world (.markCommitSynced commit) world.upload
        world.storage.commitWatchers
  | done (isUploading : world.isUploading) :
      UploadChange parents world .uploadDone world.upload.endBatch.afterUploadUnsynced
        world.storage.commitWatchers
  | temporaryError (isUploading : world.isUploading) :
      UploadChange parents world (.uploadError .temporary)
        ({ world.upload.endBatch with state := .temporaryError }.send .retry)
        world.storage.commitWatchers
  | permanentError (isUploading : world.isUploading) :
      UploadChange parents world (.uploadError .permanent)
        { world.upload with
          state := .permanentError
          batchFailed := true }
        world.storage.commitWatchers

structure ChangesUpload (parents : CommitId → List CommitId) (action : PageUploadAction)
    (before after : SyncWorld) : Prop where
  change : UploadChange parents before action after.upload after.storage.commitWatchers
  told : before.ToldUpload → after.ToldUpload
  unsynced : after.storage.unsynced ⊆ before.storage.unsynced

variable {parents : CommitId → List CommitId} {commits : UnsyncedList} {action : PageUploadAction}

theorem changesUpload_of_uploads
    (change : UploadChange parents world action upload world.storage.commitWatchers)
    (uploads : Uploads upload world next) : ChangesUpload parents action world next where
  change := by
    rw [uploads.upload, uploads.only.storage]
    exact change
  told := uploads.told
  unsynced := by
    rw [uploads.only.storage]
    exact fun _ isUnsynced => isUnsynced

section

variable (world : SyncWorld)

theorem uploads_takeUpload (call : UploadCall) :
    Uploads (world.upload.take call) world (world.takeUpload call) :=
  uploads_upload world rfl

theorem uploads_sendUpload (call : UploadCall) :
    Uploads (world.upload.send call) world (world.sendUpload call) :=
  uploads_upload world rfl

theorem uploads_verifyUnsyncedCommits (commits : UnsyncedList) :
    Uploads (if commits.commits = [] then { world.upload with
        state := .idle
        commitsToUpload := false }
      else world.upload.send (.getHeadCommitIds commits none)) world
      (world.verifyUnsyncedCommits commits) := by
  unfold verifyUnsyncedCommits
  split
  · have idle := uploads_setState world .idle
    refine idle.trans ⟨onlyUpload_upload _ _, ?_, fun told => told⟩
    dsimp only [setCommitsToUpload]
    rw [idle.upload]
  · exact uploads_sendUpload world _

end

theorem told_handleUploadError (told : world.ToldUpload) : world.handleUploadError.ToldUpload := by
  unfold handleUploadError
  refine (uploads_setState _ .permanentError).told ?_
  split <;> exact told

theorem upload_handleUploadError (world : SyncWorld) :
    world.handleUploadError.upload = { world.upload with state := .permanentError } := by
  unfold handleUploadError
  dsimp only
  rw [(uploads_setState _ .permanentError).upload]
  split <;> rfl

theorem unsynced_handleUploadError (world : SyncWorld) :
    world.handleUploadError.storage.unsynced = world.storage.unsynced := by
  unfold handleUploadError
  dsimp only
  rw [(uploads_setState _ .permanentError).only.storage]
  split <;> rfl

section

variable (inCalls : .getUnsyncedCommits (some commits) ∈ world.upload.calls)
include inCalls

/-- The answer to `GetUnsyncedCommits` is verified, once the storage is watched. -/
theorem changesUpload_verifyUnsyncedCommits {watching : SyncWorld}
    (upload : watching.upload = world.upload.take (.getUnsyncedCommits (some commits)))
    (commitWatchers : watching.storage.commitWatchers =
      world.upload.watchersAfter world.storage.commitWatchers)
    (unsynced : watching.storage.unsynced = world.storage.unsynced)
    (told : world.ToldUpload → watching.ToldUpload) :
    ChangesUpload parents (.answerUnsyncedCommits commits) world
      (watching.verifyUnsyncedCommits commits) := by
  have verified := uploads_verifyUnsyncedCommits watching commits
  refine ⟨?_, fun isTold => verified.told (told isTold), ?_⟩
  · rw [verified.upload, verified.only.storage, commitWatchers, upload]
    split
    case isTrue isEmpty => exact .noneUnsynced inCalls isEmpty
    case isFalse notEmpty => exact .someUnsynced inCalls notEmpty
  · rw [verified.only.storage, unsynced]
    exact fun _ isUnsynced => isUnsynced

theorem changesUpload_onUnsyncedCommits :
    ChangesUpload parents (.answerUnsyncedCommits commits) world
      ((world.takeUpload (.getUnsyncedCommits (some commits))).onUnsyncedCommits commits) := by
  have sameState : (world.takeUpload (.getUnsyncedCommits (some commits))).upload.state =
      world.upload.state := rfl
  unfold onUnsyncedCommits
  dsimp only
  rw [sameState]
  split
  case isTrue isSetup =>
    exact changesUpload_verifyUnsyncedCommits inCalls rfl
      (by rw [PageUpload.watchersAfter, if_pos isSetup]; rfl) rfl fun told => told
  case isFalse notSetup =>
    exact changesUpload_verifyUnsyncedCommits inCalls rfl
      (by rw [PageUpload.watchersAfter, if_neg notSetup]; rfl) rfl fun told => told

end

theorem changesUpload_onHeadCommitIds {heads : List CommitId}
    (inCalls : .getHeadCommitIds commits (some heads) ∈ world.upload.calls)
    (isNext : (world.takeUpload (.getHeadCommitIds commits (some heads))).onHeadCommitIds commits
      heads = some next) :
    ChangesUpload parents (.answerHeadCommitIds commits heads) world next := by
  have taken := uploads_takeUpload world (.getHeadCommitIds commits (some heads))
  unfold onHeadCommitIds at isNext
  split at isNext
  case isTrue isBatch =>
    cases isNext
    exact changesUpload_of_uploads (.headsOther inCalls isBatch) taken
  case isFalse noBatch =>
    have noBatch : world.upload.batchUpload = none := not_isSome_iff_eq_none.mp noBatch
    obtain ⟨notEmpty, isNext⟩ := ite_none_left_eq_some.mp isNext
    split at isNext
    case isTrue isBusy =>
      cases isNext
      have waits := taken.trans (uploads_setState _ .waitRemoteDownload)
      exact changesUpload_of_uploads (.headsWait inCalls noBatch isBusy) waits
    case isFalse isIdle =>
      split at isNext
      case isTrue several =>
        cases isNext
        have cleared : Uploads { world.upload.take (.getHeadCommitIds commits (some heads)) with
              commitsToUpload := false }
            (world.takeUpload (.getHeadCommitIds commits (some heads)))
            ((world.takeUpload (.getHeadCommitIds commits (some heads))).setCommitsToUpload false) :=
          uploads_upload _ rfl
        have waits := (taken.trans cleared).trans (uploads_setState _ .waitTooManyLocalHeads)
        exact changesUpload_of_uploads
          (.headsSeveral inCalls noBatch (not_not.mp isIdle) several) waits
      case isFalse =>
        obtain ⟨isEntered, isNext⟩ := ite_none_left_eq_some.mp isNext
        cases isNext
        have inProgress := taken.trans (uploads_setState _ .inProgress)
        refine changesUpload_of_uploads (.headsEnter ⟨noBatch, ?_⟩ inCalls)
          (inProgress.trans ⟨onlyUpload_upload _ _, ?_, fun told => told⟩)
        · exact not_not.mp fun noFlag => isEntered (.inr noFlag)
        · dsimp only [setBatchUpload]
          rw [inProgress.upload]
          rfl

theorem changesUpload_stepUpload (isStep : world.stepUpload parents action = some next) :
    ChangesUpload parents action world next := by
  have taken (call : UploadCall) := uploads_takeUpload world call
  cases action <;> dsimp only [stepUpload] at isStep
  case readUnsyncedCommits =>
    obtain ⟨inCalls, isNext⟩ := answerUpload_eq_some.mp isStep
    cases isNext
    have sent := uploads_sendUpload (world.takeUpload (.getUnsyncedCommits none))
      (.getUnsyncedCommits (some ⟨world.storage.unsynced, world.upload.uploadsEnded⟩))
    exact changesUpload_of_uploads (.readUnsynced inCalls) ((taken _).trans sent)
  case answerUnsyncedCommits commits =>
    obtain ⟨inCalls, isNext⟩ := answerUpload_eq_some.mp isStep
    cases isNext
    exact changesUpload_onUnsyncedCommits inCalls
  case failUnsyncedCommits commits =>
    obtain ⟨inCalls, isNext⟩ := answerUpload_eq_some.mp isStep
    cases isNext
    have failed := (taken (.getUnsyncedCommits commits)).trans (uploads_setState _ .permanentError)
    refine ⟨?_, fun told => told_handleUploadError (failed.told told), ?_⟩
    · rw [upload_handleUploadError, failed.upload]
      exact .failUnsynced inCalls
    · rw [unsynced_handleUploadError, failed.only.storage]
      exact fun _ isUnsynced => isUnsynced
  case readHeadCommitIds commits =>
    obtain ⟨inCalls, isNext⟩ := answerUpload_eq_some.mp isStep
    cases isNext
    have sent := uploads_sendUpload (world.takeUpload (.getHeadCommitIds commits none))
      (.getHeadCommitIds commits (some (world.storage.heads parents)))
    exact changesUpload_of_uploads (.readHeads inCalls) ((taken _).trans sent)
  case answerHeadCommitIds commits heads =>
    obtain ⟨inCalls, isNext⟩ := answerUpload_eq_some.mp isStep
    exact changesUpload_onHeadCommitIds inCalls isNext
  case failHeadCommitIds commits heads =>
    obtain ⟨inCalls, isNext⟩ := answerUpload_eq_some.mp isStep
    cases isNext
    refine ⟨?_, fun told => told_handleUploadError told, ?_⟩
    · rw [upload_handleUploadError]
      exact .failHeads inCalls
    · rw [unsynced_handleUploadError]
      exact fun _ isUnsynced => isUnsynced
  case retry =>
    obtain ⟨inCalls, isNext⟩ := answerUpload_eq_some.mp isStep
    cases isNext
    split
    case isTrue notFailed =>
      have uploads := uploads_uploadUnsyncedCommits (world.takeUpload .retry)
      exact changesUpload_of_uploads (.retry inCalls notFailed) ((taken .retry).trans uploads)
    case isFalse isFailed =>
      exact changesUpload_of_uploads (.giveUp inCalls (not_not.mp isFailed)) (taken .retry)
  case markCommitSynced commit =>
    obtain ⟨-, isNext⟩ := ite_none_right_eq_some.mp isStep
    cases isNext
    exact ⟨.marked, fun told => told, List.filter_subset_self _⟩
  case uploadDone =>
    obtain ⟨isUploading, isNext⟩ := ite_none_right_eq_some.mp isStep
    cases isNext
    have ended : Uploads world.upload.endBatch world
        { world with upload := world.upload.endBatch } := uploads_upload world rfl
    have uploads := uploads_uploadUnsyncedCommits { world with upload := world.upload.endBatch }
    exact changesUpload_of_uploads (.done isUploading) (ended.trans uploads)
  case uploadError errorType =>
    obtain ⟨isUploading, isNext⟩ := ite_none_right_eq_some.mp isStep
    cases isNext
    cases errorType with
    | temporary =>
      have failed := uploads_setState world .temporaryError
      refine changesUpload_of_uploads (.temporaryError isUploading)
        (failed.trans ⟨onlyUpload_upload _ _, ?_, fun told => told⟩)
      dsimp only [onUploadError, sendUpload, setBatchUpload]
      rw [failed.upload]
      rfl
    | permanent =>
      have failed := uploads_setState world .permanentError
      refine changesUpload_of_uploads (.permanentError isUploading)
        (failed.trans ⟨onlyUpload_upload _ _, ?_, fun told => told⟩)
      dsimp only [onUploadError]
      rw [failed.upload]

end SyncWorld

namespace PageUpload

variable {upload : PageUpload}

theorem afterUploadUnsynced_state :
    upload.afterUploadUnsynced.state = .idle ∧ upload.commitsToUpload = false ∨
      upload.afterUploadUnsynced.state = upload.state ∧ upload.commitsToUpload := by
  unfold afterUploadUnsynced
  split
  case isTrue noCommits => exact .inl ⟨rfl, by simpa using noCommits⟩
  case isFalse someCommits =>
    refine .inr ⟨?_, not_not.mp someCommits⟩
    split <;> rfl

theorem afterStart_ne_stopped : upload.afterStart.state ≠ .stopped := by
  unfold afterStart
  split
  case isTrue isStopped =>
    rcases @afterUploadUnsynced_state { upload with
        commitsToUpload := true
        state := .setup } with ⟨isIdle, -⟩ | ⟨isSetup, -⟩
    · rw [isIdle]
      decide
    · rw [isSetup]
      nofun
  case isFalse isRunning =>
    rcases @afterUploadUnsynced_state upload with ⟨isIdle, -⟩ | ⟨same, -⟩
    · rw [isIdle]
      decide
    · rw [same]
      exact isRunning

theorem afterNewCommits_state (isIdle : Bool) :
    (upload.afterNewCommits isIdle).state = .waitRemoteDownload ∨
      (upload.afterNewCommits isIdle).state = .temporaryError ∨
      (upload.afterNewCommits isIdle).state = .pending := by
  unfold afterNewCommits
  split
  · exact .inl rfl
  split
  case isTrue isError => exact .inr (.inl isError)
  · rcases @afterUploadUnsynced_state { upload with
        commitsToUpload := true
        state := .pending } with ⟨-, noCommits⟩ | ⟨isPending, -⟩
    · cases noCommits
    · exact .inr (.inr isPending)

/-- The same after any number of notifications, but none. -/
theorem notified_state (isIdle : Bool) (count : Nat) :
    ((fun upload : PageUpload => upload.afterNewCommits isIdle)^[count + 1] upload).state =
        .waitRemoteDownload ∨
      ((fun upload : PageUpload => upload.afterNewCommits isIdle)^[count + 1] upload).state =
        .temporaryError ∨
      ((fun upload : PageUpload => upload.afterNewCommits isIdle)^[count + 1] upload).state =
        .pending := by
  rw [iterate_succ_apply']
  exact afterNewCommits_state isIdle

end PageUpload

namespace SyncWorld

variable {world next : SyncWorld} {parents : CommitId → List CommitId}

/-- An upload that is stopped waits for nothing, and one that is not was started. -/
structure UploadBegun (world : SyncWorld) : Prop where
  stopped : world.upload.state = .stopped → world.upload.calls = [] ∧
    world.upload.batchUpload = none ∧ world.storage.commitWatchers = 0
  started : world.upload.state ≠ .stopped → world.sync.started ∧ world.sync.enableUpload

theorem uploadBegun_new (storage : SyncStorage) (cloud : List CommitId) :
    (new storage cloud).UploadBegun :=
  ⟨fun _ => ⟨rfl, rfl, rfl⟩, absurd rfl⟩

theorem uploadBegun_of_ne (isRunning : next.upload.state ≠ .stopped)
    (started : next.sync.started ∧ next.sync.enableUpload) : next.UploadBegun :=
  ⟨fun isStopped => absurd isStopped isRunning, fun _ => started⟩

theorem UploadBegun.startUpload (started : before.sync.started ∧ before.sync.enableUpload) :
    before.startUpload.UploadBegun := by
  have starts := uploads_startUpload before
  refine uploadBegun_of_ne ?_ ?_
  · rw [starts.upload]
    exact afterStart_ne_stopped
  · rw [starts.only.started, starts.only.enableUpload]
    exact started

variable {action : PageUploadAction}

theorem UploadBegun.not_stopped (begun : world.UploadBegun)
    (isStep : world.stepUpload parents action = some next) : world.upload.state ≠ .stopped := by
  intro isStopped
  obtain ⟨noCalls, noBatch, -⟩ := begun.stopped isStopped
  have never {call : UploadCall} (inCalls : call ∈ world.upload.calls) : False := by
    rw [noCalls] at inCalls
    cases inCalls
  have notUploading : world.isUploading = false := by
    rw [isUploading, noBatch]
    rfl
  cases action <;> dsimp only [SyncWorld.stepUpload] at isStep
  case markCommitSynced commit =>
    obtain ⟨⟨isUploading, -⟩, -⟩ := ite_none_right_eq_some.mp isStep
    exact nomatch notUploading.symm.trans isUploading
  case uploadDone => exact nomatch notUploading.symm.trans (ite_none_right_eq_some.mp isStep).1
  case uploadError errorType =>
    exact nomatch notUploading.symm.trans (ite_none_right_eq_some.mp isStep).1
  all_goals exact never (answerUpload_eq_some.mp isStep).1

theorem uploadChange_ne_stopped {commitWatchers : Nat}
    (change : UploadChange parents world action upload commitWatchers)
    (isRunning : world.upload.state ≠ .stopped) : upload.state ≠ .stopped := by
  have uploads {before : PageUpload} (sameState : before.state = world.upload.state) :
      before.afterUploadUnsynced.state ≠ .stopped := by
    rcases @afterUploadUnsynced_state before with ⟨isIdle, -⟩ | ⟨same, -⟩
    · rw [isIdle]
      decide
    · rw [same, sameState]
      exact isRunning
  cases change with
  | retry => exact uploads rfl
  | done => exact uploads rfl
  | readUnsynced | someUnsynced | readHeads | headsOther | giveUp | marked => exact isRunning
  | _ => nofun

theorem started_of_becomesIdle (phased : world.Phased) {action : PageDownloadAction}
    (isIdle : world.becomesIdle action) (isStep : world.stepDownload action = some next) :
    world.sync.started := by
  obtain ⟨main, inPhase⟩ := phased.inPhase
  refine phased.started.mpr ?_
  cases downloadStep_of_eq_some isStep with
  | setsRemoteWatcher inCalls =>
    obtain rfl := inPhase.eq_some inCalls rfl
    exact inPhase.phase.ne_stopped (.inl rfl)
  | advanceBatch isBatch =>
    exact inPhase.phase.ne_stopped (.inr (.inr (.inr (by rw [isBatch]; rfl))))
  | _ => cases isIdle

section

variable (begun : world.UploadBegun)
include begun

theorem UploadBegun.stepDownload (phased : world.Phased)
    {action : PageDownloadAction} (isStep : world.stepDownload action = some next) :
    next.UploadBegun := by
  have mayStart := mayStart_stepDownload isStep
  have client := sameClient_stepDownload isStep
  rcases mayStart.upload with ⟨⟨isIdle, starts⟩, isStarted⟩ | ⟨-, same⟩
  · refine uploadBegun_of_ne (by rw [isStarted]; exact afterStart_ne_stopped) ?_
    rw [client.started, client.enableUpload]
    exact ⟨started_of_becomesIdle phased isIdle isStep, starts.1⟩
  · refine ⟨fun isStopped => ?_, fun isRunning => ?_⟩
    · rw [same, mayStart.commitWatchers]
      rw [same] at isStopped
      exact begun.stopped isStopped
    · rw [client.started, client.enableUpload]
      rw [same] at isRunning
      exact begun.started isRunning

theorem UploadBegun.stepUpload (isStep : world.stepUpload parents action = some next) :
    next.UploadBegun := by
  have isRunning := begun.not_stopped isStep
  have same := sameDownload_stepUpload isStep
  refine uploadBegun_of_ne ?_ ?_
  · exact uploadChange_ne_stopped (changesUpload_stepUpload isStep).change isRunning
  · rw [same.started, same.enableUpload]
    exact begun.started isRunning

theorem UploadBegun.addCommitFromLocal {commit : CommitId}
    (adds : AddsLocal commit world next) : next.UploadBegun := by
  have upload := adds.upload
  cases isCount : world.storage.commitWatchers with
  | zero =>
    rw [isCount, iterate_zero_apply] at upload
    refine ⟨fun isStopped => ?_, fun isRunning => ?_⟩
    · rw [upload] at isStopped ⊢
      rw [adds.commitWatchers]
      exact begun.stopped isStopped
    · rw [upload] at isRunning
      rw [adds.started, adds.enableUpload]
      exact begun.started isRunning
  | succ count =>
    rw [isCount] at upload
    refine uploadBegun_of_ne ?_ ?_
    · rw [upload]
      rcases @notified_state world.upload world.download.isIdle count with
        isState | isState | isState <;> rw [isState] <;> decide
    · rw [adds.started, adds.enableUpload]
      refine begun.started fun isStopped => ?_
      obtain ⟨-, -, noWatchers⟩ := begun.stopped isStopped
      omega

end

/-- What `PageSyncImpl` knows of the upload, and when the upload begins. -/
structure UploadTold (world : SyncWorld) : Prop where
  phased : world.Phased
  told : world.ToldUpload
  begun : world.UploadBegun

theorem uploadTold_new (storage : SyncStorage) (cloud : List CommitId) :
    (new storage cloud).UploadTold :=
  ⟨phased_new storage cloud, rfl, uploadBegun_new storage cloud⟩

theorem UploadTold.step (upload : world.UploadTold) {action : SyncAction}
    (isStep : world.step parents action = some next) : next.UploadTold := by
  have phased := upload.phased.step isStep
  cases action <;> dsimp only [SyncWorld.step] at isStep
  case setOnBacklogDownloaded =>
    obtain ⟨-, isNext⟩ := ite_none_left_eq_some.mp isStep
    cases isNext
    exact ⟨phased, upload.told, upload.begun.stopped, upload.begun.started⟩
  case start =>
    obtain ⟨isNew, isNext⟩ := ite_none_left_eq_some.mp isStep
    cases isNext
    have starts := keepsUpload_startDownload
      { world with sync.started := true }
    have client := sameClient_startDownload
      { world with sync.started := true }
    have told := starts.told upload.told
    split
    case isTrue isEnabled =>
      refine ⟨by rwa [if_pos isEnabled] at phased, (uploads_startUpload _).told told, ?_⟩
      exact UploadBegun.startUpload ⟨client.started, isEnabled⟩
    case isFalse isDisabled =>
      refine ⟨by rwa [if_neg isDisabled] at phased, told, fun isStopped => ?_, fun isRunning => ?_⟩
      · rw [upload_startDownload, starts.commitWatchers]
        rw [upload_startDownload] at isStopped
        exact upload.begun.stopped isStopped
      · rw [upload_startDownload] at isRunning
        exact absurd (upload.begun.started isRunning).1 isNew
  case enableUpload =>
    cases isStep
    have told : ToldUpload { world with sync.enableUpload := true } :=
      upload.told
    split
    case isTrue isStarted =>
      refine ⟨by rwa [if_pos isStarted] at phased, (uploads_startUpload _).told told, ?_⟩
      exact UploadBegun.startUpload ⟨isStarted.1, rfl⟩
    case isFalse notStarted =>
      refine ⟨by rwa [if_neg notStarted] at phased, told, upload.begun.stopped, fun isRunning => ?_⟩
      exact ⟨(upload.begun.started isRunning).1, rfl⟩
  case publish commit =>
    cases isStep
    exact ⟨phased, upload.told, upload.begun.stopped, upload.begun.started⟩
  case addCommitFromLocal commit =>
    obtain ⟨-, isNext⟩ := ite_none_left_eq_some.mp isStep
    cases isNext
    have adds := addsLocal_addCommitFromLocal world commit
    exact ⟨phased, adds.told upload.told, upload.begun.addCommitFromLocal adds⟩
  case download action =>
    exact ⟨phased, (mayStart_stepDownload isStep).told upload.told,
      upload.begun.stepDownload upload.phased isStep⟩
  case upload action =>
    exact ⟨phased, (changesUpload_stepUpload isStep).told upload.told,
      upload.begun.stepUpload isStep⟩
  case restart =>
    cases isStep
    exact uploadTold_new world.storage world.cloud

end SyncWorld

end Peridot
