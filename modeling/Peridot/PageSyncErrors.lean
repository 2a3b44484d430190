import Peridot.PageSyncPosition
import Peridot.PageSyncUpload

/-!
# Permanent errors

`SetState` and `SetCommitState` leave a permanent error for any state they are given: only their
callers know better.
-/

namespace Peridot

open Option

namespace SyncWorld

variable {world next : SyncWorld} {parents : CommitId → List CommitId}

/-- An upload or a download that has failed for good stays so. -/
structure ErrorsStay (before after : SyncWorld) : Prop where
  upload : before.upload.state = .permanentError → after.upload.state = .permanentError
  download : before.download.commitState = .permanentError →
    after.download.commitState = .permanentError

/-- The steps that leave `UPLOAD_PERMANENT_ERROR`: a local commit while the storage is watched, a
download that becomes idle when there is nothing to upload, the answers that do not look at the
state, and the end of another batch upload. -/
def leavesUploadError (world : SyncWorld) : SyncAction → Bool
  | .addCommitFromLocal _ => world.storage.commitWatchers ≠ 0
  | .download action =>
    world.becomesIdle action && (world.StartsUpload && !world.upload.commitsToUpload)
  | .upload (.answerUnsyncedCommits commits) => commits.commits = []
  | .upload (.answerHeadCommitIds _ _) => world.upload.batchUpload.isNone
  | .upload .uploadDone => !world.upload.commitsToUpload
  | .upload (.uploadError .temporary) => true
  | _ => false

/-- The step that leaves `DOWNLOAD_PERMANENT_ERROR`: the watcher that is being set. -/
def leavesDownloadError : SyncAction → Bool
  | .download (.answerSyncMetadata .setRemoteWatcher _) => true
  | _ => false

/-- The action is none of those that leave an error state. -/
structure KeepsErrors (world : SyncWorld) (action : SyncAction) : Prop where
  upload : world.upload.state = .permanentError → world.leavesUploadError action = false
  download : world.download.commitState = .permanentError → leavesDownloadError action = false

instance decidableKeepsErrors (world : SyncWorld) (action : SyncAction) :
    Decidable (world.KeepsErrors action) :=
  decidable_of_iff ((world.upload.state = .permanentError →
        world.leavesUploadError action = false) ∧
      (world.download.commitState = .permanentError → leavesDownloadError action = false))
    ⟨fun keeps => ⟨keeps.1, keeps.2⟩, fun keeps => ⟨keeps.upload, keeps.download⟩⟩

variable {upload : PageUpload}

theorem afterUploadUnsynced_permanentError (isFailed : upload.state = .permanentError) :
    upload.afterUploadUnsynced.state = .permanentError ↔ upload.commitsToUpload := by
  rcases @PageUpload.afterUploadUnsynced_state upload with ⟨isIdle, noCommits⟩ | ⟨same, commits⟩
  · rw [isIdle, noCommits]
    decide
  · rw [same]
    exact iff_of_true isFailed commits

theorem uploadChange_permanentError {action : PageUploadAction}
    {commitWatchers : Nat} (isFailed : world.upload.state = .permanentError)
    (change : UploadChange parents world action upload commitWatchers) :
    upload.state = .permanentError ↔ world.leavesUploadError (.upload action) = false := by
  cases change with
  | readUnsynced | readHeads | giveUp | marked => exact iff_of_true isFailed rfl
  | noneUnsynced inCalls isEmpty => exact iff_of_false nofun (by simp [leavesUploadError, isEmpty])
  | someUnsynced inCalls notEmpty => exact iff_of_true isFailed (decide_eq_false notEmpty)
  | failUnsynced | failHeads | permanentError => exact iff_of_true rfl rfl
  | headsOther inCalls isBatch =>
    exact iff_of_true isFailed (by simp [leavesUploadError, isNone_eq_false_iff, isBatch])
  | headsWait inCalls noBatch | headsSeveral inCalls noBatch =>
    exact iff_of_false nofun (by simp [leavesUploadError, noBatch])
  | headsEnter enters => exact iff_of_false nofun (by simp [leavesUploadError, enters.1])
  | retry inCalls notFailed => exact absurd isFailed notFailed
  | done =>
    have failed : world.upload.endBatch.state = .permanentError := isFailed
    rw [afterUploadUnsynced_permanentError failed]
    simp [leavesUploadError, PageUpload.endBatch]
  | temporaryError => exact iff_of_false nofun nofun

/-- A failed upload that is started again stays failed if there are commits to upload. -/
theorem afterStart_permanentError (isFailed : upload.state = .permanentError) :
    upload.afterStart.state = .permanentError ↔ upload.commitsToUpload := by
  rw [PageUpload.afterStart, if_neg (by rw [isFailed]; decide)]
  exact afterUploadUnsynced_permanentError isFailed

theorem uploadError_stepDownload (isFailed : world.upload.state = .permanentError)
    {action : PageDownloadAction} (isStep : world.stepDownload action = some next) :
    next.upload.state = .permanentError ↔ world.leavesUploadError (.download action) = false := by
  rcases (mayStart_stepDownload isStep).upload with ⟨⟨isIdle, starts⟩, isStarted⟩ | ⟨other, same⟩
  · rw [isStarted, afterStart_permanentError isFailed]
    simp [leavesUploadError, isIdle, starts]
  · rw [same]
    refine iff_of_true isFailed ?_
    rw [not_and] at other
    cases isIdle : world.becomesIdle action with
    | false => simp [leavesUploadError, isIdle]
    | true => simp [leavesUploadError, other isIdle]

variable {action : SyncAction}

theorem uploadError_step (upload : world.UploadTold)
    (isFailed : world.upload.state = .permanentError)
    (notRestart : action ≠ .restart) (isStep : world.step parents action = some next) :
    next.upload.state = .permanentError ↔ world.leavesUploadError action = false := by
  have isStarted := upload.begun.started (by rw [isFailed]; decide)
  cases action <;> dsimp only [step] at isStep
  case setOnBacklogDownloaded =>
    obtain ⟨-, isNext⟩ := ite_none_left_eq_some.mp isStep
    cases isNext
    exact iff_of_true isFailed rfl
  case start =>
    obtain ⟨isNew, -⟩ := ite_none_left_eq_some.mp isStep
    exact absurd isStarted.1 isNew
  case enableUpload =>
    cases isStep
    have notStopped : ¬(world.sync.started ∧ world.sync.uploadState = .stopped) := by
      rintro ⟨-, isStopped⟩
      rw [upload.told, isFailed] at isStopped
      cases isStopped
    rw [if_neg notStopped]
    exact iff_of_true isFailed rfl
  case publish commit =>
    cases isStep
    exact iff_of_true isFailed rfl
  case addCommitFromLocal commit =>
    obtain ⟨-, isNext⟩ := ite_none_left_eq_some.mp isStep
    cases isNext
    rw [(addsLocal_addCommitFromLocal world commit).upload]
    cases isCount : world.storage.commitWatchers with
    | zero => exact iff_of_true isFailed (by simp [leavesUploadError, isCount])
    | succ count =>
      refine iff_of_false ?_ (by simp [leavesUploadError, isCount])
      rcases @PageUpload.notified_state world.upload world.download.isIdle count with
        isState | isState | isState <;> rw [isState] <;> decide
  case download action => exact uploadError_stepDownload isFailed isStep
  case upload action =>
    exact uploadChange_permanentError isFailed (changesUpload_stepUpload isStep).change
  case restart => exact absurd rfl notRestart

/-- A download that has failed waits at most for the answers of `SetRemoteWatcher`. -/
theorem phase_permanentError {main : Option DownloadCall} {isSet : Bool}
    {watcherBinding : Option PositionToken} {batch : Option BatchDownload}
    (phase : DownloadPhase main isSet .permanentError watcherBinding batch) :
    watcherBinding = none ∧ LaterBatch batch ∧
      ∀ positionToken, main ≠ some (.getCommits positionToken) := by
  cases phase with
  | watching _ _ isWatching _ => rcases isWatching with isState | isState <;> cases isState
  | failed _ later | failedSetting _ _ later | failedResetting _ later => exact ⟨rfl, later, nofun⟩

theorem downloadError_onBatchDone (isFailed : world.download.commitState = .permanentError)
    {isBacklog : Bool} (other : ¬isBacklog) (isNext : world.onBatchDone isBacklog = some next) :
    next.download.commitState = .permanentError := by
  obtain ⟨middle, isMiddle, isLast⟩ := onBatchDone_cases isNext
  rcases isMiddle with ⟨isBacklog, -⟩ | ⟨-, rfl⟩
  · exact absurd isBacklog other
  · rcases isLast with ⟨-, inProgress, -⟩ | ⟨-, -, rfl⟩ | ⟨-, rfl⟩
    · exact nomatch isFailed.symm.trans inProgress
    · exact isFailed
    · exact isFailed

theorem downloadError_stepDownload (phased : world.Phased)
    (isFailed : world.download.commitState = .permanentError) {action : PageDownloadAction}
    (isStep : world.stepDownload action = some next) : next.download.commitState = .permanentError ↔
      leavesDownloadError (.download action) = false := by
  obtain ⟨main, inPhase⟩ := phased.inPhase
  have phase := inPhase.phase
  rw [isFailed] at phase
  obtain ⟨unbound, later, notListing⟩ := phase_permanentError phase
  cases downloadStep_of_eq_some isStep with
  | getObject | readSyncMetadata | startsDownload | answerSetWatcher | retryFailed =>
    exact iff_of_true isFailed rfl
  | setsRemoteWatcher =>
    rw [download_onWatcherMetadata]
    exact iff_of_false nofun nofun
  | failSyncMetadata | failSetWatcher | failBatch =>
    rw [download_handleDownloadCommitError]
    exact iff_of_true rfl rfl
  | answerGetCommits _ inCalls | failGetCommits inCalls =>
    exact absurd (inPhase.eq_some inCalls rfl) (notListing _)
  | @answerGetObject stage => cases stage <;> exact iff_of_true isFailed rfl
  | @failGetObject _ isPermanent => cases isPermanent <;> exact iff_of_true isFailed rfl
  | retry _ notFailed => exact absurd isFailed notFailed
  | onNewCommits isBound => exact nomatch isBound.symm.trans unbound
  | onError isBound =>
    rw [unbound] at isBound
    cases isBound
  | advanceBatch isBatch isNext =>
    rw [isBatch] at later
    refine iff_of_true ?_ rfl
    unfold advanceBatch at isNext
    split at isNext
    case h_1 | h_3 | h_4 =>
      cases isNext
      exact isFailed
    case h_2 =>
      cases isNext
      rw [addCommitsFromSync, notifyWatchers_sync]
      exact isFailed
    case h_5 isStage =>
      exact downloadError_onBatchDone isFailed (later.not_isBacklog (by rw [isStage]; decide)) isNext
    case h_6 => cases isNext

theorem downloadError_step (phased : world.Phased)
    (isFailed : world.download.commitState = .permanentError)
    (notRestart : action ≠ .restart) (isStep : world.step parents action = some next) :
    next.download.commitState = .permanentError ↔ leavesDownloadError action = false := by
  obtain ⟨changed, change, same⟩ := downloadChange_of_step isStep
  rw [same.download]
  cases change with
  | start isNew => exact absurd (phased.started.mpr (by rw [isFailed]; decide)) isNew
  | download isStep => exact downloadError_stepDownload phased isFailed isStep
  | restart => exact absurd rfl notRestart
  | _ => exact iff_of_true isFailed rfl

/-- A step keeps the permanent errors if and only if it is none of those that leave one. -/
theorem errorsStay_step_iff (upload : world.UploadTold)
    (notRestart : action ≠ .restart) (isStep : world.step parents action = some next) :
    ErrorsStay world next ↔ world.KeepsErrors action := by
  constructor
  · intro stay
    exact ⟨fun isFailed => (uploadError_step upload isFailed notRestart isStep).mp
        (stay.upload isFailed),
      fun isFailed => (downloadError_step upload.phased isFailed notRestart isStep).mp
        (stay.download isFailed)⟩
  · intro keeps
    exact ⟨fun isFailed => (uploadError_step upload isFailed notRestart isStep).mpr
        (keeps.upload isFailed),
      fun isFailed => (downloadError_step upload.phased isFailed notRestart isStep).mpr
        (keeps.download isFailed)⟩

theorem ErrorsStay.trans {first second third : SyncWorld} (before : ErrorsStay first second)
    (after : ErrorsStay second third) : ErrorsStay first third :=
  ⟨fun isFailed => after.upload (before.upload isFailed),
    fun isFailed => after.download (before.download isFailed)⟩

/-- From any state that is reached, permanent errors stay if no step leaves one. -/
theorem errorsStay_run (parents : CommitId → List CommitId) (storage : SyncStorage)
    (cloud : List CommitId) {earlier later : List SyncAction} {reached final : SyncWorld}
    (isReached : runSteps (step parents) (new storage cloud) earlier = some reached)
    (notRestart : .restart ∉ later) (keeps : EachStep (step parents) KeepsErrors reached later)
    (isRun : runSteps (step parents) reached later = some final) : ErrorsStay reached final := by
  have upload : reached.UploadTold :=
    invariant_runSteps UploadTold (fun upload _ isStep => upload.step isStep)
      (uploadTold_new storage cloud) (eachStep_true earlier _) isReached
  clear isReached
  induction later generalizing reached with
  | nil =>
    cases isRun
    exact ⟨fun isFailed => isFailed, fun isFailed => isFailed⟩
  | cons action later ih =>
    obtain ⟨next, isStep, isRest⟩ := runSteps_cons.mp isRun
    rw [List.mem_cons, not_or] at notRestart
    have stay := (errorsStay_step_iff upload (Ne.symm notRestart.1) isStep).mpr keeps.1
    exact stay.trans (ih notRestart.2 (keeps.2 next isStep) isRest (upload.step isStep))

def failedUpload : List SyncAction :=
  emptyBacklog 0 ++
    [.enableUpload, .addCommitFromLocal [1], .upload .readUnsyncedCommits,
      .upload (.answerUnsyncedCommits ⟨[[1]], 0⟩), .upload (.readHeadCommitIds ⟨[[1]], 0⟩),
      .upload (.answerHeadCommitIds ⟨[[1]], 0⟩ [[1]]), .upload (.uploadError .permanent)]

/-- A batch of the watcher fails for good after the connection has failed, while the watcher is
being set again. -/
def failedDownload : List SyncAction :=
  emptyBacklog 0 ++
    [.publish [1], .download (.onNewCommits 1), .download (.onError .networkError),
      .download (.retry .setRemoteWatcher), .download .failBatch,
      .download (.readSyncMetadata .setRemoteWatcher)]

/-- After the upload has failed, another device's commit is downloaded. -/
theorem errorsStay_run_failed :
    ∃ reached final, runSteps (step sampleParents) (new (unsyncedStorage [[0]]) []) failedUpload =
        some reached ∧ reached.upload.state = .permanentError ∧
      runSteps (step sampleParents) reached ([.publish [2], .download (.onNewCommits 1)] ++
        downloadedBatch) = some final ∧ final.upload.commitsToUpload ∧ ErrorsStay reached final :=
  ⟨_, _, rfl, rfl, rfl, rfl, @errorsStay_run sampleParents (unsyncedStorage [[0]]) [] failedUpload
    ([.publish [2], .download (.onNewCommits 1)] ++ downloadedBatch) _ _ rfl (by decide)
    (by decide +kernel) rfl⟩

/-- A local commit after the upload has failed makes it pending.  And the watcher that is being
set makes a download idle that has failed. -/
theorem not_errorsStay : (∃ reached final,
    runSteps (step sampleParents) (new (unsyncedStorage [[0]]) []) failedUpload = some reached ∧
      step sampleParents reached (.addCommitFromLocal [2]) = some final ∧
      reached.upload.state = .permanentError ∧ final.upload.state = .pending) ∧ ∃ reached final,
      runSteps (step sampleParents) (new (unsyncedStorage [[0]]) []) failedDownload = some reached ∧
        step sampleParents reached (.download (.answerSyncMetadata .setRemoteWatcher 0)) =
          some final ∧
        reached.download.commitState = .permanentError ∧ final.download.commitState = .idle :=
  ⟨⟨_, _, rfl, rfl, rfl, rfl⟩, _, _, rfl, rfl, rfl, rfl⟩

end SyncWorld

end Peridot
