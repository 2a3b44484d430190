import Peridot.PageSyncFrames

/-!
# What the delegate of a page download is told

Properties of the commit state, of the number of `GetObject` calls and of what was told of them,
which every call of `SetCommitState` keeps.
-/

namespace Peridot

namespace SyncWorld

variable {Holds : SyncWorld → Prop} {world next : SyncWorld}

/-- A property that `SetCommitState` keeps, and that depends on the download only by the commit
state and the number of `GetObject` calls. -/
structure ToldInvariant (Holds : SyncWorld → Prop) : Prop where
  setCommitState : ∀ {world : SyncWorld} (newState : DownloadSyncState), Holds world →
    Holds (world.setCommitState newState)
  download : ∀ (world : SyncWorld) {download : PageDownload} {storage : SyncStorage}
    {log : List SyncEvent}, download.commitState = world.download.commitState →
    download.currentGetObjectCalls = world.download.currentGetObjectCalls → Holds world →
    Holds { world with
      storage
      download
      log }
  of_same : ∀ {before after : SyncWorld}, SameDownload before after → Holds before → Holds after

/-- A property that `SetCommitState` keeps, unless it sets that the download is idle. -/
structure BusyInvariant (Holds : SyncWorld → Prop) : Prop where
  setOther : ∀ {world : SyncWorld} {newState : DownloadSyncState}, newState ≠ .idle →
    Holds world → Holds (world.setCommitState newState)
  download : ∀ (world : SyncWorld) {download : PageDownload} {storage : SyncStorage}
    {log : List SyncEvent}, download.commitState = world.download.commitState →
    download.currentGetObjectCalls = world.download.currentGetObjectCalls →
    storage.commitWatchers = world.storage.commitWatchers ∧
      storage.commits = world.storage.commits ∧ storage.unsynced = world.storage.unsynced →
    Holds world → Holds { world with
      storage
      download
      log }

theorem ToldInvariant.busy (kept : ToldInvariant Holds) : BusyInvariant Holds :=
  ⟨fun _ => kept.setCommitState _, fun world _ _ _ sameState sameCalls _ =>
    kept.download world sameState sameCalls⟩

variable {commits : List CommitId} {positionToken : PositionToken} {action : PageDownloadAction}
    {isBacklog : Bool}

namespace BusyInvariant

variable (kept : BusyInvariant Holds) (holds : Holds world)
include kept holds

theorem startDownload : Holds world.startDownload :=
  kept.download (world.setCommitState .backlog) rfl rfl ⟨rfl, rfl, rfl⟩ (kept.setOther (by decide) holds)

theorem handleDownloadCommitError : Holds world.handleDownloadCommitError := by
  have unbound : Holds ((world.setWatcherBinding none).setSyncDelegate false) :=
    kept.download world rfl rfl ⟨rfl, rfl, rfl⟩ holds
  exact kept.setOther (by decide) unbound

theorem setRemoteWatcher (isNext : world.setRemoteWatcher = some next) : Holds next := by
  obtain ⟨-, rfl⟩ := setRemoteWatcher_eq_some.mp isNext
  exact kept.download _ rfl rfl ⟨rfl, rfl, rfl⟩ (kept.setOther (by decide) holds)

theorem downloadBatch (isNext : world.downloadBatch commits positionToken isBacklog = some next) :
    Holds next := by
  obtain ⟨-, rfl⟩ := downloadBatch_eq_some.mp isNext
  exact kept.download world rfl rfl ⟨rfl, rfl, rfl⟩ holds

theorem onGetCommits (isNext : world.onGetCommits commits positionToken = some next) :
    Holds next := by
  unfold SyncWorld.onGetCommits at isNext
  dsimp only at isNext
  have logged : Holds { world with log := world.log ++ [.gotCommits commits] } :=
    kept.download world rfl rfl ⟨rfl, rfl, rfl⟩ holds
  split at isNext
  · exact kept.setRemoteWatcher logged isNext
  · exact kept.downloadBatch logged isNext

theorem onNewRemoteCommits (isNext : world.onNewRemoteCommits commits positionToken = some next) :
    Holds next := by
  unfold SyncWorld.onNewRemoteCommits at isNext
  split at isNext
  · cases isNext
    exact kept.download world rfl rfl ⟨rfl, rfl, rfl⟩ holds
  · exact kept.downloadBatch (kept.setOther (by decide) holds) isNext

theorem onError {status : CloudStatus}
    (isNext : world.onError status = some next) : Holds next := by
  obtain ⟨-, isNext⟩ := Option.ite_none_right_eq_some.mp isNext
  have unbound : Holds (world.setWatcherBinding none) := kept.download world rfl rfl ⟨rfl, rfl, rfl⟩ holds
  split at isNext
  · cases isNext
    exact kept.download _ rfl rfl ⟨rfl, rfl, rfl⟩ (kept.setOther (by decide) unbound)
  · cases isNext
    exact kept.handleDownloadCommitError holds

end BusyInvariant

namespace ToldInvariant

variable (kept : ToldInvariant Holds) (holds : Holds world)
include kept holds

theorem onWatcherMetadata (lastCommitTs : PositionToken) :
    Holds (world.onWatcherMetadata lastCommitTs) := by
  have bound : Holds
      ((world.setWatcherBinding (some lastCommitTs)).sendDownload .setWatcher) :=
    kept.download world rfl rfl holds
  exact kept.setCommitState .idle bound

theorem onBatchDone (isNext : world.onBatchDone isBacklog = some next) : Holds next := by
  obtain ⟨middle, isMiddle, isLast⟩ := onBatchDone_cases isNext
  have before : Holds middle := by
    rcases isMiddle with ⟨-, isMiddle⟩ | ⟨-, isWorld⟩
    · exact kept.busy.setRemoteWatcher holds isMiddle
    · rw [isWorld]
      exact holds
  have dropped : Holds middle.dropBatch := kept.download middle rfl rfl before
  rcases isLast with ⟨-, -, rfl⟩ | ⟨-, -, rfl⟩ | ⟨-, rfl⟩
  · exact kept.setCommitState .idle dropped
  · exact dropped
  · exact kept.download middle rfl rfl before

theorem advanceBatch {batch : BatchDownload}
    (isNext : world.advanceBatch batch = some next) : Holds next := by
  unfold SyncWorld.advanceBatch at isNext
  have staged (stage : BatchStage) : Holds (world.setBatchStage batch stage) :=
    kept.download world rfl rfl holds
  split at isNext
  · cases isNext
    exact staged .adding
  · cases isNext
    exact kept.of_same (onlyUpload_notifyWatchers _ .sync).toSameDownload
      (kept.download _ rfl rfl (staged .added))
  · cases isNext
    exact staged .saving
  · cases isNext
    exact kept.download _ rfl rfl (staged .saved)
  · exact kept.onBatchDone holds isNext
  · cases isNext

end ToldInvariant

/-- How many `GetObject` calls there are after a step. -/
def getObjectCallsAfter (world : SyncWorld) : SyncAction → Int
  | .download .getObject => world.download.currentGetObjectCalls + 1
  | .download (.retry .getObject) => world.download.currentGetObjectCalls + 1
  | .download (.answerGetObject .decryptObject) => world.download.currentGetObjectCalls - 1
  | .download (.failGetObject _ _) => world.download.currentGetObjectCalls - 1
  | _ => world.download.currentGetObjectCalls

/-- What happens to the download keeps such a property, if the `GetObject` calls keep it. -/
theorem ToldInvariant.stepDownload (kept : ToldInvariant Holds) (holds : Holds world)
    (counts : ∀ calls, Holds { world with download := { world.download with
      currentGetObjectCalls := world.getObjectCallsAfter (.download action)
      calls } })
    (isStep : world.stepDownload action = some next) : Holds next := by
  have taken (call : DownloadCall) : Holds (world.takeDownload call) :=
    kept.download world rfl rfl holds
  cases downloadStep_of_eq_some isStep with
  | getObject => exact counts _
  | readSyncMetadata | startsDownload => exact kept.download world rfl rfl holds
  | setsRemoteWatcher => exact kept.onWatcherMetadata (taken _) _
  | failSyncMetadata | failSetWatcher => exact kept.busy.handleDownloadCommitError (taken _)
  | answerGetCommits _ _ isNext => exact kept.busy.onGetCommits (taken _) isNext
  | failGetCommits => exact kept.download _ rfl rfl (kept.setCommitState .temporaryError (taken _))
  | answerSetWatcher | retryFailed => exact taken _
  | @answerGetObject stage =>
    cases stage with
    | objectName | content | dataSource => exact kept.download world rfl rfl holds
    | decryptObject => exact counts _
  | failGetObject =>
    unfold handleGetObjectError
    dsimp only
    split <;> exact counts _
  | @retry callable _ _ _ isNext =>
    cases callable with
    | startDownload =>
      cases isNext
      exact kept.busy.startDownload (taken _)
    | setRemoteWatcher => exact kept.busy.setRemoteWatcher (taken _) isNext
    | getObject =>
      cases isNext
      exact counts _
  | @onNewCommits _ upTo _ _ _ isNext =>
    have bound : Holds (world.setWatcherBinding (some upTo)) := kept.download world rfl rfl holds
    exact kept.busy.onNewRemoteCommits bound isNext
  | onError _ isNext => exact kept.busy.onError holds isNext
  | advanceBatch _ isNext => exact kept.advanceBatch holds isNext
  | @failBatch batch =>
    have staged : Holds (world.setBatchStage batch .failed) := kept.download world rfl rfl holds
    exact kept.busy.handleDownloadCommitError staged

theorem toldInvariant_sameClient (world : SyncWorld) : ToldInvariant (SameClient world) where
  setCommitState newState same := same.trans (sameClient_setCommitState _ newState)
  download _ {_ _ _} _ _ same := same.trans (sameClient_download _ _ _ _)
  of_same sameDownload same := same.trans sameDownload.toSameClient

/-- What happens to the download changes nothing of what the client has set. -/
theorem sameClient_stepDownload (isStep : world.stepDownload action = some next) :
    SameClient world next :=
  (toldInvariant_sameClient world).stepDownload (.refl world)
    (fun _ => sameClient_download world _ _ _) isStep

end SyncWorld

end Peridot
