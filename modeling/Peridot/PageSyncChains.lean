import Peridot.PageSyncPosition
import Peridot.PageSyncUpload

/-!
# Which lists of commits are uploaded

Several chains of `GetUnsyncedCommits` and `GetHeadCommitIds` can be in flight, and each of them
may end in `HandleUnsyncedCommits`.
-/

namespace Peridot

open List Option

/-- A chain that has seen a single head: its answer enters `HandleUnsyncedCommits`, unless it
finds a batch upload or a busy download. -/
def UploadCall.hasSingleHead : UploadCall → Bool
  | getUnsyncedCommits _ => false
  | getHeadCommitIds _ none => false
  | getHeadCommitIds _ (some heads) => heads.length = 1
  | retry => false

namespace PageUpload

variable {upload : PageUpload}

/-- The chains that have seen a single head have something to upload, and their lists were read
after the last batch upload had ended. -/
def ChainsFresh (upload : PageUpload) : Prop :=
  ∀ commits heads, .getHeadCommitIds commits (some heads) ∈ upload.calls → heads.length = 1 →
    upload.commitsToUpload ∧ commits.uploadsEnded = upload.uploadsEnded

def NoSingleHead (upload : PageUpload) : Prop :=
  ∀ call ∈ upload.calls, ¬call.hasSingleHead

instance decidableNoSingleHead (upload : PageUpload) : Decidable upload.NoSingleHead :=
  inferInstanceAs (Decidable (∀ call ∈ upload.calls, ¬call.hasSingleHead))

/-- The flag is not cleared, no batch upload ends, and what is called has seen no head. -/
theorem ChainsFresh.keep (fresh : upload.ChainsFresh) {next : PageUpload}
    (flag : upload.commitsToUpload → next.commitsToUpload)
    (uploadsEnded : next.uploadsEnded = upload.uploadsEnded)
    (calls : ∀ call ∈ next.calls, call ∈ upload.calls ∨ ¬call.hasSingleHead) :
    next.ChainsFresh := by
  intro commits heads inCalls isSingle
  rcases calls _ inCalls with inBefore | notSingle
  · obtain ⟨isFlag, isFresh⟩ := fresh commits heads inBefore isSingle
    exact ⟨flag isFlag, isFresh.trans uploadsEnded.symm⟩
  · exact absurd (decide_eq_true isSingle) notSingle

theorem NoSingleHead.chainsFresh (noSingle : upload.NoSingleHead) : upload.ChainsFresh :=
  fun _ _ inCalls isSingle => absurd (decide_eq_true isSingle) (noSingle _ inCalls)

variable (fresh : upload.ChainsFresh)
include fresh

theorem ChainsFresh.afterUploadUnsynced : upload.afterUploadUnsynced.ChainsFresh := by
  unfold PageUpload.afterUploadUnsynced
  split
  · exact fresh
  split
  · exact fresh
  · refine fresh.keep (fun isFlag => isFlag) rfl fun call inCalls => ?_
    rcases mem_append.mp inCalls with inCalls | isNew
    · exact .inl inCalls
    · rw [mem_singleton.mp isNew]
      exact .inr nofun

theorem ChainsFresh.afterStart : upload.afterStart.ChainsFresh := by
  unfold PageUpload.afterStart
  split
  · refine ChainsFresh.afterUploadUnsynced ?_
    exact fresh.keep (fun _ => rfl) rfl fun call inCalls => .inl inCalls
  · exact fresh.afterUploadUnsynced

theorem ChainsFresh.afterNewCommits (isIdle : Bool) :
    (upload.afterNewCommits isIdle).ChainsFresh := by
  unfold PageUpload.afterNewCommits
  split
  · exact fresh.keep (fun _ => rfl) rfl fun call inCalls => .inl inCalls
  split
  · exact fresh.keep (fun _ => rfl) rfl fun call inCalls => .inl inCalls
  · refine ChainsFresh.afterUploadUnsynced ?_
    exact fresh.keep (fun _ => rfl) rfl fun call inCalls => .inl inCalls

theorem ChainsFresh.notified (isIdle : Bool) (count : Nat) :
    ((fun upload : PageUpload => upload.afterNewCommits isIdle)^[count] upload).ChainsFresh := by
  induction count generalizing upload with
  | zero => exact fresh
  | succ count ih => exact ih (fresh.afterNewCommits isIdle)

end PageUpload

namespace SyncWorld

variable {world next : SyncWorld} {parents : CommitId → List CommitId}

/-- This answer enters `HandleUnsyncedCommits`. -/
structure Enters (world : SyncWorld) (commits : UnsyncedList) (heads : List CommitId) : Prop where
  inCalls : .getHeadCommitIds commits (some heads) ∈ world.upload.calls
  noBatch : world.upload.batchUpload = none
  isIdle : world.download.isIdle
  isSingle : heads.length = 1

/-- When `HandleUnsyncedCommits` is entered there is no batch upload, there are commits to upload,
and no batch upload has ended since they were listed. -/
def EntersRight (world : SyncWorld) : Prop :=
  ∀ commits heads, world.Enters commits heads →
    world.upload.batchUpload = none ∧ world.upload.commitsToUpload ∧
      commits.uploadsEnded = world.upload.uploadsEnded

/-- The steps that clear `commits_to_upload_`, and those that end a batch upload. -/
def outdatesChains (world : SyncWorld) : SyncAction → Bool
  | .upload (.answerUnsyncedCommits commits) => commits.commits = []
  | .upload (.answerHeadCommitIds _ heads) =>
    world.upload.batchUpload.isNone && (world.download.isIdle && 1 < heads.length)
  | .upload .uploadDone => true
  | .upload (.uploadError .temporary) => true
  | _ => false

def listsHeads : SyncAction → Option UnsyncedList
  | .upload (.readHeadCommitIds commits) => some commits
  | _ => none

/-- When the storage lists a single head there are commits to upload, and none of them was
uploaded since they were listed; and while such a call is in flight, nothing outdates it. -/
structure KeepsChains (parents : CommitId → List CommitId) (world : SyncWorld)
    (action : SyncAction) : Prop where
  outdates : world.outdatesChains action → world.upload.NoSingleHead
  lists : ∀ commits ∈ listsHeads action, (world.storage.heads parents).length = 1 →
    world.upload.commitsToUpload ∧ commits.uploadsEnded = world.upload.uploadsEnded

instance decidableKeepsChains (parents : CommitId → List CommitId) (world : SyncWorld)
    (action : SyncAction) : Decidable (KeepsChains parents world action) :=
  decidable_of_iff ((world.outdatesChains action → world.upload.NoSingleHead) ∧
      ∀ commits ∈ listsHeads action, (world.storage.heads parents).length = 1 →
        world.upload.commitsToUpload ∧ commits.uploadsEnded = world.upload.uploadsEnded)
    ⟨fun keeps => ⟨keeps.1, keeps.2⟩, fun keeps => ⟨keeps.outdates, keeps.lists⟩⟩

theorem chainsFresh_uploads {upload : PageUpload} (uploads : Uploads upload world next)
    (fresh : upload.ChainsFresh) : next.upload.ChainsFresh := by
  rw [uploads.upload]
  exact fresh

theorem chainsFresh_take (fresh : world.upload.ChainsFresh) (call : UploadCall) :
    (world.takeUpload call).upload.ChainsFresh :=
  fresh.keep (fun isFlag => isFlag) rfl fun _ inCalls => .inl (mem_of_mem_erase inCalls)

theorem noSingleHead_take (noSingle : world.upload.NoSingleHead) (call : UploadCall) :
    (world.takeUpload call).upload.NoSingleHead :=
  fun other inCalls => noSingle other (mem_of_mem_erase inCalls)

section

variable (fresh : world.upload.ChainsFresh) {commits : UnsyncedList}
include fresh

theorem chainsFresh_send {call : UploadCall}
    (notSingle : ¬call.hasSingleHead) : (world.sendUpload call).upload.ChainsFresh := by
  refine fresh.keep (fun isFlag => isFlag) rfl fun other inCalls => ?_
  rcases mem_append.mp inCalls with inCalls | isNew
  · exact .inl inCalls
  · rw [mem_singleton.mp isNew]
    exact .inr notSingle

theorem chainsFresh_setState (newState : UploadSyncState) :
    (world.setState newState).upload.ChainsFresh := by
  rw [(uploads_setState world newState).upload]
  exact fresh

theorem chainsFresh_onUnsyncedCommits
    (noSingle : commits.commits = [] → world.upload.NoSingleHead) :
    (world.onUnsyncedCommits commits).upload.ChainsFresh := by
  have verified {other : SyncWorld} (sameUpload : other.upload = world.upload) :
      (other.verifyUnsyncedCommits commits).upload.ChainsFresh := by
    unfold verifyUnsyncedCommits
    split
    case isTrue isEmpty =>
      refine PageUpload.NoSingleHead.chainsFresh ?_
      dsimp only [setCommitsToUpload]
      rw [(uploads_setState other .idle).upload, sameUpload]
      exact noSingle isEmpty
    case isFalse =>
      rw [← sameUpload] at fresh
      exact chainsFresh_send fresh nofun
  unfold onUnsyncedCommits
  dsimp only
  split <;> exact verified rfl

theorem chainsFresh_handleUploadError : world.handleUploadError.upload.ChainsFresh := by
  unfold handleUploadError
  refine chainsFresh_setState ?_ .permanentError
  split <;> exact fresh

theorem chainsFresh_onHeadCommitIds {heads : List CommitId}
    (noSingle : world.upload.batchUpload = none → world.download.isIdle → 1 < heads.length →
      world.upload.NoSingleHead)
    (isNext : world.onHeadCommitIds commits heads = some next) : next.upload.ChainsFresh := by
  unfold onHeadCommitIds at isNext
  split at isNext
  · cases isNext
    exact fresh
  case isFalse noBatch =>
    split at isNext
    · cases isNext
    split at isNext
    · cases isNext
      exact chainsFresh_setState fresh _
    case isFalse isIdle =>
      split at isNext
      case isTrue several =>
        cases isNext
        refine PageUpload.NoSingleHead.chainsFresh ?_
        rw [(uploads_setState _ _).upload]
        exact noSingle (not_isSome_iff_eq_none.mp noBatch) (not_not.mp isIdle) several
      case isFalse =>
        obtain ⟨-, isNext⟩ := ite_none_left_eq_some.mp isNext
        cases isNext
        exact chainsFresh_setState fresh .inProgress

theorem chainsFresh_stepUpload {action : PageUploadAction}
    (keeps : KeepsChains parents world (.upload action))
    (isStep : world.stepUpload parents action = some next) : next.upload.ChainsFresh := by
  cases action <;> dsimp only [stepUpload] at isStep
  case readUnsyncedCommits =>
    obtain ⟨-, isNext⟩ := answerUpload_eq_some.mp isStep
    cases isNext
    exact chainsFresh_send (chainsFresh_take fresh _) nofun
  case answerUnsyncedCommits commits =>
    obtain ⟨-, isNext⟩ := answerUpload_eq_some.mp isStep
    cases isNext
    refine chainsFresh_onUnsyncedCommits (chainsFresh_take fresh _) fun isEmpty => ?_
    exact noSingleHead_take (keeps.outdates (decide_eq_true isEmpty)) _
  case failUnsyncedCommits commits =>
    obtain ⟨-, isNext⟩ := answerUpload_eq_some.mp isStep
    cases isNext
    exact chainsFresh_handleUploadError (chainsFresh_setState (chainsFresh_take fresh _) _)
  case readHeadCommitIds commits =>
    obtain ⟨-, isNext⟩ := answerUpload_eq_some.mp isStep
    cases isNext
    intro other heads inCalls isSingle
    rcases mem_append.mp inCalls with inCalls | isNew
    · exact chainsFresh_take fresh _ other heads inCalls isSingle
    · obtain ⟨rfl, rfl⟩ := UploadCall.getHeadCommitIds.inj (mem_singleton.mp isNew) |>.imp_right
        some.inj
      exact keeps.lists other rfl isSingle
  case answerHeadCommitIds commits heads =>
    obtain ⟨-, isNext⟩ := answerUpload_eq_some.mp isStep
    refine chainsFresh_onHeadCommitIds (chainsFresh_take fresh _) ?_ isNext
    intro noBatch isIdle several
    refine noSingleHead_take (keeps.outdates ?_) _
    have none : world.upload.batchUpload = none := noBatch
    have idle : world.download.isIdle = true := isIdle
    simp [outdatesChains, none, idle, several]
  case failHeadCommitIds commits heads =>
    obtain ⟨-, isNext⟩ := answerUpload_eq_some.mp isStep
    cases isNext
    exact chainsFresh_handleUploadError (chainsFresh_take fresh _)
  case retry =>
    obtain ⟨-, isNext⟩ := answerUpload_eq_some.mp isStep
    cases isNext
    have taken := chainsFresh_take fresh .retry
    split
    · exact chainsFresh_uploads (uploads_uploadUnsyncedCommits _) taken.afterUploadUnsynced
    · exact taken
  case markCommitSynced commit =>
    obtain ⟨-, isNext⟩ := ite_none_right_eq_some.mp isStep
    cases isNext
    exact fresh
  case uploadDone =>
    obtain ⟨-, isNext⟩ := ite_none_right_eq_some.mp isStep
    cases isNext
    have ended : PageUpload.NoSingleHead { world.upload with
        batchUpload := none
        uploadsEnded := world.upload.uploadsEnded + 1 } := keeps.outdates rfl
    exact chainsFresh_uploads (uploads_uploadUnsyncedCommits _) ended.chainsFresh.afterUploadUnsynced
  case uploadError errorType =>
    obtain ⟨-, isNext⟩ := ite_none_right_eq_some.mp isStep
    cases isNext
    cases errorType with
    | temporary =>
      refine chainsFresh_send ?_ nofun
      refine PageUpload.NoSingleHead.chainsFresh ?_
      dsimp only [setBatchUpload]
      rw [(uploads_setState world .temporaryError).upload]
      exact keeps.outdates rfl
    | permanent => exact chainsFresh_setState fresh .permanentError

end

theorem chainsFresh_new (storage : SyncStorage) (cloud : List CommitId) :
    (new storage cloud).upload.ChainsFresh :=
  nofun

theorem chainsFresh_step (fresh : world.upload.ChainsFresh) {action : SyncAction}
    (keeps : KeepsChains parents world action) (isStep : world.step parents action = some next) :
    next.upload.ChainsFresh := by
  have started {before : SyncWorld} (sameUpload : before.upload = world.upload) :
      before.startUpload.upload.ChainsFresh := by
    rw [(uploads_startUpload before).upload, sameUpload]
    exact fresh.afterStart
  cases action <;> dsimp only [step] at isStep
  case setOnBacklogDownloaded =>
    obtain ⟨-, isNext⟩ := ite_none_left_eq_some.mp isStep
    cases isNext
    exact fresh
  case start =>
    obtain ⟨-, isNext⟩ := ite_none_left_eq_some.mp isStep
    cases isNext
    have same := upload_startDownload { world with sync.started := true }
    split
    · exact started same
    · rw [same]
      exact fresh
  case enableUpload =>
    cases isStep
    split
    · exact started rfl
    · exact fresh
  case publish commit =>
    cases isStep
    exact fresh
  case addCommitFromLocal commit =>
    obtain ⟨-, isNext⟩ := ite_none_left_eq_some.mp isStep
    cases isNext
    rw [addCommitFromLocal, (uploads_notifyLocal _).upload]
    exact fresh.notified _ _
  case download action =>
    rcases (mayStart_stepDownload isStep).upload with ⟨-, isStarted⟩ | ⟨-, same⟩
    · rw [isStarted]
      exact fresh.afterStart
    · rw [same]
      exact fresh
  case upload action => exact chainsFresh_stepUpload fresh keeps isStep
  case restart =>
    cases isStep
    exact chainsFresh_new world.storage world.cloud

/-- In a run in which no chain that has seen a single head is outdated, each upload is entered with
commits to upload that no batch has replaced, and without a batch. -/
theorem entersRight_run (parents : CommitId → List CommitId) (storage : SyncStorage)
    (cloud : List CommitId) {actions : List SyncAction} {final : SyncWorld}
    (keeps : EachStep (step parents) (KeepsChains parents) (new storage cloud) actions)
    (isRun : runSteps (step parents) (new storage cloud) actions = some final) :
    final.EntersRight := by
  have fresh : final.upload.ChainsFresh :=
    invariant_runSteps (fun world : SyncWorld => world.upload.ChainsFresh)
      (fun fresh keeps isStep => chainsFresh_step fresh keeps isStep)
      (chainsFresh_new storage cloud) keeps isRun
  intro commits heads enters
  exact ⟨enters.noBatch, fresh commits heads enters.inCalls enters.isSingle⟩

/-- The upload is enabled when the download is idle, and a commit is added while it is set up. -/
def firstUpload : List SyncAction :=
  emptyBacklog 0 ++
    [.enableUpload, .addCommitFromLocal [1], .upload .readUnsyncedCommits,
      .upload (.answerUnsyncedCommits ⟨[[1]], 0⟩), .upload (.readHeadCommitIds ⟨[[1]], 0⟩)]

theorem entersRight_run_first :
    ∃ final, runSteps (step sampleParents) (new (unsyncedStorage [[0]]) []) firstUpload =
        some final ∧ final.Enters ⟨[[1]], 0⟩ [[1]] ∧ final.EntersRight :=
  ⟨_, rfl, ⟨by decide, rfl, rfl, rfl⟩,
    @entersRight_run sampleParents (unsyncedStorage [[0]]) [] firstUpload _ (by decide +kernel) rfl⟩

/-- The download becomes idle while the upload is being set up: there are two chains. -/
def twoChains : List SyncAction :=
  [.enableUpload, .start, .upload .readUnsyncedCommits,
    .download (.readSyncMetadata .startDownload), .download (.answerSyncMetadata .startDownload 0),
    .download (.answerGetCommits 0 0), .download (.readSyncMetadata .setRemoteWatcher),
    .download (.answerSyncMetadata .setRemoteWatcher 0)]

/-- The first chain clears the flag after a commit was added, and the second one uploads it.  Or
both chains have listed the commit, and the second one uploads it again. -/
theorem not_entersRight : (∃ actions final commits heads,
      runSteps (step sampleParents) (new (unsyncedStorage [[0]]) []) actions = some final ∧
        final.Enters commits heads ∧ final.upload.commitsToUpload = false) ∧
      ∃ actions final commits heads, runSteps (step sampleParents)
            (new { unsyncedStorage [[0], [1]] with unsynced := [[1]] } []) actions = some final ∧
          final.Enters commits heads ∧ commits.commits = [[1]] ∧ final.storage.unsynced = [] ∧
          commits.uploadsEnded ≠ final.upload.uploadsEnded := by
  constructor
  · refine ⟨twoChains ++ [.addCommitFromLocal [1], .upload .readUnsyncedCommits,
      .upload (.answerUnsyncedCommits ⟨[], 0⟩), .upload (.answerUnsyncedCommits ⟨[[1]], 0⟩),
      .upload (.readHeadCommitIds ⟨[[1]], 0⟩)], _, ⟨[[1]], 0⟩, [[1]], rfl, ?_, rfl⟩
    exact ⟨by decide, rfl, rfl, rfl⟩
  · refine ⟨twoChains ++ [.upload .readUnsyncedCommits,
      .upload (.answerUnsyncedCommits ⟨[[1]], 0⟩), .upload (.answerUnsyncedCommits ⟨[[1]], 0⟩),
      .upload (.readHeadCommitIds ⟨[[1]], 0⟩), .upload (.readHeadCommitIds ⟨[[1]], 0⟩),
      .upload (.answerHeadCommitIds ⟨[[1]], 0⟩ [[1]]), .upload (.markCommitSynced [1]),
      .upload .uploadDone], _, ⟨[[1]], 0⟩, [[1]], rfl, ?_, rfl, rfl, by decide⟩
    exact ⟨by decide, rfl, rfl, rfl⟩

end SyncWorld

end Peridot
