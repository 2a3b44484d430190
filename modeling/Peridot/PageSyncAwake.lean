import Peridot.PageSyncIdle
import Peridot.PageSyncUpload

/-!
# Whether a local commit is left behind

An upload that waits is woken by the end of a call, by a local commit, or by `SetDownloadState`.
-/

namespace Peridot

open List Option PageUpload

def UploadCall.listsUnsynced : UploadCall → Bool
  | getUnsyncedCommits _ => true
  | getHeadCommitIds _ _ => false
  | retry => false

namespace PageUpload

/-- An upload that has something to upload is woken, or waits for a busy download; one that has
not is told of local commits. -/
structure Awake (commitWatchers : Nat) (nothing busy : Prop) (upload : PageUpload) : Prop where
  cleared : ¬upload.commitsToUpload → upload.state ≠ .stopped → nothing
  waking : upload.commitsToUpload → upload.calls ≠ [] ∨ upload.batchUpload.isSome ∨
    upload.state = .waitRemoteDownload ∧ busy
  unwatched : commitWatchers = 0 → (upload.state = .stopped ∨ upload.state = .setup) ∧
    upload.batchUpload = none ∧ ∀ call ∈ upload.calls, call.listsUnsynced
  setup : upload.state = .setup → upload.commitsToUpload
  retrying : upload.state = .temporaryError → upload.calls ≠ [] ∨ upload.batchUpload.isSome
  notFailed : upload.state ≠ .permanentError

/-- What `UploadUnsyncedCommits` makes an upload that is awake of. -/
structure Ready (commitWatchers : Nat) (nothing : Prop) (upload : PageUpload) : Prop where
  cleared : ¬upload.commitsToUpload → nothing
  running : upload.state ≠ .stopped
  unwatched : commitWatchers = 0 → (upload.state = .stopped ∨ upload.state = .setup) ∧
    upload.batchUpload = none ∧ ∀ call ∈ upload.calls, call.listsUnsynced
  setup : upload.state = .setup → upload.commitsToUpload
  notFailed : upload.state ≠ .permanentError

variable {upload : PageUpload} {commitWatchers : Nat} {nothing busy : Prop}

theorem Ready.afterUploadUnsynced (ready : Ready commitWatchers nothing upload) :
    Awake commitWatchers nothing busy upload.afterUploadUnsynced := by
  unfold PageUpload.afterUploadUnsynced
  split
  case isTrue noCommits =>
    refine ⟨fun _ _ => ready.cleared noCommits, fun commits => absurd commits noCommits, ?_, nofun,
      nofun, nofun⟩
    -- An upload that is not being set up is told of local commits.
    intro isUnwatched
    rcases (ready.unwatched isUnwatched).1 with isStopped | isSetup
    · exact absurd isStopped ready.running
    · exact absurd (ready.setup isSetup) noCommits
  case isFalse someCommits =>
    have commits := not_not.mp someCommits
    split
    case isTrue isBatch =>
      exact ⟨fun noCommits _ => absurd commits noCommits, fun _ => .inr (.inl isBatch),
        ready.unwatched, ready.setup, fun _ => .inr isBatch, ready.notFailed⟩
    case isFalse =>
      refine ⟨fun noCommits _ => absurd commits noCommits, fun _ => .inl (by simp), ?_,
        ready.setup, fun _ => .inl (by simp), ready.notFailed⟩
      intro isUnwatched
      obtain ⟨isState, noBatch, areLists⟩ := ready.unwatched isUnwatched
      refine ⟨isState, noBatch, fun call inCalls => ?_⟩
      rcases mem_append.mp inCalls with inCalls | isNew
      · exact areLists call inCalls
      · rw [mem_singleton.mp isNew]
        rfl

variable (awake : Awake commitWatchers nothing busy upload) {isIdle : Bool}
include awake

theorem Awake.ready (isRunning : upload.state ≠ .stopped) : Ready commitWatchers nothing upload :=
  ⟨fun noCommits => awake.cleared noCommits isRunning, isRunning, awake.unwatched, awake.setup,
    awake.notFailed⟩

section

variable {otherNothing : Prop}
    (cleared : ¬upload.commitsToUpload → upload.state ≠ .stopped → nothing → otherNothing)
include cleared

theorem Awake.mono {otherBusy : Prop}
    (waiting : upload.state = .waitRemoteDownload → busy → otherBusy) :
    Awake commitWatchers otherNothing otherBusy upload where
  cleared := fun noCommits isRunning =>
    cleared noCommits isRunning (awake.cleared noCommits isRunning)
  waking := fun commits => by
    rcases awake.waking commits with calls | batch | ⟨isWaiting, isBusy⟩
    · exact .inl calls
    · exact .inr (.inl batch)
    · exact .inr (.inr ⟨isWaiting, waiting isWaiting isBusy⟩)
  __ := awake

theorem Awake.afterStart {otherBusy : Prop} :
    Awake commitWatchers otherNothing otherBusy upload.afterStart := by
  unfold PageUpload.afterStart
  split
  case isTrue isStopped =>
    refine Ready.afterUploadUnsynced ⟨absurd rfl, nofun, ?_, fun _ => rfl, nofun⟩
    intro isUnwatched
    exact ⟨.inr rfl, (awake.unwatched isUnwatched).2⟩
  case isFalse isRunning =>
    have ready := awake.ready isRunning
    exact Ready.afterUploadUnsynced ⟨fun noCommits => cleared noCommits isRunning
      (ready.cleared noCommits), ready.running, ready.unwatched, ready.setup, ready.notFailed⟩

end

theorem Awake.afterNewCommits {otherNothing : Prop} (isWatched : 0 < commitWatchers)
    (waits : ¬isIdle → busy) :
    Awake commitWatchers otherNothing busy (upload.afterNewCommits isIdle) := by
  have watched {p : Prop} (isUnwatched : commitWatchers = 0) : p := absurd isUnwatched isWatched.ne'
  unfold PageUpload.afterNewCommits
  split
  case isTrue isBusy =>
    exact ⟨absurd rfl, fun _ => .inr (.inr ⟨rfl, waits isBusy⟩), watched,
      fun _ => rfl, nofun, nofun⟩
  split
  case isTrue isError =>
    refine ⟨absurd rfl, fun _ => ?_, watched, fun _ => rfl,
      fun _ => awake.retrying isError, awake.notFailed⟩
    rcases awake.retrying isError with calls | batch
    · exact .inl calls
    · exact .inr (.inl batch)
  case isFalse =>
    exact Ready.afterUploadUnsynced ⟨absurd rfl, nofun, watched, fun _ => rfl, nofun⟩

theorem Awake.notified {otherNothing : Prop} (isWatched : 0 < commitWatchers)
    (waits : ¬isIdle → busy) (count : Nat) : Awake commitWatchers otherNothing busy
      ((fun upload : PageUpload => upload.afterNewCommits isIdle)^[count + 1] upload) := by
  induction count generalizing upload nothing with
  | zero => exact awake.afterNewCommits isWatched waits
  | succ count ih =>
    rw [Function.iterate_succ_apply]
    have told : Awake commitWatchers otherNothing busy (upload.afterNewCommits isIdle) :=
      awake.afterNewCommits isWatched waits
    exact ih told

theorem Awake.watched
    (isRunning : (upload.state ≠ .stopped ∧ upload.state ≠ .setup) ∨ upload.batchUpload.isSome ∨
      ∃ call ∈ upload.calls, ¬call.listsUnsynced) : 0 < commitWatchers := by
  refine Nat.pos_of_ne_zero fun isUnwatched => ?_
  obtain ⟨isState, noBatch, areLists⟩ := awake.unwatched isUnwatched
  rcases isRunning with ⟨notStopped, notSetup⟩ | isBatch | ⟨call, inCalls, isOther⟩
  · rcases isState with isStopped | isSetup
    · exact notStopped isStopped
    · exact notSetup isSetup
  · rw [noBatch] at isBatch
    cases isBatch
  · exact isOther (areLists call inCalls)

theorem Awake.watchersAfter (isRunning : upload.state ≠ .stopped) :
    0 < upload.watchersAfter commitWatchers := by
  unfold PageUpload.watchersAfter
  split
  case isTrue => omega
  case isFalse notSetup => exact awake.watched (.inl ⟨isRunning, notSetup⟩)

end PageUpload

def SyncStorage.addCommits (storage : SyncStorage) (commits : List CommitId) : SyncStorage :=
  { storage with
    commits := storage.commits ++ commits.filter (· ∉ storage.commits)
    unsynced := storage.unsynced.filter (· ∉ commits) }

namespace SyncWorld

variable {world next : SyncWorld} {parents : CommitId → List CommitId}

def NothingToUpload (parents : CommitId → List CommitId) (storage : SyncStorage) : Prop :=
  storage.unsynced = [] ∨ (storage.heads parents).length ≠ 1
deriving Decidable

def Awake (parents : CommitId → List CommitId) (world : SyncWorld) : Prop :=
  world.upload.Awake world.storage.commitWatchers (NothingToUpload parents world.storage)
    world.IsBusy

def failsUpload : SyncAction → Bool
  | .upload (.failUnsyncedCommits _) => true
  | .upload (.failHeadCommitIds _ _) => true
  | .upload (.uploadError .permanent) => true
  | _ => false

/-- The replies that clear `commits_to_upload_`. -/
def clearsFlag (world : SyncWorld) : SyncAction → Bool
  | .upload (.answerUnsyncedCommits commits) => commits.commits = []
  | .upload (.answerHeadCommitIds _ heads) =>
    world.upload.batchUpload.isNone && (world.download.isIdle && 1 < heads.length)
  | _ => false

def waitsForDownload (world : SyncWorld) : SyncAction → Bool
  | .addCommitFromLocal _ => world.storage.commitWatchers ≠ 0 && !world.download.isIdle
  | .upload (.answerHeadCommitIds _ _) =>
    world.upload.batchUpload.isNone && !world.download.isIdle
  | _ => false

def downloadBecomesIdle (world : SyncWorld) : SyncAction → Bool
  | .download action => world.becomesIdle action
  | _ => false

def addedBatch (world : SyncWorld) : SyncAction → List CommitId
  | .download action => world.addedCommits action
  | _ => []

/-- No step loses what is to be uploaded.  A reply that clears the flag is up to date; a batch does
not leave a single head while the flag is cleared; the upload waits for the download only while the
commit state is not idle and the delegate knows that, and no `GetObject` call is there when it
becomes idle. -/
structure KeepsAwake (parents : CommitId → List CommitId) (world : SyncWorld) (action : SyncAction) :
    Prop where
  upToDate : world.clearsFlag action → NothingToUpload parents world.storage
  batch : world.addedBatch action ≠ [] → ¬world.upload.commitsToUpload →
    world.upload.state ≠ .stopped →
    NothingToUpload parents (world.storage.addCommits (world.addedBatch action))
  waits : world.waitsForDownload action → world.IsBusy
  noObject : world.downloadBecomesIdle action → world.upload.state = .waitRemoteDownload →
    world.download.currentGetObjectCalls = 0

instance decidableIsBusy (world : SyncWorld) : Decidable world.IsBusy :=
  inferInstanceAs (Decidable (_ ∧ _))

instance decidableKeepsAwake (parents : CommitId → List CommitId) (world : SyncWorld)
    (action : SyncAction) : Decidable (KeepsAwake parents world action) :=
  decidable_of_iff ((world.clearsFlag action → NothingToUpload parents world.storage) ∧
      (world.addedBatch action ≠ [] → ¬world.upload.commitsToUpload →
        world.upload.state ≠ .stopped →
        NothingToUpload parents (world.storage.addCommits (world.addedBatch action))) ∧
      (world.waitsForDownload action → world.IsBusy) ∧
      (world.downloadBecomesIdle action → world.upload.state = .waitRemoteDownload →
        world.download.currentGetObjectCalls = 0))
    ⟨fun keeps => ⟨keeps.1, keeps.2.1, keeps.2.2.1, keeps.2.2.2⟩,
      fun keeps => ⟨keeps.upToDate, keeps.batch, keeps.waits, keeps.noObject⟩⟩

theorem NothingToUpload.mono {before after : SyncStorage}
    (nothing : NothingToUpload parents before) (commits : after.commits = before.commits)
    (unsynced : after.unsynced ⊆ before.unsynced) : NothingToUpload parents after := by
  rcases nothing with isEmpty | notSingle
  · rw [isEmpty] at unsynced
    exact .inl (subset_nil.mp unsynced)
  · refine .inr ?_
    rw [SyncStorage.heads, commits]
    exact notSingle

section

variable (awake : Awake parents world) {action : PageUploadAction}
include awake

theorem awake_uploadChange {upload : PageUpload} {commitWatchers : Nat}
    (isRunning : world.upload.state ≠ .stopped)
    (noError : ¬failsUpload (.upload action)) (keeps : KeepsAwake parents world (.upload action))
    (change : UploadChange parents world action upload commitWatchers) :
    upload.Awake commitWatchers (NothingToUpload parents world.storage) world.IsBusy := by
  have cleared (noCommits : ¬world.upload.commitsToUpload) := awake.cleared noCommits isRunning
  have never {p : Prop} {count : Nat} (isWatched : 0 < count) (isUnwatched : count = 0) : p :=
    absurd isUnwatched isWatched.ne'
  cases change with
  | readUnsynced =>
    refine ⟨fun noCommits _ => cleared noCommits, fun _ => .inl (by simp [PageUpload.send]), ?_,
      awake.setup, fun _ => .inl (by simp [PageUpload.send]), awake.notFailed⟩
    intro isUnwatched
    obtain ⟨isState, noBatch, areLists⟩ := awake.unwatched isUnwatched
    refine ⟨isState, noBatch, fun call inCalls => ?_⟩
    rcases mem_append.mp inCalls with inCalls | isNew
    · exact areLists call (mem_of_mem_erase inCalls)
    · rw [mem_singleton.mp isNew]
      rfl
  | noneUnsynced inCalls isEmpty =>
    exact ⟨fun _ _ => keeps.upToDate (decide_eq_true isEmpty), nofun,
      never (awake.watchersAfter isRunning), nofun, nofun, nofun⟩
  | someUnsynced =>
    exact ⟨fun noCommits _ => cleared noCommits, fun _ => .inl (by simp [PageUpload.send]),
      never (awake.watchersAfter isRunning), awake.setup,
      fun _ => .inl (by simp [PageUpload.send]), awake.notFailed⟩
  | failUnsynced | failHeads | permanentError => exact absurd rfl noError
  | readHeads inCalls =>
    exact ⟨fun noCommits _ => cleared noCommits, fun _ => .inl (by simp [PageUpload.send]),
      never (awake.watched (.inr (.inr ⟨_, inCalls, nofun⟩))), awake.setup,
      fun _ => .inl (by simp [PageUpload.send]), awake.notFailed⟩
  | headsOther inCalls isBatch =>
    exact ⟨fun noCommits _ => cleared noCommits, fun _ => .inr (.inl isBatch),
      never (awake.watched (.inr (.inl isBatch))), awake.setup, fun _ => .inr isBatch,
      awake.notFailed⟩
  | headsWait inCalls noBatch isBusy =>
    have waits : world.IsBusy := keeps.waits (by simp [waitsForDownload, noBatch, isBusy])
    exact ⟨fun noCommits _ => cleared noCommits, fun _ => .inr (.inr ⟨rfl, waits⟩),
      never (awake.watched (.inr (.inr ⟨_, inCalls, nofun⟩))), nofun, nofun, nofun⟩
  | headsSeveral inCalls noBatch isIdle several =>
    have nothing := keeps.upToDate (by simp [clearsFlag, noBatch, isIdle, several])
    exact ⟨fun _ _ => nothing, nofun, never (awake.watched (.inr (.inr ⟨_, inCalls, nofun⟩))),
      nofun, nofun, nofun⟩
  | headsEnter enters inCalls =>
    exact ⟨fun noCommits _ => cleared noCommits, fun _ => .inr (.inl rfl),
      never (awake.watched (.inr (.inr ⟨_, inCalls, nofun⟩))), nofun, nofun, nofun⟩
  | retry inCalls =>
    exact PageUpload.Ready.afterUploadUnsynced ⟨cleared, isRunning,
      never (awake.watched (.inr (.inr ⟨_, inCalls, nofun⟩))), awake.setup, awake.notFailed⟩
  | giveUp inCalls isFailed => exact absurd isFailed awake.notFailed
  | marked => exact awake
  | done isUploading =>
    have isBatch := (Bool.and_eq_true_iff.mp isUploading).1
    exact PageUpload.Ready.afterUploadUnsynced ⟨cleared, isRunning,
      never (awake.watched (.inr (.inl isBatch))), awake.setup, awake.notFailed⟩
  | temporaryError isUploading =>
    have isBatch := (Bool.and_eq_true_iff.mp isUploading).1
    exact ⟨fun noCommits _ => cleared noCommits, fun _ => .inl (by simp [PageUpload.send]),
      never (awake.watched (.inr (.inl isBatch))), nofun, fun _ => .inl (by simp [PageUpload.send]),
      nofun⟩

theorem Awake.stepUpload (begun : world.UploadBegun) (noError : ¬failsUpload (.upload action))
    (keeps : KeepsAwake parents world (.upload action))
    (isStep : world.stepUpload parents action = some next) : Awake parents next := by
  have changes := changesUpload_stepUpload isStep
  have same := sameDownload_stepUpload isStep
  have changed := awake_uploadChange awake (begun.not_stopped isStep) noError keeps changes.change
  refine changed.mono (fun _ _ nothing => nothing.mono same.commits changes.unsynced) fun _ busy => ?_
  rw [IsBusy, same.download, same.downloadState]
  exact busy

theorem Awake.stepDownload (begun : world.UploadBegun)
    {action : PageDownloadAction} (keeps : KeepsAwake parents world (.download action))
    (isStep : world.stepDownload action = some next) : Awake parents next := by
  have mayStart := mayStart_stepDownload isStep
  have added : ¬world.upload.commitsToUpload → world.upload.state ≠ .stopped →
      NothingToUpload parents world.storage → NothingToUpload parents next.storage := by
    intro noCommits isRunning nothing
    by_cases isNone : world.addedCommits action = []
    · have commits := mayStart.commits
      have unsynced := mayStart.unsynced
      rw [isNone] at commits unsynced
      exact nothing.mono (commits.trans (by simp)) (by simp [unsynced])
    · have after := keeps.batch isNone noCommits isRunning
      rw [NothingToUpload, SyncStorage.heads, mayStart.commits, mayStart.unsynced]
      exact after
  unfold Awake
  rw [mayStart.commitWatchers]
  rcases mayStart.upload with ⟨-, isStarted⟩ | ⟨notStarted, same⟩
  · rw [isStarted]
    exact PageUpload.Awake.afterStart awake added
  · rw [same]
    refine PageUpload.Awake.mono awake added fun isWaiting busy => ?_
    by_cases isIdle : world.becomesIdle action
    · -- The download that becomes idle starts the upload that waits for it.
      have noObject := keeps.noObject isIdle isWaiting
      have isEnabled := (begun.started (by rw [isWaiting]; decide)).2
      exact absurd ⟨isIdle, isEnabled, busy.2, busy.1, noObject⟩ notStarted
    · exact mayStart.busy isIdle busy

theorem Awake.addCommitFromLocal {commit : CommitId}
    (keeps : KeepsAwake parents world (.addCommitFromLocal commit))
    (adds : AddsLocal commit world next) : Awake parents next := by
  have upload := adds.upload
  have busy : next.IsBusy ↔ world.IsBusy := by
    rw [IsBusy, adds.download, adds.downloadState]
    exact Iff.rfl
  unfold Awake
  rw [adds.commitWatchers]
  cases isCount : world.storage.commitWatchers with
  | zero =>
    -- Nobody is told, as the upload is still being set up.
    rw [isCount, Function.iterate_zero_apply] at upload
    have same : world.upload.Awake 0 (NothingToUpload parents world.storage) world.IsBusy :=
      isCount ▸ awake
    rw [upload]
    refine same.mono (fun noCommits isRunning _ => ?_) fun _ => busy.mpr
    rcases (same.unwatched rfl).1 with isStopped | isSetup
    · exact absurd isStopped isRunning
    · exact absurd (same.setup isSetup) noCommits
  | succ count =>
    have same : world.upload.Awake (count + 1) (NothingToUpload parents world.storage)
      world.IsBusy := isCount ▸ awake
    rw [isCount] at upload
    rw [upload]
    have waits : ¬world.download.isIdle → world.IsBusy := fun isBusy =>
      keeps.waits (by simp [waitsForDownload, isCount, isBusy])
    have told : PageUpload.Awake (count + 1) (NothingToUpload parents next.storage) world.IsBusy
        ((fun upload : PageUpload => upload.afterNewCommits world.download.isIdle)^[count + 1]
          world.upload) :=
      same.notified (Nat.succ_pos count) waits count
    exact told.mono (fun _ _ nothing => nothing) fun _ => busy.mpr

theorem Awake.startUpload : Awake parents world.startUpload := by
  have starts := uploads_startUpload world
  unfold Awake
  rw [starts.upload, starts.only.storage]
  exact PageUpload.Awake.afterStart awake fun _ _ nothing => nothing

end

theorem awake_new (storage : SyncStorage) (cloud : List CommitId) :
    Awake parents (new storage cloud) where
  cleared := fun _ isRunning => absurd rfl isRunning
  waking := nofun
  unwatched := fun _ => ⟨.inl rfl, rfl, nofun⟩
  setup := nofun
  retrying := nofun
  notFailed := nofun

/-- Nothing is left behind: the upload is awake, and it runs when it is enabled and started. -/
structure Attentive (parents : CommitId → List CommitId) (world : SyncWorld) : Prop where
  told : world.UploadTold
  awake : Awake parents world
  enabled : world.sync.started → world.sync.enableUpload → world.upload.state ≠ .stopped

theorem Attentive.step (attentive : Attentive parents world) {action : SyncAction}
    (noError : ¬failsUpload action) (keeps : KeepsAwake parents world action)
    (isStep : world.step parents action = some next) : Attentive parents next := by
  suffices follows : Awake parents next ∧
      (next.sync.started → next.sync.enableUpload → next.upload.state ≠ .stopped) from
    ⟨attentive.told.step isStep, follows.1, follows.2⟩
  cases action <;> dsimp only [SyncWorld.step] at isStep
  case setOnBacklogDownloaded =>
    obtain ⟨-, isNext⟩ := ite_none_left_eq_some.mp isStep
    cases isNext
    exact ⟨attentive.awake, attentive.enabled⟩
  case start =>
    obtain ⟨-, isNext⟩ := ite_none_left_eq_some.mp isStep
    cases isNext
    have starts := keepsUpload_startDownload
      { world with sync.started := true }
    have client := sameClient_startDownload
      { world with sync.started := true }
    have awake : Awake parents (startDownload
        { world with sync.started := true }) := by
      unfold Awake
      rw [starts.upload, starts.commitWatchers]
      refine PageUpload.Awake.mono attentive.awake (fun _ _ nothing => ?_) fun _ => starts.busy
      exact nothing.mono starts.commits (by rw [starts.unsynced]; exact fun _ isOld => isOld)
    split
    case isTrue isEnabled =>
      refine ⟨awake.startUpload, fun _ _ => ?_⟩
      rw [(uploads_startUpload _).upload]
      exact afterStart_ne_stopped
    case isFalse isDisabled => exact ⟨awake, fun _ isEnabled => absurd isEnabled isDisabled⟩
  case enableUpload =>
    cases isStep
    have awake : Awake parents { world with sync.enableUpload := true } :=
      attentive.awake
    split
    case isTrue =>
      refine ⟨awake.startUpload, fun _ _ => ?_⟩
      rw [(uploads_startUpload _).upload]
      exact afterStart_ne_stopped
    case isFalse notStopped =>
      refine ⟨awake, fun isStarted _ isStopped => notStopped ⟨isStarted, ?_⟩⟩
      exact attentive.told.told.trans isStopped
  case publish commit =>
    cases isStep
    exact ⟨attentive.awake, attentive.enabled⟩
  case addCommitFromLocal commit =>
    obtain ⟨-, isNext⟩ := ite_none_left_eq_some.mp isStep
    cases isNext
    have adds := addsLocal_addCommitFromLocal world commit
    refine ⟨attentive.awake.addCommitFromLocal keeps adds, ?_⟩
    rw [adds.started, adds.enableUpload, adds.upload]
    intro isStarted isEnabled
    cases world.storage.commitWatchers with
    | zero => exact attentive.enabled isStarted isEnabled
    | succ count =>
      rcases @notified_state world.upload world.download.isIdle count with
        isState | isState | isState <;> rw [isState] <;> decide
  case download action =>
    have client := sameClient_stepDownload isStep
    refine ⟨attentive.awake.stepDownload attentive.told.begun keeps isStep, ?_⟩
    rw [client.started, client.enableUpload]
    rcases (mayStart_stepDownload isStep).upload with ⟨-, isStarted⟩ | ⟨-, same⟩
    · rw [isStarted]
      exact fun _ _ => afterStart_ne_stopped
    · rw [same]
      exact attentive.enabled
  case upload action =>
    refine ⟨attentive.awake.stepUpload attentive.told.begun noError keeps isStep, fun _ _ => ?_⟩
    exact uploadChange_ne_stopped (changesUpload_stepUpload isStep).change
      (attentive.told.begun.not_stopped isStep)
  case restart =>
    cases isStep
    exact ⟨awake_new world.storage world.cloud, nofun⟩

/-- Nothing is under way that will be answered. -/
structure IsQuiet (world : SyncWorld) : Prop where
  uploadCalls : world.upload.calls = []
  batchUpload : world.upload.batchUpload = none
  downloadCalls : world.download.calls = []
  batchDownload : world.download.batchDownload = none

/-- In a run that loses nothing of what is to be uploaded, no local commit is left behind. -/
theorem unsynced_run (parents : CommitId → List CommitId) (storage : SyncStorage)
    (cloud : List CommitId) {actions : List SyncAction} {final : SyncWorld}
    (noError : ∀ action ∈ actions, ¬failsUpload action)
    (keeps : EachStep (step parents) (KeepsAwake parents) (new storage cloud) actions)
    (isRun : runSteps (step parents) (new storage cloud) actions = some final)
    (isEnabled : final.sync.started ∧ final.sync.enableUpload) (isQuiet : final.IsQuiet)
    (isIdle : final.mergedState = .idle) (isSingle : (final.storage.heads parents).length = 1) :
    final.storage.unsynced = [] := by
  have allowed := (eachStep_of_forall noError (new storage cloud)).and keeps
  have attentive : Attentive parents final :=
    invariant_runSteps (Attentive parents)
      (fun attentive allowed isStep => attentive.step allowed.1 allowed.2 isStep)
      ⟨uploadTold_new storage cloud, awake_new storage cloud, nofun⟩ allowed isRun
  have isRunning := attentive.enabled isEnabled.1 isEnabled.2
  have notBusy : ¬final.IsBusy := fun busy => busy.1 (getMergedState_eq_idle.mp isIdle).1
  by_cases someCommits : final.upload.commitsToUpload
  · rcases attentive.awake.waking someCommits with calls | isBatch | ⟨-, busy⟩
    · exact absurd isQuiet.uploadCalls calls
    · rw [isQuiet.batchUpload] at isBatch
      cases isBatch
    · exact absurd busy notBusy
  · rcases attentive.awake.cleared someCommits isRunning with isEmpty | notSingle
    · exact isEmpty
    · exact absurd isSingle notSingle

/-- The upload is enabled once the download is idle, and a local commit is uploaded. -/
def uploadedCommit : List SyncAction :=
  emptyBacklog 0 ++
    [.download .answerSetWatcher, .enableUpload, .upload .readUnsyncedCommits,
      .upload (.answerUnsyncedCommits ⟨[], 0⟩), .addCommitFromLocal [1],
      .upload .readUnsyncedCommits, .upload (.answerUnsyncedCommits ⟨[[1]], 0⟩),
      .upload (.readHeadCommitIds ⟨[[1]], 0⟩), .upload (.answerHeadCommitIds ⟨[[1]], 0⟩ [[1]]),
      .upload (.markCommitSynced [1]), .upload .uploadDone, .upload .readUnsyncedCommits,
      .upload (.answerUnsyncedCommits ⟨[], 1⟩)]

theorem unsynced_run_uploaded :
    ∃ final, runSteps (step sampleParents) (new (unsyncedStorage [[0]]) []) uploadedCommit =
        some final ∧ final.storage.commits = [[0], [1]] ∧ final.storage.unsynced = [] :=
  ⟨_, rfl, rfl, @unsynced_run sampleParents (unsyncedStorage [[0]]) [] uploadedCommit _
    (by decide) (by decide +kernel) rfl ⟨rfl, rfl⟩ ⟨rfl, rfl, rfl, rfl⟩ rfl rfl⟩

/-- All replies of a `GetObject` call. -/
def objectReplies : List SyncAction :=
  [.download (.answerGetObject .objectName), .download (.answerGetObject .content),
    .download (.answerGetObject .dataSource), .download (.answerGetObject .decryptObject)]

/-- A local commit is added while an object is downloaded: nothing tells the upload that the
download is idle again. -/
theorem unsynced_left_behind :
    ∃ actions final, runSteps (step sampleParents) (new (unsyncedStorage [[0]]) []) actions =
        some final ∧ (∀ action ∈ actions, ¬failsUpload action) ∧
      (final.sync.started ∧ final.sync.enableUpload) ∧ final.IsQuiet ∧
      final.mergedState = .idle ∧ final.storage.heads sampleParents = [[1]] ∧
      final.sync.errorCallbackAlreadyCalled = false ∧ final.storage.unsynced = [[1]] :=
  ⟨emptyBacklog 0 ++ [.download .answerSetWatcher, .enableUpload, .upload .readUnsyncedCommits,
      .upload (.answerUnsyncedCommits ⟨[], 0⟩), .download .getObject, .addCommitFromLocal [1]] ++
    objectReplies, _, rfl, by decide, ⟨rfl, rfl⟩, ⟨rfl, rfl, rfl, rfl⟩, rfl, rfl, rfl, rfl⟩

end SyncWorld

end Peridot
