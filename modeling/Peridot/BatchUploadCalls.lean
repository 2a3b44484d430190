import Mathlib.Algebra.Order.BigOperators.Group.List
import Mathlib.Algebra.Order.Ring.Nat
import Mathlib.Data.Prod.Lex
import Peridot.BatchUploadRun

/-!
# How an attempt to upload ends

Each attempt calls `on_done` or `on_error` once, as long as no object fails before it reaches
the cloud: such an object is counted in `current_uploads_` for ever.
-/

namespace Peridot

open List Option Nat UploadRequest

/-- The calls of `on_done` and `on_error` since the last `Start` or `Retry`. -/
def attemptCalls (log : List UploadEvent) : Nat :=
  log.foldl (fun calls event => match event with
    | .attempt => 0
    | .done => calls + 1
    | .error _ _ => calls + 1
    | _ => calls) 0

theorem attemptCalls_append (log : List UploadEvent) (event : UploadEvent) :
    attemptCalls (log ++ [event]) = match event with
      | .attempt => 0
      | .done => attemptCalls log + 1
      | .error _ _ => attemptCalls log + 1
      | _ => attemptCalls log := by
  rw [attemptCalls, foldl_append]
  rfl

namespace UploadRequest

def isUpload : UploadRequest → Bool
  | getObjectName _ => true
  | getPiece _ => true
  | encryptObject _ => true
  | addObject _ => true
  | _ => false

def Covers (commits unsynced : List CommitId) : UploadRequest → Prop
  | encryptCommits ids _ => ids = commits
  | addCommits ids => ids = commits
  | markCommitsSynced missing => ∀ id ∈ commits, id ∈ unsynced → id ∈ missing
  | _ => True

/-- A bound for the answers that follow from a call, with `commits` commits in the batch. -/
def weight (commits : Nat) : UploadRequest → Nat
  | getUnsyncedPieces => 0
  | getObjectName _ => 2 * commits + 8
  | getPiece _ => 2 * commits + 7
  | encryptObject _ => 2 * commits + 6
  | addObject _ => 2 * commits + 5
  | markPieceSynced _ => 2 * commits + 4
  | getUnsyncedCommits => 2 * commits + 3
  | encryptCommits ids missing => ids.length + missing + 2
  | addCommits ids => ids.length + 1
  | markCommitsSynced missing => missing.length

end UploadRequest

/-- The answer is none of those that break the count of the uploads, that an assertion rules
out, or that are taken for an empty list of commits. -/
def UploadAction.Counted : UploadAction → Prop
  | answer (.getObjectName _) ok => ok = true
  | answer (.getPiece _) ok => ok = true
  | answer (.encryptObject _) ok => ok = (true, true)
  | answer .getUnsyncedCommits commits => commits ≠ none
  | _ => True

namespace UploadWorld

/-- What is counted and what is reported, while a callback has `counted` uploads in its
hands. -/
structure Calls (counted : Nat) (world : UploadWorld) : Prop where
  running : world.crashed = false
  positive : 0 < world.upload.maxConcurrentUploads
  uploads : world.upload.currentUploads = counted + world.pending.countP (·.isUpload)
  covers : ∀ request ∈ world.pending, request.Covers world.upload.commits world.unsynced
  filtered : ∀ id ∈ world.batch, id ∈ world.unsynced → id ∈ world.upload.commits
  done : .done ∈ world.log → ∀ id ∈ world.batch, id ∉ world.unsynced
  errors : ∀ errorType currentUploads, .error errorType currentUploads ∈ world.log →
    currentUploads = 0

def Ended (world : UploadWorld) : Prop :=
  attemptCalls world.log = if world.pending = [] then 1 else 0

variable {world next : UploadWorld} {counted : Nat} {identifier : ObjectIdentifier}
  {request : UploadRequest} {unsynced : List CommitId} {action : UploadAction}

theorem ended_of_pending (waiting : world.pending ≠ []) (notYet : attemptCalls world.log = 0) :
    world.Ended := by
  rw [Ended, notYet, if_neg waiting]

theorem Ended.notYet (ended : world.Ended) (inPending : request ∈ world.pending) :
    attemptCalls world.log = 0 := by
  rw [ended, if_neg (ne_nil_of_mem inPending)]

theorem calls_new {batch : List CommitId} {maxConcurrentUploads : Nat} (unsynced : List CommitId)
    (positive : 0 < maxConcurrentUploads) : Calls 0 (new batch maxConcurrentUploads unsynced) := by
  constructor
  case filtered => exact fun id inBatch _ => inBatch
  all_goals simp [new, positive]

section

variable (calls : Calls counted world)
include calls

theorem Calls.record (event : UploadEvent) (notDone : event ≠ .done)
    (notError : ∀ errorType currentUploads, event ≠ .error errorType currentUploads) :
    Calls counted (world.record event) := by
  exact { calls with
    done := by
      intro inLog
      rcases mem_append.mp inLog with inLog | isNew
      · exact calls.done inLog
      · exact absurd (mem_singleton.mp isNew).symm notDone
    errors := by
      intro errorType currentUploads inLog
      rcases mem_append.mp inLog with inLog | isNew
      · exact calls.errors errorType currentUploads inLog
      · exact absurd (mem_singleton.mp isNew).symm (notError errorType currentUploads) }

theorem Calls.send (isCounted : counted = if request.isUpload then 1 else 0)
    (covers : request.Covers world.upload.commits world.unsynced) :
    Calls 0 (world.send request) := by
  exact { calls with
    uploads := by
      simp only [UploadWorld.send, calls.uploads, isCounted, countP_append, countP_singleton]
      omega
    covers := by
      intro other inSent
      rcases mem_append.mp inSent with inPending | isNew
      · exact calls.covers other inPending
      · obtain rfl := mem_singleton.mp isNew
        exact covers }

theorem Calls.sendNext (notYet : attemptCalls world.log = 0)
    (isCounted : counted = if request.isUpload then 1 else 0)
    (covers : request.Covers world.upload.commits world.unsynced) :
    Calls 0 (world.send request) ∧ (world.send request).Ended :=
  ⟨calls.send isCounted covers, ended_of_pending (by simp [UploadWorld.send]) notYet⟩

end

/-- The callback of `on_error` finds no upload that is counted. -/
theorem Calls.onError (calls : Calls 0 world) (isNil : world.pending = [])
    (notYet : attemptCalls world.log = 0) (errorType : ErrorType) :
    Calls 0 (world.onError errorType) ∧ (world.onError errorType).Ended := by
  have noUpload : world.upload.currentUploads = 0 := by simp [calls.uploads, isNil]
  constructor
  · exact { calls with
      done := by
        intro inLog
        exact calls.done (by simpa [UploadWorld.onError, UploadWorld.record] using inLog)
      errors := by
        intro other currentUploads inLog
        rcases mem_append.mp inLog with inLog | isNew
        · exact calls.errors other currentUploads inLog
        · obtain ⟨-, rfl⟩ : other = errorType ∧ currentUploads = world.upload.currentUploads := by
            simpa using mem_singleton.mp isNew
          exact noUpload }
  · simp [Ended, UploadWorld.onError, UploadWorld.record, attemptCalls_append, isNil, notYet]

theorem Calls.of_upload {upload : BatchUpload} (calls : Calls counted world)
    (sameCommits : upload.commits = world.upload.commits)
    (sameUploads : upload.currentUploads = world.upload.currentUploads)
    (sameMaximum : upload.maxConcurrentUploads = world.upload.maxConcurrentUploads) :
    Calls counted { world with upload } := by
  exact { calls with
    positive := sameMaximum ▸ calls.positive
    uploads := sameUploads.trans calls.uploads
    covers := sameCommits ▸ calls.covers
    filtered := sameCommits ▸ calls.filtered }

theorem Calls.fail (calls : Calls 0 world) (isNil : world.pending = [])
    (notYet : attemptCalls world.log = 0) (errorType : ErrorType) :
    Calls 0 (world.fail errorType) ∧ (world.fail errorType).Ended := by
  have errored : Calls 0 { world with upload.errored := true } :=
    calls.of_upload rfl rfl rfl
  exact errored.onError isNil notYet errorType

theorem Calls.uploadNextObject (calls : Calls 0 world) : Calls 0 world.uploadNextObject := by
  rcases eq_nil_or_concat world.upload.remainingObjectIdentifiers with
    empty | ⟨queue, identifier, isQueue⟩
  · rwa [uploadNextObject_of_nil empty]
  · rw [concat_eq_append] at isQueue
    rw [uploadNextObject_of_concat isQueue]
    have inHand : Calls 1 { world with
        upload.currentUploads := world.upload.currentUploads + 1
        upload.currentObjectsHandled := world.upload.currentObjectsHandled + 1
        upload.remainingObjectIdentifiers := queue } := by
      exact { calls with
        uploads := by
          simp only [calls.uploads]
          omega }
    exact inHand.send rfl trivial

theorem log_uploadNextObject (world : UploadWorld) : world.uploadNextObject.log = world.log := by
  rw [uploadNextObject]
  split <;> rfl

theorem pending_uploadNextObject (nonempty : world.upload.remainingObjectIdentifiers ≠ []) :
    world.uploadNextObject.pending ≠ [] := by
  rcases eq_nil_or_concat world.upload.remainingObjectIdentifiers with
    empty | ⟨queue, identifier, isQueue⟩
  · exact absurd empty nonempty
  · rw [concat_eq_append] at isQueue
    simp [uploadNextObject_of_concat isQueue, send]

section

variable (calls : Calls 0 world)
include calls

theorem Calls.uploadObjects (notYet : attemptCalls world.log = 0) (fuel : Nat) :
    Calls 0 (uploadObjects fuel world) ∧ attemptCalls (uploadObjects fuel world).log = 0 ∧
      (world.pending ≠ [] → (uploadObjects fuel world).pending ≠ []) := by
  induction fuel generalizing world with
  | zero => exact ⟨calls, notYet, id⟩
  | succ fuel ih =>
    rw [uploadObjects]
    split
    case isTrue goesOn =>
      have notYet : attemptCalls world.uploadNextObject.log = 0 := by rwa [log_uploadNextObject]
      obtain ⟨next, stillNot, waiting⟩ := ih calls.uploadNextObject notYet
      exact ⟨next, stillNot, fun _ => waiting (pending_uploadNextObject goesOn.2)⟩
    case isFalse => exact ⟨calls, notYet, id⟩

theorem Calls.startObjectUpload (isNil : world.pending = []) (notYet : attemptCalls world.log = 0) :
    Calls 0 world.startObjectUpload ∧ world.startObjectUpload.Ended := by
  rw [UploadWorld.startObjectUpload]
  split
  case isTrue => exact calls.sendNext notYet rfl trivial
  case isFalse nonempty =>
    have free : world.upload.currentUploads < world.upload.maxConcurrentUploads := by
      rw [calls.uploads, isNil]
      exact calls.positive
    obtain ⟨fuel, isFuel⟩ := exists_eq_succ_of_ne_zero (ne_of_gt (length_pos_of_ne_nil nonempty))
    rw [isFuel, UploadWorld.uploadObjects, if_pos ⟨free, nonempty⟩]
    have notYet : attemptCalls world.uploadNextObject.log = 0 := by rwa [log_uploadNextObject]
    obtain ⟨next, stillNot, waiting⟩ := calls.uploadNextObject.uploadObjects notYet fuel
    exact ⟨next, ended_of_pending (waiting (pending_uploadNextObject nonempty)) stillNot⟩

section

variable (inv : Holding False (some identifier) world)
include inv

theorem Calls.enqueueForRetryAndSignalError (notYet : attemptCalls world.log = 0) :
    Calls 0 (world.enqueueForRetryAndSignalError identifier) ∧
      (world.enqueueForRetryAndSignalError identifier).Ended := by
  have count : world.upload.currentObjectsHandled - 1 =
      world.pending.countP (·.object?.isSome) := by
    simp only [inv.handled, toList_some, length_singleton]
    omega
  have enqueued : Calls 0 { world with
      upload.currentObjectsHandled := world.upload.currentObjectsHandled - 1
      upload.errored := true
      upload.remainingObjectIdentifiers :=
        world.upload.remainingObjectIdentifiers ++ [identifier] } :=
    calls.of_upload rfl rfl rfl
  rw [UploadWorld.enqueueForRetryAndSignalError]
  split
  case isTrue noneLeft =>
    exact enqueued.onError (inv.objectsOnly.pending_eq_nil (count.symm.trans noneLeft)) notYet _
  case isFalse left =>
    refine ⟨enqueued, ended_of_pending ?_ notYet⟩
    intro isNil
    change world.pending = [] at isNil
    exact left (count.trans (by simp [isNil]))

theorem Calls.onPieceMarked (accepted : .accepted identifier ∈ world.log)
    (notYet : attemptCalls world.log = 0)
    (ok : Bool) : Calls 0 (world.onPieceMarked identifier ok) ∧
      (world.onPieceMarked identifier ok).Ended := by
  have isNil := (inv.pieceMarked accepted ok).isNil_iff
  have notYet : attemptCalls (world.pieceMarked identifier ok).log = 0 := by
    simpa [pieceMarked, UploadWorld.record, attemptCalls_append] using notYet
  have marked : Calls 0 (world.pieceMarked identifier ok) := by
    have recorded : Calls 0 (world.record (.marked identifier ok)) :=
      calls.record _ (by simp) (by simp)
    exact recorded.of_upload rfl rfl rfl
  rw [UploadWorld.onPieceMarked]
  split
  case isTrue failed => exact marked.onError (isNil.mp failed.2) notYet _
  case isFalse notFailed =>
    split
    case isTrue => exact marked.sendNext notYet rfl trivial
    case isFalse notFinished =>
      split
      case isTrue more =>
        refine ⟨marked.uploadNextObject, ended_of_pending (pending_uploadNextObject more.2) ?_⟩
        rwa [log_uploadNextObject]
      case isFalse noMore =>
        refine ⟨marked, ended_of_pending (fun none => ?_) notYet⟩
        have noneLeft := isNil.mpr none
        have nonempty : (world.pieceMarked identifier ok).upload.remainingObjectIdentifiers ≠
            [] := fun empty => notFinished ⟨noneLeft, empty⟩
        have notErrored : (world.pieceMarked identifier ok).upload.errored = false := by
          by_contra errored
          exact notFailed ⟨by simpa using errored, noneLeft⟩
        exact noMore ⟨notErrored, nonempty⟩

end

/-- `on_done` is called when the storage has no unsynced commit of the batch. -/
theorem Calls.recordDone (isNil : world.pending = [])
    (notYet : attemptCalls world.log = 0) (synced : ∀ id ∈ world.batch, id ∉ world.unsynced) :
    Calls 0 (world.record .done) ∧ (world.record .done).Ended := by
  constructor
  · exact { calls with
      done := fun _ => synced
      errors := by
        intro errorType currentUploads inLog
        exact calls.errors errorType currentUploads (by simpa [UploadWorld.record] using inLog) }
  · simp [Ended, UploadWorld.record, attemptCalls_append, isNil, notYet]

theorem Calls.onUnsyncedCommits (isNil : world.pending = [])
    (notYet : attemptCalls world.log = 0) {ids : List CommitId}
    (complete : ∀ id ∈ world.batch, id ∈ world.unsynced → id ∈ ids) :
    Calls 0 (world.onUnsyncedCommits (some ids)) ∧ (world.onUnsyncedCommits (some ids)).Ended := by
  have filtered : Calls 0 { world.record (.unsynced ids) with
      upload.commits := world.upload.commits.filter (· ∈ ids) } := by
    have recorded : Calls 0 (world.record (.unsynced ids)) := calls.record _ (by simp) (by simp)
    exact { recorded with
      covers := by simp [UploadWorld.record, isNil]
      filtered := by
        intro id inBatch unsynced
        exact mem_filter.mpr
          ⟨calls.filtered id inBatch unsynced, by simpa using complete id inBatch unsynced⟩ }
  have notYet : attemptCalls (world.log ++ [.unsynced ids]) = 0 := by
    simpa [attemptCalls_append] using notYet
  rw [UploadWorld.onUnsyncedCommits]
  split
  case isTrue noCommit =>
    refine filtered.recordDone isNil notYet ?_
    intro id inBatch unsynced
    have inCommits : id ∈ world.upload.commits.filter (· ∈ ids) :=
      filtered.filtered id inBatch unsynced
    have noCommit : world.upload.commits.filter (· ∈ ids) = [] := noCommit
    rw [noCommit] at inCommits
    simp at inCommits
  case isFalse => exact filtered.sendNext notYet rfl rfl

end

theorem Calls.storage (calls : Calls counted world)
    (selected : world.upload.commits.Sublist world.batch)
    (ignored : List CommitId) (fewer : ∀ id ∈ world.batch, id ∈ unsynced → id ∈ world.unsynced) :
    Calls counted { world with unsynced, ignored } := by
  exact { calls with
    covers := by
      intro request inPending
      have covers := calls.covers request inPending
      cases request with
      | markCommitsSynced missing =>
        exact fun id inCommits isUnsynced =>
          covers id inCommits (fewer id (selected.subset inCommits) isUnsynced)
      | _ => exact covers
    filtered := fun id inBatch isUnsynced => calls.filtered id inBatch (fewer id inBatch isUnsynced)
    done :=
      fun inLog id inBatch isUnsynced => calls.done inLog id inBatch (fewer id inBatch isUnsynced) }

theorem mem_of_mem_filter_ne {id other : CommitId}
    (isUnsynced : other ∈ unsynced.filter (· ≠ id)) : other ∈ unsynced ∧ other ≠ id := by
  simpa using mem_filter.mp isUnsynced

theorem Calls.onCommitMarked (calls : Calls 0 world) (isNil : world.pending = [])
    (selected : world.upload.commits.Sublist world.batch) (notYet : attemptCalls world.log = 0)
    {missing : List CommitId}
    (covers : ∀ id ∈ world.upload.commits, id ∈ world.unsynced → id ∈ missing) (id : CommitId)
    (ok : Bool) :
    Calls 0 (world.onCommitMarked missing id ok) ∧ (world.onCommitMarked missing id ok).Ended := by
  rw [UploadWorld.onCommitMarked]
  split
  · have synced : Calls 0 { world with unsynced := world.unsynced.filter (· ≠ id) } :=
      calls.storage selected world.ignored fun other _ isUnsynced =>
        (mem_of_mem_filter_ne isUnsynced).1
    have left : ∀ other ∈ world.upload.commits, other ∈ world.unsynced.filter (· ≠ id) →
        other ∈ missing.erase id := by
      intro other inCommits isUnsynced
      obtain ⟨isUnsynced, isOther⟩ := mem_of_mem_filter_ne isUnsynced
      exact (mem_erase_of_ne isOther).mpr (covers other inCommits isUnsynced)
    split
    case isTrue noneLeft =>
      refine synced.recordDone isNil notYet ?_
      intro other inBatch isUnsynced
      have inMissing := left other (synced.filtered other inBatch isUnsynced) isUnsynced
      rw [noneLeft] at inMissing
      simp at inMissing
    case isFalse => exact synced.sendNext notYet rfl left
  · have ignored : Calls 0 { world with ignored := world.ignored ++ missing.erase id } :=
      calls.storage selected _ fun _ _ isUnsynced => isUnsynced
    exact ignored.fail isNil notYet .permanent

theorem Calls.take (calls : Calls 0 world) (inPending : request ∈ world.pending) :
    Calls (if request.isUpload then 1 else 0)
      { world with pending := world.pending.erase request } := by
  exact { calls with
    uploads := by
      have count := (perm_cons_erase inPending).countP_eq (·.isUpload)
      rw [countP_cons] at count
      simp only [calls.uploads, count]
      omega
    covers := fun other inErased => calls.covers other (mem_of_mem_erase inErased) }

theorem Calls.dropUpload (calls : Calls 1 world) : Calls 0 { world with
    upload.currentUploads := world.upload.currentUploads - 1 } := by
  exact { calls with
    uploads := by
      simp only [calls.uploads]
      omega }

theorem Calls.answer {answer : request.Answer} (calls : Calls 0 world)
    (inv : Holding False none world) (ended : world.Ended) (inPending : request ∈ world.pending)
    (isCounted : (UploadAction.answer request answer).Counted)
    (isNext : receive { world with pending := world.pending.erase request } request answer =
      some next) : Calls 0 next ∧ next.Ended := by
  have notYet := ended.notYet inPending
  have taken := calls.take inPending
  by_cases isObject : request.object? = none
  · obtain ⟨isNil, left⟩ := inv.takeLast inPending isObject
    have covers := calls.covers request inPending
    rw [isNil] at isNext taken
    cases request with
    | getUnsyncedPieces =>
      cases isNext
      cases answer with
      | none => exact Calls.fail taken rfl notYet .permanent
      | some identifiers =>
        have returned := Calls.record taken (.pieces identifiers) (by simp) (by simp)
        refine Calls.startObjectUpload (returned.of_upload rfl rfl rfl) rfl ?_
        simpa [UploadWorld.record, attemptCalls_append] using notYet
    | getUnsyncedCommits =>
      cases answer with
      | none => exact absurd rfl isCounted
      | some ids =>
        obtain ⟨complete, isNext⟩ := ite_none_right_eq_some.mp isNext
        cases isNext
        exact Calls.onUnsyncedCommits taken rfl notYet complete
    | encryptCommits ids missing =>
      cases isNext
      simp only [onCommitEncrypted]
      split
      · split
        · have sent := Calls.record taken (.sent ids) (by simp) (by simp)
          refine sent.sendNext ?_ rfl covers
          simpa [UploadWorld.record, attemptCalls_append] using notYet
        · exact Calls.sendNext taken notYet rfl covers
      · exact Calls.fail taken rfl notYet .permanent
    | addCommits ids =>
      cases isNext
      simp only [onCommitsAdded]
      split
      · refine Calls.sendNext taken notYet rfl ?_
        have isCommits : ids = world.upload.commits := covers
        exact fun id inCommits _ => isCommits ▸ inCommits
      · exact Calls.fail taken rfl notYet .temporary
    | markCommitsSynced missing =>
      obtain ⟨id, ok⟩ := answer
      obtain ⟨-, isNext⟩ := ite_none_right_eq_some.mp isNext
      cases isNext
      exact Calls.onCommitMarked taken rfl inv.selected notYet covers id ok
    | _ => simp [object?] at isObject
  · obtain ⟨identifier, isObject⟩ := ne_none_iff_exists'.mp isObject
    have inHand := inv.take inPending isObject
    cases request with
    | getObjectName other =>
      cases isNext
      obtain rfl : answer = true := isCounted
      exact Calls.sendNext taken notYet rfl trivial
    | getPiece other =>
      obtain rfl := some.inj isNext
      obtain rfl : answer = true := isCounted
      exact Calls.sendNext taken notYet rfl trivial
    | encryptObject other =>
      obtain rfl := some.inj isNext
      obtain rfl : answer = (true, true) := isCounted
      exact Calls.sendNext taken notYet rfl trivial
    | addObject other =>
      obtain rfl := some.inj isObject
      obtain rfl := some.inj isNext
      have dropped : Calls 0 { world with
          pending := world.pending.erase (.addObject other)
          upload.currentUploads := world.upload.currentUploads - 1 } :=
        Calls.dropUpload taken
      have inHand : Holding False (some other) { world with
          pending := world.pending.erase (.addObject other)
          upload.currentUploads := world.upload.currentUploads - 1 } := { inHand with }
      simp only [onObjectAdded]
      split
      · have accepted := dropped.record (.accepted other) (by simp) (by simp)
        refine accepted.sendNext ?_ rfl trivial
        simpa [UploadWorld.record, attemptCalls_append] using notYet
      · exact dropped.enqueueForRetryAndSignalError inHand notYet
    | markPieceSynced other =>
      obtain rfl := some.inj isObject
      obtain rfl := some.inj isNext
      exact Calls.onPieceMarked taken inHand (inv.accepted other inPending) notYet answer
    | _ => simp [object?] at isObject

/-- A bound for the answers that the queue leads to: none after an error. -/
def queueLoad (upload : BatchUpload) : Nat :=
  if upload.errored then 0
  else upload.remainingObjectIdentifiers.length * (2 * upload.commits.length + 8)

/-- A bound for the answers that are still to come, once the pieces are known. -/
def load (world : UploadWorld) : Nat :=
  (world.pending.map (·.weight world.upload.commits.length)).sum + queueLoad world.upload

/-- The calls of `GetUnsyncedPieces` that are not answered. -/
def starts (world : UploadWorld) : Nat :=
  world.pending.count .getUnsyncedPieces

def rank (world : UploadWorld) : Nat ×ₗ Nat :=
  toLex (world.starts, world.load)

theorem load_send (world : UploadWorld) (request : UploadRequest) :
    (world.send request).load = world.load + request.weight world.upload.commits.length := by
  simp only [load, send, map_append, sum_append_nat, map_singleton, sum_singleton]
  omega

theorem starts_send (world : UploadWorld) (other : request ≠ .getUnsyncedPieces) :
    (world.send request).starts = world.starts := by
  simp [starts, send, count_append, other]

theorem load_uploadNextObject (notErrored : world.upload.errored = false) :
    world.uploadNextObject.load = world.load ∧ world.uploadNextObject.starts = world.starts := by
  rcases eq_nil_or_concat world.upload.remainingObjectIdentifiers with
    empty | ⟨queue, identifier, isQueue⟩
  · rw [uploadNextObject_of_nil empty]
    exact ⟨rfl, rfl⟩
  · rw [concat_eq_append] at isQueue
    rw [uploadNextObject_of_concat isQueue, load_send, starts_send _ (by simp)]
    refine ⟨?_, rfl⟩
    simp only [load, queueLoad, notErrored, isQueue, weight, length_append,
      length_singleton, Bool.false_eq_true, if_false, add_mul, one_mul]
    omega

theorem starts_uploadNextObject (world : UploadWorld) :
    world.uploadNextObject.starts = world.starts := by
  rw [uploadNextObject]
  split
  · rfl
  · exact starts_send _ (by simp)

theorem starts_startObjectUpload (world : UploadWorld) :
    world.startObjectUpload.starts = world.starts := by
  rw [startObjectUpload]
  split
  · exact starts_send world (by simp)
  · exact uploadObjects_of_next (·.starts = world.starts)
      (fun _ same => (starts_uploadNextObject _).trans same) _ rfl

theorem load_errored_le (samePending : next.pending = world.pending)
    (sameCommits : next.upload.commits = world.upload.commits)
    (errored : next.upload.errored = true) : next.load ≤ world.load := by
  simp only [load, queueLoad, samePending, sameCommits, errored, if_true]
  omega

theorem load_fail (world : UploadWorld) (errorType : ErrorType) :
    (world.fail errorType).load ≤ world.load :=
  load_errored_le rfl rfl rfl

theorem load_enqueueForRetryAndSignalError (world : UploadWorld)
    (identifier : ObjectIdentifier) :
    (world.enqueueForRetryAndSignalError identifier).load ≤ world.load ∧
      (world.enqueueForRetryAndSignalError identifier).starts = world.starts := by
  rw [enqueueForRetryAndSignalError]
  split
  · exact ⟨load_errored_le rfl rfl rfl, rfl⟩
  · exact ⟨load_errored_le rfl rfl rfl, rfl⟩

theorem load_erase (inPending : request ∈ world.pending) :
    load { world with pending := world.pending.erase request } +
      request.weight world.upload.commits.length = world.load := by
  have sum := ((perm_cons_erase inPending).map (·.weight world.upload.commits.length)).sum_nat
  rw [map_cons, sum_cons] at sum
  simp only [load, sum]
  omega

section

variable (world : UploadWorld)

theorem starts_erase (other : request ≠ .getUnsyncedPieces) :
    starts { world with pending := world.pending.erase request } = world.starts := by
  simp [starts, count_erase_of_ne (Ne.symm other)]

theorem load_commits_le {commits : List CommitId}
    (fewer : commits.length ≤ world.upload.commits.length) :
    load { world with upload.commits := commits } ≤ world.load := by
  have lighter (request : UploadRequest) :
      request.weight commits.length ≤ request.weight world.upload.commits.length := by
    cases request <;> simp only [weight] <;> omega
  have sum : (world.pending.map (·.weight commits.length)).sum ≤
      (world.pending.map (·.weight world.upload.commits.length)).sum :=
    sum_le_sum fun request _ => lighter request
  simp only [load, queueLoad]
  split
  · omega
  · have queue := mul_le_mul_left world.upload.remainingObjectIdentifiers.length
      (show 2 * commits.length + 8 ≤ 2 * world.upload.commits.length + 8 by omega)
    omega

theorem load_onPieceMarked (identifier : ObjectIdentifier) (ok : Bool) :
    (world.onPieceMarked identifier ok).load ≤
        world.load + (2 * world.upload.commits.length + 3) ∧
      (world.onPieceMarked identifier ok).starts = world.starts := by
  have marked : (world.pieceMarked identifier ok).load ≤ world.load := by
    cases ok with
    | true => exact le_refl _
    | false => exact load_errored_le rfl rfl rfl
  have sameStarts : (world.pieceMarked identifier ok).starts = world.starts := rfl
  rw [onPieceMarked]
  split
  · exact ⟨marked.trans (le_add_right _ _), sameStarts⟩
  · split
    · rw [filterAndUploadCommits, load_send, starts_send _ (by simp)]
      exact ⟨Nat.add_le_add_right marked _, sameStarts⟩
    · split
      case isTrue more =>
        obtain ⟨sameLoad, same⟩ := load_uploadNextObject more.1
        exact ⟨sameLoad.le.trans (marked.trans (le_add_right _ _)), same.trans sameStarts⟩
      case isFalse => exact ⟨marked.trans (le_add_right _ _), sameStarts⟩

theorem load_onUnsyncedCommits (answer : Option (List CommitId)) :
    (world.onUnsyncedCommits answer).load ≤ world.load + (2 * world.upload.commits.length + 2) ∧
      (world.onUnsyncedCommits answer).starts = world.starts := by
  have fewer := length_filter_le (fun id => decide (id ∈ answer.getD []))
    world.upload.commits
  have lighter := load_commits_le world fewer
  rw [onUnsyncedCommits]
  split
  · exact ⟨lighter.trans (le_add_right _ _), rfl⟩
  · rw [uploadCommits, load_send, starts_send _ (by simp)]
    refine ⟨Nat.add_le_add lighter ?_, rfl⟩
    simp only [weight]
    omega

end

theorem load_receive {answer : request.Answer}
    (notFirst : request ≠ .getUnsyncedPieces) (isNext : receive world request answer = some next) :
    next.load < world.load + request.weight world.upload.commits.length ∧
      next.starts = world.starts := by
  cases request with
  | getUnsyncedPieces => exact absurd rfl notFirst
  | getObjectName identifier | encryptObject identifier =>
    cases isNext
    simp only [onObjectName, onEncryptedObject]
    split
    · exact ⟨by rw [load_send]; simp [weight], starts_send world (by simp)⟩
    · obtain ⟨less, sameStarts⟩ := load_enqueueForRetryAndSignalError world identifier
      exact ⟨by simp only [weight]; omega, sameStarts⟩
  | getPiece identifier =>
    cases isNext
    simp only [onPiece]
    split
    · exact ⟨by rw [load_send]; simp [weight], starts_send world (by simp)⟩
    · exact ⟨by simp [load, weight], rfl⟩
  | addObject identifier =>
    cases isNext
    simp only [onObjectAdded]
    split
    · rw [load_send, starts_send _ (by simp)]
      refine ⟨add_lt_add_of_le_of_lt (le_refl world.load) ?_, rfl⟩
      exact lt_succ_self _
    · obtain ⟨less, sameStarts⟩ := load_enqueueForRetryAndSignalError { world with
        upload.currentUploads := world.upload.currentUploads - 1 }
        identifier
      refine ⟨less.trans_lt ?_, sameStarts⟩
      exact Nat.lt_add_of_pos_right (Nat.succ_pos _)
  | markPieceSynced identifier =>
    cases isNext
    obtain ⟨less, sameStarts⟩ := load_onPieceMarked world identifier answer
    exact ⟨by simp only [weight]; omega, sameStarts⟩
  | getUnsyncedCommits =>
    have isAnswer : next = world.onUnsyncedCommits answer := by
      cases answer with
      | none => exact (some.inj isNext).symm
      | some ids =>
        obtain ⟨-, isNext⟩ := ite_none_right_eq_some.mp isNext
        exact (some.inj isNext).symm
    obtain ⟨less, sameStarts⟩ := load_onUnsyncedCommits world answer
    rw [isAnswer]
    exact ⟨by simp only [weight]; omega, sameStarts⟩
  | encryptCommits ids missing =>
    cases isNext
    simp only [onCommitEncrypted]
    split
    · split
      · rw [load_send, starts_send _ (by simp)]
        refine ⟨add_lt_add_of_le_of_lt (le_refl world.load) ?_, rfl⟩
        simp only [weight]
        omega
      · rw [load_send, starts_send _ (by simp)]
        refine ⟨add_lt_add_of_le_of_lt (le_refl world.load) ?_, rfl⟩
        simp only [weight]
        omega
    · refine ⟨(load_fail world .permanent).trans_lt ?_, rfl⟩
      exact Nat.lt_add_of_pos_right (Nat.succ_pos _)
  | addCommits ids =>
    cases isNext
    simp only [onCommitsAdded]
    split
    · rw [load_send, starts_send _ (by simp)]
      exact ⟨by simp [weight], rfl⟩
    · refine ⟨(load_fail world .temporary).trans_lt ?_, rfl⟩
      exact Nat.lt_add_of_pos_right (Nat.succ_pos _)
  | markCommitsSynced missing =>
    obtain ⟨id, ok⟩ := answer
    obtain ⟨inMissing, isNext⟩ := ite_none_right_eq_some.mp isNext
    cases isNext
    have shorter := length_erase_of_mem inMissing
    have positive := length_pos_of_mem inMissing
    simp only [onCommitMarked]
    split
    · split
      · exact ⟨Nat.lt_add_of_pos_right positive, rfl⟩
      · rw [load_send, starts_send _ (by simp)]
        refine ⟨add_lt_add_of_le_of_lt (le_refl world.load) ?_, rfl⟩
        simp only [weight]
        omega
    · have less := load_fail { world with ignored := world.ignored ++ missing.erase id }
        .permanent
      exact ⟨less.trans_lt (Nat.lt_add_of_pos_right positive), rfl⟩

theorem rank_answer {answer : request.Answer} (inPending : request ∈ world.pending)
    (isNext : receive { world with pending := world.pending.erase request } request answer =
      some next) : next.rank < world.rank := by
  by_cases isFirst : request = .getUnsyncedPieces
  · subst isFirst
    cases isNext
    have fewer : starts { world with pending := world.pending.erase .getUnsyncedPieces } <
        world.starts := by
      have positive := count_pos_iff.mpr inPending
      simp only [starts, count_erase_self]
      omega
    refine Prod.Lex.toLex_lt_toLex.mpr (.inl ?_)
    cases answer with
    | none => exact fewer
    | some identifiers => exact (starts_startObjectUpload _).trans_lt fewer
  · obtain ⟨less, sameStarts⟩ := load_receive isFirst isNext
    refine Prod.Lex.toLex_lt_toLex.mpr (.inr ⟨sameStarts.trans (starts_erase world isFirst), ?_⟩)
    exact less.trans_eq (load_erase inPending)

def isStorage : UploadAction → Prop
  | .ignored _ _ => True
  | .storage _ => True
  | _ => False

theorem rank_storage (ofStorage : isStorage action)
    (isStep : world.step action = some next) : next.rank = world.rank := by
  cases action with
  | ignored id ok | storage unsynced =>
    obtain ⟨-, isStep⟩ := ite_none_right_eq_some.mp isStep
    cases isStep
    rfl
  | _ => exact ofStorage.elim

theorem rank_runSteps_storage {actions : List UploadAction}
    (ofStorage : ∀ action ∈ actions, isStorage action)
    (isRun : runSteps step world actions = some next) : next.rank = world.rank := by
  induction actions generalizing world with
  | nil =>
    cases isRun
    rfl
  | cons action actions ih =>
    obtain ⟨middle, isStep, isRun⟩ := runSteps_cons.mp isRun
    rw [ih (fun other inActions => ofStorage other (mem_cons_of_mem action inActions)) isRun]
    exact rank_storage (ofStorage action (by simp)) isStep

def Answered (next world : UploadWorld) : Prop :=
  ∃ changes request answer, (∀ action ∈ changes, isStorage action) ∧
    runSteps step world (changes ++ [.answer request answer]) = some next

theorem wellFounded_answered : WellFounded Answered := by
  refine Subrelation.wf ?_ (InvImage.wf rank wellFounded_lt)
  rintro next world ⟨changes, request, answer, ofStorage, isRun⟩
  obtain ⟨middle, isChanges, isAnswer⟩ := runSteps_append.mp isRun
  obtain ⟨last, isStep, isLast⟩ := runSteps_cons.mp isAnswer
  cases isLast
  obtain ⟨waiting, isStep⟩ := ite_none_right_eq_some.mp isStep
  have smaller := rank_answer waiting.2 isStep
  rwa [rank_runSteps_storage ofStorage isChanges] at smaller

/-- The attempts up to here, and the current one: while it waits for answers it has not called
back, and it cannot be answered for ever; when it waits for nothing it has called back once.
`on_done` was called with all commits of the batch synced, and `on_error` with no upload
counted, which is how a `Retry` finds them. -/
structure AttemptsEnd (world : UploadWorld) : Prop where
  once : world.upload.started = true → world.Ended
  ends : Acc Answered world
  done : .done ∈ world.log → ∀ id ∈ world.batch, id ∉ world.unsynced
  errors : ∀ errorType currentUploads, .error errorType currentUploads ∈ world.log →
    currentUploads = 0
  retry : world.canRetry = true → world.upload.currentUploads = 0

/-- The invariant of the runs in which all answers are counted. -/
structure Counted (world : UploadWorld) : Prop where
  inv : Holding False none world
  calls : Calls 0 world
  ended : world.upload.started = true → world.Ended

theorem Counted.start (counted : Counted world) (notStarted : world.upload.started = false) :
    Counted world.start := by
  have inv := counted.inv.start notStarted
  have logged : Calls 0 (world.record .attempt) := counted.calls.record _ (by simp) (by simp)
  have started : Calls 0 { world.record .attempt with
      upload.started := true } := logged.of_upload rfl rfl rfl
  have sent : Calls 0 world.start ∧ world.start.Ended :=
    started.sendNext (by simp [record, attemptCalls_append]) rfl trivial
  exact ⟨inv, sent.1, fun _ => sent.2⟩

theorem Counted.retry (counted : Counted world) (canRetry : world.canRetry = true) :
    Counted world.retry := by
  have inv := counted.inv.retry canRetry False.elim
  obtain ⟨isNil, -⟩ := counted.inv.quiet canRetry
  have logged : Calls 0 (world.record .attempt) := counted.calls.record _ (by simp) (by simp)
  have again : Calls 0 { world.record .attempt with
      upload.errored := false, upload.errorType := .temporary
      canRetry := false } := { logged with }
  obtain ⟨calls, ended⟩ := again.startObjectUpload isNil (by simp [record, attemptCalls_append])
  exact ⟨inv, calls, fun _ => ended⟩

theorem Counted.step (counted : Counted world)
    (isCounted : action.Counted) (isStep : world.step action = some next) : Counted next := by
  cases action with
  | start =>
    obtain ⟨canStart, isStep⟩ := ite_none_right_eq_some.mp isStep
    cases isStep
    exact counted.start canStart.2
  | retry =>
    obtain ⟨canRetry, isStep⟩ := ite_none_right_eq_some.mp isStep
    cases isStep
    exact counted.retry canRetry.2
  | answer request answer =>
    obtain ⟨waiting, isStep⟩ := ite_none_right_eq_some.mp isStep
    have started := (counted.inv.running waiting.2).1
    obtain ⟨calls, ended⟩ := counted.calls.answer counted.inv (counted.ended started) waiting.2
      isCounted isStep
    exact ⟨(counted.inv.answer waiting.2 isStep).inv calls.running, calls, fun _ => ended⟩
  | ignored id ok =>
    obtain ⟨-, isStep⟩ := ite_none_right_eq_some.mp isStep
    cases isStep
    refine ⟨counted.inv.storage _ _, counted.calls.storage counted.inv.selected _ ?_, counted.ended⟩
    intro other _ isUnsynced
    split at isUnsynced
    · exact (mem_of_mem_filter_ne isUnsynced).1
    · exact isUnsynced
  | storage unsynced =>
    obtain ⟨fewer, isStep⟩ := ite_none_right_eq_some.mp isStep
    cases isStep
    exact ⟨counted.inv.storage _ _, counted.calls.storage counted.inv.selected _ fewer,
      counted.ended⟩

/-- In every run whose answers are counted, all attempts end with one call. -/
theorem attemptsEnd_run (batch : List CommitId) {maxConcurrentUploads : Nat}
    (positive : 0 < maxConcurrentUploads) (unsynced : List CommitId) {actions : List UploadAction}
    {final : UploadWorld} (counted : ∀ action ∈ actions, action.Counted)
    (isRun : runSteps step (new batch maxConcurrentUploads unsynced) actions = some final) :
    AttemptsEnd final := by
  have isCounted : Counted final := by
    refine invariant_runSteps Counted ?_ ?_ (eachStep_of_forall counted _) isRun
    · exact fun counted isCounted isStep => counted.step isCounted isStep
    · exact ⟨inv_new batch maxConcurrentUploads unsynced, calls_new unsynced positive,
        fun started => by simp [new] at started⟩
  refine ⟨isCounted.ended, wellFounded_answered.apply final, isCounted.calls.done,
    isCounted.calls.errors, fun canRetry => ?_⟩
  simp [isCounted.calls.uploads, (isCounted.inv.quiet canRetry).1]

/-- The upload of a piece that the cloud accepts at the second attempt. -/
theorem attemptsEnd_run_retried :
    ∃ final, runSteps step (new [[1]] 1 [[1]]) sampleUploadRun = some final ∧ AttemptsEnd final := by
  have counted : ∀ action ∈ sampleUploadRun, action.Counted := by
    simp only [sampleUploadRun, forall_mem_cons, UploadAction.Counted, true_and]
    exact ⟨rfl, rfl, rfl, rfl, rfl, rfl, some_ne_none _, by simp⟩
  exact ⟨_, rfl, attemptsEnd_run [[1]] one_pos [[1]] counted rfl⟩

/-- An object cannot be encrypted: `on_error` is called while an upload is counted. -/
theorem error_with_counted_upload :
    ∃ actions final, runSteps step (new [[1]] 1 [[1]]) actions = some final ∧
      ¬AttemptsEnd final := by
  refine ⟨[.start, .answer .getUnsyncedPieces (some [sampleUploadPiece]),
    .answer (.getObjectName sampleUploadPiece) false], _, rfl, ?_⟩
  intro attemptsEnd
  exact absurd (attemptsEnd.errors .temporary 1 (by decide)) (by decide)

end UploadWorld

end Peridot
