import Peridot.PageDb
import Peridot.StepRun

/-!
# Uploading a batch of commits

The state machine of `cloud_sync::BatchUpload`.  All its calls to the encryption service,
to the cloud and to the storage are answered asynchronously, so a state holds the calls
that are not answered yet, and the environment chooses which of them is answered next, and
how.  Failed assertions (`FXL_DCHECK`) are ignored, as in a release build, except where the
code goes on to use what it asserted.
-/

namespace Peridot

inductive ErrorType where
  | permanent
  | temporary
deriving DecidableEq

structure BatchUpload where
  commits : List CommitId
  maxConcurrentUploads : Nat
  remainingObjectIdentifiers : List ObjectIdentifier
  currentUploads : Nat
  currentObjectsHandled : Nat
  started : Bool
  errored : Bool
  errorType : ErrorType

inductive UploadRequest where
  | getUnsyncedPieces
  | getObjectName (objectIdentifier : ObjectIdentifier)
  | getPiece (objectIdentifier : ObjectIdentifier)
  | encryptObject (objectIdentifier : ObjectIdentifier)
  | addObject (objectIdentifier : ObjectIdentifier)
  | markPieceSynced (objectIdentifier : ObjectIdentifier)
  | getUnsyncedCommits
  /-- The waiter for the `EncryptCommit` calls, with the number of missing answers. -/
  | encryptCommits (ids : List CommitId) (missing : Nat)
  | addCommits (ids : List CommitId)
  /-- The waiter for the `MarkCommitSynced` calls, with those that are not answered. -/
  | markCommitsSynced (missing : List CommitId)
deriving DecidableEq

def UploadRequest.Answer : UploadRequest → Type
  | getUnsyncedPieces => Option (List ObjectIdentifier)
  | getObjectName _ => Bool
  | getPiece _ => Bool
  /- Whether the object was encrypted, and whether `VmoFromString` could copy it. -/
  | encryptObject _ => Bool × Bool
  | addObject _ => Bool
  | markPieceSynced _ => Bool
  | getUnsyncedCommits => Option (List CommitId)
  | encryptCommits _ _ => Bool
  | addCommits _ => Bool
  | markCommitsSynced _ => CommitId × Bool

/-- What happens at the boundary of `BatchUpload`. -/
inductive UploadEvent where
  /-- `Start` or `Retry` is called. -/
  | attempt
  /-- `GetUnsyncedPieces` returns these pieces. -/
  | pieces (objectIdentifiers : List ObjectIdentifier)
  /-- The cloud accepts a piece. -/
  | accepted (objectIdentifier : ObjectIdentifier)
  /-- `MarkPieceSynced` returns. -/
  | marked (objectIdentifier : ObjectIdentifier) (ok : Bool)
  /-- `GetUnsyncedCommits` returns these commits. -/
  | unsynced (ids : List CommitId)
  /-- `AddCommits` is called. -/
  | sent (ids : List CommitId)
  /-- `on_done` is called. -/
  | done
  /-- `on_error` is called, with this number of `current_uploads_`. -/
  | error (errorType : ErrorType) (currentUploads : Nat)
deriving DecidableEq

/-- The upload, what it waits for and what the storage holds. -/
structure UploadWorld where
  upload : BatchUpload
  /-- The commits that the upload was made for. -/
  batch : List CommitId
  /-- The calls whose answer the upload waits for. -/
  pending : List UploadRequest
  /-- Calls of `MarkCommitSynced` whose answer is ignored, because another one failed. -/
  ignored : List CommitId
  /-- The unsynced commits of the storage. -/
  unsynced : List CommitId
  log : List UploadEvent
  /-- `on_error` was called and `Retry` was not called since. -/
  canRetry : Bool
  /-- An assertion failed on whose truth the code depends. -/
  crashed : Bool

namespace UploadWorld

def new (batch : List CommitId) (maxConcurrentUploads : Nat) (unsynced : List CommitId) :
    UploadWorld where
  upload :=
    { commits := batch
      maxConcurrentUploads
      remainingObjectIdentifiers := []
      currentUploads := 0
      currentObjectsHandled := 0
      started := false
      errored := false
      errorType := .temporary }
  batch := batch
  pending := []
  ignored := []
  unsynced := unsynced
  log := []
  canRetry := false
  crashed := false

def record (world : UploadWorld) (event : UploadEvent) : UploadWorld :=
  { world with log := world.log ++ [event] }

def send (world : UploadWorld) (request : UploadRequest) : UploadWorld :=
  { world with pending := world.pending ++ [request] }

def onError (world : UploadWorld) (errorType : ErrorType) : UploadWorld :=
  { world.record (.error errorType world.upload.currentUploads) with canRetry := true }

/-- A call of `on_error_` by code that sets `errored_` first. -/
def fail (world : UploadWorld) (errorType : ErrorType) : UploadWorld :=
  onError { world with upload.errored := true } errorType

def uploadNextObject (world : UploadWorld) : UploadWorld :=
  match world.upload.remainingObjectIdentifiers.getLast? with
  | none => world
  | some objectIdentifier =>
    send { world with
      upload.currentUploads := world.upload.currentUploads + 1
      upload.currentObjectsHandled := world.upload.currentObjectsHandled + 1
      upload.remainingObjectIdentifiers := world.upload.remainingObjectIdentifiers.dropLast }
      (.getObjectName objectIdentifier)

/-- The loop of `StartObjectUpload`; each turn takes an object from the queue. -/
def uploadObjects : Nat → UploadWorld → UploadWorld
  | 0, world => world
  | fuel + 1, world =>
    if world.upload.currentUploads < world.upload.maxConcurrentUploads ∧
        world.upload.remainingObjectIdentifiers ≠ [] then
      uploadObjects fuel world.uploadNextObject
    else world

def filterAndUploadCommits (world : UploadWorld) : UploadWorld :=
  world.send .getUnsyncedCommits

def startObjectUpload (world : UploadWorld) : UploadWorld :=
  if world.upload.remainingObjectIdentifiers = [] then world.filterAndUploadCommits
  else uploadObjects world.upload.remainingObjectIdentifiers.length world

def start (world : UploadWorld) : UploadWorld :=
  send { world.record .attempt with upload.started := true }
    .getUnsyncedPieces

def retry (world : UploadWorld) : UploadWorld :=
  startObjectUpload { world.record .attempt with
    upload.errored := false, upload.errorType := .temporary
    canRetry := false }

def enqueueForRetryAndSignalError (world : UploadWorld) (objectIdentifier : ObjectIdentifier) :
    UploadWorld :=
  let next : UploadWorld := { world with
    upload.currentObjectsHandled := world.upload.currentObjectsHandled - 1
    upload.errored := true
    upload.remainingObjectIdentifiers :=
      world.upload.remainingObjectIdentifiers ++ [objectIdentifier] }
  if next.upload.currentObjectsHandled = 0 then next.onError next.upload.errorType else next

def onUnsyncedPieces (world : UploadWorld) : Option (List ObjectIdentifier) → UploadWorld
  | none => world.fail .permanent
  | some objectIdentifiers =>
    startObjectUpload { world.record (.pieces objectIdentifiers) with
      upload.remainingObjectIdentifiers := objectIdentifiers }

def onObjectName (world : UploadWorld) (objectIdentifier : ObjectIdentifier) (ok : Bool) :
    UploadWorld :=
  if ok then world.send (.getPiece objectIdentifier)
  else world.enqueueForRetryAndSignalError objectIdentifier

/-- The callback of `GetPiece` and `UploadObject`. -/
def onPiece (world : UploadWorld) (objectIdentifier : ObjectIdentifier) (ok : Bool) :
    UploadWorld :=
  if ok then world.send (.encryptObject objectIdentifier) else { world with crashed := true }

/-- The callback of `EncryptObject` and `UploadEncryptedObject`. -/
def onEncryptedObject (world : UploadWorld) (objectIdentifier : ObjectIdentifier)
    (answer : Bool × Bool) : UploadWorld :=
  if answer.1 ∧ answer.2 then world.send (.addObject objectIdentifier)
  else world.enqueueForRetryAndSignalError objectIdentifier

/-- The callback of `AddObject`. -/
def onObjectAdded (world : UploadWorld) (objectIdentifier : ObjectIdentifier) (ok : Bool) :
    UploadWorld :=
  let next : UploadWorld := { world with
    upload.currentUploads := world.upload.currentUploads - 1 }
  if ok then (next.record (.accepted objectIdentifier)).send (.markPieceSynced objectIdentifier)
  else next.enqueueForRetryAndSignalError objectIdentifier

def pieceMarked (world : UploadWorld) (objectIdentifier : ObjectIdentifier) (ok : Bool) :
    UploadWorld :=
  { world.record (.marked objectIdentifier ok) with
    upload.currentObjectsHandled := world.upload.currentObjectsHandled - 1
    upload.errored := if ok then world.upload.errored else true
    upload.errorType := if ok then world.upload.errorType else .permanent }

/-- The callback of `MarkPieceSynced`. -/
def onPieceMarked (world : UploadWorld) (objectIdentifier : ObjectIdentifier) (ok : Bool) :
    UploadWorld :=
  let next := world.pieceMarked objectIdentifier ok
  if next.upload.errored = true ∧ next.upload.currentObjectsHandled = 0 then
    next.onError next.upload.errorType
  else if next.upload.currentObjectsHandled = 0 ∧
      next.upload.remainingObjectIdentifiers = [] then next.filterAndUploadCommits
  else if next.upload.errored = false ∧ next.upload.remainingObjectIdentifiers ≠ [] then
    next.uploadNextObject
  else next

def uploadCommits (world : UploadWorld) : UploadWorld :=
  world.send (.encryptCommits world.upload.commits world.upload.commits.length)

/-- The callback of `GetUnsyncedCommits`, which does not look at the status: with an error
come no commits. -/
def onUnsyncedCommits (world : UploadWorld) (answer : Option (List CommitId)) : UploadWorld :=
  let ids := answer.getD []
  let next : UploadWorld := { world.record (.unsynced ids) with
    upload.commits := world.upload.commits.filter (· ∈ ids) }
  if next.upload.commits = [] then next.record .done else next.uploadCommits

/-- An answer of `EncryptCommit`: the waiter ends with the first failure. -/
def onCommitEncrypted (world : UploadWorld) (ids : List CommitId) (missing : Nat) (ok : Bool) :
    UploadWorld :=
  if ok then
    if missing ≤ 1 then (world.record (.sent ids)).send (.addCommits ids)
    else world.send (.encryptCommits ids (missing - 1))
  else world.fail .permanent

/-- The callback of `AddCommits`. -/
def onCommitsAdded (world : UploadWorld) (ids : List CommitId) (ok : Bool) : UploadWorld :=
  if ok then world.send (.markCommitsSynced ids) else world.fail .temporary

/-- An answer of `MarkCommitSynced`: the waiter ends with the first failure, and ignores what
comes later. -/
def onCommitMarked (world : UploadWorld) (missing : List CommitId) (id : CommitId) (ok : Bool) :
    UploadWorld :=
  if ok then
    let next : UploadWorld := { world with unsynced := world.unsynced.filter (· ≠ id) }
    if missing.erase id = [] then next.record .done
    else next.send (.markCommitsSynced (missing.erase id))
  else fail { world with ignored := world.ignored ++ missing.erase id } .permanent

/-- A call is answered.  There are answers that cannot come: `GetUnsyncedCommits` lists the
commits that are unsynced, and a waiter is told of the calls it waits for. -/
def receive (world : UploadWorld) :
    (request : UploadRequest) → request.Answer → Option UploadWorld
  | .getUnsyncedPieces, answer => some (world.onUnsyncedPieces answer)
  | .getObjectName objectIdentifier, ok => some (world.onObjectName objectIdentifier ok)
  | .getPiece objectIdentifier, ok => some (world.onPiece objectIdentifier ok)
  | .encryptObject objectIdentifier, ok => some (world.onEncryptedObject objectIdentifier ok)
  | .addObject objectIdentifier, ok => some (world.onObjectAdded objectIdentifier ok)
  | .markPieceSynced objectIdentifier, ok => some (world.onPieceMarked objectIdentifier ok)
  | .getUnsyncedCommits, none => some (world.onUnsyncedCommits none)
  | .getUnsyncedCommits, some ids =>
    if ∀ id ∈ world.batch, id ∈ world.unsynced → id ∈ ids then
      some (world.onUnsyncedCommits (some ids))
    else none
  | .encryptCommits ids missing, ok => some (world.onCommitEncrypted ids missing ok)
  | .addCommits ids, ok => some (world.onCommitsAdded ids ok)
  | .markCommitsSynced missing, (id, ok) =>
    if id ∈ missing then some (world.onCommitMarked missing id ok) else none

end UploadWorld

inductive UploadAction where
  | start
  | retry
  /-- A call is answered. -/
  | answer (request : UploadRequest) (answer : request.Answer)
  /-- A call of `MarkCommitSynced` is answered that the waiter ignores. -/
  | ignored (id : CommitId) (ok : Bool)
  /-- Other parts of the ledger add and sync commits; a synced commit stays synced. -/
  | storage (unsynced : List CommitId)

namespace UploadWorld

/-- One step.  The client calls `Start` once, and `Retry` once after each `on_error`. -/
def step (world : UploadWorld) : UploadAction → Option UploadWorld
  | .start =>
    if world.crashed = false ∧ world.upload.started = false then some world.start else none
  | .retry => if world.crashed = false ∧ world.canRetry = true then some world.retry else none
  | .answer request answer =>
    if world.crashed = false ∧ request ∈ world.pending then
      receive { world with pending := world.pending.erase request } request answer
    else none
  | .ignored id ok =>
    if id ∈ world.ignored then
      some { world with
        ignored := world.ignored.erase id
        unsynced := if ok then world.unsynced.filter (· ≠ id) else world.unsynced }
    else none
  | .storage unsynced =>
    if ∀ id ∈ world.batch, id ∈ unsynced → id ∈ world.unsynced then
      some { world with unsynced }
    else none

end UploadWorld

end Peridot
