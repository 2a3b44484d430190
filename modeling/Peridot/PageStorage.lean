import Peridot.PageDb

/-!
# The operations of a page storage

Commits, the operations that the coroutines of `PageStorageImpl` call, and a world in
which they are executed one after the other.
-/

namespace Peridot

def ascii (characters : List Char) : Bytes :=
  characters.map fun character => UInt8.ofNat character.toNat

/-- `CommitStorage` of `commit.fbs`. -/
structure CommitStorage where
  timestamp : Int64
  generation : UInt64
  rootNodeId : ObjectIdentifier
  parents : List CommitId
deriving DecidableEq, Inhabited

/-- `FileIndex` of `file_index.fbs`: the pieces of an object with their sizes. -/
structure FileIndex where
  size : UInt64
  children : List (UInt64 × ObjectIdentifier)
deriving Inhabited

/-- The code that is generated for the serialized types: what verified bytes hold. -/
structure StorageFormats where
  parseCommit : Bytes → Option CommitStorage
  parseFileIndex : Bytes → Option FileIndex

def kFirstPageCommitId : CommitId :=
  List.replicate 32 0

variable {id : CommitId}

namespace PageDb

def initial : PageDb :=
  (∅ : PageDb).insert (.head kFirstPageCommitId) 0

theorem mem_initial {row : Row} : row ∈ initial ↔ row = .head kFirstPageCommitId := by
  rw [initial, AList.mem_insert]
  exact or_iff_left (AList.notMem_empty row)

/-- `ContainsCommit` on a database. -/
def Contains (db : PageDb) (id : CommitId) : Prop :=
  id = kFirstPageCommitId ∨ Row.commit id ∈ db
deriving Decidable

theorem contains_iff_of_ne {db : PageDb} (other : id ≠ kFirstPageCommitId) :
    db.Contains id ↔ Row.commit id ∈ db :=
  or_iff_right other

end PageDb

/-- A commit other than the first one; its bytes are a valid serialization. -/
structure Commit (formats : StorageFormats) where
  id : CommitId
  storageBytes : Bytes
  storage : CommitStorage
  parsed : formats.parseCommit storageBytes = some storage
  hasParents : storage.parents ≠ [] ∧ storage.parents.length ≤ 2

namespace Commit

variable {formats : StorageFormats}

def timestamp (commit : Commit formats) : Int64 :=
  commit.storage.timestamp

def generation (commit : Commit formats) : UInt64 :=
  commit.storage.generation

def rootIdentifier (commit : Commit formats) : ObjectIdentifier :=
  commit.storage.rootNodeId

def parentIds (commit : Commit formats) : List CommitId :=
  commit.storage.parents

def fromStorageBytes (formats : StorageFormats) (id : CommitId) (storageBytes : Bytes) :
    Except Status (Commit formats) :=
  match parsed : formats.parseCommit storageBytes with
  | none => .error .formatError
  | some storage =>
    if hasParents : storage.parents ≠ [] ∧ storage.parents.length ≤ 2 then
      .ok ⟨id, storageBytes, storage, parsed, hasParents⟩
    else .error .formatError

theorem fromStorageBytes_ok {storageBytes : Bytes} {commit : Commit formats}
    (parsed : fromStorageBytes formats id storageBytes = .ok commit) :
    commit.id = id ∧ commit.storageBytes = storageBytes := by
  unfold fromStorageBytes at parsed
  split at parsed
  · cases parsed
  · split at parsed
    · cases parsed
      exact ⟨rfl, rfl⟩
    · cases parsed

theorem fromStorageBytes_self (commit : Commit formats) :
    fromStorageBytes formats commit.id commit.storageBytes = .ok commit := by
  obtain ⟨id, storageBytes, storage, parsed, hasParents⟩ := commit
  unfold fromStorageBytes
  split
  case h_1 isNone => cases parsed.symm.trans isNone
  case h_2 found isFound =>
    obtain rfl := Option.some.inj (parsed.symm.trans isFound)
    rw [dif_pos hasParents]

end Commit

/-- The operations at which a coroutine of the page storage waits. -/
inductive PageOp (formats : StorageFormats) where
  | acquireLock
  | releaseLock
  | startBatch
  | get (row : Row)
  | hasKey (row : Row)
  | updateBatch
  | execute (writes : List Write)
  | getObjectsFromSync (rootIdentifier : ObjectIdentifier)
  | notifyWatchers (source : ChangeSource) (commits : List (Commit formats))

def PageOp.Reply {formats : StorageFormats} : PageOp formats → Type
  | acquireLock => Except Status Unit
  | releaseLock => Unit
  | startBatch => Except Status Unit
  | get row => Except Status row.Value
  | hasKey _ => Except Status Bool
  | updateBatch => Except Status Unit
  | execute _ => Except Status Unit
  | getObjectsFromSync _ => Except Status Unit
  | notifyWatchers _ _ => Unit

abbrev PageCoroutine (formats : StorageFormats) :=
  Coroutine (PageOp formats) PageOp.Reply

abbrev PageRoutine (formats : StorageFormats) :=
  ExceptT Fault (PageCoroutine formats)

section Routines

variable {formats : StorageFormats} {α : Type}

def acquireLock : PageCoroutine formats (Except Status Unit) :=
  .perform PageOp.acquireLock

def releaseLock : PageCoroutine formats Unit :=
  .perform PageOp.releaseLock

def startBatch : PageCoroutine formats (Except Status Unit) :=
  .perform PageOp.startBatch

def getRow (row : Row) : PageCoroutine formats (Except Status row.Value) :=
  .perform (PageOp.get row)

def hasKey (row : Row) : PageCoroutine formats (Except Status Bool) :=
  .perform (PageOp.hasKey row)

def updateBatch : PageCoroutine formats (Except Status Unit) :=
  .perform PageOp.updateBatch

def execute (writes : List Write) : PageCoroutine formats (Except Status Unit) :=
  .perform (PageOp.execute writes)

def getObjectsFromSync (rootIdentifier : ObjectIdentifier) :
    PageCoroutine formats (Except Status Unit) :=
  .perform (PageOp.getObjectsFromSync rootIdentifier)

def notifyWatchers (source : ChangeSource) (commits : List (Commit formats)) :
    PageCoroutine formats Unit :=
  .perform (PageOp.notifyWatchers source commits)

def returnOnError (attempt : PageCoroutine formats (Except Status α)) :
    PageRoutine formats α := do
  match ← ExceptT.lift attempt with
  | .ok result => return result
  | .error status => throw (.status status)

/-- `Put` and `Delete` of a batch. -/
def addWrite (batch : List Write) (write : Write) : PageRoutine formats (List Write) := do
  returnOnError updateBatch
  return batch ++ [write]

def containsCommit (id : CommitId) : PageCoroutine formats Status := do
  if id = kFirstPageCommitId then return .ok
  else
    match ← getRow (.commit id) with
    | .ok _ => return .ok
    | .error status => return status

def hasObject (objectDigest : ObjectDigest) : PageCoroutine formats (Except Status Bool) :=
  hasKey (.object objectDigest)

def readObject (objectIdentifier : ObjectIdentifier) :
    PageCoroutine formats (Except Status Bytes) :=
  getRow (.object objectIdentifier.objectDigest)

def getObjectStatus (objectIdentifier : ObjectIdentifier) :
    PageRoutine formats PageDbObjectStatus := do
  if ← returnOnError (hasKey (.objectStatus .synced objectIdentifier)) then
    return .synced
  else if ← returnOnError (hasKey (.objectStatus .transient objectIdentifier)) then
    return .transient
  else if ← returnOnError (hasKey (.objectStatus .localObject objectIdentifier)) then
    return .localObject
  else return .unknown

def setObjectStatus (batch : List Write) (objectIdentifier : ObjectIdentifier)
    (objectStatus : PageDbObjectStatus) : PageRoutine formats (List Write) := do
  let previousObjectStatus ← getObjectStatus objectIdentifier
  if previousObjectStatus.rank ≥ objectStatus.rank then return batch
  else
    let batch ← addWrite batch (.delete (.objectStatus previousObjectStatus objectIdentifier))
    addWrite batch (.put (.objectStatus objectStatus objectIdentifier) ())

/-- `ObjectRow::kPrefix`. -/
def objectRowPrefix : Bytes :=
  ascii ['o', 'b', 'j', 'e', 'c', 't', 's', '/']

/-- `PageDbBatchImpl::WriteObject`.  It asks `HasObject`, which adds the prefix of the
object rows itself, for a key that has the prefix already. -/
def writeObject (batch : List Write) (objectIdentifier : ObjectIdentifier) (content : Bytes)
    (objectStatus : PageDbObjectStatus) : PageRoutine formats (List Write) := do
  let hasKey ← returnOnError (hasObject (objectRowPrefix ++ objectIdentifier.objectDigest))
  if hasKey then
    if objectStatus = .transient then return batch
    else setObjectStatus batch objectIdentifier objectStatus
  else
    let batch ← addWrite batch (.put (.object objectIdentifier.objectDigest) content)
    addWrite batch (.put (.objectStatus objectStatus objectIdentifier) ())

end Routines

end Peridot
