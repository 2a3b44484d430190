import Peridot.PageStorage

/-!
# Adding commits to a page

`SynchronousAddCommits`, `SynchronousAddCommitsFromSync` and
`SynchronousAddCommitFromLocal` of `page_storage_impl.cc`.
-/

namespace Peridot

variable {formats : StorageFormats}

inductive ObjectDigestType where
  | inline
  | valueHash
  | indexHash
deriving DecidableEq

def kStorageHashSize : Nat := 32

/-- `GetObjectDigestType`; other prefixes are not valid and count as values. -/
def getObjectDigestType (objectDigest : ObjectDigest) : ObjectDigestType :=
  if objectDigest.length ≤ kStorageHashSize then .inline
  else if objectDigest.head? = some 2 then .indexHash
  else .valueHash

def parseFileIndex (formats : StorageFormats) (content : Bytes) : Except Status FileIndex :=
  match formats.parseFileIndex content with
  | some fileIndex => .ok fileIndex
  | none => .error .formatError

def childrenToMark (fileIndex : FileIndex) (seenIdentifiers : List ObjectIdentifier) :
    List ObjectIdentifier :=
  (fileIndex.children.map Prod.snd).filter fun child =>
    getObjectDigestType child.objectDigest ≠ .inline ∧ child ∉ seenIdentifiers

/-- The loop of `MarkAllPiecesLocal`; the head of the list is the back of the vector. -/
def markPieces : Nat → List Write → List ObjectIdentifier → List ObjectIdentifier →
    PageRoutine formats (List Write)
  | _, batch, _, [] => return batch
  | 0, _, _, _ :: _ => throw .outOfFuel
  | fuel + 1, batch, seenIdentifiers, objectIdentifier :: objectIdentifiers => do
      let seenIdentifiers := objectIdentifier :: seenIdentifiers
      let batch ← setObjectStatus batch objectIdentifier .localObject
      if getObjectDigestType objectIdentifier.objectDigest = .indexHash then
        let content ← returnOnError (readObject objectIdentifier)
        let fileIndex ← returnOnError (pure (parseFileIndex formats content))
        markPieces fuel batch seenIdentifiers
          ((childrenToMark fileIndex seenIdentifiers).reverse ++ objectIdentifiers)
      else markPieces fuel batch seenIdentifiers objectIdentifiers

def markAllPiecesLocal (fuel : Nat) (batch : List Write)
    (objectIdentifiers : List ObjectIdentifier) : PageRoutine formats (List Write) :=
  markPieces fuel batch [] objectIdentifiers.reverse

structure AddState (formats : StorageFormats) where
  batch : List Write
  addedCommits : List CommitId
  commitsToSend : List (Commit formats)
  headsToAdd : AList fun _ : CommitId => Int64
  continueTrying : Bool
  remainingCommits : List (Commit formats)

/-- The loop over the parents of a commit; `false` when a parent is missing. -/
def takeParents (state : AddState formats) :
    List CommitId → PageRoutine formats (Bool × AddState formats)
  | [] => return (true, state)
  | parentId :: parentIds => do
      let found ← if parentId ∈ state.addedCommits then pure Status.ok
        else ExceptT.lift (containsCommit parentId)
      match found with
      | .ok =>
        if parentId ∈ state.headsToAdd then
          takeParents { state with headsToAdd := state.headsToAdd.erase parentId } parentIds
        else
          let batch ← addWrite state.batch (.delete (.head parentId))
          takeParents { state with batch } parentIds
      | .notFound => return (false, state)
      | _ => throw (.status .internalIoError)

def skipCommit (source : ChangeSource) (state : AddState formats) (commit : Commit formats) :
    PageRoutine formats (AddState formats) := do
  if source = .sync then
    let batch ← addWrite state.batch (.delete (.unsyncedCommit commit.id))
    return { state with batch }
  else return state

def storeCommit (source : ChangeSource) (state : AddState formats) (commit : Commit formats) :
    PageRoutine formats (AddState formats) := do
  let batch ← addWrite state.batch (.put (.commit commit.id) commit.storageBytes)
  let batch ← if source = .localChange then
      addWrite batch (.put (.unsyncedCommit commit.id) commit.generation)
    else pure batch
  return { state with
    batch
    addedCommits := commit.id :: state.addedCommits
    commitsToSend := state.commitsToSend ++ [commit]
    headsToAdd := state.headsToAdd.insert commit.id commit.timestamp
    continueTrying := true }

def addCommit (source : ChangeSource) (state : AddState formats) (commit : Commit formats) :
    PageRoutine formats (AddState formats) := do
  match ← ExceptT.lift (containsCommit commit.id) with
  | .ok => skipCommit source state commit
  | .notFound =>
    let (found, state) ← takeParents state commit.parentIds
    if found then storeCommit source state commit
    else return { state with remainingCommits := state.remainingCommits ++ [commit] }
  | status => throw (.status status)

/-- `AddHead` for the heads to add. -/
def addHeads (batch : List Write) :
    List (Sigma fun _ : CommitId => Int64) → PageRoutine formats (List Write)
  | [] => return batch
  | ⟨head, timestamp⟩ :: heads => do
      let batch ← addWrite batch (.put (.head head) timestamp)
      addHeads batch heads

/-- One turn of the loop that retries: `HeadsToAdd` is kept for the next turn. -/
def addPass (source : ChangeSource) (state : AddState formats) (commits : List (Commit formats)) :
    PageRoutine formats (AddState formats) := do
  let state ← commits.foldlM (addCommit source)
    { state with continueTrying := false, remainingCommits := [] }
  let batch ← addHeads state.batch state.headsToAdd.entries
  return { state with batch }

def addPasses (source : ChangeSource) :
    Nat → AddState formats → List (Commit formats) →
      PageRoutine formats (AddState formats × List (Commit formats))
  | _, state, [] => return (state, [])
  | 0, _, _ :: _ => throw .outOfFuel
  | fuel + 1, state, commit :: commits => do
      let state ← addPass source state (commit :: commits)
      if state.continueTrying then addPasses source fuel state state.remainingCommits
      else return (state, state.remainingCommits)

/-- `SynchronousAddCommits` between its loop and the execution of its batch. -/
def finishBatch (fuel : Nat) (newObjects : List ObjectIdentifier)
    (added : AddState formats × List (Commit formats)) :
    PageRoutine formats (List Write × List (Commit formats)) := do
  if added.2 ≠ [] then throw (.status .illegalState)
  else
    let batch ← markAllPiecesLocal fuel added.1.batch newObjects
    return (batch, added.1.commitsToSend)

/-- `SynchronousAddCommits` up to the execution of its batch. -/
def prepareCommits (fuel : Nat) (commits : List (Commit formats)) (source : ChangeSource)
    (newObjects : List ObjectIdentifier) :
    PageRoutine formats (List Write × List (Commit formats)) := do
  returnOnError startBatch
  let added ← addPasses source (commits.length + 1) ⟨[], [], [], ∅, true, []⟩ commits
  finishBatch fuel newObjects added

/-- The locked part of `SynchronousAddCommits`. -/
def addCommitsLocked (fuel : Nat) (commits : List (Commit formats)) (source : ChangeSource)
    (newObjects : List ObjectIdentifier) : PageRoutine formats Unit := do
  let (batch, commitsToSend) ← prepareCommits fuel commits source newObjects
  let executed ← ExceptT.lift (execute batch)
  ExceptT.lift (notifyWatchers source commitsToSend)
  returnOnError (pure executed)

def withLock {α : Type} (routine : PageRoutine formats α) : PageRoutine formats α := do
  returnOnError acquireLock
  let result ← ExceptT.lift routine.run
  ExceptT.lift releaseLock
  match result with
  | .ok result => return result
  | .error fault => throw fault

def synchronousAddCommits (fuel : Nat) (commits : List (Commit formats)) (source : ChangeSource)
    (newObjects : List ObjectIdentifier) : PageRoutine formats Unit :=
  withLock (addCommitsLocked fuel commits source newObjects)

def synchronousAddCommitFromLocal (fuel : Nat) (commit : Commit formats)
    (newObjects : List ObjectIdentifier) : PageRoutine formats Unit :=
  synchronousAddCommits fuel [commit] .localChange newObjects

/-- `SynchronousMarkCommitSynced`, which is `PageDbImpl::MarkCommitIdSynced`. -/
def synchronousMarkCommitSynced (commitId : CommitId) : PageRoutine formats Unit := do
  returnOnError startBatch
  let batch ← addWrite [] (.delete (.unsyncedCommit commitId))
  returnOnError (execute batch)

structure CommitIdAndBytes where
  id : CommitId
  bytes : Bytes

def newCommits : List CommitIdAndBytes → PageRoutine formats (List (Commit formats))
  | [] => return []
  | idAndBytes :: idsAndBytes => do
      match ← ExceptT.lift (containsCommit idAndBytes.id) with
      | .ok =>
        synchronousMarkCommitSynced idAndBytes.id
        newCommits idsAndBytes
      | .notFound =>
        let commit ← returnOnError
          (pure (Commit.fromStorageBytes formats idAndBytes.id idAndBytes.bytes))
        let commits ← newCommits idsAndBytes
        return commit :: commits
      | status => throw (.status status)

/-- `leaves`: the commits that are not the parent of a later commit. -/
def leaves (commits : List (Commit formats)) : List (Commit formats) :=
  commits.foldl (fun leaves commit =>
    leaves.filter (fun leaf => leaf.id ∉ commit.parentIds ∧ leaf.id ≠ commit.id) ++ [commit]) []

/-- `GetObjectsFromSync` for all leaves; the first failure is the result. -/
def downloadLeaves : List (Commit formats) → PageCoroutine formats (Except Status Unit)
  | [] => return .ok ()
  | leaf :: leaves => do
      let first ← getObjectsFromSync leaf.rootIdentifier
      let rest ← downloadLeaves leaves
      return first >>= fun _ => rest

def synchronousAddCommitsFromSync (fuel : Nat) (idsAndBytes : List CommitIdAndBytes) :
    PageRoutine formats Unit := do
  let commits ← withLock (newCommits idsAndBytes)
  if commits = [] then return ()
  else
    returnOnError (downloadLeaves (leaves commits))
    synchronousAddCommits fuel commits .sync []

def sampleFormats : StorageFormats where
  parseCommit storageBytes := some
    { timestamp := 0
      generation := 1
      rootNodeId := default
      parents := storageBytes.map fun name => if name = 0 then kFirstPageCommitId else [name] }
  parseFileIndex _ := none

def sampleCommit (name : UInt8) (parents : Bytes)
    (hasParents : parents ≠ [] ∧ parents.length ≤ 2) : Commit sampleFormats where
  id := [name]
  storageBytes := parents
  storage := _
  parsed := rfl
  hasParents := by simpa using hasParents

end Peridot
