import Peridot.PageWorld

/-!
# What adding commits computes

While the lock is held the database does not change before the batch is executed, so
`SynchronousAddCommits` computes its batch from the database as it is at the start.
-/

namespace Peridot

open Coroutine List PageDb

variable {formats : StorageFormats} {α : Type}

namespace PageDb

def objectStatus (db : PageDb) (identifier : ObjectIdentifier) : PageDbObjectStatus :=
  if Row.objectStatus .synced identifier ∈ db then .synced
  else if Row.objectStatus .transient identifier ∈ db then .transient
  else if Row.objectStatus .localObject identifier ∈ db then .localObject
  else .unknown

def statusWrites (db : PageDb) (identifier : ObjectIdentifier)
    (objectStatus : PageDbObjectStatus) : List Write :=
  if (db.objectStatus identifier).rank ≥ objectStatus.rank then []
  else [.delete (.objectStatus (db.objectStatus identifier) identifier),
    .put (.objectStatus objectStatus identifier) ()]

/-- What `MarkAllPiecesLocal` computes. -/
def markPieces (formats : StorageFormats) (db : PageDb) :
    Nat → List Write → List ObjectIdentifier → List ObjectIdentifier → Except Fault (List Write)
  | _, batch, _, [] => .ok batch
  | 0, _, _, _ :: _ => .error .outOfFuel
  | fuel + 1, batch, seenIdentifiers, identifier :: objectIdentifiers =>
    if getObjectDigestType identifier.objectDigest = .indexHash then do
      let content ← (db.read (Row.object identifier.objectDigest)).mapError .status
      let fileIndex ← (parseFileIndex formats content).mapError .status
      markPieces formats db fuel (batch ++ db.statusWrites identifier .localObject)
        (identifier :: seenIdentifiers)
        ((childrenToMark fileIndex (identifier :: seenIdentifiers)).reverse ++
          objectIdentifiers)
    else
      markPieces formats db fuel (batch ++ db.statusWrites identifier .localObject)
        (identifier :: seenIdentifiers) objectIdentifiers

def takeParents (db : PageDb) (state : AddState formats) :
    List CommitId → Bool × AddState formats
  | [] => (true, state)
  | parentId :: parentIds =>
    if parentId ∈ state.addedCommits ∨ db.Contains parentId then
      if parentId ∈ state.headsToAdd then
        takeParents db { state with headsToAdd := state.headsToAdd.erase parentId } parentIds
      else
        takeParents db { state with batch := state.batch ++ [.delete (.head parentId)] } parentIds
    else (false, state)

@[simp]
theorem takeParents_nil (db : PageDb) (state : AddState formats) :
    db.takeParents state [] = (true, state) :=
  rfl

theorem takeParents_cons (db : PageDb) (state : AddState formats) (parentId : CommitId)
    (parentIds : List CommitId) : db.takeParents state (parentId :: parentIds) =
      if parentId ∈ state.addedCommits ∨ db.Contains parentId then
        if parentId ∈ state.headsToAdd then
          db.takeParents { state with headsToAdd := state.headsToAdd.erase parentId } parentIds
        else
          db.takeParents { state with batch := state.batch ++ [.delete (.head parentId)] } parentIds
      else (false, state) :=
  rfl

def skipWrites (source : ChangeSource) (commit : Commit formats) : List Write :=
  if source = .sync then [.delete (.unsyncedCommit commit.id)] else []

def commitWrites (source : ChangeSource) (commit : Commit formats) : List Write :=
  .put (.commit commit.id) commit.storageBytes ::
    if source = .localChange then [.put (.unsyncedCommit commit.id) commit.generation] else []

def storeCommit (source : ChangeSource) (state : AddState formats) (commit : Commit formats) :
    AddState formats :=
  { state with
    batch := state.batch ++ commitWrites source commit
    addedCommits := commit.id :: state.addedCommits
    commitsToSend := state.commitsToSend ++ [commit]
    headsToAdd := state.headsToAdd.insert commit.id commit.timestamp
    continueTrying := true }

def addCommit (db : PageDb) (source : ChangeSource) (state : AddState formats)
    (commit : Commit formats) : AddState formats :=
  if db.Contains commit.id then { state with batch := state.batch ++ skipWrites source commit }
  else
    match db.takeParents state commit.parentIds with
    | (true, state) => storeCommit source state commit
    | (false, state) => { state with remainingCommits := state.remainingCommits ++ [commit] }

def headWrites (heads : List (Sigma fun _ : CommitId => Int64)) : List Write :=
  heads.map fun head => .put (.head head.1) head.2

def addPass (db : PageDb) (source : ChangeSource) (state : AddState formats)
    (commits : List (Commit formats)) : AddState formats :=
  let state := commits.foldl (db.addCommit source)
    { state with continueTrying := false, remainingCommits := [] }
  { state with batch := state.batch ++ headWrites state.headsToAdd.entries }

def addPasses (db : PageDb) (source : ChangeSource) :
    Nat → AddState formats → List (Commit formats) →
      Except Fault (AddState formats × List (Commit formats))
  | _, state, [] => .ok (state, [])
  | 0, _, _ :: _ => .error .outOfFuel
  | fuel + 1, state, commit :: commits =>
    let state := db.addPass source state (commit :: commits)
    if state.continueTrying then addPasses db source fuel state state.remainingCommits
    else .ok (state, state.remainingCommits)

def finishBatch (db : PageDb) (fuel : Nat) (newObjects : List ObjectIdentifier)
    (added : AddState formats × List (Commit formats)) :
    Except Fault (List Write × List (Commit formats)) := do
  if added.2 ≠ [] then throw (.status .illegalState)
  else
    let batch ← db.markPieces formats fuel added.1.batch [] newObjects.reverse
    return (batch, added.1.commitsToSend)

def prepareCommits (db : PageDb) (fuel : Nat) (commits : List (Commit formats))
    (source : ChangeSource) (newObjects : List ObjectIdentifier) :
    Except Fault (List Write × List (Commit formats)) := do
  let added ← db.addPasses source (commits.length + 1) ⟨[], [], [], ∅, true, []⟩ commits
  db.finishBatch fuel newObjects added

end PageDb

namespace PageWorld

variable (db : PageDb)

theorem computes_addWrite (batch : List Write) (write : Write) :
    Computes db (addWrite batch write : PageRoutine formats (List Write))
      (.ok (batch ++ [write])) :=
  (Computes.returnOnError (.ok ()) (.perform trivial) fun _ _ => rfl).bind (.pure _)
    fun _ => .pure _

theorem computes_hasKey (row : Row) :
    Computes db (returnOnError (hasKey row) : PageRoutine formats Bool) (.ok (decide (row ∈ db))) :=
  .returnOnError (.ok (decide (row ∈ db))) (.perform trivial) fun world sameDb => by
    rw [← sameDb]
    rfl

theorem computes_readObject (identifier : ObjectIdentifier) :
    Computes db (returnOnError (readObject identifier) : PageRoutine formats Bytes)
      ((db.read (.object identifier.objectDigest)).mapError .status) :=
  .returnOnError (db.read (.object identifier.objectDigest)) (.perform trivial)
    fun world sameDb => by
      rw [← sameDb]
      rfl

theorem computes_parseFileIndex (content : Bytes) :
    Computes db (returnOnError (pure (parseFileIndex formats content)) :
        PageRoutine formats FileIndex) ((parseFileIndex formats content).mapError .status) := by
  cases parseFileIndex formats content with
  | error status => exact .throw _
  | ok fileIndex => exact .pure _

theorem computes_ifKey (row : Row) {yes no : PageRoutine formats α} {value other : α}
    (isYes : Computes db yes (.ok value)) (isNo : Computes db no (.ok other)) :
    Computes db (do if ← returnOnError (hasKey row) then yes else no)
      (.ok (if row ∈ db then value else other)) := by
  refine (computes_hasKey db row).bind ?_ fun found => ?_
  · by_cases found : row ∈ db
    · simpa [found] using isYes
    · simpa [found] using isNo
  · cases found
    · exact isNo.readOnly
    · exact isYes.readOnly

theorem computes_getObjectStatus (identifier : ObjectIdentifier) :
    Computes db (getObjectStatus identifier : PageRoutine formats PageDbObjectStatus)
      (.ok (db.objectStatus identifier)) :=
  computes_ifKey db _ (.pure _) (computes_ifKey db _ (.pure _)
    (computes_ifKey db _ (.pure _) (.pure _)))

theorem computes_setObjectStatus (batch : List Write) (identifier : ObjectIdentifier)
    (objectStatus : PageDbObjectStatus) :
    Computes db (setObjectStatus batch identifier objectStatus :
        PageRoutine formats (List Write))
      (.ok (batch ++ db.statusWrites identifier objectStatus)) := by
  have changes : ∀ previous : PageDbObjectStatus, Computes db (do
      let batch ← addWrite batch (.delete (.objectStatus previous identifier))
      addWrite batch (.put (.objectStatus objectStatus identifier) ()) :
        PageRoutine formats (List Write))
      (.ok (batch ++ [.delete (.objectStatus previous identifier),
        .put (.objectStatus objectStatus identifier) ()])) := by
    intro previous
    refine (computes_addWrite db _ _).bind ?_ fun other => (computes_addWrite db other _).readOnly
    rw [show ∀ first second : Write, batch ++ [first, second] = batch ++ [first] ++ [second] by simp]
    exact computes_addWrite db _ _
  refine (computes_getObjectStatus db _).bind ?_ fun previous => ?_
  · unfold PageDb.statusWrites
    by_cases high : (db.objectStatus identifier).rank ≥ objectStatus.rank
    · rw [if_pos high, if_pos high, append_nil]
      exact .pure _
    · rw [if_neg high, if_neg high]
      exact changes _
  · by_cases high : previous.rank ≥ objectStatus.rank
    · rw [if_pos high]
      exact .pure _
    · rw [if_neg high]
      exact (changes previous).readOnly

theorem computes_markPieces (fuel : Nat) (batch : List Write)
    (seenIdentifiers objectIdentifiers : List ObjectIdentifier) :
    Computes db (markPieces fuel batch seenIdentifiers objectIdentifiers :
        PageRoutine formats (List Write))
      (db.markPieces formats fuel batch seenIdentifiers objectIdentifiers) := by
  induction fuel generalizing batch seenIdentifiers objectIdentifiers with
  | zero =>
    cases objectIdentifiers with
    | nil => exact .pure _
    | cons identifier objectIdentifiers => exact .throw _
  | succ fuel ih =>
    cases objectIdentifiers with
    | nil => exact .pure _
    | cons identifier objectIdentifiers =>
      rw [markPieces, PageDb.markPieces]
      by_cases isIndex : getObjectDigestType identifier.objectDigest = .indexHash
      · simp only [isIndex, if_true]
        have parses : ∀ (batch : List Write) (content : Bytes), Computes db (do
            let fileIndex ← returnOnError (pure (parseFileIndex formats content))
            markPieces fuel batch (identifier :: seenIdentifiers)
              ((childrenToMark fileIndex (identifier :: seenIdentifiers)).reverse ++
                objectIdentifiers) : PageRoutine formats (List Write)) (do
            let fileIndex ← (parseFileIndex formats content).mapError .status
            db.markPieces formats fuel batch (identifier :: seenIdentifiers)
              ((childrenToMark fileIndex (identifier :: seenIdentifiers)).reverse ++
                objectIdentifiers)) :=
          fun batch content => (computes_parseFileIndex db content).bindResult
            fun fileIndex => ih _ _ _
        have reads : ∀ batch : List Write, Computes db _ _ := fun batch =>
          (computes_readObject db identifier).bindResult (parses batch)
        exact (computes_setObjectStatus db _ _ _).bind (reads _) fun other => (reads other).readOnly
      · simp only [isIndex, if_false]
        exact (computes_setObjectStatus db _ _ _).bind (ih _ _ _) fun other =>
          (ih other _ _).readOnly

theorem run_containsCommit (id : CommitId) (world : PageWorld formats) :
    (∃ failures, run handle (containsCommit id) world =
        (if world.db.Contains id then .ok else .notFound, { world with failures }) ∧
        (world.failures = [] → failures = [])) ∨
      ∃ (failure : DbFailure) (failures : List (Option DbFailure)),
        world.failures ≠ [] ∧ run handle (containsCommit id) world =
          (failure.status, { world with failures }) := by
  by_cases first : id = kFirstPageCommitId
  · refine .inl ⟨world.failures, ?_, fun noFailures => noFailures⟩
    rw [containsCommit, if_pos first, if_pos (.inl first)]
    rfl
  · have reads : run handle (getRow (.commit id)) world =
        world.access (world.db.read (.commit id)) world := rfl
    rw [containsCommit, if_neg first, run_bind, reads, access]
    rcases failures : world.failures with - | ⟨- | failure, rest⟩
    · have same : { world with failures := [] } = world := by rw [← failures]
      refine .inl ⟨[], ?_, fun _ => rfl⟩
      cases stored : world.db.lookup (Row.commit id) with
      | none | some bytes =>
        simp [PageDb.read, stored, contains_iff_of_ne first, mem_iff_lookup, same]
    · refine .inl ⟨rest, ?_, by simp⟩
      cases stored : world.db.lookup (Row.commit id) with
      | none | some bytes => simp [PageDb.read, stored, contains_iff_of_ne first, mem_iff_lookup]
    · exact .inr ⟨failure, rest, by simp, rfl⟩

variable {db}

theorem Computes.contains {f : Status → PageRoutine formats α} {result : Except Fault α}
    (id : CommitId) (next : Computes db (f (if db.Contains id then .ok else .notFound)) result)
    (readOnly : ∀ status, ReadOnly (f status))
    (fails : ∀ failure : DbFailure, ∃ fault, f failure.status = MonadExcept.throw fault) :
    Computes db (ExceptT.lift (containsCommit id) >>= f) result where
  readOnly := by
    refine ReadOnly.bind (Only.lift ?_) readOnly
    unfold containsCommit
    split
    · exact .done _
    · refine (Only.perform trivial).bind fun reply => ?_
      cases reply <;> exact .done _
  exact := by
    rintro world rfl noFailures
    rw [call, outcome_bind, outcome_lift]
    rcases run_containsCommit id world with ⟨failures, runs, none⟩ | ⟨-, -, some, -⟩
    · rw [runs, none noFailures, ← noFailures]
      exact next.exact world rfl noFailures
    · exact absurd noFailures some
  sound := by
    rintro world rfl value isValue
    rw [call, outcome_bind, outcome_lift] at isValue
    rcases run_containsCommit id world with ⟨failures, runs, -⟩ | ⟨failure, failures, -, runs⟩
    · rw [runs] at isValue
      exact next.sound { world with failures } rfl value isValue
    · obtain ⟨fault, throws⟩ := fails failure
      rw [runs] at isValue
      simp only [throws] at isValue
      exact absurd isValue (by simp)

variable (db)

theorem computes_takeParents (state : AddState formats) (parentIds : List CommitId) :
    Computes db (takeParents state parentIds) (.ok (db.takeParents state parentIds)) := by
  induction parentIds generalizing state with
  | nil => exact .pure _
  | cons parentId parentIds ih =>
    have takes : Computes db (if parentId ∈ state.headsToAdd then
          takeParents { state with headsToAdd := state.headsToAdd.erase parentId } parentIds
        else do
          let batch ← addWrite state.batch (.delete (.head parentId))
          takeParents { state with batch } parentIds)
        (.ok (if parentId ∈ state.headsToAdd then
            db.takeParents { state with headsToAdd := state.headsToAdd.erase parentId } parentIds
          else db.takeParents { state with batch := state.batch ++ [.delete (.head parentId)] }
            parentIds)) := by
      split
      · exact ih _
      · exact (computes_addWrite db _ _).bind (ih _) fun batch => (ih _).readOnly
    rw [takeParents, takeParents_cons]
    by_cases added : parentId ∈ state.addedCommits
    · simp only [added, true_or, if_true]
      exact takes
    · simp only [added, false_or, if_false]
      refine .contains parentId ?_ (fun status => ?_) fun failure => ?_
      · by_cases contains : db.Contains parentId
        · simp only [contains, if_true]
          exact takes
        · simp only [contains, if_false]
          exact .pure _
      · cases status with
        | ok => exact takes.readOnly
        | notFound => exact .pure _
        | _ => exact .throw _
      · cases failure <;> exact ⟨_, rfl⟩

section

variable (source : ChangeSource) (state : AddState formats) (commit : Commit formats)

theorem computes_skipCommit : Computes db (skipCommit source state commit)
      (.ok { state with batch := state.batch ++ PageDb.skipWrites source commit }) := by
  cases source with
  | localChange =>
    simp only [skipCommit, PageDb.skipWrites, reduceCtorEq, if_false, append_nil]
    exact .pure _
  | sync => exact (computes_addWrite db _ _).bind (.pure _) fun batch => .pure _

theorem computes_storeCommit : Computes db (storeCommit source state commit)
      (.ok (PageDb.storeCommit source state commit)) := by
  cases source with
  | localChange =>
    refine (computes_addWrite db _ _).bind ?_ fun batch =>
      (computes_addWrite db _ _).readOnly.bind fun batch => .pure _
    refine (computes_addWrite db _ _).bind ?_ fun batch => .pure _
    rw [append_assoc]
    exact .pure _
  | sync => exact (computes_addWrite db _ _).bind (.pure _) fun batch => .pure _

theorem computes_addCommit :
    Computes db (addCommit source state commit) (.ok (db.addCommit source state commit)) := by
  have stores : ∀ taken : Bool × AddState formats, Computes db
      (if taken.1 then storeCommit source taken.2 commit
        else return { taken.2 with remainingCommits := taken.2.remainingCommits ++ [commit] })
      (.ok (match taken with
        | (true, state) => PageDb.storeCommit source state commit
        | (false, state) =>
          { state with remainingCommits := state.remainingCommits ++ [commit] })) := by
    rintro ⟨found, taken⟩
    cases found with
    | true => exact computes_storeCommit db source taken commit
    | false => exact .pure _
  refine .contains commit.id ?_ (fun status => ?_) fun failure => ?_
  · unfold PageDb.addCommit
    by_cases contains : db.Contains commit.id
    · simp only [contains, if_true]
      exact computes_skipCommit db source state commit
    · simp only [contains, if_false]
      exact (computes_takeParents db state commit.parentIds).bind (stores _) fun other =>
        (stores other).readOnly
  · cases status with
    | ok => exact (computes_skipCommit db source state commit).readOnly
    | notFound =>
      exact (computes_takeParents db state commit.parentIds).readOnly.bind fun other =>
        (stores other).readOnly
    | _ => exact .throw _
  · cases failure <;> exact ⟨_, rfl⟩

end

theorem computes_addHeads (batch : List Write) (heads : List (Sigma fun _ : CommitId => Int64)) :
    Computes db (addHeads batch heads : PageRoutine formats (List Write))
      (.ok (batch ++ PageDb.headWrites heads)) := by
  induction heads generalizing batch with
  | nil => exact (append_nil batch).symm ▸ .pure _
  | cons head heads ih =>
    refine (computes_addWrite db _ _).bind ?_ fun batch => (ih batch).readOnly
    have rest := ih (batch ++ [.put (.head head.1) head.2])
    rwa [append_assoc] at rest

section

variable (source : ChangeSource)

theorem computes_foldlM (state : AddState formats)
    (commits : List (Commit formats)) : Computes db (commits.foldlM (addCommit source) state)
      (.ok (commits.foldl (db.addCommit source) state)) := by
  induction commits generalizing state with
  | nil => exact .pure _
  | cons commit commits ih =>
    rw [foldlM_cons]
    exact (computes_addCommit db source state commit).bind (ih _) fun other => (ih other).readOnly

theorem computes_addPass (state : AddState formats) (commits : List (Commit formats)) :
    Computes db (addPass source state commits) (.ok (db.addPass source state commits)) := by
  refine (computes_foldlM db source _ commits).bind ?_ fun other =>
    (computes_addHeads db _ _).readOnly.bind fun batch => .pure _
  exact (computes_addHeads db _ _).bind (.pure _) fun batch => .pure _

theorem computes_addPasses (fuel : Nat) (state : AddState formats)
    (commits : List (Commit formats)) : Computes db (addPasses source fuel state commits)
      (db.addPasses source fuel state commits) := by
  induction fuel generalizing state commits with
  | zero =>
    cases commits with
    | nil => exact .pure _
    | cons commit commits => exact .throw _
  | succ fuel ih =>
    cases commits with
    | nil => exact .pure _
    | cons commit commits =>
      have goesOn : ∀ state : AddState formats, Computes db
          (if state.continueTrying then addPasses source fuel state state.remainingCommits
            else return (state, state.remainingCommits))
          (if state.continueTrying then db.addPasses source fuel state state.remainingCommits
            else .ok (state, state.remainingCommits)) := by
        intro state
        split
        · exact ih state state.remainingCommits
        · exact .pure _
      exact (computes_addPass db source state (commit :: commits)).bind (goesOn _) fun other =>
        (goesOn other).readOnly

end

theorem computes_finishBatch (fuel : Nat) (newObjects : List ObjectIdentifier)
    (added : AddState formats × List (Commit formats)) :
    Computes db (finishBatch fuel newObjects added) (db.finishBatch fuel newObjects added) := by
  unfold finishBatch PageDb.finishBatch
  split
  · exact .throw _
  · exact (computes_markPieces db fuel added.1.batch [] newObjects.reverse).bindResult
      fun batch => .pure _

/-- `SynchronousAddCommits` computes its batch from the database, or an access fails. -/
theorem computes_prepareCommits (fuel : Nat) (commits : List (Commit formats))
    (source : ChangeSource) (newObjects : List ObjectIdentifier) :
    Computes db (prepareCommits fuel commits source newObjects)
      (db.prepareCommits fuel commits source newObjects) := by
  have rest := (computes_addPasses db source (commits.length + 1) ⟨[], [], [], ∅, true, []⟩
    commits).bindResult (computes_finishBatch db fuel newObjects)
  exact (Computes.returnOnError (.ok ()) (.perform trivial) fun _ _ => rfl).bind rest fun _ =>
    rest.readOnly

end PageWorld

end Peridot
