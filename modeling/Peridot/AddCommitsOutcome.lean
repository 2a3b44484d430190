import Peridot.AddCommitsOrder

/-!
# The outcome of adding commits

When `SynchronousAddCommits` succeeds, what it stores and whom it notifies, and what is
left of a call that fails.
-/

namespace Peridot

open ReadyOrder PageDb

variable {formats : StorageFormats} {α : Type} {commits permuted : List (Commit formats)}

namespace PageDb

variable {db : PageDb} {source : ChangeSource} {state : AddState formats}

def commitRow (commit : Commit formats) : Write :=
  .put (.commit commit.id) commit.storageBytes

def CommitsLogged (state : AddState formats) : Prop :=
  state.batch.filter (fun write => write.row.isCommit) = state.commitsToSend.map commitRow

theorem filter_commitWrites (commit : Commit formats) :
    (commitWrites source commit).filter (fun write => write.row.isCommit) = [commitRow commit] := by
  cases source <;> rfl

theorem filter_skipWrites (commit : Commit formats) :
    (skipWrites source commit).filter (fun write => write.row.isCommit) = [] := by
  cases source <;> rfl

theorem filter_removeHeads (ids : List CommitId) :
    (ids.map fun id => Write.delete (.head id)).filter (fun write => write.row.isCommit) = [] := by
  simp [Write.row, Row.isCommit]

theorem filter_headWrites (heads : List (Sigma fun _ : CommitId => Int64)) :
    (headWrites heads).filter (fun write => write.row.isCommit) = [] := by
  refine List.filter_eq_nil_iff.mpr fun write member => ?_
  obtain ⟨head, -, rfl⟩ := List.mem_map.mp member
  simp [Write.row, Row.isCommit]

theorem CommitsLogged.addCommit (logged : CommitsLogged state)
    (commit : Commit formats) : CommitsLogged (db.addCommit source state commit) := by
  unfold CommitsLogged at logged ⊢
  rcases addCommit_cases db source state commit with ⟨-, skips⟩ | ⟨-, -, middle, took, stores⟩ |
      ⟨-, -, middle, took, leaves⟩
  · simp [skips, logged, filter_skipWrites]
  · obtain ⟨removed, appended, -⟩ := took.batch
    simp [stores, storeCommit, appended, logged, took.commitsToSend, filter_commitWrites,
      filter_removeHeads]
  · obtain ⟨removed, appended, -⟩ := took.batch
    simp [leaves, appended, logged, took.commitsToSend, filter_removeHeads]

theorem CommitsLogged.addPass (logged : CommitsLogged state)
    (commits : List (Commit formats)) : CommitsLogged (db.addPass source state commits) := by
  have start : CommitsLogged { state with continueTrying := false, remainingCommits := [] } :=
    logged
  have folded : CommitsLogged (commits.foldl (db.addCommit source)
      { state with continueTrying := false, remainingCommits := [] }) :=
    List.foldlRecOn commits _ start fun _ middle commit _ => middle.addCommit commit
  unfold CommitsLogged at folded ⊢
  simp [PageDb.addPass, folded, filter_headWrites]

variable {fuel : Nat} {batch : List Write}

theorem CommitsLogged.addPasses {after : AddState formats}
    {rest : List (Commit formats)} (logged : CommitsLogged state)
    (result : db.addPasses source fuel state commits = .ok (after, rest)) :
    CommitsLogged after := by
  induction fuel generalizing state commits with
  | zero =>
    cases commits with
    | nil => cases result; exact logged
    | cons commit commits => cases result
  | succ fuel ih =>
    cases commits with
    | nil => cases result; exact logged
    | cons commit commits =>
      simp only [PageDb.addPasses] at result
      split at result
      · exact ih (logged.addPass _) result
      · cases result
        exact logged.addPass _

theorem markPieces_append (formats : StorageFormats) (db : PageDb) (fuel : Nat)
    (batch : List Write) (seenIdentifiers identifiers : List ObjectIdentifier) :
    db.markPieces formats fuel batch seenIdentifiers identifiers =
      (batch ++ ·) <$> db.markPieces formats fuel [] seenIdentifiers identifiers := by
  induction fuel generalizing batch seenIdentifiers identifiers with
  | zero =>
    cases identifiers with
    | nil => exact congrArg Except.ok (List.append_nil batch).symm
    | cons identifier identifiers => rfl
  | succ fuel ih =>
    cases identifiers with
    | nil => exact congrArg Except.ok (List.append_nil batch).symm
    | cons identifier identifiers =>
      have appends : ∀ seen rest, db.markPieces formats fuel
          (batch ++ db.statusWrites identifier .localObject) seen rest =
          (batch ++ ·) <$> db.markPieces formats fuel
            ([] ++ db.statusWrites identifier .localObject) seen rest := by
        intro seen rest
        rw [ih (batch ++ _), ih ([] ++ _), ← comp_map]
        congr 1
        funext writes
        simp
      rw [markPieces, markPieces]
      simp only [appends]
      split
      · simp
      · rfl

theorem markPieces_rows {seenIdentifiers identifiers : List ObjectIdentifier}
    {writes : List Write}
    (result : db.markPieces formats fuel batch seenIdentifiers identifiers = .ok writes) :
    ∀ write ∈ writes, write ∈ batch ∨ ∃ status object, write.row = .objectStatus status object := by
  induction fuel generalizing batch seenIdentifiers identifiers with
  | zero =>
    cases identifiers with
    | nil => cases result; exact fun write member => .inl member
    | cons identifier identifiers => cases result
  | succ fuel ih =>
    cases identifiers with
    | nil => cases result; exact fun write member => .inl member
    | cons identifier identifiers =>
      have rows : ∀ write ∈ batch ++ db.statusWrites identifier .localObject,
          write ∈ batch ∨ ∃ status object, write.row = .objectStatus status object := by
        intro write member
        refine (List.mem_append.mp member).imp_right fun ofStatus => ?_
        unfold statusWrites at ofStatus
        split at ofStatus
        · exact absurd ofStatus List.not_mem_nil
        · rcases List.mem_pair.mp ofStatus with rfl | rfl <;> exact ⟨_, _, rfl⟩
      have keeps : ∀ {seen rest}, db.markPieces formats fuel
          (batch ++ db.statusWrites identifier .localObject) seen rest = .ok writes →
          ∀ write ∈ writes, write ∈ batch ∨ ∃ status object, write.row = .objectStatus status object :=
        fun result write member => (ih result write member).elim (rows write) .inr
      rw [markPieces] at result
      split at result
      · obtain ⟨content, -, result⟩ := Call.bind_eq_ok.mp result
        obtain ⟨fileIndex, -, result⟩ := Call.bind_eq_ok.mp result
        exact keeps result
      · exact keeps result

/-- The writes of `MarkAllPiecesLocal` for the new objects. -/
def marks (formats : StorageFormats) (db : PageDb) (fuel : Nat)
    (newObjects : List ObjectIdentifier) : Except Fault (List Write) :=
  db.markPieces formats fuel [] [] newObjects.reverse

/-- What `SynchronousAddCommits` computes, by the turns of its loop. -/
theorem prepareCommits_eq (db : PageDb) (fuel : Nat) (commits : List (Commit formats)) (source : ChangeSource)
    (newObjects : List ObjectIdentifier) :
    ∃ after, db.addPasses source (commits.length + 1) ⟨[], [], [], ∅, true, []⟩ commits =
        .ok (after, (db.commitTurns (commits.length + 1) [] commits).2) ∧
      after.commitsToSend = (db.commitTurns (commits.length + 1) [] commits).1.flatten ∧
      db.prepareCommits fuel commits source newObjects =
        if (db.commitTurns (commits.length + 1) [] commits).2 = [] then
          (fun writes => (after.batch ++ writes, after.commitsToSend)) <$>
            db.marks formats fuel newObjects else .error (.status .illegalState) := by
  obtain ⟨after, result, sent⟩ := addPasses_turns db source ⟨[], [], [], ∅, true, []⟩
    (Nat.lt_succ_self commits.length)
  refine ⟨after, result, sent, ?_⟩
  rw [prepareCommits, result]
  change db.finishBatch fuel newObjects (after, _) = _
  rw [finishBatch, markPieces_append]
  by_cases complete : (db.commitTurns (commits.length + 1) [] commits).2 = []
  · rw [if_pos complete, if_neg (not_not.mpr complete), marks]
    cases db.markPieces formats fuel [] [] newObjects.reverse <;> rfl
  · rw [if_neg complete, if_pos complete]
    rfl

/-- The commits that are not stored can be put in an order in which parents come first. -/
def Orderable (db : PageDb) (commits : List (Commit formats)) : Prop :=
  ∃ order, order.Perm (db.unstored commits) ∧
    ReadyOrder.InOrder Commit.id Commit.parentIds db.Contains [] order

theorem orderable_iff_turns (db : PageDb) (commits : List (Commit formats)) :
    db.Orderable commits ↔ (db.commitTurns (commits.length + 1) [] commits).2 = [] :=
  (turns_complete ((length_unstored_le db commits).trans (Nat.le_succ _))).symm

theorem Orderable.perm (orderable : db.Orderable commits)
    (perm : permuted.Perm commits) : db.Orderable permuted := by
  obtain ⟨order, isOrder, inOrder⟩ := orderable
  exact ⟨order, isOrder.trans (perm.symm.filter _), inOrder⟩

/-- A batch that is ready to be executed, with the commits that are sent to the watchers. -/
structure Prepared (db : PageDb) (commits : List (Commit formats)) (batch : List Write)
    (sent : List (Commit formats)) : Prop where
  perm : sent.Perm (db.unstored commits)
  inOrder : ReadyOrder.InOrder Commit.id Commit.parentIds db.Contains [] sent
  commitRows : batch.filter (fun write => write.row.isCommit) = sent.map commitRow

variable {newObjects : List ObjectIdentifier} {sent : List (Commit formats)}

/-- A call that gets to the execution has added all its commits and has marked its pieces. -/
theorem prepareCommits_ok
    (result : db.prepareCommits fuel commits source newObjects = .ok (batch, sent)) :
    ∃ (after : AddState formats) (writes : List Write),
      db.addPasses source (commits.length + 1) ⟨[], [], [], ∅, true, []⟩ commits = .ok (after, []) ∧
      (db.commitTurns (commits.length + 1) [] commits).2 = [] ∧
      after.commitsToSend = (db.commitTurns (commits.length + 1) [] commits).1.flatten ∧
      after.commitsToSend = sent ∧ after.batch ++ writes = batch ∧
      ∀ write ∈ writes, ∃ status object, write.row = .objectStatus status object := by
  obtain ⟨after, passes, isSent, prepares⟩ := prepareCommits_eq db fuel commits source newObjects
  rw [result] at prepares
  split at prepares
  case isFalse => cases prepares
  case isTrue complete =>
    cases marked : db.marks formats fuel newObjects with
    | error fault => rw [marked] at prepares; cases prepares
    | ok writes =>
      rw [marked] at prepares
      cases prepares
      rw [complete] at passes
      refine ⟨after, writes, passes, complete, isSent, rfl, rfl, fun write member => ?_⟩
      exact (markPieces_rows marked write member).resolve_left List.not_mem_nil

theorem prepareCommits_orderable {prepared : List Write × List (Commit formats)}
    (result : db.prepareCommits fuel commits source newObjects = .ok prepared) :
    db.Orderable commits := by
  obtain ⟨after, writes, -, complete, -⟩ := prepareCommits_ok result
  exact (orderable_iff_turns db commits).mpr complete

theorem prepareCommits_prepared
    (result : db.prepareCommits fuel commits source newObjects = .ok (batch, sent)) :
    Prepared db commits batch sent := by
  obtain ⟨after, writes, passes, complete, isSent, rfl, rfl, rows⟩ := prepareCommits_ok result
  have logged : CommitsLogged after :=
    (show CommitsLogged ⟨[], [], [], ∅, true, []⟩ from rfl).addPasses passes
  have noCommits : writes.filter (fun write => write.row.isCommit) = [] := by
    refine List.filter_eq_nil_iff.mpr fun write member => ?_
    obtain ⟨status, object, isRow⟩ := rows write member
    simp [isRow, Row.isCommit]
  have perm := turns_perm Commit.id Commit.parentIds db.Contains
    (commits.length + 1) [] (db.unstored commits)
  refine ⟨?_, ?_, ?_⟩
  · rw [isSent]
    rw [commitTurns] at complete
    rwa [complete, List.append_nil] at perm
  · rw [isSent]
    exact turns_inOrder ..
  · rw [List.filter_append, noCommits, List.append_nil]
    exact logged

namespace Prepared

variable {commits sent : List (Commit formats)} {batch : List Write}
  (prepared : Prepared db commits batch sent) {commit : Commit formats}
include prepared

theorem lookup_commit (id : CommitId) : (db.writeAll batch).lookup (.commit id) =
    (db.writeAll (sent.map commitRow)).lookup (.commit id) := by
  rw [← prepared.commitRows]
  exact lookup_writeAll_filter fun write isRow => by rw [isRow]; rfl

theorem mem_sent : commit ∈ sent ↔ commit ∈ commits ∧ ¬db.Contains commit.id :=
  prepared.perm.mem_iff.trans mem_unstored

theorem mem_commit_iff (id : CommitId) :
    Row.commit id ∈ db.writeAll batch ↔ Row.commit id ∈ db ∨ ∃ commit ∈ sent, commit.id = id := by
  have rows : Row.commit id ∈ db.writeAll (sent.map commitRow) ↔
      Row.commit id ∈ db ∨ ∃ write ∈ sent.map commitRow, write.row = Row.commit id :=
    mem_writeAll_of_puts fun write member _ => by
      obtain ⟨commit, -, rfl⟩ := List.mem_map.mp member
      rfl
  have written : (∃ write ∈ sent.map commitRow, write.row = Row.commit id) ↔
      ∃ commit ∈ sent, commit.id = id := by
    simp [commitRow, Write.row]
  rw [mem_iff_lookup, prepared.lookup_commit, ← mem_iff_lookup, rows, written]

theorem contains_iff (id : CommitId) :
    (db.writeAll batch).Contains id ↔ db.Contains id ∨ ∃ commit ∈ commits, commit.id = id := by
  rw [Contains, prepared.mem_commit_iff, ← or_assoc]
  constructor
  · rintro (contains | ⟨commit, isSent, rfl⟩)
    · exact .inl contains
    · exact .inr ⟨commit, (prepared.mem_sent.mp isSent).1, rfl⟩
  · rintro (contains | ⟨commit, inCommits, rfl⟩)
    · exact .inl contains
    · by_cases contains : db.Contains commit.id
      · exact .inl contains
      · exact .inr ⟨commit, prepared.mem_sent.mpr ⟨inCommits, contains⟩, rfl⟩

theorem lookup_stored {id : CommitId} (contains : db.Contains id) :
    (db.writeAll batch).lookup (.commit id) = db.lookup (.commit id) := by
  rw [prepared.lookup_commit]
  refine lookup_writeAll_of_ne fun write member same => ?_
  obtain ⟨commit, isSent, rfl⟩ := List.mem_map.mp member
  cases same
  exact (prepared.mem_sent.mp isSent).2 contains

theorem lookup_new (inCommits : commit ∈ commits) (absent : ¬db.Contains commit.id) :
    ∃ stored ∈ commits, stored.id = commit.id ∧
      (db.writeAll batch).lookup (.commit commit.id) = some stored.storageBytes := by
  have written : ∃ value, Write.put (.commit commit.id) value ∈ sent.map commitRow ∧
      (db.writeAll (sent.map commitRow)).lookup (.commit commit.id) = some value :=
    exists_put_of_puts
      (fun write member _ => by
        obtain ⟨commit, -, rfl⟩ := List.mem_map.mp member
        rfl)
      ⟨commitRow commit, List.mem_map_of_mem (prepared.mem_sent.mpr ⟨inCommits, absent⟩), rfl⟩
  obtain ⟨value, isPut, found⟩ := written
  obtain ⟨stored, isSent, same⟩ := List.mem_map.mp isPut
  obtain ⟨sameRow, sameValue⟩ := Write.put.inj same
  refine ⟨stored, (prepared.mem_sent.mp isSent).1, Row.commit.inj sameRow, ?_⟩
  rw [prepared.lookup_commit, found]
  exact congrArg some (eq_of_heq sameValue).symm

end Prepared

end PageDb

namespace PageWorld

/-- `SynchronousAddCommits` before it executes its batch. -/
def beforeExecute (fuel : Nat) (commits : List (Commit formats)) (source : ChangeSource)
    (newObjects : List ObjectIdentifier) :
    PageRoutine formats (List Write × List (Commit formats)) := do
  returnOnError acquireLock
  prepareCommits fuel commits source newObjects

theorem call_withLock (routine : PageRoutine formats α) (world : PageWorld formats) :
    world.call (withLock routine) = world.call (do returnOnError acquireLock; routine) := by
  rw [withLock, call, call, Coroutine.outcome_bind, Coroutine.outcome_bind]
  rcases Coroutine.outcome handle (returnOnError acquireLock) world with ⟨fault | -, locked⟩
  · rfl
  · simp only [Coroutine.outcome_bind, Coroutine.outcome_lift]
    change _ = Coroutine.run handle routine.run locked
    rcases Coroutine.run handle routine.run locked with ⟨fault | result, next⟩ <;> rfl

/-- The call is decided by what it prepares and by the execution of the batch. -/
theorem call_synchronousAddCommits (fuel : Nat) (commits : List (Commit formats))
    (source : ChangeSource) (newObjects : List ObjectIdentifier) (world : PageWorld formats) :
    world.call (synchronousAddCommits fuel commits source newObjects) =
      match world.call (beforeExecute fuel commits source newObjects) with
      | (.error fault, next) => (.error fault, next)
      | (.ok (batch, sent), next) =>
        let executed := handle (.execute batch) next
        (executed.1.mapError .status, (handle (.notifyWatchers source sent) executed.2).2) := by
  rw [synchronousAddCommits, call_withLock, addCommitsLocked, ← bind_assoc]
  change world.call (beforeExecute fuel commits source newObjects >>= _) = _
  rw [call, call, Coroutine.outcome_bind]
  rcases Coroutine.outcome handle (beforeExecute fuel commits source newObjects) world with
    ⟨fault | ⟨batch, sent⟩, next⟩
  · rfl
  · simp only [Coroutine.outcome_bind, Coroutine.outcome_lift]
    exact call_returnOnError _ _

theorem computes_beforeExecute (db : PageDb) (fuel : Nat) (commits : List (Commit formats))
    (source : ChangeSource) (newObjects : List ObjectIdentifier) :
    Computes db (beforeExecute fuel commits source newObjects)
      (db.prepareCommits fuel commits source newObjects) :=
  (Computes.returnOnError (.ok ()) (.perform trivial) fun _ _ => rfl).bind
    (computes_prepareCommits db ..) fun _ => (computes_prepareCommits db ..).readOnly

variable {fuel : Nat} {newObjects : List ObjectIdentifier} {source : ChangeSource}

theorem beforeExecute_sound {world next : PageWorld formats}
    {result : Except Fault (List Write × List (Commit formats))}
    (called : world.call (beforeExecute fuel commits source newObjects) = (result, next)) :
    Untouched world next ∧ ∀ prepared, result = .ok prepared →
        world.db.prepareCommits fuel commits source newObjects = .ok prepared := by
  have computes := computes_beforeExecute world.db fuel commits source newObjects
  have untouched := computes.readOnly.untouched world
  rw [called] at untouched
  refine ⟨untouched, fun prepared isOk => ?_⟩
  exact computes.sound world rfl prepared (by rw [called, isOk])

variable {world : PageWorld formats}

section

variable (noFailures : world.failures = [])
include noFailures

variable (fuel : Nat)

theorem call_synchronousAddCommits_exact (commits : List (Commit formats)) (source : ChangeSource)
    (newObjects : List ObjectIdentifier) :
    world.call (synchronousAddCommits fuel commits source newObjects) =
      match world.db.prepareCommits fuel commits source newObjects with
      | .error fault => (.error fault, world)
      | .ok (batch, sent) => (.ok (), { world with
          db := world.db.writeAll batch
          notified := world.notified ++
            world.watchers.map fun watcher => ⟨watcher, source, sent⟩ }) := by
  have prepares := (computes_beforeExecute world.db fuel commits source newObjects).exact
    world rfl noFailures
  rw [call_synchronousAddCommits, prepares]
  rcases world.db.prepareCommits fuel commits source newObjects with fault | ⟨batch, sent⟩
  · rfl
  · simp only [handle, access, noFailures]
    rfl

theorem result_of_orderable (source : ChangeSource) (newObjects : List ObjectIdentifier)
    (orderable : world.db.Orderable commits) :
    (world.call (synchronousAddCommits fuel commits source newObjects)).1 =
      (fun _ => ()) <$> world.db.marks formats fuel newObjects := by
  obtain ⟨after, -, -, prepares⟩ := world.db.prepareCommits_eq fuel commits source newObjects
  rw [if_pos ((orderable_iff_turns world.db commits).mp orderable)] at prepares
  rw [call_synchronousAddCommits_exact noFailures, prepares]
  cases world.db.marks formats fuel newObjects <;> rfl

theorem call_of_not_orderable (source : ChangeSource) (newObjects : List ObjectIdentifier)
    (notOrderable : ¬world.db.Orderable commits) :
    world.call (synchronousAddCommits fuel commits source newObjects) =
      (.error (.status .illegalState), world) := by
  obtain ⟨after, -, -, prepares⟩ := world.db.prepareCommits_eq fuel commits source newObjects
  rw [if_neg (mt (orderable_iff_turns world.db commits).mpr notOrderable)] at prepares
  rw [call_synchronousAddCommits_exact noFailures, prepares]

end

theorem executed_of_ok
    (succeeds : (world.call (synchronousAddCommits fuel commits source newObjects)).1 = .ok ()) :
    ∃ batch sent, world.db.prepareCommits fuel commits source newObjects = .ok (batch, sent) ∧
      (world.call (synchronousAddCommits fuel commits source newObjects)).2.db =
        world.db.writeAll batch := by
  rw [call_synchronousAddCommits] at succeeds ⊢
  rcases prepares : world.call (beforeExecute fuel commits source newObjects) with
    ⟨fault | ⟨batch, sent⟩, next⟩
  all_goals
    obtain ⟨untouched, sound⟩ := beforeExecute_sound prepares
    rw [prepares] at succeeds
  · cases succeeds
  · refine ⟨batch, sent, sound _ rfl, ?_⟩
    simp only [handle, access] at succeeds ⊢
    rcases failures : next.failures with - | ⟨- | failure, rest⟩ <;> rw [failures] at succeeds
    · simp [untouched.db]
    · simp [untouched.db]
    · cases succeeds

theorem unchanged_of_error (noFailures : world.failures = [])
    (fails : (world.call (synchronousAddCommits fuel commits source newObjects)).1 ≠ .ok ()) :
    (world.call (synchronousAddCommits fuel commits source newObjects)).2 = world := by
  rw [call_synchronousAddCommits_exact noFailures] at fails ⊢
  rcases prepares : world.db.prepareCommits fuel commits source newObjects with
    fault | ⟨batch, sent⟩
  · rfl
  · exact absurd (by rw [prepares]) fails

theorem contains_of_ok
    (succeeds : (world.call (synchronousAddCommits fuel commits source newObjects)).1 = .ok ())
    (id : CommitId) :
    (world.call (synchronousAddCommits fuel commits source newObjects)).2.db.Contains id ↔
      world.db.Contains id ∨ ∃ commit ∈ commits, commit.id = id := by
  obtain ⟨batch, sent, prepares, executed⟩ := executed_of_ok succeeds
  rw [executed, (prepareCommits_prepared prepares).contains_iff]

theorem synchronousAddCommits_perm (noFailures : world.failures = []) (fuel : Nat) (source : ChangeSource)
    (newObjects : List ObjectIdentifier) (perm : permuted.Perm commits) :
    let called := world.call (synchronousAddCommits fuel commits source newObjects)
    let other := world.call (synchronousAddCommits fuel permuted source newObjects)
    other.1 = called.1 ∧ ∀ id, other.2.db.Contains id ↔ called.2.db.Contains id := by
  intro called other
  have sameResult : other.1 = called.1 := by
    by_cases orderable : world.db.Orderable commits
    · exact (result_of_orderable noFailures fuel source newObjects (orderable.perm perm)).trans
        (result_of_orderable noFailures fuel source newObjects orderable).symm
    · have notOther : ¬world.db.Orderable permuted := fun other =>
        orderable (other.perm perm.symm)
      simp [called, other, call_of_not_orderable noFailures fuel source newObjects orderable,
          call_of_not_orderable noFailures fuel source newObjects notOther]
  refine ⟨sameResult, fun id => ?_⟩
  by_cases succeeds : called.1 = .ok ()
  · rw [contains_of_ok (sameResult.trans succeeds), contains_of_ok succeeds]
    simp only [perm.mem_iff]
  · rw [unchanged_of_error noFailures (sameResult ▸ succeeds), unchanged_of_error noFailures succeeds]

/-- `SynchronousAddCommits` succeeds when the commits that are not stored can be put in an
order in which parents come first, and marks all pieces.  The order of the list does not
matter. -/
theorem synchronousAddCommits_succeeds_iff {world : PageWorld formats}
    (noFailures : world.failures = []) (fuel : Nat) (commits : List (Commit formats))
    (source : ChangeSource) (newObjects : List ObjectIdentifier) :
    let called := world.call (synchronousAddCommits fuel commits source newObjects)
    (called.1 = .ok () ↔
        world.db.Orderable commits ∧ ∃ writes, world.db.marks formats fuel newObjects = .ok writes) ∧
      (¬world.db.Orderable commits → called.1 = .error (.status .illegalState) ∧ called.2 = world) ∧
      (called.1 = .ok () → (∀ id, called.2.db.Contains id ↔
          world.db.Contains id ∨ ∃ commit ∈ commits, commit.id = id) ∧ (∀ id, world.db.Contains id →
          called.2.db.lookup (.commit id) = world.db.lookup (.commit id)) ∧
        ∀ commit ∈ commits, ¬world.db.Contains commit.id → ∃ stored ∈ commits,
          stored.id = commit.id ∧
            called.2.db.lookup (.commit commit.id) = some stored.storageBytes) ∧
      ∀ permuted : List (Commit formats), permuted.Perm commits →
        (world.call (synchronousAddCommits fuel permuted source newObjects)).1 = called.1 ∧
          ∀ id, (world.call (synchronousAddCommits fuel permuted source newObjects)).2.db.Contains
            id ↔ called.2.db.Contains id := by
  intro called
  refine ⟨?_, ?_, fun succeeds => ⟨contains_of_ok succeeds, ?_, ?_⟩, fun permuted perm =>
    synchronousAddCommits_perm noFailures fuel source newObjects perm⟩
  · by_cases orderable : world.db.Orderable commits
    · have result := result_of_orderable noFailures fuel source newObjects orderable
      rw [result]
      cases world.db.marks formats fuel newObjects <;> simp [orderable]
    · simp [called, call_of_not_orderable noFailures fuel source newObjects orderable, orderable]
  · intro notOrderable
    simp [called, call_of_not_orderable noFailures fuel source newObjects notOrderable]
  · obtain ⟨batch, sent, prepares, executed⟩ := executed_of_ok succeeds
    intro id stored
    rw [executed, (prepareCommits_prepared prepares).lookup_stored stored]
  · obtain ⟨batch, sent, prepares, executed⟩ := executed_of_ok succeeds
    intro commit inCommits absent
    rw [executed]
    exact (prepareCommits_prepared prepares).lookup_new inCommits absent

/-- The last commit of the list is the parent of the one before, so that the list is gone through
three times. -/
theorem synchronousAddCommits_succeeds_first : let commits := [sampleCommit 3 [2] (by decide),
      sampleCommit 2 [1] (by decide), sampleCommit 1 [0] (by decide)]
    (emptyPage sampleFormats).failures = [] ∧
      ((emptyPage sampleFormats).call (synchronousAddCommits 0 commits .sync [])).1 = .ok () := by
  intro commits
  have orderable : (emptyPage sampleFormats).db.Orderable commits :=
    (orderable_iff_turns _ _).mpr rfl
  exact ⟨rfl, (synchronousAddCommits_succeeds_iff rfl 0 commits .sync []).1.mpr
    ⟨orderable, [], rfl⟩⟩

/-- The parent of the commit is in the list, as it is the commit itself, and the call fails. -/
theorem synchronousAddCommits_cycle : let commits := [sampleCommit 1 [1] (by decide)]
    let called := (emptyPage sampleFormats).call (synchronousAddCommits 0 commits .sync [])
    ¬(called.1 = .ok () ↔ ∀ commit ∈ commits, ∀ parentId ∈ commit.parentIds,
      (emptyPage sampleFormats).db.Contains parentId ∨ ∃ other ∈ commits, other.id = parentId) := by
  intro commits called succeedsIff
  have failed : called.1 = .error (.status .illegalState) := rfl
  rw [failed] at succeedsIff
  exact absurd (succeedsIff.mpr (by decide)) (by simp)

end PageWorld

end Peridot
