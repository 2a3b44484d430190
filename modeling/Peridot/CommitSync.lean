import Peridot.AddCommits
import Peridot.Interleaving

/-!
# Synced commits stay synced

`AddCommitFromLocal`, `AddCommitsFromSync` and `MarkCommitSynced` run interleaved, at each
operation, on one database.  Only a coroutine that holds the lock of the page adds commits,
so what it has not found stays away until it executes its batch.
-/

namespace Peridot

open PageDb

variable {formats : StorageFormats} {α : Type}

structure PageShared where
  db : PageDb
  owner : Option Nat

def DbReplies {α : Type} (reply expected : Except Status α) : Prop :=
  reply = expected ∨ reply = .error .internalIoError ∨ reply = .error .interrupted

def pageAction : Action PageShared (PageOp formats) PageOp.Reply
  | id, .acquireLock, before, reply, after =>
    (before.owner = none ∧ reply = .ok () ∧ after = { before with owner := some id }) ∨
      (reply = .error .interrupted ∧ after = before)
  | _, .releaseLock, before, _, after => after = { before with owner := none }
  | _, .startBatch, before, reply, after => DbReplies reply (.ok ()) ∧ after = before
  | _, .get row, before, reply, after => DbReplies reply (before.db.read row) ∧ after = before
  | _, .hasKey row, before, reply, after =>
    DbReplies reply (.ok (decide (row ∈ before.db))) ∧ after = before
  | _, .updateBatch, before, reply, after => DbReplies reply (.ok ()) ∧ after = before
  | _, .execute writes, before, reply, after =>
    (reply = .ok () ∧ after = { before with db := before.db.writeAll writes }) ∨
      ((reply = .error .internalIoError ∨ reply = .error .interrupted) ∧ after = before)
  | _, .getObjectsFromSync _, before, _, after => after = before
  | _, .notifyWatchers _ _, before, _, after => after = before

inductive PageCall (formats : StorageFormats) where
  | addCommitFromLocal (commit : Commit formats) (newObjects : List ObjectIdentifier)
  | addCommitsFromSync (idsAndBytes : List CommitIdAndBytes)
  | markCommitSynced (commitId : CommitId)

def PageCall.routine (fuel : Nat) : PageCall formats → PageRoutine formats Unit
  | addCommitFromLocal commit newObjects => synchronousAddCommitFromLocal fuel commit newObjects
  | addCommitsFromSync idsAndBytes => synchronousAddCommitsFromSync fuel idsAndBytes
  | markCommitSynced commitId => synchronousMarkCommitSynced commitId

/-- The commits that are synced when the call succeeds: those that it receives, and those
that it marks if they are stored. -/
def PageCall.syncs (db : PageDb) : PageCall formats → List CommitId
  | addCommitFromLocal _ _ => []
  | addCommitsFromSync idsAndBytes => idsAndBytes.map CommitIdAndBytes.id
  | markCommitSynced commitId => if db.Contains commitId then [commitId] else []

/-- The commits that `GetUnsyncedCommits` returns. -/
def PageDb.getUnsyncedCommitIds (db : PageDb) : List CommitId :=
  db.keys.filterMap fun
    | .unsyncedCommit id => some id
    | _ => none

theorem PageDb.mem_getUnsyncedCommitIds {db : PageDb} {id : CommitId} :
    id ∈ db.getUnsyncedCommitIds ↔ .unsyncedCommit id ∈ db := by
  rw [getUnsyncedCommitIds, List.mem_filterMap]
  constructor
  · rintro ⟨row, inDb, isUnsynced⟩
    cases row with
    | unsyncedCommit other =>
      cases isUnsynced
      exact inDb
    | _ => cases isUnsynced
  · exact fun inDb => ⟨_, inDb, rfl⟩

/-- The calls that are under way, and the commits that have been synced. -/
structure PageRun (formats : StorageFormats) where
  pool : Pool PageShared (PageOp formats) PageOp.Reply (List CommitId) (Except Fault Unit)
  synced : List CommitId

namespace PageRun

/-- One step: a call starts, makes an operation or ends, or other coroutines write rows that
are not those of commits. -/
inductive Step : PageRun formats → PageRun formats → Prop where
  | start {run : PageRun formats} (id fuel : Nat) (call : PageCall formats)
      (isFree : run.pool.tasks id = none) :
      Step run ⟨⟨run.pool.shared, Function.update run.pool.tasks id
        (some ⟨call.syncs run.pool.shared.db, (call.routine fuel).run⟩)⟩, run.synced⟩
  | advance {run : PageRun formats}
      {next : Pool PageShared (PageOp formats) PageOp.Reply (List CommitId) (Except Fault Unit)}
      (advances : run.pool.Advances pageAction next) : Step run ⟨next, run.synced⟩
  | succeed {run : PageRun formats} {id : Nat} {syncs : List CommitId}
      (isDone : run.pool.tasks id = some ⟨syncs, .done (.ok ())⟩) :
      Step run ⟨⟨run.pool.shared, Function.update run.pool.tasks id none⟩, syncs ++ run.synced⟩
  | fail {run : PageRun formats} {id : Nat} {syncs : List CommitId} {fault : Fault}
      (isDone : run.pool.tasks id = some ⟨syncs, .done (.error fault)⟩) :
      Step run ⟨⟨run.pool.shared, Function.update run.pool.tasks id none⟩, run.synced⟩
  | write {run : PageRun formats} (writes : List Write)
      (others : ∀ write ∈ writes, ∀ id, write.row ≠ .commit id ∧ write.row ≠ .unsyncedCommit id) :
      Step run ⟨⟨{ run.pool.shared with db := run.pool.shared.db.writeAll writes },
        run.pool.tasks⟩, run.synced⟩

/-- A page on which no call has started, with a database in which all unsynced commits are
stored. -/
structure Start (run : PageRun formats) : Prop where
  noTasks : ∀ id, run.pool.tasks id = none
  noneSynced : run.synced = []
  unlocked : run.pool.shared.owner = none
  unsynced : ∀ id, .unsyncedCommit id ∈ run.pool.shared.db → .commit id ∈ run.pool.shared.db

end PageRun

structure CommitKnowledge where
  locked : Bool
  absent : CommitId → Prop
  stored : CommitId → Prop
  settled : CommitId → Prop

namespace CommitKnowledge

def Settled (db : PageDb) (id : CommitId) : Prop :=
  db.Contains id ∧ .unsyncedCommit id ∉ db

structure Knows (shared : PageShared) (owner : Nat) (known : CommitKnowledge) : Prop where
  locked : known.locked = true → shared.owner = some owner
  absent : ∀ id, known.absent id → known.locked = true ∧ ¬shared.db.Contains id
  stored : ∀ id, known.stored id → shared.db.Contains id
  settled : ∀ id, known.settled id → Settled shared.db id

/-- A batch adds commits only under the lock, removes none, and marks as unsynced only
commits that it adds and that are known to be absent. -/
structure Permitted (known : CommitKnowledge) (writes : List Write) : Prop where
  commits : ∀ write ∈ writes, ∀ id, write.row = .commit id →
    write.isPut = true ∧ known.locked = true
  unsynced : ∀ write ∈ writes, ∀ id, write.row = .unsyncedCommit id → write.isPut = true →
    known.absent id ∧ ∃ added ∈ writes, added.row = .commit id

def Settles (known : CommitKnowledge) (writes : List Write) (id : CommitId) : Prop :=
  (∀ write ∈ writes, write.row = .unsyncedCommit id → write.isPut = false) ∧
    ((known.stored id ∧ ∃ write ∈ writes, write.row = .unsyncedCommit id) ∨
      known.absent id ∧ ∃ write ∈ writes, write.row = .commit id)

def learn (known : CommitKnowledge) : (op : PageOp formats) → op.Reply → CommitKnowledge
  | .acquireLock, .ok _ => { known with locked := true }
  | .releaseLock, _ => { known with locked := false, absent := fun _ => False }
  | .get (.commit id), .ok _ =>
    { known with stored := fun other => other = id ∨ known.stored other }
  | .get (.commit id), .error .ok =>
    { known with stored := fun other => other = id ∨ known.stored other }
  | .get (.commit id), .error .notFound =>
    { known with absent := fun other =>
        (known.locked = true ∧ other = id ∧ id ≠ kFirstPageCommitId) ∨ known.absent other }
  | .execute writes, .ok _ =>
    { known with
      absent := fun _ => False
      settled := fun id => known.Settles writes id ∨ known.settled id }
  | _, _ => known

def permits (known : CommitKnowledge) : PageOp formats → Prop
  | .acquireLock => known.locked = false
  | .releaseLock => known.locked = true
  | .execute writes => known.Permitted writes
  | _ => True

def UnsyncedStored (shared : PageShared) : Prop :=
  ∀ id, .unsyncedCommit id ∈ shared.db → .commit id ∈ shared.db

variable {known : CommitKnowledge} {writes : List Write} {db : PageDb} {id : CommitId}

namespace Permitted

section

variable (permitted : known.Permitted writes)
include permitted

theorem mem_commit_iff :
    .commit id ∈ db.writeAll writes ↔ .commit id ∈ db ∨ ∃ write ∈ writes, write.row = .commit id :=
  mem_writeAll_of_puts fun write member isRow => (permitted.commits write member id isRow).1

theorem contains (contains : db.Contains id) : (db.writeAll writes).Contains id :=
  contains.imp_right fun stored => permitted.mem_commit_iff.mpr (.inl stored)

theorem contains_unlocked (unlocked : known.locked = false)
    (contains : (db.writeAll writes).Contains id) : db.Contains id := by
  refine contains.imp_right fun stored => ?_
  rcases permitted.mem_commit_iff.mp stored with stored | ⟨write, member, isRow⟩
  · exact stored
  · rw [(permitted.commits write member id isRow).2] at unlocked
    cases unlocked

end

variable {shared : PageShared} (permitted : known.Permitted writes) {owner : Nat}
include permitted

theorem settled (knows : Knows shared owner known) (settled : Settled shared.db id) :
    Settled (shared.db.writeAll writes) id := by
  refine ⟨permitted.contains settled.1, fun unsynced => ?_⟩
  rcases mem_of_mem_writeAll unsynced with unsynced | ⟨write, member, isRow, isPut⟩
  · exact settled.2 unsynced
  · have absent := (permitted.unsynced write member id isRow isPut).1
    exact (knows.absent id absent).2 settled.1

theorem unsyncedStored (unsyncedStored : UnsyncedStored shared) :
    UnsyncedStored { shared with db := shared.db.writeAll writes } := by
  intro id unsynced
  refine permitted.mem_commit_iff.mpr ?_
  rcases mem_of_mem_writeAll unsynced with unsynced | ⟨write, member, isRow, isPut⟩
  · exact .inl (unsyncedStored id unsynced)
  · exact .inr (permitted.unsynced write member id isRow isPut).2

theorem settles (unsyncedStored : UnsyncedStored shared) (knows : Knows shared owner known)
    (settles : known.Settles writes id) : Settled (shared.db.writeAll writes) id := by
  obtain ⟨deletes, cases⟩ := settles
  have unsynced : .unsyncedCommit id ∈ shared.db.writeAll writes ↔
      .unsyncedCommit id ∈ shared.db ∧ ∀ write ∈ writes, write.row ≠ .unsyncedCommit id :=
    mem_writeAll_of_deletes deletes
  rcases cases with ⟨stored, write, member, isRow⟩ | ⟨absent, write, member, isRow⟩
  · refine ⟨permitted.contains (knows.stored id stored), fun isUnsynced => ?_⟩
    exact (unsynced.mp isUnsynced).2 write member isRow
  · refine ⟨.inr (permitted.mem_commit_iff.mpr (.inr ⟨write, member, isRow⟩)), fun isUnsynced => ?_⟩
    have stored := unsyncedStored id (unsynced.mp isUnsynced).1
    exact (knows.absent id absent).2 (.inr stored)

end Permitted

end CommitKnowledge

def commitDiscipline : Discipline (PageOp formats) PageOp.Reply CommitKnowledge where
  permits := CommitKnowledge.permits
  learn := CommitKnowledge.learn

namespace CommitKnowledge

variable {owner : Nat} {op : PageOp formats} {before after : PageShared} {known : CommitKnowledge}
    {reply : op.Reply}

theorem respects_keeps (unsyncedStored : UnsyncedStored before) (permitted : known.permits op)
    (acts : pageAction owner op before reply after) : UnsyncedStored after := by
  cases op with
  | acquireLock => rcases acts with ⟨-, -, rfl⟩ | ⟨-, rfl⟩ <;> exact unsyncedStored
  | releaseLock | getObjectsFromSync rootIdentifier | notifyWatchers source commits =>
    exact acts ▸ unsyncedStored
  | execute writes =>
    rcases acts with ⟨-, rfl⟩ | ⟨-, rfl⟩
    · exact permitted.unsyncedStored unsyncedStored
    · exact unsyncedStored
  | startBatch | get row | hasKey row | updateBatch => exact acts.2 ▸ unsyncedStored

theorem Knows.get {shared : PageShared} {row : Row}
    {reply : Except Status row.Value} (knows : Knows shared owner known)
    (replies : DbReplies reply (shared.db.read row)) :
    Knows shared owner (known.learn (.get row : PageOp formats) reply) := by
  cases row with
  | commit id =>
    have isReply : reply = shared.db.read (.commit id) ∨
        known.learn (.get (.commit id) : PageOp formats) reply = known :=
      replies.imp_right fun failed => by rcases failed with rfl | rfl <;> rfl
    rcases isReply with rfl | same
    · cases found : shared.db.lookup (.commit id) with
      | none =>
        have isReply : shared.db.read (.commit id) = .error .notFound := by rw [PageDb.read, found]
        rw [isReply]
        refine ⟨knows.locked, fun other absent => ?_, knows.stored, knows.settled⟩
        rcases absent with ⟨locked, rfl, notFirst⟩ | absent
        · exact ⟨locked, not_or.mpr ⟨notFirst, fun stored => mem_iff_lookup.mp stored found⟩⟩
        · exact knows.absent other absent
      | some storageBytes =>
        have isReply : shared.db.read (.commit id) = .ok storageBytes := by rw [PageDb.read, found]
        rw [isReply]
        refine ⟨knows.locked, knows.absent, fun other stored => ?_, knows.settled⟩
        rcases stored with rfl | stored
        · exact .inr (mem_iff_lookup.mpr (by simp [found]))
        · exact knows.stored other stored
    · rw [same]
      exact knows
  | _ => exact knows

theorem Knows.learns (unsyncedStored : UnsyncedStored before) (knows : Knows before owner known)
    (permitted : known.permits op) (acts : pageAction owner op before reply after) :
    Knows after owner (known.learn op reply) := by
  cases op with
  | acquireLock =>
    rcases acts with ⟨-, rfl, rfl⟩ | ⟨rfl, rfl⟩
    · refine ⟨fun _ => rfl, fun id absent => ?_, knows.stored, knows.settled⟩
      exact ⟨rfl, (knows.absent id absent).2⟩
    · exact knows
  | releaseLock =>
    subst acts
    exact ⟨(nomatch ·), fun _ absent => absent.elim, knows.stored, knows.settled⟩
  | execute writes =>
    rcases acts with ⟨rfl, rfl⟩ | ⟨rfl | rfl, rfl⟩
    · refine ⟨knows.locked, fun id absent => absent.elim, fun id stored => ?_, fun id settled => ?_⟩
      · exact permitted.contains (knows.stored id stored)
      · rcases settled with settles | settled
        · exact permitted.settles unsyncedStored knows settles
        · exact permitted.settled knows (knows.settled id settled)
    · exact knows
    · exact knows
  | get row =>
    obtain ⟨replies, rfl⟩ := acts
    exact knows.get replies
  | getObjectsFromSync rootIdentifier => exact acts ▸ knows
  | notifyWatchers source commits => exact acts ▸ knows
  | startBatch | hasKey row | updateBatch => exact acts.2 ▸ knows

theorem Knows.spares {other : Nat} {others : CommitKnowledge}
    (knows : Knows before owner known) (permitted : known.permits op)
    (acts : pageAction owner op before reply after) (different : other ≠ owner)
    (otherKnows : Knows before other others) : Knows after other others := by
  cases op with
  | acquireLock =>
    rcases acts with ⟨free, rfl, rfl⟩ | ⟨rfl, rfl⟩
    · have unlocked : ¬others.locked = true := fun locked => by
        rw [otherKnows.locked locked] at free
        cases free
      exact ⟨fun locked => absurd locked unlocked, otherKnows.absent, otherKnows.stored,
        otherKnows.settled⟩
    · exact otherKnows
  | releaseLock =>
    have isOwner := knows.locked permitted
    have unlocked : ¬others.locked = true := fun locked => by
      rw [otherKnows.locked locked] at isOwner
      exact different (Option.some.inj isOwner)
    subst acts
    exact ⟨fun locked => absurd locked unlocked, otherKnows.absent, otherKnows.stored,
      otherKnows.settled⟩
  | execute writes =>
    rcases acts with ⟨rfl, rfl⟩ | ⟨rfl | rfl, rfl⟩
    · refine ⟨otherKnows.locked, fun id absent => ?_, fun id stored => ?_, fun id settled => ?_⟩
      · obtain ⟨locked, notStored⟩ := otherKnows.absent id absent
        have unlocked : known.locked = false := by
          by_contra notUnlocked
          have isOwner := knows.locked (Bool.not_eq_false _ ▸ notUnlocked)
          rw [otherKnows.locked locked] at isOwner
          exact different (Option.some.inj isOwner)
        exact ⟨locked, fun contains => notStored (permitted.contains_unlocked unlocked contains)⟩
      · exact permitted.contains (otherKnows.stored id stored)
      · exact permitted.settled knows (otherKnows.settled id settled)
    · exact otherKnows
    · exact otherKnows
  | getObjectsFromSync rootIdentifier | notifyWatchers source commits => exact acts ▸ otherKnows
  | startBatch | get row | hasKey row | updateBatch => exact acts.2 ▸ otherKnows

theorem respects :
    commitDiscipline.Respects (pageAction : Action PageShared (PageOp formats) PageOp.Reply)
      UnsyncedStored Knows where
  keeps unsyncedStored _ permitted acts := respects_keeps unsyncedStored permitted acts
  learns unsyncedStored knows permitted acts := knows.learns unsyncedStored permitted acts
  spares _ knows permitted acts different otherKnows :=
    knows.spares permitted acts different otherKnows

end CommitKnowledge

end Peridot
