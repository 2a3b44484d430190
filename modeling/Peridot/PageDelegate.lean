import Peridot.BranchTracker
import Peridot.StepRun

/-!
# A page connection

`PageDelegate` runs the operations of a client one after the other.  Each of them waits for
the storage; commits, differences and acknowledgements arrive at any time in between.

An operation is over when its callback is called, and the next one then starts at once.  On
some paths the code stops the transaction only after this callback, so `stopping` counts the
calls of `StopTransaction(nullptr)` that are still to come.  An assertion that fails ends the
program: there is no next state then.
-/

namespace Peridot

open Option

/-- The operations that go through the `OperationSerializer`; `close` is what is run when the
client is gone. -/
inductive PageOperation where
  | getSnapshot (watcher : Option Key)
  | put
  | delete
  | startTransaction
  | commit
  | rollback
  | close
deriving DecidableEq

inductive OperationStage where
  /-- `GetCommit` for a snapshot. -/
  | getCommit (commitId : CommitId) (watcher : Option Key)
  /-- The value of a `Put`, or of the reference of a `PutReference`. -/
  | getObject
  /-- A change of the journal of an explicit transaction. -/
  | writeExplicit
  /-- `StartCommit`, `Journal::Put` or `Journal::Delete`, and `CommitJournal` of an implicit
  transaction. -/
  | startImplicit (base : CommitId)
  | writeImplicit (base : CommitId)
  | commitImplicit (base : CommitId)
  /-- `StartCommit` of an explicit transaction. -/
  | startExplicit (base : CommitId)
  /-- The watchers are not drained yet. -/
  | draining
  | commitExplicit (base : CommitId)
  | rollbackExplicit
deriving DecidableEq

/-- An answer of the storage; `committed` is the answer of `CommitJournal`. -/
inductive StorageAnswer where
  | ok
  | failed
  | committed (commit : CommitId)
deriving DecidableEq

inductive ConnectionEvent where
  | call (operation : PageOperation)
  | answer (answer : StorageAnswer)
  | newCommits (commits : List CommitId)
  | pageChange (watcher diff : Nat) (answer : Except Status (List EntryChange))
  | acknowledge (watcher call : Nat)
  | disconnect (watcher : Nat)
  /-- The rest of a callback: `StopTransaction(nullptr)`. -/
  | stop

/-- `PageDelegate` with its `BranchTracker`. -/
structure PageConnection where
  tracker : BranchTracker
  /-- `journal_parent_commit_`, if there is a `journal_`. -/
  journal : Option CommitId
  stage : Option OperationStage
  queue : List PageOperation
  stopping : Nat
  /-- The client is gone. -/
  closed : Bool
  /-- History: the heads after each `OnNewCommits` since a transaction read its base. -/
  passed : List CommitId

namespace PageConnection

/-- `Init`, with the first head of the page. -/
def new (commitId : CommitId) : PageConnection :=
  ⟨.new commitId, none, none, [], 0, false, []⟩

def getCurrentCommitId (connection : PageConnection) : CommitId :=
  match connection.journal with
  | none => connection.tracker.currentCommitId
  | some base => base

/-- `RunInTransaction`, up to its first call of the storage. -/
def runInTransaction (connection : PageConnection) : Option PageConnection :=
  match connection.journal with
  | some _ => some { connection with stage := some .writeExplicit }
  | none => (connection.tracker.startTransaction .nothing).map fun tracker =>
    { connection with
      tracker
      stage := some (.startImplicit connection.tracker.currentCommitId)
      passed := [] }

/-- `UpdateOperationsAndCallNext`: the operations are started until one has to wait. -/
def startNext : List PageOperation → PageConnection → Option PageConnection
  | [], connection => some { connection with stage := none, queue := [] }
  | .getSnapshot watcher :: queue, connection => some { connection with
      stage := some (.getCommit connection.getCurrentCommitId watcher)
      queue }
  | .put :: queue, connection => some { connection with stage := some .getObject, queue }
  | .delete :: queue, connection => { connection with queue }.runInTransaction
  | .startTransaction :: queue, connection =>
    match connection.journal with
    | some _ => startNext queue connection
    | none => some { connection with
        stage := some (.startExplicit connection.tracker.currentCommitId)
        queue
        passed := [] }
  | .commit :: queue, connection =>
    match connection.journal with
    | none => startNext queue connection
    | some base => some { connection with
        journal := none
        stage := some (.commitExplicit base)
        queue }
  | .rollback :: queue, connection =>
    match connection.journal with
    | none => startNext queue connection
    | some _ => some { connection with
        journal := none
        stage := some .rollbackExplicit
        queue }
  | .close :: queue, connection => (connection.tracker.stopTransaction none).bind fun tracker =>
    startNext queue { connection with tracker }

def finish (connection : PageConnection) : Option PageConnection :=
  startNext connection.queue connection

def finishThenStop (connection : PageConnection) : Option PageConnection :=
  { connection with stopping := connection.stopping + 1 }.finish

def stopThenFinish (connection : PageConnection) (commit : Option CommitId) :
    Option PageConnection :=
  (connection.tracker.stopTransaction commit).bind fun tracker =>
    { connection with tracker }.finish

/-- `CommitJournal` was answered: the commit is new, or the parent if nothing changed. -/
def onCommitted (graph : CommitGraph) (connection : PageConnection) (base : CommitId) :
    StorageAnswer → Option PageConnection
  | .ok => none
  | .failed => connection.stopThenFinish none
  | .committed commit =>
    if commit = base ∨ graph.parents commit = [base] then connection.stopThenFinish (some commit)
    else none

def onAnswer (graph : CommitGraph) (connection : PageConnection) (answer : StorageAnswer) :
    Option PageConnection :=
  match connection.stage, answer with
  | some (.getCommit commitId (some keyPrefix)), .ok => { connection with
      tracker := connection.tracker.registerPageWatcher commitId keyPrefix }.finish
  | some (.getCommit _ none), .ok => connection.finish
  | some (.getCommit _ _), .failed => connection.finish
  | some .getObject, .ok => connection.runInTransaction
  | some .getObject, .failed => connection.finish
  | some .writeExplicit, .ok => connection.finish
  | some .writeExplicit, .failed => connection.finish
  | some (.startImplicit base), .ok => some { connection with stage := some (.writeImplicit base) }
  | some (.startImplicit _), .failed => connection.finishThenStop
  | some (.writeImplicit base), .ok => some { connection with stage := some (.commitImplicit base) }
  | some (.writeImplicit _), .failed => connection.finishThenStop
  | some (.commitImplicit base), answer => connection.onCommitted graph base answer
  | some (.startExplicit base), .ok =>
    (connection.tracker.startTransaction .answer).map fun tracker => { connection with
      tracker
      journal := some base
      stage := some .draining }
  | some (.startExplicit _), .failed => connection.finish
  | some (.commitExplicit base), answer => connection.onCommitted graph base answer
  | some .rollbackExplicit, .ok => connection.finishThenStop
  | some .rollbackExplicit, .failed => connection.finishThenStop
  | _, _ => none

def handle (graph : CommitGraph) (limits : MessageLimits) (connection : PageConnection) :
    ConnectionEvent → Option PageConnection
  | .call operation =>
    if connection.closed then none
    else
      let called := { connection with closed := decide (operation = .close) }
      if connection.stage = none then startNext [operation] called
      else some { called with queue := connection.queue ++ [operation] }
  | .answer answer => connection.onAnswer graph answer
  | .newCommits commits =>
    let tracker := connection.tracker.onNewCommits graph commits
    some { connection with
      tracker
      passed := connection.passed ++ [tracker.currentCommitId] }
  | .pageChange watcher diff answer =>
    (connection.tracker.updateWatcher watcher fun container =>
      container.onPageChange limits graph.timestamp diff answer).map fun tracker =>
        { connection with tracker }
  | .acknowledge watcher call =>
    (connection.tracker.updateWatcher watcher fun container =>
      container.onAcknowledged call).map fun tracker => { connection with tracker }
  | .disconnect watcher => some { connection with tracker := connection.tracker.disconnect watcher }
  | .stop =>
    if connection.stopping = 0 then none
    else (connection.tracker.stopTransaction none).map fun tracker => { connection with
      tracker
      stopping := connection.stopping - 1 }

/-- `StartTransaction` is answered when no watcher has its callback any more. -/
def answerDrained (connection : PageConnection) : Option PageConnection :=
  if connection.stage = some .draining ∧
      ∀ watcher ∈ connection.tracker.watchers, watcher.onDrained ≠ some .answer then
    connection.finish
  else some connection

def step (graph : CommitGraph) (limits : MessageLimits) (connection : PageConnection)
    (event : ConnectionEvent) : Option PageConnection :=
  (connection.handle graph limits event).bind answerDrained

section Cases

variable {graph : CommitGraph} {limits : MessageLimits} {connection next : PageConnection}

/-- What holds after the next operations are started, if it holds for each way to start one
of them.  Only `close` changes the connection and goes on. -/
theorem startNext_rule (Ready Holds : PageConnection → Prop) {queue : List PageOperation}
    (starts : ∀ {connection : PageConnection}, Ready connection → ∀ rest ⊆ queue,
      Holds { connection with stage := none, queue := [] } ∧ (∀ watcher, Holds { connection with
        stage := some (.getCommit connection.getCurrentCommitId watcher), queue := rest }) ∧
      Holds { connection with stage := some .getObject, queue := rest } ∧
      (∀ next, { connection with queue := rest }.runInTransaction = some next → Holds next) ∧
      (connection.journal = none → Holds { connection with
        stage := some (.startExplicit connection.tracker.currentCommitId)
        queue := rest
        passed := [] }) ∧ ∀ base, connection.journal = some base → Holds { connection with
          journal := none, stage := some (.commitExplicit base), queue := rest } ∧
        Holds { connection with
          journal := none, stage := some .rollbackExplicit, queue := rest })
    (closes : .close ∈ queue → ∀ {connection : PageConnection} {tracker : BranchTracker},
      Ready connection → connection.tracker.stopTransaction none = some tracker →
      Ready { connection with tracker })
    (ready : Ready connection) (isNext : startNext queue connection = some next) :
    Holds next := by
  induction queue generalizing connection with
  | nil =>
    cases isNext
    exact (starts ready [] (by simp)).1
  | cons operation queue ih =>
    obtain ⟨-, snapshot, object, transaction, explicit, ends⟩ := starts ready queue (by simp)
    -- The rule for the rest of the queue.
    have goesOn {connection : PageConnection} (ready : Ready connection)
        (isNext : startNext queue connection = some next) : Holds next := by
      refine ih (fun ready rest isRest => starts ready rest ?_) ?_ ready isNext
      · exact List.subset_cons_of_subset operation isRest
      · intro hasClose
        exact closes (List.mem_cons_of_mem operation hasClose)
    cases operation with
    | getSnapshot watcher =>
      cases isNext
      exact snapshot watcher
    | put =>
      cases isNext
      exact object
    | delete => exact transaction next isNext
    | startTransaction =>
      simp only [startNext] at isNext
      cases isJournal : connection.journal with
      | some base => exact goesOn ready (by simpa [isJournal] using isNext)
      | none =>
        simp only [isJournal, some.injEq] at isNext
        subst isNext
        simpa only [isJournal] using explicit isJournal
    | commit =>
      simp only [startNext] at isNext
      cases isJournal : connection.journal with
      | none => exact goesOn ready (by simpa [isJournal] using isNext)
      | some base =>
        simp only [isJournal, some.injEq] at isNext
        subst isNext
        exact (ends base isJournal).1
    | rollback =>
      simp only [startNext] at isNext
      cases isJournal : connection.journal with
      | none => exact goesOn ready (by simpa [isJournal] using isNext)
      | some base =>
        simp only [isJournal, some.injEq] at isNext
        subst isNext
        exact (ends base isJournal).2
    | close =>
      obtain ⟨tracker, isStopped, isNext⟩ := bind_eq_some_iff.mp isNext
      exact goesOn (closes (by simp) ready isStopped) isNext

def Finishes (connection : PageConnection) (answer : StorageAnswer) (next : PageConnection) :
    Prop :=
  connection.finish = some next ∨
    ∃ commitId keyPrefix, answer = .ok ∧
      connection.stage = some (.getCommit commitId (some keyPrefix)) ∧
      { connection with
        tracker := connection.tracker.registerPageWatcher commitId keyPrefix }.finish = some next

theorem onAnswer_cases {answer : StorageAnswer}
    (isNext : connection.onAnswer graph answer = some next) : connection.Finishes answer next ∨
    (connection.stage = some .getObject ∧ connection.runInTransaction = some next) ∨
    (∃ base, connection.stage = some (.startImplicit base) ∧
      next = { connection with stage := some (.writeImplicit base) }) ∨
    (∃ base, connection.stage = some (.writeImplicit base) ∧
      next = { connection with stage := some (.commitImplicit base) }) ∨
    ((connection.stage = some .rollbackExplicit ∨
        ∃ base, connection.stage = some (.startImplicit base) ∨
          connection.stage = some (.writeImplicit base)) ∧ connection.finishThenStop = some next) ∨
    (∃ base, (connection.stage = some (.commitImplicit base) ∨
        connection.stage = some (.commitExplicit base)) ∧
      ((answer = .failed ∧ connection.stopThenFinish none = some next) ∨
        ∃ commit, answer = .committed commit ∧ (commit = base ∨ graph.parents commit = [base]) ∧
          connection.stopThenFinish (some commit) = some next)) ∨
    ∃ base tracker, connection.stage = some (.startExplicit base) ∧ answer = .ok ∧
      connection.tracker.startTransaction .answer = some tracker ∧
      next = { connection with tracker, journal := some base, stage := some .draining } := by
  have committedCases {base : CommitId}
      (isNext : connection.onCommitted graph base answer = some next) :
      (answer = .failed ∧ connection.stopThenFinish none = some next) ∨
        ∃ commit, answer = .committed commit ∧ (commit = base ∨ graph.parents commit = [base]) ∧
          connection.stopThenFinish (some commit) = some next := by
    cases answer with
    | ok => simp [onCommitted] at isNext
    | failed => exact .inl ⟨rfl, isNext⟩
    | committed commit =>
      obtain ⟨isChild, isNext⟩ := ite_none_right_eq_some.mp isNext
      exact .inr ⟨commit, rfl, isChild, isNext⟩
  unfold onAnswer at isNext
  split at isNext
  case h_1 commitId keyPrefix isStage => exact .inl (.inr ⟨_, _, rfl, isStage, isNext⟩)
  case h_2 | h_3 | h_5 | h_6 | h_7 | h_14 => exact .inl (.inl isNext)
  case h_4 isStage => exact .inr (.inl ⟨isStage, isNext⟩)
  case h_8 base isStage => exact .inr (.inr (.inl ⟨base, isStage, (some.inj isNext).symm⟩))
  case h_9 base isStage =>
    exact .inr (.inr (.inr (.inr (.inl ⟨.inr ⟨base, .inl isStage⟩, isNext⟩))))
  case h_10 base isStage => exact .inr (.inr (.inr (.inl ⟨base, isStage, (some.inj isNext).symm⟩)))
  case h_11 base isStage =>
    exact .inr (.inr (.inr (.inr (.inl ⟨.inr ⟨base, .inr isStage⟩, isNext⟩))))
  case h_12 base isStage =>
    exact .inr (.inr (.inr (.inr (.inr (.inl ⟨base, .inl isStage, committedCases isNext⟩)))))
  case h_13 base isStage =>
    obtain ⟨tracker, isStarted, isNext⟩ := map_eq_some_iff.mp isNext
    exact .inr (.inr (.inr (.inr (.inr (.inr ⟨base, tracker, isStage, rfl, isStarted,
      isNext.symm⟩)))))
  case h_15 base isStage =>
    exact .inr (.inr (.inr (.inr (.inr (.inl ⟨base, .inr isStage, committedCases isNext⟩)))))
  case h_16 isStage | h_17 isStage => exact .inr (.inr (.inr (.inr (.inl ⟨.inl isStage, isNext⟩))))
  case h_18 => simp at isNext

end Cases

end PageConnection

end Peridot
