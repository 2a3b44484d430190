import Peridot.CallList
import Peridot.PageDelegateTold

/-!
# Explicit transactions and watchers

An explicit transaction is answered when all watchers are drained, and nothing is sent while
it is open.  A watcher counts as drained when no newer commit waits for it, even if a change
is on its way or was given up.
-/

namespace Peridot

open Option BranchTracker OperationStage PageWatcherContainer

variable {onDrained : DrainedCallback}

namespace PageWatcherContainer

variable {graph : CommitGraph} {limits : MessageLimits} {container next : PageWatcherContainer}
  {base head : CommitId}

def Fresh (head : CommitId) (container : PageWatcherContainer) : Prop :=
  (∃ activity, container.Doing activity) ∧ ∀ commit ∈ container.currentCommit, commit = head

theorem currentCommit_sendCommit (container : PageWatcherContainer) :
    container.sendCommit.currentCommit = container.currentCommit ∨
      container.sendCommit.currentCommit = none := by
  unfold sendCommit
  split
  · exact .inl rfl
  · split
    · exact .inl rfl
    · exact .inr rfl

theorem Fresh.of_doing (doing : ∃ activity, next.Doing activity)
    (isCurrent : next.currentCommit = container.currentCommit ∨ next.currentCommit = none)
    (fresh : ∀ commit ∈ container.currentCommit, commit = head) : next.Fresh head := by
  refine ⟨doing, ?_⟩
  rcases isCurrent with same | isNone
  · rwa [same]
  · simp [isNone]

theorem leadsTo_fresh : LeadsTo fun head watcher => Fresh head watcher where
  doing fresh := fresh.1
  setOnDrainedCallback := by
    rintro head watcher onDrained ⟨⟨activity, doing⟩, fresh⟩
    exact ⟨⟨activity, doing.setOnDrainedCallback onDrained⟩, fresh⟩
  updateCommit := by
    intro watcher activity doing commit
    obtain ⟨after, isDoing, -⟩ := informed_updateCommit doing commit
    exact @Fresh.of_doing { watcher with currentCommit := some commit } _ commit
      ⟨after, isDoing⟩ (currentCommit_sendCommit _) (by simp)

/-- A container that has nothing on its way and has sent a commit or a later one. -/
def AtRest (graph : CommitGraph) (base : CommitId) (container : PageWatcherContainer) : Prop :=
  container.Doing .idle ∧ graph.Ancestor base container.lastCommit

def Pending (graph : CommitGraph) (base : CommitId) (container : PageWatcherContainer) : Prop :=
  ∃ activity, container.Doing activity ∧
    (∀ commit ∈ container.currentCommit, graph.Ancestor base commit) ∧
    (container.currentCommit = none → match activity with
      | .idle => True
      | .diffing newCommit => graph.Ancestor base newCommit
      | .sending call => graph.Ancestor base call.newCommit)

/-- A container in an explicit transaction: it keeps the transaction waiting, or is at rest. -/
def WaitsFor (graph : CommitGraph) (base : CommitId) (container : PageWatcherContainer) : Prop :=
  container.onDrained = some .answer ∧ container.Pending graph base ∨
    container.onDrained ≠ some .answer ∧ container.AtRest graph base

theorem waitsFor_finishChange {newCommit : CommitId} (noDiffs : container.diffs = [])
    (noCalls : container.calls = []) (isWaiting : container.onDrained = some .answer)
    (waits : ∀ commit ∈ container.currentCommit, graph.Ancestor base commit)
    (arrives : container.currentCommit = none → graph.Ancestor base newCommit) :
    (container.finishChange newCommit).WaitsFor graph base := by
  have isIdle : ({ container with changeInFlight := false, lastCommit := newCommit } :
      PageWatcherContainer).Doing .idle := ⟨rfl, noDiffs, noCalls⟩
  rcases sendCommit_idle isIdle with ⟨isDrained, isSent⟩ | ⟨commit, isCurrent, -, isSent⟩
  · rw [finishChange, isSent]
    refine .inr ⟨by simp, isIdle, ?_⟩
    cases isCurrent : container.currentCommit with
    | none => exact arrives isCurrent
    | some commit =>
      have isLast : newCommit = commit := by simpa [drained, isCurrent] using isDrained
      rw [isLast]
      exact waits commit isCurrent
  · rw [finishChange, isSent]
    refine .inl ⟨isWaiting, .diffing commit, ⟨rfl, rfl, noCalls⟩, by simp, fun _ => ?_⟩
    exact waits commit isCurrent

variable {timestamp : CommitId → Int64} {index : Nat} {answer : Except Status (List EntryChange)}

theorem WaitsFor.onPageChange (waitsFor : container.WaitsFor graph base)
    (isNext : container.onPageChange limits timestamp index answer = some next) :
    next.WaitsFor graph base := by
  rcases waitsFor with ⟨isWaiting, activity, doing, waits, arrives⟩ | ⟨-, isIdle, -⟩
  · obtain ⟨newCommit, rfl, outcome⟩ := onPageChange_cases doing isNext
    obtain ⟨inFlight, -, noCalls⟩ := doing
    rcases outcome with ⟨status, -, rfl⟩ | ⟨changes, -, -, rfl⟩ |
      ⟨changes, page, state, rest, -, -, isState, rfl⟩
    · exact .inl ⟨isWaiting, .idle, ⟨rfl, rfl, noCalls⟩, waits, fun _ => trivial⟩
    · exact waitsFor_finishChange rfl noCalls isWaiting waits arrives
    · refine .inl ⟨isWaiting, .sending ⟨state, newCommit, rest⟩,
        ⟨inFlight, rfl, by simp [sendChange, noCalls], ?_⟩, waits, arrives⟩
      rcases isState with ⟨rfl, rfl⟩ | ⟨notLast, rfl⟩
      · simp
      · simpa using notLast
  · obtain ⟨newCommit, isDiffing, -⟩ := onPageChange_cases isIdle isNext
    simp at isDiffing

theorem WaitsFor.onAcknowledged (waitsFor : container.WaitsFor graph base)
    (isNext : container.onAcknowledged index = some next) : next.WaitsFor graph base := by
  rcases waitsFor with ⟨isWaiting, activity, doing, waits, arrives⟩ | ⟨-, isIdle, -⟩
  · obtain ⟨call, rfl, outcome⟩ := onAcknowledged_cases doing isNext
    obtain ⟨inFlight, noDiffs, -, -⟩ := doing
    rcases outcome with ⟨page, rest, -, rfl⟩ | ⟨-, rfl⟩
    · refine .inl ⟨isWaiting, .sending ⟨_, call.newCommit, rest⟩, ⟨inFlight, noDiffs, rfl, ?_⟩,
        waits, arrives⟩
      by_cases isNil : rest = []
      · simp [isNil]
      · simp [isNil]
    · exact waitsFor_finishChange noDiffs rfl isWaiting waits arrives
  · obtain ⟨call, isSending, -⟩ := onAcknowledged_cases isIdle isNext
    simp at isSending

theorem onDrained_sendCommit (container : PageWatcherContainer)
    (isWaiting : container.sendCommit.onDrained = some onDrained) :
    container.onDrained = some onDrained := by
  unfold sendCommit at isWaiting
  split at isWaiting
  · exact isWaiting
  · split at isWaiting
    · simp at isWaiting
    · exact isWaiting

section

variable (waitsFor : container.WaitsFor graph base)
include waitsFor

theorem WaitsFor.doing : ∃ activity, container.Doing activity := by
  rcases waitsFor with ⟨-, activity, doing, -⟩ | ⟨-, isIdle, -⟩
  · exact ⟨activity, doing⟩
  · exact ⟨.idle, isIdle⟩

theorem WaitsFor.onDrained_onPageChange
    (isNext : container.onPageChange limits timestamp index answer = some next)
    (isWaiting : next.onDrained = some .answer) : container.onDrained = some .answer := by
  obtain ⟨activity, doing⟩ := waitsFor.doing
  obtain ⟨newCommit, -, outcome⟩ := onPageChange_cases doing isNext
  rcases outcome with ⟨status, -, rfl⟩ | ⟨changes, -, -, rfl⟩ |
    ⟨changes, page, state, rest, -, -, -, rfl⟩
  · exact isWaiting
  · have wasWaiting := onDrained_sendCommit _ isWaiting
    exact wasWaiting
  · exact isWaiting

theorem WaitsFor.onDrained_onAcknowledged (isNext : container.onAcknowledged index = some next)
    (isWaiting : next.onDrained = some .answer) : container.onDrained = some .answer := by
  obtain ⟨activity, doing⟩ := waitsFor.doing
  obtain ⟨call, -, outcome⟩ := onAcknowledged_cases doing isNext
  rcases outcome with ⟨page, rest, -, rfl⟩ | ⟨-, rfl⟩
  · exact isWaiting
  · have wasWaiting := onDrained_sendCommit _ isWaiting
    exact wasWaiting

end

/-- Every container that waits for an answer is on its way to some commit. -/
theorem Doing.informed {activity : WatcherActivity} (doing : container.Doing activity)
    (notIdle : activity ≠ .idle) : ∃ commit, container.Informed commit := by
  cases isCurrent : container.currentCommit with
  | some commit => exact ⟨commit, activity, doing, fun _ => ⟨.inl isCurrent, by simp [notIdle]⟩⟩
  | none =>
    cases activity with
    | idle => exact absurd rfl notIdle
    | diffing newCommit => exact ⟨newCommit, _, doing, fun _ => ⟨.inr ⟨isCurrent, rfl⟩, by simp⟩⟩
    | sending call => exact ⟨call.newCommit, _, doing, fun _ => ⟨.inr ⟨isCurrent, rfl⟩, by simp⟩⟩

theorem Fresh.onPageChange (fresh : container.Fresh head)
    (isNext : container.onPageChange limits timestamp index answer = some next) :
    next.Fresh head := by
  obtain ⟨⟨activity, doing⟩, isFresh⟩ := fresh
  obtain ⟨newCommit, rfl, outcome⟩ := onPageChange_cases doing isNext
  obtain ⟨commit, informed⟩ := doing.informed (by simp)
  obtain ⟨after, isDoing, -⟩ := informed.onPageChange isNext
  refine .of_doing ⟨after, isDoing⟩ ?_ isFresh
  rcases outcome with ⟨status, -, rfl⟩ | ⟨changes, -, -, rfl⟩ |
    ⟨changes, page, state, rest, -, -, -, rfl⟩
  · exact .inl rfl
  · exact currentCommit_sendCommit _
  · exact .inl rfl

theorem Fresh.onAcknowledged (fresh : container.Fresh head)
    (isNext : container.onAcknowledged index = some next) : next.Fresh head := by
  obtain ⟨⟨activity, doing⟩, isFresh⟩ := fresh
  obtain ⟨call, rfl, outcome⟩ := onAcknowledged_cases doing isNext
  obtain ⟨commit, informed⟩ := doing.informed (by simp)
  obtain ⟨after, isDoing, -⟩ := informed.onAcknowledged isNext
  refine .of_doing ⟨after, isDoing⟩ ?_ isFresh
  rcases outcome with ⟨page, rest, -, rfl⟩ | ⟨-, rfl⟩
  · exact .inl rfl
  · exact currentCommit_sendCommit _

end PageWatcherContainer

/-- A stage of an operation that has started a transaction of the branch tracker, and will
stop it. -/
def OperationStage.inTransaction : OperationStage → Bool
  | .startImplicit _ | .writeImplicit _ | .commitImplicit _ => true
  | .draining | .commitExplicit _ | .rollbackExplicit => true
  | .getCommit .. | .getObject | .writeExplicit | .startExplicit _ => false

def OperationStage.withoutJournal : OperationStage → Bool
  | .startImplicit _ | .writeImplicit _ | .commitImplicit _ => true
  | .startExplicit _ | .commitExplicit _ | .rollbackExplicit => true
  | .getCommit .. | .getObject | .writeExplicit | .draining => false

namespace PageConnection

variable {graph : CommitGraph} {limits : MessageLimits} {connection next : PageConnection}
    {tracker : BranchTracker} {answer : StorageAnswer}

structure ReadyOrderly (graph : CommitGraph) (connection : PageConnection) : Prop where
  tracker : connection.tracker.Told fun head watcher => watcher.Fresh head
  inProgress : connection.journal ≠ none →
    connection.tracker.transactionInProgress = true ∧ connection.stopping = 0
  stopping : connection.stopping ≤ 1 ∧
    (connection.stopping ≠ 0 → connection.tracker.transactionInProgress = true)
  atRest : ∀ base ∈ connection.journal, ∀ watcher ∈ connection.tracker.watchers,
    watcher.onDrained ≠ some .answer ∧ watcher.AtRest graph base

/-- The transactions of a connection whose client is not gone. -/
structure Orderly (graph : CommitGraph) (connection : PageConnection) : Prop where
  noClose : .close ∉ connection.queue
  tracker : connection.tracker.Told fun head watcher => watcher.Fresh head
  inProgress : connection.journal ≠ none ∨
      (∃ stage ∈ connection.stage, stage.inTransaction = true) →
    connection.tracker.transactionInProgress = true ∧ connection.stopping = 0
  stopping : connection.stopping ≤ 1 ∧
    (connection.stopping ≠ 0 → connection.tracker.transactionInProgress = true)
  withoutJournal : ∀ stage ∈ connection.stage, stage.withoutJournal = true →
    connection.journal = none
  onBranch : ∀ base, connection.stage = some (.startExplicit base) →
    graph.Ancestor base connection.head
  snapshot : ∀ commitId watcher, connection.stage = some (.getCommit commitId watcher) →
    ∀ base ∈ connection.journal, commitId = base
  /-- Only `StartTransaction` waits for the watchers. -/
  watchers : ∀ base ∈ connection.journal, ∀ watcher ∈ connection.tracker.watchers,
    watcher.WaitsFor graph base ∧
      (watcher.onDrained = some .answer → connection.stage = some .draining)

theorem Orderly.ready (orderly : connection.Orderly graph)
    (answered : connection.stage = some .draining →
      ∀ watcher ∈ connection.tracker.watchers, watcher.onDrained ≠ some .answer) :
    connection.ReadyOrderly graph := by
  refine ⟨orderly.tracker, fun hasJournal => orderly.inProgress (.inl hasJournal),
    orderly.stopping, fun base isJournal watcher inWatchers => ?_⟩
  obtain ⟨waitsFor, isDraining⟩ := orderly.watchers base isJournal watcher inWatchers
  have noCallback : watcher.onDrained ≠ some .answer := fun isWaiting =>
    answered (isDraining isWaiting) watcher inWatchers isWaiting
  rcases waitsFor with ⟨isWaiting, -⟩ | ⟨-, atRest⟩
  · exact absurd isWaiting noCallback
  · exact ⟨noCallback, atRest⟩

theorem ReadyOrderly.watchers (ready : connection.ReadyOrderly graph)
    (stage : Option OperationStage) :
    ∀ base ∈ connection.journal, ∀ watcher ∈ connection.tracker.watchers,
      watcher.WaitsFor graph base ∧
        (watcher.onDrained = some .answer → stage = some .draining) := by
  intro base isJournal watcher inWatchers
  obtain ⟨noCallback, atRest⟩ := ready.atRest base isJournal watcher inWatchers
  exact ⟨.inr ⟨noCallback, atRest⟩, fun isWaiting => absurd isWaiting noCallback⟩

theorem ReadyOrderly.orderly (ready : connection.ReadyOrderly graph)
    (noClose : .close ∉ connection.queue) (notInTransaction : ∀ stage ∈ connection.stage,
      stage.inTransaction = false ∧ stage.withoutJournal = false ∧
        ∀ commitId watcher, stage ≠ .getCommit commitId watcher) : connection.Orderly graph where
  noClose := noClose
  __ := ready
  inProgress := by
    rintro (hasJournal | ⟨stage, isStage, inTransaction⟩)
    · exact ready.inProgress hasJournal
    · simp [(notInTransaction stage isStage).1] at inTransaction
  withoutJournal stage isStage withoutJournal := by
    simp [(notInTransaction stage isStage).2.1] at withoutJournal
  onBranch base isStage := by
    have isStartExplicit := (notInTransaction _ isStage).2.1
    simp [withoutJournal] at isStartExplicit
  snapshot commitId watcher isStage :=
    absurd rfl ((notInTransaction _ isStage).2.2 commitId watcher)
  watchers := ready.watchers connection.stage

theorem startTransaction_eq {started : BranchTracker}
    (isStarted : tracker.startTransaction onDrained = some started) :
    tracker.transactionInProgress = false ∧ started.transactionInProgress = true ∧
      started.watchers = tracker.watchers.map fun watcher =>
        watcher.setOnDrainedCallback (some onDrained) := by
  unfold startTransaction at isStarted
  obtain ⟨notInProgress, isStarted⟩ := ite_none_left_eq_some.mp isStarted
  cases isStarted
  exact ⟨by simpa using notInProgress, rfl, rfl⟩

theorem ReadyOrderly.not_stopping (ready : connection.ReadyOrderly graph)
    (notInProgress : connection.tracker.transactionInProgress = false) :
    connection.stopping = 0 := by
  by_contra isStopping
  exact absurd (notInProgress.symm.trans (ready.stopping.2 isStopping)) (by simp)

theorem orderly_runInTransaction (ready : connection.ReadyOrderly graph)
    (noClose : .close ∉ connection.queue)
    (isNext : connection.runInTransaction = some next) : next.Orderly graph := by
  unfold runInTransaction at isNext
  split at isNext
  · cases isNext
    exact ReadyOrderly.orderly ⟨ready.tracker, ready.inProgress, ready.stopping, ready.atRest⟩
      noClose (by simp [inTransaction, withoutJournal])
  case h_2 noJournal =>
    obtain ⟨tracker, isStarted, rfl⟩ := map_eq_some_iff.mp isNext
    obtain ⟨notInProgress, inProgress, -⟩ := startTransaction_eq isStarted
    have notStopping := ready.not_stopping notInProgress
    exact {
      noClose
      tracker := (ready.tracker.startTransaction leadsTo_fresh isStarted).1
      inProgress := fun _ => ⟨inProgress, notStopping⟩
      stopping := ⟨by simp [notStopping], fun _ => inProgress⟩
      withoutJournal := fun _ _ _ => noJournal
      onBranch := by simp
      snapshot := by simp
      watchers := by simp [noJournal] }

theorem orderly_startNext {queue : List PageOperation} (ready : connection.ReadyOrderly graph)
    (noClose : .close ∉ queue) (isNext : startNext queue connection = some next) :
    next.Orderly graph := by
  refine startNext_rule (ReadyOrderly graph) (Orderly graph) ?_
    (fun hasClose => absurd hasClose noClose) ready isNext
  intro started ready rest isRest
  have noCloseRest : .close ∉ rest := fun hasClose => noClose (isRest hasClose)
  refine ⟨?_, ?_, ?_, ?_, ?_, ?_⟩
  · exact ReadyOrderly.orderly ⟨ready.tracker, ready.inProgress, ready.stopping, ready.atRest⟩
      (by simp) (by simp)
  · intro watcher
    exact {
      noClose := noCloseRest
      __ := ready
      inProgress := by simpa [inTransaction] using ready.inProgress
      withoutJournal := by simp [withoutJournal]
      onBranch := by simp
      snapshot := by
        intro commitId keyPrefix isStage base isJournal
        obtain ⟨rfl, -⟩ := getCommit.inj (some.inj isStage)
        have hasJournal : started.journal = some base := isJournal
        simp [getCurrentCommitId, hasJournal]
      watchers := ready.watchers _ }
  · exact ReadyOrderly.orderly ⟨ready.tracker, ready.inProgress, ready.stopping, ready.atRest⟩
      noCloseRest (by simp [inTransaction, withoutJournal])
  · intro next isNext
    exact @orderly_runInTransaction graph { started with queue := rest } next
      ⟨ready.tracker, ready.inProgress, ready.stopping, ready.atRest⟩ noCloseRest isNext
  · intro noJournal
    exact {
      noClose := noCloseRest
      __ := ready
      inProgress := by simp [noJournal, inTransaction]
      withoutJournal := fun _ _ _ => noJournal
      onBranch := by
        intro base isStage
        rw [← startExplicit.inj (some.inj isStage)]
        exact .refl _
      snapshot := by simp
      watchers := by simp [noJournal] }
  · intro base isJournal
    have inProgress := ready.inProgress (by simp [isJournal])
    constructor <;> exact {
      noClose := noCloseRest
      tracker := ready.tracker
      inProgress := fun _ => inProgress
      stopping := ready.stopping
      withoutJournal := fun _ _ _ => rfl
      onBranch := by simp
      snapshot := by simp
      watchers := by simp }

/-- The condition on a step: when an explicit transaction asks for the watchers, the drained
ones have nothing on their way and have received its base or a later commit. -/
def StartsDrained (graph : CommitGraph) (connection : PageConnection) : ConnectionEvent → Prop
  | .answer .ok => ∀ base, connection.stage = some (.startExplicit base) →
      ∀ watcher ∈ connection.tracker.watchers, watcher.drained = true →
        watcher.changeInFlight = false ∧ graph.Ancestor base watcher.lastCommit
  | _ => True

theorem onAnswer_draining (isDraining : connection.stage = some .draining)
    (answer : StorageAnswer) : connection.onAnswer graph answer = none := by
  simp [onAnswer, isDraining]

theorem orderly_stopThenFinish {commit : Option CommitId} (orderly : connection.Orderly graph)
    (noJournal : connection.journal = none) (notStopping : connection.stopping = 0)
    (isNext : connection.stopThenFinish commit = some next) : next.Orderly graph := by
  obtain ⟨tracker, isStopped, isFinished⟩ := bind_eq_some_iff.mp isNext
  refine orderly_startNext ⟨?_, ?_, ?_, ?_⟩ orderly.noClose isFinished
  · exact (orderly.tracker.stopTransaction leadsTo_fresh isStopped).1
  · simp [noJournal]
  · simp [notStopping]
  · simp [noJournal]

/-- The watchers when an explicit transaction asks for them. -/
theorem waitsFor_startExplicit {base : CommitId} {watcher : PageWatcherContainer}
    (fresh : watcher.Fresh connection.head) (onBranch : graph.Ancestor base connection.head)
    (startsDrained : watcher.drained = true →
      watcher.changeInFlight = false ∧ graph.Ancestor base watcher.lastCommit) :
    (watcher.setOnDrainedCallback (some .answer)).WaitsFor graph base := by
  obtain ⟨⟨activity, doing⟩, isFresh⟩ := fresh
  by_cases isDrained : watcher.drained = true
  · obtain ⟨notInFlight, received⟩ := startsDrained isDrained
    refine .inr ⟨by simp [PageWatcherContainer.setOnDrainedCallback, isDrained], ?_, received⟩
    exact doing.notInFlight notInFlight
  · refine .inl ⟨by simp [PageWatcherContainer.setOnDrainedCallback, isDrained], activity,
      doing.setOnDrainedCallback _, ?_, ?_⟩
    · intro commit isCurrent
      rw [isFresh commit isCurrent]
      exact onBranch
    · intro noCurrent
      have isNone : watcher.currentCommit = none := noCurrent
      simp [PageWatcherContainer.drained, isNone] at isDrained

section

variable (orderly : connection.Orderly graph)
include orderly

theorem orderly_onAnswer (startsDrained : connection.StartsDrained graph (.answer answer))
    (isNext : connection.onAnswer graph answer = some next) : next.Orderly graph := by
  have notDraining : connection.stage ≠ some .draining := by
    intro isDraining
    simp [onAnswer_draining isDraining] at isNext
  have ready := orderly.ready fun isDraining => absurd isDraining notDraining
  -- Stages of a transaction that the operation has started by itself.
  have ownTransaction {stage : OperationStage} (isStage : connection.stage = some stage)
      (inTransaction : stage.inTransaction = true) (withoutJournal : stage.withoutJournal = true) :
      connection.tracker.transactionInProgress = true ∧ connection.stopping = 0 ∧
        connection.journal = none :=
    have inProgress := orderly.inProgress (.inr ⟨stage, isStage, inTransaction⟩)
    ⟨inProgress.1, inProgress.2, orderly.withoutJournal stage isStage withoutJournal⟩
  have goesOn {stage next : OperationStage} (isStage : connection.stage = some stage)
      (inTransaction : stage.inTransaction = true) (withoutJournal : stage.withoutJournal = true)
      (isNext : ∀ base, next ≠ .startExplicit base)
      (isOther : ∀ commitId watcher, next ≠ .getCommit commitId watcher) :
      ({ connection with stage := some next } : PageConnection).Orderly graph := by
    obtain ⟨inProgress, notStopping, noJournal⟩ :=
      ownTransaction isStage inTransaction withoutJournal
    exact {
      __ := orderly
      inProgress := fun _ => ⟨inProgress, notStopping⟩
      withoutJournal := fun _ _ _ => noJournal
      onBranch := fun base isStart => absurd (some.inj isStart) (isNext base)
      snapshot := fun commitId watcher isSnapshot =>
        absurd (some.inj isSnapshot) (isOther commitId watcher)
      watchers := by simp [noJournal] }
  rcases onAnswer_cases isNext with finishes | ⟨-, isRun⟩ | ⟨base, isStage, rfl⟩ |
    ⟨base, isStage, rfl⟩ | ⟨isStage, isFinished⟩ | ⟨base, isStage, stops⟩ |
    ⟨base, tracker, isStage, rfl, isStarted, rfl⟩
  · rcases finishes with isFinished | ⟨commitId, keyPrefix, rfl, isStage, isFinished⟩
    · exact orderly_startNext ready orderly.noClose isFinished
    · refine @orderly_startNext graph { connection with
        tracker := connection.tracker.registerPageWatcher commitId keyPrefix } next _
        ⟨ready.tracker.registerPageWatcher ⟨_, ⟨⟨.idle, rfl, rfl, rfl⟩, by
          simp [PageWatcherContainer.new]⟩, fun _ => rfl⟩, ready.inProgress, ready.stopping, ?_⟩
        orderly.noClose isFinished
      intro base isJournal
      refine forall_mem_concat.mpr ⟨ready.atRest base isJournal, ?_⟩
      refine ⟨by simp [PageWatcherContainer.new], ⟨rfl, rfl, rfl⟩, ?_⟩
      rw [← orderly.snapshot commitId _ isStage base isJournal]
      exact .refl _
  · exact orderly_runInTransaction ready orderly.noClose isRun
  · exact goesOn isStage rfl rfl (by simp) (by simp)
  · exact goesOn isStage rfl rfl (by simp) (by simp)
  · obtain ⟨inProgress, notStopping, noJournal⟩ :
        connection.tracker.transactionInProgress = true ∧ connection.stopping = 0 ∧
          connection.journal = none := by
      rcases isStage with isStage | ⟨base, isStage | isStage⟩
      · exact ownTransaction isStage rfl rfl
      · exact ownTransaction isStage rfl rfl
      · exact ownTransaction isStage rfl rfl
    refine @orderly_startNext graph { connection with stopping := connection.stopping + 1 } next _
      ⟨ready.tracker, ?_, ?_, ready.atRest⟩ orderly.noClose isFinished
    · simp [noJournal]
    · exact ⟨by simp [notStopping], fun _ => inProgress⟩
  · obtain ⟨-, notStopping, noJournal⟩ :
        connection.tracker.transactionInProgress = true ∧ connection.stopping = 0 ∧
          connection.journal = none := by
      rcases isStage with isStage | isStage
      · exact ownTransaction isStage rfl rfl
      · exact ownTransaction isStage rfl rfl
    rcases stops with ⟨-, isStopped⟩ | ⟨commit, -, -, isStopped⟩
    · exact orderly_stopThenFinish orderly noJournal notStopping isStopped
    · exact orderly_stopThenFinish orderly noJournal notStopping isStopped
  · obtain ⟨notInProgress, inProgress, isWatchers⟩ := startTransaction_eq isStarted
    have notStopping := ready.not_stopping notInProgress
    exact {
      noClose := orderly.noClose
      tracker := (ready.tracker.startTransaction leadsTo_fresh isStarted).1
      inProgress := fun _ => ⟨inProgress, notStopping⟩
      stopping := orderly.stopping.imp id fun _ _ => inProgress
      withoutJournal := by simp [withoutJournal]
      onBranch := by simp
      snapshot := by simp
      watchers := by
        intro other isJournal watcher inWatchers
        cases isJournal
        refine ⟨?_, fun _ => rfl⟩
        simp only [isWatchers] at inWatchers
        obtain ⟨before, inBefore, rfl⟩ := List.mem_map.mp inWatchers
        obtain ⟨head, fresh, isHead⟩ := orderly.tracker.watchers before inBefore
        obtain rfl := isHead (.inl notInProgress)
        exact waitsFor_startExplicit fresh (orderly.onBranch base isStage)
          (startsDrained base isStage before inBefore) }

theorem Orderly.updateWatcher {index : Nat}
    {react : PageWatcherContainer → Option PageWatcherContainer}
    (isUpdated : connection.tracker.updateWatcher index react = some tracker)
    (keepsFresh : ∀ (watcher after : PageWatcherContainer) (head : CommitId),
      react watcher = some after → watcher.Fresh head → after.Fresh head)
    (keepsWaiting : ∀ (watcher after : PageWatcherContainer) (base : CommitId),
      react watcher = some after → watcher.WaitsFor graph base → after.WaitsFor graph base ∧
        (after.onDrained = some .answer → watcher.onDrained = some .answer)) :
    { connection with tracker }.Orderly graph := by
  obtain ⟨-, sameProgress⟩ := rest_updateWatcher isUpdated
  have sameHead := head_updateWatcher isUpdated
  exact {
    __ := orderly
    tracker := orderly.tracker.updateWatcher isUpdated keepsFresh
    inProgress := by simpa only [sameProgress] using orderly.inProgress
    stopping := by simpa only [sameProgress] using orderly.stopping
    onBranch := by simpa only [head, sameHead] using orderly.onBranch
    watchers := fun base isJournal =>
      forall_watchers_updateWatcher (orderly.watchers base isJournal) isUpdated
        fun watcher after _ isAfter waits =>
          have kept := keepsWaiting watcher after base isAfter waits.1
          ⟨kept.1, fun isWaiting => waits.2 (kept.2 isWaiting)⟩ }

theorem orderly_newCommits (commits : List CommitId) : ({ connection with
      tracker := connection.tracker.onNewCommits graph commits
      passed := connection.passed ++
        [(connection.tracker.onNewCommits graph commits).currentCommitId] } :
      PageConnection).Orderly graph := by
  have told := @BranchTracker.Told.onNewCommits _ graph _ orderly.tracker leadsTo_fresh commits
  rcases @onNewCommits_cases graph connection.tracker commits with unmoved |
    ⟨moved, strict, isMoved⟩
  · rw [unmoved]
    exact {
      __ := orderly
      watchers := orderly.watchers }
  · rw [isMoved] at told ⊢
    exact {
      __ := orderly
      tracker := told
      onBranch := fun base isStage => (orderly.onBranch base isStage).trans strict.ancestor
      watchers := by
        intro base isJournal
        have isSome : connection.journal = some base := isJournal
        have hasJournal : connection.journal ≠ none := by simp [isSome]
        simp only [(orderly.inProgress (.inl hasJournal)).1, if_true]
        exact orderly.watchers base isJournal }

end

variable {event : ConnectionEvent}

theorem orderly_handle (orderly : connection.Orderly graph)
    (startsDrained : connection.StartsDrained graph event)
    (isNext : connection.handle graph limits event = some next) (isOpen : next.closed = false) :
    next.Orderly graph := by
  cases event with
  | call operation =>
    obtain ⟨-, isNext⟩ := ite_none_left_eq_some.mp isNext
    split at isNext
    case isTrue isIdle =>
      by_cases isClose : operation = .close
      · -- The client is gone.
        subst isClose
        obtain ⟨tracker, -, isStarted⟩ := bind_eq_some_iff.mp isNext
        cases isStarted
        simp at isOpen
      · have ready := orderly.ready (by simp [isIdle])
        have noClose : .close ∉ [operation] := by simpa using fun same => isClose same.symm
        exact @orderly_startNext graph { connection with
          closed := decide (operation = .close) } next [operation]
          ⟨ready.tracker, ready.inProgress, ready.stopping, ready.atRest⟩ noClose isNext
    case isFalse =>
      cases isNext
      have notClose : operation ≠ .close := by simpa using isOpen
      exact {
        noClose := by simpa [orderly.noClose] using fun same => notClose same.symm
        __ := orderly
        watchers := orderly.watchers }
  | answer answer => exact orderly_onAnswer orderly startsDrained isNext
  | newCommits commits =>
    cases isNext
    exact orderly_newCommits orderly commits
  | pageChange watcher diff answer =>
    obtain ⟨tracker, isUpdated, rfl⟩ := map_eq_some_iff.mp isNext
    exact orderly.updateWatcher isUpdated
      (fun watcher after head isAfter fresh => fresh.onPageChange isAfter)
      fun watcher after base isAfter waits =>
        ⟨waits.onPageChange isAfter, waits.onDrained_onPageChange isAfter⟩
  | acknowledge watcher call =>
    obtain ⟨tracker, isUpdated, rfl⟩ := map_eq_some_iff.mp isNext
    exact orderly.updateWatcher isUpdated
      (fun watcher after head isAfter fresh => fresh.onAcknowledged isAfter)
      fun watcher after base isAfter waits =>
        ⟨waits.onAcknowledged isAfter, waits.onDrained_onAcknowledged isAfter⟩
  | disconnect watcher =>
    cases isNext
    exact {
      __ := orderly
      tracker := orderly.tracker.disconnect watcher
      watchers := fun base isJournal watcher inWatchers =>
        orderly.watchers base isJournal watcher (List.mem_of_mem_eraseIdx inWatchers) }
  | stop =>
    obtain ⟨isStopping, isNext⟩ := ite_none_left_eq_some.mp isNext
    obtain ⟨tracker, isStopped, rfl⟩ := map_eq_some_iff.mp isNext
    have noJournal : connection.journal = none := by
      by_contra hasJournal
      exact isStopping (orderly.inProgress (.inl hasJournal)).2
    have notInTransaction : ¬∃ stage ∈ connection.stage, stage.inTransaction = true :=
      fun inTransaction => isStopping (orderly.inProgress (.inr inTransaction)).2
    have isOne : connection.stopping - 1 = 0 := by
      have atMostOne := orderly.stopping.1
      omega
    exact {
      __ := orderly
      tracker := (orderly.tracker.stopTransaction leadsTo_fresh isStopped).1
      inProgress := by
        rintro (hasJournal | inTransaction)
        · exact absurd noJournal hasJournal
        · exact absurd inTransaction notInTransaction
      stopping := by simp [isOne]
      withoutJournal := fun _ _ _ => noJournal
      onBranch := by
        simpa only [head, head_stopTransaction isStopped, getD_none] using orderly.onBranch
      watchers := by simp [noJournal] }

/-- An explicit transaction that was answered is open, with every watcher at rest. -/
def Isolated (graph : CommitGraph) (connection : PageConnection) : Prop :=
  ∀ base, connection.closed = false → connection.journal = some base →
    (connection.stage = some .draining →
      ∀ watcher ∈ connection.tracker.watchers, watcher.onDrained ≠ some .answer) →
    ∀ watcher ∈ connection.tracker.watchers,
      watcher.diffs = [] ∧ watcher.calls = [] ∧ graph.Ancestor base watcher.lastCommit

theorem isolated_of_orderly (orderly : connection.closed = false → connection.Orderly graph) :
    connection.Isolated graph := by
  intro base isOpen isJournal answered watcher inWatchers
  have ready := (orderly isOpen).ready answered
  obtain ⟨-, ⟨-, noDiffs, noCalls⟩, received⟩ := ready.atRest base isJournal watcher inWatchers
  exact ⟨noDiffs, noCalls, received⟩

theorem closed_runInTransaction (isNext : connection.runInTransaction = some next) :
    next.closed = connection.closed := by
  unfold runInTransaction at isNext
  split at isNext
  · cases isNext
    rfl
  · obtain ⟨tracker, -, rfl⟩ := map_eq_some_iff.mp isNext
    rfl

theorem closed_startNext {queue : List PageOperation}
    (isNext : startNext queue connection = some next) : next.closed = connection.closed := by
  refine startNext_rule (fun started => started.closed = connection.closed)
    (fun started => started.closed = connection.closed) ?_ ?_ rfl isNext
  · intro started same rest _
    refine ⟨same, fun _ => same, same, ?_, fun _ => same, fun _ _ => ⟨same, same⟩⟩
    intro next isNext
    exact (closed_runInTransaction isNext).trans same
  · intro _ started tracker same _
    exact same

theorem closed_onAnswer (isNext : connection.onAnswer graph answer = some next) :
    next.closed = connection.closed := by
  have stopped {commit : Option CommitId} (isNext : connection.stopThenFinish commit = some next) :
      next.closed = connection.closed := by
    obtain ⟨tracker, -, isFinished⟩ := bind_eq_some_iff.mp isNext
    have same := closed_startNext isFinished
    exact same
  rcases onAnswer_cases isNext with finishes | ⟨-, isRun⟩ | ⟨base, -, rfl⟩ | ⟨base, -, rfl⟩ |
    ⟨-, isFinished⟩ | ⟨base, -, stops⟩ | ⟨base, tracker, -, -, -, rfl⟩
  · rcases finishes with isFinished | ⟨commitId, keyPrefix, -, -, isFinished⟩
    · exact closed_startNext isFinished
    · have same := closed_startNext isFinished
      exact same
  · exact closed_runInTransaction isRun
  · rfl
  · rfl
  · have same := closed_startNext isFinished
    exact same
  · rcases stops with ⟨-, isStopped⟩ | ⟨commit, -, -, isStopped⟩
    · exact stopped isStopped
    · exact stopped isStopped
  · rfl

theorem closed_handle (isClosed : connection.closed = true)
    (isNext : connection.handle graph limits event = some next) : next.closed = true := by
  cases event with
  | call operation => simp [handle, isClosed] at isNext
  | answer answer => exact (closed_onAnswer isNext).trans isClosed
  | newCommits commits | disconnect watcher =>
    cases isNext
    exact isClosed
  | pageChange watcher diff answer | acknowledge watcher call =>
    obtain ⟨tracker, -, rfl⟩ := map_eq_some_iff.mp isNext
    exact isClosed
  | stop =>
    obtain ⟨-, isNext⟩ := ite_none_left_eq_some.mp isNext
    obtain ⟨tracker, -, rfl⟩ := map_eq_some_iff.mp isNext
    exact isClosed

theorem closed_answerDrained (isNext : connection.answerDrained = some next) :
    next.closed = connection.closed := by
  unfold answerDrained at isNext
  split at isNext
  · exact closed_startNext isNext
  · rw [some.inj isNext]

section

variable (orderly : connection.closed = false → connection.Orderly graph)
include orderly

variable (startsDrained : connection.StartsDrained graph event)
include startsDrained

theorem orderly_handle_open (isNext : connection.handle graph limits event = some next)
    (isOpen : next.closed = false) : next.Orderly graph := by
  have wasOpen : connection.closed = false := by
    by_contra isClosed
    have staysClosed := closed_handle (by simpa using isClosed) isNext
    exact nomatch staysClosed.symm.trans isOpen
  exact orderly_handle (orderly wasOpen) startsDrained isNext isOpen

theorem orderly_step (isNext : connection.step graph limits event = some next)
    (isOpen : next.closed = false) : next.Orderly graph := by
  obtain ⟨handled, isHandled, isAnswered⟩ := bind_eq_some_iff.mp isNext
  have isOpenHandled : handled.closed = false := (closed_answerDrained isAnswered).symm.trans isOpen
  have orderlyHandled := orderly_handle_open orderly startsDrained isHandled isOpenHandled
  unfold answerDrained at isAnswered
  split at isAnswered
  case isTrue answered =>
    exact orderly_startNext (orderlyHandled.ready fun _ => answered.2) orderlyHandled.noClose
      isAnswered
  case isFalse =>
    cases isAnswered
    exact orderlyHandled

end

theorem orderly_new (commitId : CommitId) : (new commitId).Orderly graph where
  noClose := by simp [new]
  tracker := told_new commitId
  inProgress := by simp [new]
  stopping := by simp [new]
  withoutJournal := by simp [new]
  onBranch := by simp [new]
  snapshot := by simp [new]
  watchers := by simp [new]

/-- In a run in which explicit transactions ask for watchers that are really drained: when
`StartTransaction` is answered, and as long as the transaction is open, every watcher has
received the base of the transaction or a later commit, and nothing is sent. -/
theorem transactions_isolated {commitId : CommitId} {events : List ConnectionEvent}
    {event : ConnectionEvent}
    (startsDrained : EachStep (step graph limits) (StartsDrained graph) (new commitId)
      (events ++ [event]))
    (isRun : runSteps (step graph limits) (new commitId) events = some connection)
    (isNext : connection.handle graph limits event = some next) :
    connection.Isolated graph ∧ next.Isolated graph := by
  obtain ⟨early, last⟩ := eachStep_append.mp startsDrained
  have orderly : connection.closed = false → connection.Orderly graph :=
    invariant_runSteps (fun connection => connection.closed = false → connection.Orderly graph)
      orderly_step (fun _ => orderly_new commitId) early isRun
  exact ⟨isolated_of_orderly orderly,
    isolated_of_orderly (orderly_handle_open orderly (last connection isRun).1 isNext)⟩

def sampleTransactionRun : List ConnectionEvent :=
  [.call (.getSnapshot (some [])), .answer .ok, .call .startTransaction, .answer .ok]

theorem startsDrained_sampleTransactionRun :
    EachStep (step sampleGraph sampleLimits) (StartsDrained sampleGraph) (new [0])
      (sampleTransactionRun ++ [.newCommits [[1]]]) := by
  have waiting : (runSteps (step sampleGraph sampleLimits) (new [0])
      [.call (.getSnapshot (some []))]).map (·.stage) = some (some (.getCommit [0] (some [])))
    := by decide
  have starting : (runSteps (step sampleGraph sampleLimits) (new [0])
      [.call (.getSnapshot (some [])), .answer .ok, .call .startTransaction]).map
        (fun connection => (connection.stage, connection.tracker.watchers)) =
      some (some (.startExplicit [0]), [.new [] [0]]) := by decide
  refine (@eachStep_append _ _ _ _ _ [_] [_, _, _, _]).mpr ⟨⟨trivial, fun _ _ => trivial⟩, ?_⟩
  intro connection isRun
  rw [isRun, map_some, some.injEq] at waiting
  refine (@eachStep_append _ _ _ _ _ [_, _] [_, _]).mpr ⟨⟨?_, fun _ _ => ⟨trivial,
    fun _ _ => trivial⟩⟩, ?_⟩
  · intro base isStage
    simp [waiting] at isStage
  · intro later isLater
    rw [show [ConnectionEvent.call (.getSnapshot (some [])), .answer .ok, .call .startTransaction]
      = [_] ++ [_, _] from rfl, runSteps_append.mpr ⟨connection, isRun, isLater⟩, map_some,
      some.injEq, Prod.mk.injEq] at starting
    refine ⟨?_, fun _ _ => ⟨trivial, fun _ _ => trivial⟩⟩
    intro base isStage watcher inWatchers _
    rw [starting.1] at isStage
    rw [starting.2, List.mem_singleton] at inWatchers
    obtain rfl := startExplicit.inj (some.inj isStage)
    subst inWatchers
    exact ⟨rfl, .refl _⟩

/-- A commit arrives while an explicit transaction is open. -/
theorem transactions_isolated_started : ∃ connection next,
    runSteps (step sampleGraph sampleLimits) (new [0]) sampleTransactionRun = some connection ∧
    connection.handle sampleGraph sampleLimits (.newCommits [[1]]) = some next ∧
    next.journal = some [0] ∧ next.head = [1] ∧ next.Isolated sampleGraph :=
  ⟨_, _, rfl, rfl, rfl, rfl, (transactions_isolated startsDrained_sampleTransactionRun rfl rfl).2⟩

/-- `StartTransaction` is answered while a difference is computed for the watcher, and its
change is sent during the transaction. -/
theorem transaction_sends_change : ∃ events connection,
    runSteps (step sampleGraph sampleLimits) (new [0]) events = some connection ∧
    connection.journal = some [1] ∧ connection.stage = none ∧ connection.closed = false ∧
    ∃ watcher ∈ connection.tracker.watchers, watcher.calls ≠ [] := by
  have isSent : (runSteps (step sampleGraph sampleLimits) (new [0])
      [.call (.getSnapshot (some [])), .answer .ok, .newCommits [[1]], .call .startTransaction,
        .answer .ok, .pageChange 0 0 (.ok [⟨sampleMergeEntry [1], false⟩])]).map
          (fun connection => (connection.journal, connection.stage, connection.closed,
            connection.tracker.watchers)) =
      some (some [1], none, false, [sampleWatcher]) := by decide
  obtain ⟨connection, isRun, isState⟩ := map_eq_some_iff.mp isSent
  obtain ⟨isJournal, isStage, isClosed, isWatchers⟩ := by simpa only [Prod.mk.injEq] using isState
  exact ⟨_, connection, isRun, isJournal, isStage, isClosed, sampleWatcher, by simp [isWatchers],
    by simp [sampleWatcher]⟩

end PageConnection

end Peridot
