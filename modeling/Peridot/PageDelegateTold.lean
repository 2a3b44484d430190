import Peridot.PageDelegateWatchers

/-!
# Watchers and the head of a page connection

A watcher that has nothing on its way has the head of the branch, unless it was registered
with a commit that the head had left already.
-/

namespace Peridot

open Option BranchTracker List PageWatcherContainer

variable {index : Nat} {commit : Option CommitId}

namespace PageWatcherContainer

variable {limits : MessageLimits} {container next : PageWatcherContainer} {head : CommitId}

def Towards (container : PageWatcherContainer) (activity : WatcherActivity) (commit : CommitId) :
    Prop :=
  container.currentCommit = some commit ∨ container.currentCommit = none ∧
    match activity with
    | .idle => container.lastCommit = commit
    | .diffing newCommit => newCommit = commit
    | .sending call => call.newCommit = commit

def Informed (head : CommitId) (container : PageWatcherContainer) : Prop :=
  ∃ activity, container.Doing activity ∧ (container.diffFailed = false →
    container.Towards activity head ∧ (activity = .idle → container.drained = true))

theorem informed_new (keyPrefix : Key) (commit : CommitId) :
    (new keyPrefix commit).Informed commit :=
  ⟨.idle, ⟨rfl, rfl, rfl⟩, fun _ => ⟨.inr ⟨rfl, rfl⟩, fun _ => rfl⟩⟩

theorem Informed.setOnDrainedCallback (informed : container.Informed head)
    (onDrained : Option DrainedCallback) :
    (container.setOnDrainedCallback onDrained).Informed head := by
  obtain ⟨activity, doing, towards⟩ := informed
  exact ⟨activity, doing.setOnDrainedCallback onDrained, towards⟩

/-- `SendCommit` in a container that does nothing goes on to the commit. -/
theorem informed_sendCommit_idle (isIdle : container.Doing .idle)
    (towards : container.diffFailed = false → container.Towards .idle head) :
    container.sendCommit.Informed head := by
  rcases sendCommit_idle isIdle with ⟨isDrained, isSent⟩ | ⟨newCommit, isCurrent, -, isSent⟩
  · rw [isSent]
    exact ⟨.idle, isIdle, fun notFailed => ⟨towards notFailed, fun _ => isDrained⟩⟩
  · rw [isSent]
    refine ⟨.diffing newCommit, ⟨rfl, rfl, isIdle.2.2⟩, fun notFailed => ⟨.inr ⟨rfl, ?_⟩, by simp⟩⟩
    rcases towards notFailed with isHead | ⟨noCurrent, -⟩
    · exact some.inj (isCurrent.symm.trans isHead)
    · exact nomatch isCurrent.symm.trans noCurrent

theorem informed_updateCommit {activity : WatcherActivity} (doing : container.Doing activity)
    (commit : CommitId) : (container.updateCommit commit).Informed commit := by
  cases activity with
  | idle =>
    exact @informed_sendCommit_idle { container with currentCommit := some commit } commit doing
      fun _ => .inl rfl
  | diffing newCommit =>
    rw [updateCommit_inFlight doing.1]
    exact ⟨.diffing newCommit, doing, fun _ => ⟨.inl rfl, by simp⟩⟩
  | sending call =>
    rw [updateCommit_inFlight doing.1]
    exact ⟨.sending call, doing, fun _ => ⟨.inl rfl, by simp⟩⟩

theorem informed_finishChange {newCommit : CommitId} (noDiffs : container.diffs = [])
    (noCalls : container.calls = [])
    (towards : container.diffFailed = false → container.currentCommit = some head ∨
      container.currentCommit = none ∧ newCommit = head) :
    (container.finishChange newCommit).Informed head :=
  informed_sendCommit_idle ⟨rfl, noDiffs, noCalls⟩ towards

theorem Informed.onPageChange {timestamp : CommitId → Int64}
    {answer : Except Status (List EntryChange)} (informed : container.Informed head)
    (isNext : container.onPageChange limits timestamp index answer = some next) :
    next.Informed head := by
  obtain ⟨activity, doing, towards⟩ := informed
  obtain ⟨newCommit, rfl, outcome⟩ := onPageChange_cases doing isNext
  obtain ⟨inFlight, -, noCalls⟩ := doing
  rcases outcome with ⟨status, -, rfl⟩ | ⟨changes, -, -, rfl⟩ |
    ⟨changes, page, state, rest, -, -, isState, rfl⟩
  · exact ⟨.idle, ⟨rfl, rfl, noCalls⟩, fun notFailed => by simp at notFailed⟩
  · exact informed_finishChange rfl noCalls fun notFailed => (towards notFailed).1
  · refine ⟨.sending ⟨state, newCommit, rest⟩, ⟨inFlight, rfl, by simp [sendChange, noCalls], ?_⟩,
      fun notFailed => ⟨(towards notFailed).1, by simp⟩⟩
    rcases isState with ⟨rfl, rfl⟩ | ⟨notLast, rfl⟩
    · simp
    · simpa using notLast

theorem Informed.onAcknowledged (informed : container.Informed head)
    (isNext : container.onAcknowledged index = some next) : next.Informed head := by
  obtain ⟨activity, doing, towards⟩ := informed
  obtain ⟨call, rfl, outcome⟩ := onAcknowledged_cases doing isNext
  obtain ⟨inFlight, noDiffs, isCalls, -⟩ := doing
  rcases outcome with ⟨page, rest, isRest, rfl⟩ | ⟨-, rfl⟩
  · refine ⟨.sending ⟨_, call.newCommit, rest⟩, ⟨inFlight, noDiffs, rfl, ?_⟩,
      fun notFailed => ⟨(towards notFailed).1, by simp⟩⟩
    by_cases isNil : rest = []
    · simp [isNil]
    · simp [isNil]
  · exact informed_finishChange noDiffs rfl fun notFailed => (towards notFailed).1

end PageWatcherContainer

structure LeadsTo (OnWay : CommitId → PageWatcherContainer → Prop) : Prop where
  doing : ∀ {head : CommitId} {watcher : PageWatcherContainer}, OnWay head watcher →
    ∃ activity, watcher.Doing activity
  setOnDrainedCallback : ∀ {head : CommitId} {watcher : PageWatcherContainer}
    (onDrained : Option DrainedCallback), OnWay head watcher →
    OnWay head (watcher.setOnDrainedCallback onDrained)
  updateCommit : ∀ {watcher : PageWatcherContainer} {activity : WatcherActivity},
    watcher.Doing activity → ∀ commit, OnWay commit (watcher.updateCommit commit)

theorem leadsTo_informed :
    LeadsTo fun head watcher => PageWatcherContainer.Informed head watcher where
  doing informed := ⟨informed.choose, informed.choose_spec.1⟩
  setOnDrainedCallback onDrained informed := informed.setOnDrainedCallback onDrained
  updateCommit doing commit := informed_updateCommit doing commit

namespace BranchTracker

variable {OnWay : CommitId → PageWatcherContainer → Prop} {graph : CommitGraph}
  {tracker next : BranchTracker} {react : PageWatcherContainer → Option PageWatcherContainer}

/-- The watchers are on their way to the head, unless they are told when the transaction in
progress ends. -/
structure Told (OnWay : CommitId → PageWatcherContainer → Prop) (tracker : BranchTracker) :
    Prop where
  current : tracker.currentCommit = none ∨
    tracker.currentCommit = some tracker.currentCommitId
  watchers : ∀ watcher ∈ tracker.watchers, ∃ head, OnWay head watcher ∧
    (tracker.transactionInProgress = false ∨ tracker.currentCommit = none →
      head = tracker.currentCommitId)

theorem told_new (commitId : CommitId) : (new commitId).Told OnWay :=
  ⟨.inl rfl, by simp [new]⟩

theorem Told.updateAll {update : PageWatcherContainer → PageWatcherContainer}
    (told : tracker.Told OnWay) (leads : LeadsTo OnWay) {inProgress : Bool} {head : CommitId}
    (updates : ∀ (watcher : PageWatcherContainer) (activity : WatcherActivity),
      watcher.Doing activity → OnWay head (update watcher)) : ({ tracker with
      transactionInProgress := inProgress
      currentCommitId := head
      currentCommit := some head
      watchers := tracker.watchers.map update } : BranchTracker).Told OnWay := by
  refine ⟨.inr rfl, forall_mem_map.mpr fun watcher inWatchers => ?_⟩
  obtain ⟨_, onWay, -⟩ := told.watchers watcher inWatchers
  obtain ⟨activity, doing⟩ := leads.doing onWay
  exact ⟨head, updates watcher activity doing, fun _ => rfl⟩

theorem Told.onNewCommits (told : tracker.Told OnWay) (leads : LeadsTo OnWay)
    (commits : List CommitId) : (tracker.onNewCommits graph commits).Told OnWay := by
  rcases @onNewCommits_cases graph tracker commits with unmoved | ⟨head, -, isMoved⟩
  · rw [unmoved]
    exact told
  · rw [isMoved]
    cases inProgress : tracker.transactionInProgress with
    | false =>
      simp only [Bool.false_eq_true, if_false]
      exact told.updateAll leads fun watcher activity doing => leads.updateCommit doing head
    | true =>
      refine ⟨.inr rfl, fun watcher inWatchers => ?_⟩
      obtain ⟨other, onWay, -⟩ := told.watchers watcher inWatchers
      exact ⟨other, onWay, by simp⟩

section

variable (told : tracker.Told OnWay)
include told

theorem Told.startTransaction {onDrained : DrainedCallback}
    (leads : LeadsTo OnWay) (isStarted : tracker.startTransaction onDrained = some next) :
    next.Told OnWay ∧ next.currentCommit = tracker.currentCommit := by
  unfold BranchTracker.startTransaction at isStarted
  obtain ⟨-, isStarted⟩ := ite_none_left_eq_some.mp isStarted
  cases isStarted
  refine ⟨⟨told.current, forall_mem_map.mpr fun watcher inWatchers => ?_⟩, rfl⟩
  obtain ⟨head, onWay, isHead⟩ := told.watchers watcher inWatchers
  refine ⟨head, leads.setOnDrainedCallback _ onWay, fun isQuiet => isHead ?_⟩
  rcases isQuiet with notInProgress | noCurrent
  · simp at notInProgress
  · exact .inr noCurrent

theorem Told.stopTransaction (leads : LeadsTo OnWay)
    (isStopped : tracker.stopTransaction commit = some next) :
    next.Told OnWay ∧ next.currentCommit = commit.or tracker.currentCommit := by
  have updates (commit : CommitId) (watcher : PageWatcherContainer) (activity : WatcherActivity)
      (doing : watcher.Doing activity) :
      OnWay commit ((watcher.setOnDrainedCallback none).updateCommit commit) :=
    leads.updateCommit (doing.setOnDrainedCallback none) commit
  unfold BranchTracker.stopTransaction at isStopped
  split at isStopped
  case isTrue =>
    obtain ⟨isNone, isStopped⟩ := ite_none_right_eq_some.mp isStopped
    cases isStopped
    rw [isNone]
    exact ⟨told, by simp⟩
  case isFalse =>
    cases isStopped
    cases commit with
    | some commit => exact ⟨told.updateAll leads (updates commit), rfl⟩
    | none =>
      cases isCurrent : tracker.currentCommit with
      | none =>
        refine ⟨⟨.inl rfl, fun watcher inWatchers => ?_⟩, rfl⟩
        obtain ⟨head, onWay, isHead⟩ := told.watchers watcher inWatchers
        exact ⟨head, onWay, fun _ => isHead (.inr isCurrent)⟩
      | some head =>
        have isHead : head = tracker.currentCommitId := by
          rcases told.current with noCurrent | isCurrentId
          · exact nomatch isCurrent.symm.trans noCurrent
          · exact some.inj (isCurrent.symm.trans isCurrentId)
        subst isHead
        exact ⟨told.updateAll leads (updates _), rfl⟩

theorem Told.registerPageWatcher {commitId : CommitId} {keyPrefix : Key}
    (isNew : ∃ head, OnWay head (.new keyPrefix commitId) ∧
      (tracker.transactionInProgress = false ∨ tracker.currentCommit = none →
        head = tracker.currentCommitId)) :
    (tracker.registerPageWatcher commitId keyPrefix).Told OnWay := by
  refine ⟨told.current, fun watcher inWatchers => ?_⟩
  rcases mem_append.mp inWatchers with inWatchers | isLast
  · exact told.watchers watcher inWatchers
  · rw [mem_singleton.mp isLast]
    exact isNew

end

theorem rest_updateWatcher (isUpdated : tracker.updateWatcher index react = some next) :
    next.currentCommit = tracker.currentCommit ∧
      next.transactionInProgress = tracker.transactionInProgress := by
  unfold updateWatcher at isUpdated
  split at isUpdated
  · simp at isUpdated
  · obtain ⟨after, -, rfl⟩ := map_eq_some_iff.mp isUpdated
    exact ⟨rfl, rfl⟩

theorem Told.updateWatcher (told : tracker.Told OnWay)
    (isUpdated : tracker.updateWatcher index react = some next)
    (reacts : ∀ (watcher after : PageWatcherContainer) (head : CommitId),
      react watcher = some after → OnWay head watcher → OnWay head after) : next.Told OnWay := by
  obtain ⟨sameCurrent, sameProgress⟩ := rest_updateWatcher isUpdated
  have sameHead := head_updateWatcher isUpdated
  constructor
  · rw [sameCurrent, sameHead]
    exact told.current
  · rw [sameCurrent, sameProgress, sameHead]
    refine forall_watchers_updateWatcher told.watchers isUpdated ?_
    rintro watcher after - isAfter ⟨head, onWay, isHead⟩
    exact ⟨head, reacts watcher after head isAfter onWay, isHead⟩

theorem Told.disconnect (told : tracker.Told OnWay) (index : Nat) :
    (tracker.disconnect index).Told OnWay :=
  ⟨told.current, fun watcher inWatchers => told.watchers watcher (mem_of_mem_eraseIdx inWatchers)⟩

end BranchTracker

namespace PageConnection

variable {graph : CommitGraph} {limits : MessageLimits} {connection next : PageConnection}
    {event : ConnectionEvent}

def anchors (connection : PageConnection) : List CommitId :=
  connection.journal.toList ++
    match connection.stage with
    | some (.getCommit commitId _) => [commitId]
    | some (.startExplicit base) => [base]
    | _ => []

/-- The watchers are told about the head, and while it has not moved it is the only commit of
the connection. -/
structure Told (connection : PageConnection) : Prop where
  tracker : connection.tracker.Told fun head watcher => watcher.Informed head
  anchored : connection.tracker.currentCommit = none →
    ∀ commitId ∈ connection.anchors, commitId = connection.head

/-- What `startNext` needs. -/
structure ReadyTold (connection : PageConnection) : Prop where
  tracker : connection.tracker.Told fun head watcher => watcher.Informed head
  journal : connection.tracker.currentCommit = none →
    ∀ base ∈ connection.journal, base = connection.head

theorem Told.ready (told : connection.Told) : connection.ReadyTold := by
  refine ⟨told.tracker, fun noCurrent base isJournal => told.anchored noCurrent base ?_⟩
  simp [anchors, mem_def.mp isJournal]

theorem ReadyTold.told (ready : connection.ReadyTold)
    (noAnchor : connection.anchors = connection.journal.toList) : connection.Told :=
  ⟨ready.tracker, by simpa [noAnchor] using ready.journal⟩

theorem told_runInTransaction (ready : connection.ReadyTold)
    (isNext : connection.runInTransaction = some next) : next.Told := by
  unfold runInTransaction at isNext
  split at isNext
  · cases isNext
    exact ReadyTold.told ⟨ready.tracker, ready.journal⟩ (by simp [anchors])
  case h_2 noJournal =>
    obtain ⟨tracker, isStarted, rfl⟩ := map_eq_some_iff.mp isNext
    exact ⟨(ready.tracker.startTransaction leadsTo_informed isStarted).1, by simp [anchors, noJournal]⟩

theorem told_startNext {queue : List PageOperation} (ready : connection.ReadyTold)
    (isNext : startNext queue connection = some next) : next.Told := by
  refine startNext_rule ReadyTold Told ?_ ?_ ready isNext
  · intro started ready queue _
    have isCurrent : started.tracker.currentCommit = none →
        started.getCurrentCommitId = started.head := by
      intro noCurrent
      unfold getCurrentCommitId
      split
      · rfl
      case h_2 base isJournal => exact ready.journal noCurrent base isJournal
    have atStage {stage : Option OperationStage} {waiting : List PageOperation}
        (noAnchor : ({ started with stage, queue := waiting } : PageConnection).anchors =
          started.journal.toList) :
        ({ started with stage, queue := waiting } : PageConnection).Told :=
      ReadyTold.told ⟨ready.tracker, ready.journal⟩ noAnchor
    refine ⟨atStage (by simp [anchors]), fun watcher => ⟨ready.tracker, ?_⟩,
      atStage (by simp [anchors]), ?_, fun noJournal => ⟨ready.tracker, ?_⟩, ?_⟩
    · intro noCurrent commitId isAnchor
      rcases mem_append.mp isAnchor with isJournal | isStage
      · exact ready.journal noCurrent commitId (by simpa using isJournal)
      · rw [mem_singleton.mp isStage]
        exact isCurrent noCurrent
    · intro next isNext
      exact @told_runInTransaction { started with queue } next
        ⟨ready.tracker, ready.journal⟩ isNext
    · simp [anchors, noJournal]
    · intro base isJournal
      exact ⟨⟨ready.tracker, by simp [anchors]⟩, ready.tracker, by simp [anchors]⟩
  · intro _ started tracker ready isStopped
    obtain ⟨told, sameCurrent⟩ := ready.tracker.stopTransaction leadsTo_informed isStopped
    have sameHead := head_stopTransaction isStopped
    refine ⟨told, ?_⟩
    rw [sameCurrent, head, sameHead]
    exact ready.journal

theorem told_stopThenFinish (ready : connection.ReadyTold)
    (isNext : connection.stopThenFinish commit = some next) : next.Told := by
  obtain ⟨tracker, isStopped, isFinished⟩ := bind_eq_some_iff.mp isNext
  obtain ⟨told, isCurrent⟩ := ready.tracker.stopTransaction leadsTo_informed isStopped
  refine told_startNext ⟨told, ?_⟩ isFinished
  cases commit with
  | some commit => simp [isCurrent]
  | none =>
    rw [isCurrent, head, head_stopTransaction isStopped]
    exact ready.journal

/-- The condition on a step: a watcher is registered with the head, or while a transaction is
in progress. -/
def RegistersHead (connection : PageConnection) : ConnectionEvent → Prop
  | .answer .ok => ∀ commitId keyPrefix,
      connection.stage = some (.getCommit commitId (some keyPrefix)) →
      connection.tracker.transactionInProgress = true ∨ commitId = connection.head
  | _ => True

section

variable (told : connection.Told)
include told

theorem told_onAnswer {answer : StorageAnswer}
    (registersHead : connection.RegistersHead (.answer answer))
    (isNext : connection.onAnswer graph answer = some next) : next.Told := by
  have ready := told.ready
  rcases onAnswer_cases isNext with finishes | ⟨-, isRun⟩ | ⟨base, -, rfl⟩ | ⟨base, -, rfl⟩ |
    ⟨-, isFinished⟩ | ⟨base, isStage, stops⟩ | ⟨base, tracker, isStage, -, isStarted, rfl⟩
  · rcases finishes with isFinished | ⟨commitId, keyPrefix, rfl, isStage, isFinished⟩
    · exact told_startNext ready isFinished
    · have isHead : connection.tracker.transactionInProgress = false ∨
          connection.tracker.currentCommit = none → commitId = connection.head := by
        rintro (notInProgress | noCurrent)
        · rcases registersHead commitId keyPrefix isStage with inProgress | isHead
          · exact nomatch notInProgress.symm.trans inProgress
          · exact isHead
        · exact told.anchored noCurrent commitId (by simp [anchors, isStage])
      exact @told_startNext { connection with
        tracker := connection.tracker.registerPageWatcher commitId keyPrefix } next _
        ⟨ready.tracker.registerPageWatcher ⟨commitId,
          informed_new keyPrefix commitId, isHead⟩, ready.journal⟩ isFinished
  · exact told_runInTransaction ready isRun
  · exact ReadyTold.told ⟨ready.tracker, ready.journal⟩ (by simp [anchors])
  · exact ReadyTold.told ⟨ready.tracker, ready.journal⟩ (by simp [anchors])
  · exact @told_startNext { connection with stopping := connection.stopping + 1 } next _
      ⟨ready.tracker, ready.journal⟩ isFinished
  · rcases stops with ⟨-, isStopped⟩ | ⟨commit, -, -, isStopped⟩
    · exact told_stopThenFinish ready isStopped
    · exact told_stopThenFinish ready isStopped
  · have isAnchor := fun noCurrent => told.anchored noCurrent base (by simp [anchors, isStage])
    obtain ⟨toldStarted, sameCurrent⟩ := ready.tracker.startTransaction leadsTo_informed isStarted
    refine ReadyTold.told ⟨toldStarted, ?_⟩ (by simp [anchors])
    rw [sameCurrent, head, head_startTransaction isStarted]
    simpa using isAnchor

theorem Told.setTracker {tracker : BranchTracker}
    (toldTracker : tracker.Told fun head watcher => watcher.Informed head)
    (sameCurrent : tracker.currentCommit =
      connection.tracker.currentCommit) (sameHead : tracker.currentCommitId = connection.head) :
    { connection with tracker }.Told := by
  refine ⟨toldTracker, ?_⟩
  rw [sameCurrent, head, sameHead]
  exact told.anchored

variable (registersHead : connection.RegistersHead event)
include registersHead

theorem told_handle (isNext : connection.handle graph limits event = some next) : next.Told := by
  have ready := told.ready
  cases event with
  | call operation =>
    obtain ⟨-, isNext⟩ := ite_none_left_eq_some.mp isNext
    split at isNext
    · exact @told_startNext { connection with closed := decide (operation = .close) } next _
        ⟨ready.tracker, ready.journal⟩ isNext
    · cases isNext
      exact ⟨told.tracker, told.anchored⟩
  | answer answer => exact told_onAnswer told registersHead isNext
  | newCommits commits =>
    cases isNext
    refine ⟨told.tracker.onNewCommits leadsTo_informed commits, ?_⟩
    rcases @onNewCommits_cases graph connection.tracker commits with unmoved |
      ⟨moved, -, isMoved⟩
    · rw [unmoved]
      exact told.anchored
    · simp [isMoved]
  | pageChange watcher diff answer =>
    obtain ⟨tracker, isUpdated, rfl⟩ := map_eq_some_iff.mp isNext
    exact told.setTracker (told.tracker.updateWatcher isUpdated
      fun watcher after head isAfter informed => informed.onPageChange isAfter)
      (rest_updateWatcher isUpdated).1 (head_updateWatcher isUpdated)
  | acknowledge watcher call =>
    obtain ⟨tracker, isUpdated, rfl⟩ := map_eq_some_iff.mp isNext
    exact told.setTracker (told.tracker.updateWatcher isUpdated
      fun watcher after head isAfter informed => informed.onAcknowledged isAfter)
      (rest_updateWatcher isUpdated).1 (head_updateWatcher isUpdated)
  | disconnect watcher =>
    cases isNext
    exact ⟨told.tracker.disconnect watcher, told.anchored⟩
  | stop =>
    obtain ⟨-, isNext⟩ := ite_none_left_eq_some.mp isNext
    obtain ⟨tracker, isStopped, rfl⟩ := map_eq_some_iff.mp isNext
    obtain ⟨toldTracker, sameCurrent⟩ := told.tracker.stopTransaction leadsTo_informed isStopped
    have stopped := told.setTracker toldTracker sameCurrent (head_stopTransaction isStopped)
    exact ⟨stopped.tracker, stopped.anchored⟩

theorem told_step (isNext : connection.step graph limits event = some next) : next.Told := by
  obtain ⟨handled, isHandled, isAnswered⟩ := bind_eq_some_iff.mp isNext
  have toldHandled := told_handle told registersHead isHandled
  unfold answerDrained at isAnswered
  split at isAnswered
  · exact told_startNext toldHandled.ready isAnswered
  · cases isAnswered
    exact toldHandled

end

/-- In a run whose watchers are registered with the head, or while a transaction is in
progress, a watcher has the head when no transaction is in progress, none of its differences
has failed and none of its calls is outstanding. -/
theorem watchers_have_head {commitId : CommitId} {events : List ConnectionEvent}
    (registersHead : EachStep (step graph limits) RegistersHead (new commitId) events)
    (isRun : runSteps (step graph limits) (new commitId) events = some connection)
    (notInProgress : connection.tracker.transactionInProgress = false) :
    ∀ watcher ∈ connection.tracker.watchers, watcher.diffs = [] → watcher.calls = [] →
      watcher.diffFailed = false → watcher.lastCommit = connection.head := by
  have told : connection.Told :=
    invariant_runSteps Told told_step
      ⟨told_new commitId, by simp [new, anchors]⟩ registersHead isRun
  intro watcher inWatchers noDiffs noCalls notFailed
  obtain ⟨head, ⟨activity, doing, towards⟩, isHead⟩ := told.tracker.watchers watcher inWatchers
  obtain rfl := isHead (.inl notInProgress)
  obtain ⟨isTowards, isDrained⟩ := towards notFailed
  cases activity with
  | diffing newCommit => simp [doing.2.1] at noDiffs
  | sending call => simp [doing.2.2.1] at noCalls
  | idle =>
    have drained := isDrained rfl
    rcases isTowards with isCurrent | ⟨-, isLast⟩
    · simpa [PageWatcherContainer.drained, isCurrent] using drained
    · exact isLast

theorem registersHead_sampleRun : EachStep (step sampleGraph sampleLimits) RegistersHead (new [0])
    [.call (.getSnapshot (some [])), .answer .ok] := by
  have waiting : (runSteps (step sampleGraph sampleLimits) (new [0])
      [.call (.getSnapshot (some []))]).map (fun connection => (connection.stage, connection.head))
        = some (some (.getCommit [0] (some [])), [0]) := by decide
  refine (@eachStep_append _ _ _ _ _ [_] [_]).mpr ⟨?_, ?_⟩
  · simp [EachStep, RegistersHead]
  · intro connection isRun
    rw [isRun, map_some, some.injEq, Prod.mk.injEq] at waiting
    refine ⟨?_, fun _ _ => trivial⟩
    intro commitId keyPrefix isStage
    rw [waiting.1] at isStage
    obtain ⟨rfl, -⟩ := OperationStage.getCommit.inj (some.inj isStage)
    exact .inr waiting.2.symm

/-- A watcher that is registered at once. -/
theorem watchers_have_head_registered :
    ∃ connection, runSteps (step sampleGraph sampleLimits) (new [0])
        [.call (.getSnapshot (some [])), .answer .ok] = some connection ∧
      ∀ watcher ∈ connection.tracker.watchers, watcher.diffs = [] → watcher.calls = [] →
        watcher.diffFailed = false → watcher.lastCommit = connection.head :=
  ⟨_, rfl, watchers_have_head registersHead_sampleRun rfl rfl⟩

/-- A commit arrives before the commit of the snapshot is read: the watcher is never told. -/
theorem watcher_misses_head : ∃ events connection watcher,
    runSteps (step sampleGraph sampleLimits) (new [0]) events = some connection ∧
    connection.tracker.transactionInProgress = false ∧ connection.stage = none ∧
    watcher ∈ connection.tracker.watchers ∧ (∀ other ∈ connection.tracker.watchers,
      other.diffs = [] ∧ other.calls = [] ∧ other.diffFailed = false) ∧
    watcher.lastCommit ≠ connection.head := by
  have isRun : runSteps (step sampleGraph sampleLimits) (new [0])
      [.call (.getSnapshot (some [])), .newCommits [[1]], .answer .ok] =
      some ⟨⟨[1], some [1], false, [.new [] [0]]⟩, none, none, [], 0, false, [[1]]⟩ := rfl
  exact ⟨_, _, .new [] [0], isRun, rfl, rfl, by simp, by simp [PageWatcherContainer.new],
    by decide⟩

end PageConnection

end Peridot
