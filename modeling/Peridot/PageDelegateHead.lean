import Peridot.PageDelegate
import Peridot.AutoMerge

/-!
# The head of a page connection

The head follows the branch while commits are reported, and jumps to the commit of a
transaction when it ends.  It can go back when the transaction has made no new commit.
-/

namespace Peridot

open Option BranchTracker

def OperationStage.base : OperationStage → Option CommitId
  | .startImplicit base | .writeImplicit base | .commitImplicit base => some base
  | .startExplicit base | .commitExplicit base => some base
  | .getCommit .. | .getObject | .writeExplicit | .draining | .rollbackExplicit => none

namespace BranchTracker

variable {tracker next : BranchTracker}

theorem head_updateWatchers (tracker : BranchTracker) :
    tracker.updateWatchers.currentCommitId = tracker.currentCommitId := by
  unfold updateWatchers
  split <;> rfl

theorem head_stopTransaction {commit : Option CommitId}
    (isStopped : tracker.stopTransaction commit = some next) :
    next.currentCommitId = commit.getD tracker.currentCommitId := by
  unfold stopTransaction at isStopped
  split at isStopped
  case isTrue =>
    obtain ⟨isNone, isStopped⟩ := ite_none_right_eq_some.mp isStopped
    cases isStopped
    rw [isNone]
    rfl
  case isFalse =>
    cases isStopped
    exact head_updateWatchers _

theorem head_startTransaction {onDrained : DrainedCallback}
    (isStarted : tracker.startTransaction onDrained = some next) :
    next.currentCommitId = tracker.currentCommitId := by
  unfold startTransaction at isStarted
  obtain ⟨-, isStarted⟩ := ite_none_left_eq_some.mp isStarted
  cases isStarted
  rfl

theorem head_updateWatcher {index : Nat}
    {react : PageWatcherContainer → Option PageWatcherContainer}
    (isUpdated : tracker.updateWatcher index react = some next) :
    next.currentCommitId = tracker.currentCommitId := by
  unfold updateWatcher at isUpdated
  split at isUpdated
  · simp at isUpdated
  · obtain ⟨container, -, rfl⟩ := map_eq_some_iff.mp isUpdated
    rfl

end BranchTracker

namespace PageConnection

variable {graph : CommitGraph} {limits : MessageLimits} {connection next : PageConnection}
    {event : ConnectionEvent}

abbrev head (connection : PageConnection) : CommitId :=
  connection.tracker.currentCommitId

/-- The head is the base, or was set by `OnNewCommits` since the base was read. -/
def OnBranch (connection : PageConnection) (base : CommitId) : Prop :=
  connection.head = base ∨ connection.head ∈ connection.passed

/-- The head belongs to the branch of the transaction in progress. -/
structure FollowsBase (connection : PageConnection) : Prop where
  stage : ∀ base, connection.stage.bind OperationStage.base = some base →
    connection.OnBranch base ∧ connection.journal = none
  journal : ∀ base, connection.journal = some base → connection.OnBranch base

theorem FollowsBase.setTracker {tracker : BranchTracker} (follows : connection.FollowsBase)
    (sameHead : tracker.currentCommitId = connection.head) :
    { connection with tracker }.FollowsBase := by
  constructor
  case stage => simpa only [OnBranch, head, sameHead] using follows.stage
  case journal => simpa only [OnBranch, head, sameHead] using follows.journal

theorem head_runInTransaction (isNext : connection.runInTransaction = some next) :
    next.head = connection.head := by
  unfold runInTransaction at isNext
  split at isNext
  · cases isNext
    rfl
  · obtain ⟨tracker, isStarted, rfl⟩ := map_eq_some_iff.mp isNext
    exact head_startTransaction isStarted

theorem followsBase_runInTransaction
    (follows : ∀ base, connection.journal = some base → connection.OnBranch base)
    (isNext : connection.runInTransaction = some next) : next.FollowsBase := by
  unfold runInTransaction at isNext
  split at isNext
  · cases isNext
    exact ⟨by simp [OperationStage.base], follows⟩
  case h_2 noJournal =>
    obtain ⟨tracker, isStarted, rfl⟩ := map_eq_some_iff.mp isNext
    refine ⟨?_, by simp [noJournal]⟩
    intro base isBase
    cases isBase
    exact ⟨.inl (head_startTransaction isStarted), noJournal⟩

theorem followsBase_startNext {queue : List PageOperation}
    (follows : ∀ base, connection.journal = some base → connection.OnBranch base)
    (isNext : startNext queue connection = some next) :
    next.FollowsBase ∧ next.head = connection.head := by
  refine startNext_rule (fun started => started.head = connection.head ∧
      ∀ base, started.journal = some base → started.OnBranch base)
    (fun started => started.FollowsBase ∧ started.head = connection.head) ?_ ?_ ⟨rfl, follows⟩ isNext
  · rintro started ⟨sameHead, follows⟩ queue -
    refine ⟨⟨⟨by simp, follows⟩, sameHead⟩, fun watcher => ⟨⟨by simp [OperationStage.base], follows⟩,
      sameHead⟩, ⟨⟨by simp [OperationStage.base], follows⟩, sameHead⟩, ?_, ?_, ?_⟩
    · intro next isNext
      exact ⟨@followsBase_runInTransaction { started with queue } next follows isNext,
        (head_runInTransaction isNext).trans sameHead⟩
    · intro noJournal
      refine ⟨⟨?_, by simp [noJournal]⟩, sameHead⟩
      intro base isBase
      cases isBase
      exact ⟨.inl rfl, noJournal⟩
    · intro base isJournal
      refine ⟨⟨⟨?_, by simp⟩, sameHead⟩, ⟨by simp [OperationStage.base], by simp⟩, sameHead⟩
      intro other isBase
      cases isBase
      exact ⟨follows base isJournal, rfl⟩
  · rintro - started tracker ⟨sameHead, follows⟩ isStopped
    have stoppedHead : tracker.currentCommitId = started.head := head_stopTransaction isStopped
    refine ⟨stoppedHead.trans sameHead, fun base isJournal => ?_⟩
    rw [OnBranch, head, stoppedHead]
    exact follows base isJournal

section

variable (follows : connection.FollowsBase)
include follows

theorem followsBase_onAnswer {answer : StorageAnswer}
    (isNext : connection.onAnswer graph answer = some next) :
    next.FollowsBase ∧ (next.head = connection.head ∨
      ∃ base commit, connection.stage.bind OperationStage.base = some base ∧
        answer = .committed commit ∧ (commit = base ∨ graph.parents commit = [base]) ∧
        next.head = commit) := by
  rcases onAnswer_cases isNext with finishes | ⟨-, isRun⟩ | ⟨base, isStage, rfl⟩ |
    ⟨base, isStage, rfl⟩ | ⟨-, isFinished⟩ | ⟨base, isStage, stops⟩ |
    ⟨base, tracker, isStage, -, isStarted, rfl⟩
  · rcases finishes with isFinished | ⟨commitId, keyPrefix, -, -, isFinished⟩
    · obtain ⟨followsNext, sameHead⟩ := followsBase_startNext follows.journal isFinished
      exact ⟨followsNext, .inl sameHead⟩
    · obtain ⟨followsNext, sameHead⟩ := @followsBase_startNext { connection with
        tracker := connection.tracker.registerPageWatcher commitId keyPrefix } _ _ follows.journal
        isFinished
      exact ⟨followsNext, .inl sameHead⟩
  · exact ⟨followsBase_runInTransaction follows.journal isRun, .inl (head_runInTransaction isRun)⟩
  · have isBase := follows.stage base (by rw [isStage]; rfl)
    refine ⟨⟨?_, follows.journal⟩, .inl rfl⟩
    intro other isOther
    cases isOther
    exact isBase
  · have isBase := follows.stage base (by rw [isStage]; rfl)
    refine ⟨⟨?_, follows.journal⟩, .inl rfl⟩
    intro other isOther
    cases isOther
    exact isBase
  · obtain ⟨followsNext, sameHead⟩ := @followsBase_startNext { connection with
      stopping := connection.stopping + 1 } _ _ follows.journal isFinished
    exact ⟨followsNext, .inl sameHead⟩
  · have isBase : connection.stage.bind OperationStage.base = some base := by
      rcases isStage with isStage | isStage
      · rw [isStage]
        rfl
      · rw [isStage]
        rfl
    have noJournal := (follows.stage base isBase).2
    rcases stops with ⟨-, isStopped⟩ | ⟨commit, isCommitted, isChild, isStopped⟩
    · obtain ⟨tracker, isStopped, isFinished⟩ := bind_eq_some_iff.mp isStopped
      obtain ⟨followsNext, sameHead⟩ := followsBase_startNext (by simp [noJournal]) isFinished
      exact ⟨followsNext, .inl (sameHead.trans (head_stopTransaction isStopped))⟩
    · obtain ⟨tracker, isStopped, isFinished⟩ := bind_eq_some_iff.mp isStopped
      obtain ⟨followsNext, sameHead⟩ := followsBase_startNext (by simp [noJournal]) isFinished
      exact ⟨followsNext, .inr ⟨base, commit, isBase, isCommitted, isChild,
        sameHead.trans (head_stopTransaction isStopped)⟩⟩
  · have isBase := follows.stage base (by rw [isStage]; rfl)
    have sameHead := head_startTransaction isStarted
    refine ⟨⟨by simp [OperationStage.base], ?_⟩, .inl sameHead⟩
    intro other isOther
    cases isOther
    rw [OnBranch, head, sameHead]
    exact isBase.1

/-- A step of the connection: the head stays, goes on to a descendant, or becomes the commit
of a transaction. -/
theorem followsBase_handle (isNext : connection.handle graph limits event = some next) :
    next.FollowsBase ∧ (next.head = connection.head ∨
      graph.StrictAncestor connection.head next.head ∨
      ∃ base commit, connection.stage.bind OperationStage.base = some base ∧
        event = .answer (.committed commit) ∧ (commit = base ∨ graph.parents commit = [base]) ∧
        next.head = commit) := by
  cases event with
  | call operation =>
    obtain ⟨-, isNext⟩ := ite_none_left_eq_some.mp isNext
    split at isNext
    · obtain ⟨followsNext, sameHead⟩ := @followsBase_startNext { connection with
        closed := decide (operation = .close) } _ _ follows.journal isNext
      exact ⟨followsNext, .inl sameHead⟩
    · cases isNext
      exact ⟨⟨follows.stage, follows.journal⟩, .inl rfl⟩
  | answer answer =>
    obtain ⟨followsNext, moved⟩ := followsBase_onAnswer follows isNext
    refine ⟨followsNext, ?_⟩
    rcases moved with sameHead | ⟨base, commit, isBase, rfl, isChild, isHead⟩
    · exact .inl sameHead
    · exact .inr (.inr ⟨base, commit, isBase, rfl, isChild, isHead⟩)
  | newCommits commits =>
    cases isNext
    have isPassed : (connection.tracker.onNewCommits graph commits).currentCommitId ∈
        connection.passed ++ [(connection.tracker.onNewCommits graph commits).currentCommitId] := by
      simp
    refine ⟨⟨fun base isBase => ⟨.inr isPassed, (follows.stage base isBase).2⟩,
      fun base _ => .inr isPassed⟩, ?_⟩
    rcases onNewCommits_cases connection.tracker commits with unmoved |
      ⟨moved, strict, isMoved⟩
    · rw [head, unmoved]
      exact .inl rfl
    · rw [head, isMoved]
      exact .inr (.inl strict)
  | pageChange watcher diff answer | acknowledge watcher call =>
    obtain ⟨tracker, isUpdated, rfl⟩ := map_eq_some_iff.mp isNext
    have sameHead := head_updateWatcher isUpdated
    exact ⟨follows.setTracker sameHead, .inl sameHead⟩
  | disconnect watcher =>
    cases isNext
    exact ⟨⟨follows.stage, follows.journal⟩, .inl rfl⟩
  | stop =>
    obtain ⟨-, isNext⟩ := ite_none_left_eq_some.mp isNext
    obtain ⟨tracker, isStopped, rfl⟩ := map_eq_some_iff.mp isNext
    have sameHead := head_stopTransaction isStopped
    have stopped := follows.setTracker sameHead
    exact ⟨⟨stopped.stage, stopped.journal⟩, .inl sameHead⟩

theorem followsBase_answerDrained (isNext : connection.answerDrained = some next) :
    next.FollowsBase ∧ next.head = connection.head := by
  unfold answerDrained at isNext
  split at isNext
  · exact followsBase_startNext follows.journal isNext
  · cases isNext
    exact ⟨follows, rfl⟩

theorem followsBase_step (isNext : connection.step graph limits event = some next) :
    next.FollowsBase := by
  obtain ⟨handled, isHandled, isAnswered⟩ := bind_eq_some_iff.mp isNext
  exact (followsBase_answerDrained (followsBase_handle follows isHandled).1 isAnswered).1

end

/-- The condition on a step: when `CommitJournal` is answered with a commit, no head that
`OnNewCommits` has set since the transaction read its base was made from that commit. -/
def AnswersInTime (graph : CommitGraph) (connection : PageConnection) :
    ConnectionEvent → Prop
  | .answer (.committed commit) => ∀ passed ∈ connection.passed,
      ¬graph.StrictAncestor commit passed
  | _ => True

theorem head_step (follows : connection.FollowsBase) (inTime : connection.AnswersInTime graph event)
    (isNext : connection.step graph limits event = some next) :
    ¬graph.StrictAncestor next.head connection.head := by
  obtain ⟨handled, isHandled, isAnswered⟩ := bind_eq_some_iff.mp isNext
  obtain ⟨followsHandled, moved⟩ := followsBase_handle follows isHandled
  rw [(followsBase_answerDrained followsHandled isAnswered).2]
  intro back
  rcases moved with sameHead | forward | ⟨base, commit, isBase, rfl, isChild, isHead⟩
  · rw [sameHead] at back
    exact back.irrefl
  · exact forward.asymm back
  · rw [isHead] at back
    rcases (follows.stage base isBase).1 with atBase | isPassed
    · rw [atBase] at back
      rcases isChild with rfl | isParents
      · exact back.irrefl
      · exact back.asymm (.of_parent (by simp [isParents]))
    · exact inTime _ isPassed back

/-- In a run whose transactions are all answered in time, the head never goes back to an
ancestor. -/
theorem head_never_back {commitId : CommitId} {events : List ConnectionEvent}
    {event : ConnectionEvent}
    (isRun : runSteps (step graph limits) (new commitId) events = some connection)
    (isNext : connection.step graph limits event = some next)
    (inTime : EachStep (step graph limits) (AnswersInTime graph) (new commitId)
      (events ++ [event])) : ¬graph.StrictAncestor next.head connection.head := by
  obtain ⟨early, last⟩ := eachStep_append.mp inTime
  have follows : connection.FollowsBase :=
    invariant_runSteps FollowsBase (fun follows _ => followsBase_step follows)
      ⟨by simp [new], by simp [new]⟩ early isRun
  exact head_step follows (last connection isRun).1 isNext

def sampleGraph : CommitGraph where
  parents commit := if commit = [1] then [[0]] else if commit = [2] then [[1]] else []
  generation commit := if commit = [1] then 1 else if commit = [2] then 2 else 0
  generation_lt := by
    intro commit parent isParent
    split at isParent
    · simp_all
    · split at isParent <;> simp_all
  timestamp _ := 0
  contents commit := if commit = [0] then sampleContents [] else sampleContents [[1]]

def sampleLimits : MessageLimits :=
  ⟨1000, 1, 8⟩

theorem answersInTime_delete :
    EachStep (step sampleGraph sampleLimits) (AnswersInTime sampleGraph) (new [0])
      ([.call .delete, .answer .ok, .answer .ok] ++ [.answer (.committed [1])]) := by
  have unmoved : (runSteps (step sampleGraph sampleLimits) (new [0])
      [.call .delete, .answer .ok, .answer .ok]).map (·.passed) = some [] := rfl
  rw [eachStep_append]
  constructor
  · simp [EachStep, AnswersInTime]
  · intro connection isRun
    rw [isRun, map_some, some.injEq] at unmoved
    simp [EachStep, AnswersInTime, unmoved]

/-- An implicit transaction makes a new commit. -/
theorem head_never_back_delete :
    ∃ connection next, runSteps (step sampleGraph sampleLimits) (new [0])
        [.call .delete, .answer .ok, .answer .ok] = some connection ∧
      connection.step sampleGraph sampleLimits (.answer (.committed [1])) = some next ∧
      next.head = [1] ∧ ¬sampleGraph.StrictAncestor next.head connection.head :=
  ⟨_, _, rfl, rfl, rfl, @head_never_back sampleGraph sampleLimits _ _ [0]
    [.call .delete, .answer .ok, .answer .ok] (.answer (.committed [1])) rfl rfl
    answersInTime_delete⟩

/-- A commit arrives while a deletion of an absent key is being committed: the head goes back
to the base of the transaction. -/
theorem head_goes_back : ∃ events event connection next,
    runSteps (step sampleGraph sampleLimits) (new [0]) events = some connection ∧
    connection.step sampleGraph sampleLimits event = some next ∧
    sampleGraph.StrictAncestor next.head connection.head := by
  refine ⟨[.call .delete, .answer .ok, .newCommits [[1]], .answer .ok],
    .answer (.committed [0]), _, _, rfl, rfl, ?_⟩
  exact .of_parent (by decide)

end PageConnection

end Peridot
