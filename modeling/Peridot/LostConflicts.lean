import Peridot.MergeResolver

/-!
# Conflicts that are not lost

A check for conflicts is skipped while another check, a merge or a delay is in progress.  A new
head is seen nevertheless when the check in progress does not answer with older heads, and when
no strategy is given while a merge has left its change of the strategy to the next one.
-/

namespace Peridot

open Option List

namespace ResolverWorld

/-- The only task left is not skipped because of a check with one head that is not the head any
more, and no strategy is given while the resolver still has to take its strategy away, after a
merge that was delayed. -/
def LooksAgain (world : ResolverWorld) : ResolverEvent → Prop
  | .runTask _ => world.resolver.strategy.isSome → world.tasks.length = 1 →
      ∀ check ∈ world.headsCall, ∀ heads ∈ check.read, heads.length = 1 →
        heads = world.storage.getHeadCommitIds
  | .setMergeStrategy strategy => strategy.isSome → world.resolver.hasNextStrategy →
      world.resolver.nextStrategy = none → world.resolver.mergeInProgress
  | _ => True

instance decidableLooksAgain (world : ResolverWorld) : ∀ event, Decidable (world.LooksAgain event)
  | .runTask _ => inferInstanceAs (Decidable (_ → _ → ∀ check ∈ world.headsCall,
      ∀ heads ∈ check.read, _ → _))
  | .setMergeStrategy _ => inferInstanceAs (Decidable (_ → _ → _ → _))
  | .newCommits _ _ | .registerNoConflictCallback | .readHeads | .answerHeads _
  | .answerGetCommits | .answerStartMergeCommit _ | .answerCommitJournal _
  | .answerFindCommonAncestor _ | .answerMerge _ | .endDelay => .isTrue trivial

/-- The heads that a check has read are those of the storage, if it has found no conflict. -/
def UpToDate (world : ResolverWorld) : Prop :=
  ∃ check ∈ world.headsCall, ∀ heads ∈ check.read, heads.length = 1 →
    heads = world.storage.getHeadCommitIds

def WillCheck (world : ResolverWorld) : Prop :=
  world.tasks ≠ [] ∨ world.merge.isSome ∨ world.resolver.inDelay

/-- The flags and counters of the resolver tell what is under way. -/
structure Tracked (world : ResolverWorld) : Prop where
  counts : world.resolver.checkConflictsTaskCount = world.tasks.length
  checking : world.resolver.checkConflictsInProgress = world.headsCall.isSome
  merging : world.resolver.mergeInProgress = world.merge.isSome
  delaying : world.delayTasks = if world.resolver.inDelay then 1 else 0
  mergesAlone : world.merge.isSome → world.headsCall = none ∧ world.resolver.inDelay = false
  delaysAlone : world.resolver.inDelay → world.headsCall = none
  hasStrategy : world.merge.isSome → world.resolver.strategy.isSome
  isGiven : world.givenStrategy.isSome → world.resolver.strategy.isSome ∧
    (world.resolver.hasNextStrategy → world.resolver.nextStrategy.isSome)
  registered : world.checked ≤ world.registered

/-- Heads are seen by a check that is still to come, and so are the callbacks. -/
structure Watched (world : ResolverWorld) : Prop extends world.Tracked where
  headsSeen : world.resolver.strategy.isSome →
    world.storage.HasOneHead ∨ world.WillCheck ∨ world.UpToDate
  callbacksSeen : world.resolver.strategy.isSome →
    (∀ callback ∈ world.resolver.noConflictCallbacks, world.checked ≤ callback) ∨
      world.WillCheck ∨ world.headsCall.isSome

theorem Watched.noLostConflict {world : ResolverWorld} (watched : world.Watched) :
    world.NoLostConflict := by
  have stops : world.Quiet → ¬world.WillCheck := by
    rintro quiet (hasTask | hasMerge | inDelay)
    · exact hasTask quiet.noTask
    · rw [quiet.noMerge] at hasMerge
      cases hasMerge
    · have delayed := watched.delaying
      rw [inDelay, quiet.noDelay] at delayed
      cases delayed
  have isSome : world.HasStrategy → world.resolver.strategy.isSome := fun hasStrategy =>
    hasStrategy.elim id fun isGiven => (watched.isGiven isGiven).1
  constructor
  · intro quiet hasStrategy
    rcases watched.headsSeen (isSome hasStrategy) with oneHead | willCheck | ⟨check, isCheck, -⟩
    · exact oneHead
    · exact absurd willCheck (stops quiet)
    · exact nomatch quiet.noHeadsCall.symm.trans isCheck
  · intro quiet hasStrategy
    rcases watched.callbacksSeen (isSome hasStrategy) with noneWaits | willCheck | isCheck
    · exact noneWaits
    · exact absurd willCheck (stops quiet)
    · rw [quiet.noHeadsCall] at isCheck
      cases isCheck

variable {world next : ResolverWorld} {delayedStatus : DelayedStatus}

theorem Tracked.watched (tracked : world.Tracked) (willCheck : world.WillCheck) : world.Watched :=
  { tracked with
    headsSeen := fun _ => .inr (.inl willCheck)
    callbacksSeen := fun _ => .inr (.inl willCheck) }

theorem Tracked.postCheckConflicts (tracked : world.Tracked) (delayedStatus : DelayedStatus) :
    (world.postCheckConflicts delayedStatus).Watched := by
  refine Tracked.watched { tracked with counts := ?_ } (.inl (by simp [ResolverWorld.postCheckConflicts]))
  simp [ResolverWorld.postCheckConflicts, tracked.counts]

theorem watched_new (storage : ResolverStorage) : (new storage).Watched := by
  refine Tracked.postCheckConflicts ⟨rfl, rfl, rfl, rfl, ?_, ?_, ?_, ?_, le_rfl⟩ _
  all_goals exact nofun

theorem Tracked.checkConflicts (tracked : world.Tracked) (delayedStatus : DelayedStatus)
    (upToDate : world.resolver.strategy.isSome → world.headsCall.isSome →
      world.WillCheck ∨ world.UpToDate) : (world.checkConflicts delayedStatus).Watched := by
  unfold ResolverWorld.checkConflicts
  split
  case isTrue skipped =>
    simp only [Bool.or_eq_true, isNone_iff_eq_none] at skipped
    rcases skipped with ((noStrategy | merging) | checking) | inDelay
    · exact { tracked with
        headsSeen := fun isSome => by simp [noStrategy] at isSome
        callbacksSeen := fun isSome => by simp [noStrategy] at isSome }
    · exact tracked.watched (.inr (.inl (tracked.merging ▸ merging)))
    · have isCheck : world.headsCall.isSome := tracked.checking ▸ checking
      exact { tracked with
        headsSeen := fun isSome => .inr (upToDate isSome isCheck)
        callbacksSeen := fun _ => .inr (.inr isCheck) }
    · exact tracked.watched (.inr (.inr inDelay))
  case isFalse starts =>
    simp only [Bool.or_eq_true, not_or, Bool.not_eq_true] at starts
    obtain ⟨⟨⟨-, notMerging⟩, -⟩, noDelay⟩ := starts
    have noMerge : world.merge.isSome = false := tracked.merging ▸ notMerging
    exact { tracked with
      checking := rfl
      mergesAlone := fun hasMerge => by simp [noMerge] at hasMerge
      delaysAlone := fun inDelay => by simp [noDelay] at inDelay
      headsSeen := fun _ => .inr (.inr ⟨_, rfl, nofun⟩)
      callbacksSeen := fun _ => .inr (.inr rfl) }

theorem Tracked.cleanup (tracked : world.Tracked) (hasMerge : world.merge.isSome)
    (delayedStatus : DelayedStatus) : (world.cleanup delayedStatus).Watched := by
  obtain ⟨noHeadsCall, noDelay⟩ := tracked.mergesAlone hasMerge
  unfold ResolverWorld.cleanup
  refine Tracked.postCheckConflicts ?_ delayedStatus
  simp only
  split
  case isTrue hasNext =>
    exact { tracked with
      merging := rfl
      mergesAlone := nofun
      hasStrategy := nofun
      isGiven := fun isGiven => ⟨(tracked.isGiven isGiven).2 hasNext, nofun⟩ }
  case isFalse =>
    exact { tracked with
      merging := rfl
      mergesAlone := nofun
      hasStrategy := nofun }

theorem Tracked.call (tracked : world.Tracked) (hasMerge : world.merge.isSome)
    (merge : MergeUnderWay) (call : ResolveCall) : (world.call merge call).Watched :=
  Tracked.watched { tracked with
    merging := tracked.merging.trans hasMerge
    mergesAlone := fun _ => tracked.mergesAlone hasMerge
    hasStrategy := fun _ => tracked.hasStrategy hasMerge } (.inr (.inl rfl))

section

variable (watched : world.Watched)
include watched

theorem Watched.setMergeStrategy {strategy : Option ℕ}
    (taken : strategy.isSome → world.resolver.hasNextStrategy →
      world.resolver.nextStrategy = none → world.resolver.mergeInProgress) :
    (world.setMergeStrategy strategy).Watched := by
  unfold ResolverWorld.setMergeStrategy
  simp only
  split
  case isTrue merging =>
    have hasMerge : world.merge.isSome := watched.merging ▸ merging
    exact Tracked.watched { watched.toTracked with
      isGiven := fun isSome => ⟨watched.hasStrategy hasMerge, fun _ => isSome⟩ }
      (.inr (.inl hasMerge))
  case isFalse notMerging =>
    have noMerge : ¬world.merge.isSome := watched.merging ▸ notMerging
    have tracked : Tracked { world with
        givenStrategy := strategy
        resolver.strategy := strategy } :=
      { watched.toTracked with
        hasStrategy := fun hasMerge => absurd hasMerge noMerge
        isGiven := fun isSome => ⟨isSome, fun hasNext => isSome_iff_ne_none.mpr fun isNone =>
          notMerging (taken isSome hasNext isNone)⟩ }
    split
    case isTrue => exact tracked.postCheckConflicts .dontDelay
    case isFalse noStrategy =>
      exact { tracked with
        headsSeen := fun isSome => absurd isSome noStrategy
        callbacksSeen := fun isSome => absurd isSome noStrategy }

theorem Watched.registerNoConflictCallback : world.registerNoConflictCallback.Watched :=
  { watched with
    registered := watched.registered.trans (Nat.le_succ _)
    callbacksSeen := fun isSome => (watched.callbacksSeen isSome).imp_left fun noneWaits =>
      forall_mem_append.mpr ⟨noneWaits, forall_mem_singleton.mpr watched.registered⟩ }

theorem Watched.runTask {index : ℕ} (isTask : world.tasks[index]? = some delayedStatus)
    (looks : world.resolver.strategy.isSome → world.tasks.length = 1 →
      ∀ check ∈ world.headsCall, ∀ heads ∈ check.read, heads.length = 1 →
        heads = world.storage.getHeadCommitIds) :
    ((world.takeTask index).checkConflicts delayedStatus).Watched := by
  obtain ⟨inTasks, -⟩ := List.getElem?_eq_some_iff.mp isTask
  have tracked : (world.takeTask index).Tracked :=
    { watched.toTracked with
      counts := by simp [takeTask, watched.counts, length_eraseIdx_of_lt inTasks] }
  refine tracked.checkConflicts delayedStatus fun isSome isCheck => ?_
  by_cases lastTask : world.tasks.length = 1
  · obtain ⟨check, found⟩ := isSome_iff_exists.mp isCheck
    exact .inr ⟨check, found, looks isSome lastTask check found⟩
  · refine .inl (.inl fun noTask => ?_)
    have lengths := congrArg List.length noTask
    simp only [takeTask, length_eraseIdx_of_lt inTasks, length_nil] at lengths
    omega

theorem Watched.onHeads {heads : List CommitId}
    (isCall : world.headsCall = some ⟨delayedStatus, some heads⟩) :
    (world.onHeads delayedStatus true heads).Watched := by
  have noMerge : ¬world.merge.isSome := fun hasMerge => by
    simp [(watched.mergesAlone hasMerge).1] at isCall
  have noDelay : world.resolver.inDelay = false := Bool.eq_false_iff.mpr fun inDelay => by
    simp [watched.delaysAlone inDelay] at isCall
  have tracked : world.finishCheck.Tracked :=
    { watched.toTracked with
      checking := rfl
      mergesAlone := fun hasMerge => absurd hasMerge noMerge
      delaysAlone := fun _ => rfl
      registered := le_rfl }
  unfold ResolverWorld.onHeads
  simp only [Bool.not_true, Bool.false_or, beq_iff_eq]
  split
  case isTrue isOne =>
    refine { tracked with headsSeen := fun isSome => ?_, callbacksSeen := fun _ => .inl ?_ }
    · rcases watched.headsSeen isSome with oneHead | willCheck | ⟨check, isCheck, sameHeads⟩
      · exact .inl oneHead
      · exact .inr (.inl willCheck)
      · obtain rfl := some.inj (isCall.symm.trans isCheck)
        have isCurrent := sameHeads heads rfl isOne
        rw [isCurrent, ResolverStorage.length_getHeadCommitIds] at isOne
        exact .inl isOne
    · exact forall_mem_nil _
  case isFalse =>
    split
    case isTrue noStrategy =>
      rw [isNone_iff_eq_none] at noStrategy
      exact { tracked with
        headsSeen := fun isSome => by simp [noStrategy] at isSome
        callbacksSeen := fun isSome => by simp [noStrategy] at isSome }
    case isFalse hasStrategy =>
      refine Tracked.watched { tracked with
        merging := rfl
        mergesAlone := fun _ => ⟨rfl, noDelay⟩
        hasStrategy := fun _ => ?_ } (.inr (.inl rfl))
      exact isSome_iff_ne_none.mpr fun isNone => hasStrategy (isNone_iff_eq_none.mpr isNone)

theorem Watched.onCommits (hasMerge : world.merge.isSome)
    (merge : MergeUnderWay) (commits : CommitImpl × CommitImpl) :
    (world.onCommits merge commits).Watched := by
  obtain ⟨noHeadsCall, noDelay⟩ := watched.mergesAlone hasMerge
  unfold ResolverWorld.onCommits
  split
  · refine Tracked.watched { watched.toTracked with
      merging := rfl
      delaying := ?_
      mergesAlone := nofun
      delaysAlone := fun _ => noHeadsCall
      hasStrategy := nofun } (.inr (.inr rfl))
    simp [startDelay, watched.delaying, noDelay]
  · split
    · exact watched.call hasMerge merge .startMergeCommit
    · split
      · exact watched.cleanup hasMerge _
      · exact watched.call hasMerge merge .findCommonAncestor

end

theorem Tracked.setHasMerged (tracked : world.Tracked) : world.setHasMerged.Tracked :=
  { tracked with counts := tracked.counts }

theorem Tracked.addCommits (tracked : world.Tracked) (commits : List CommitImpl) :
    (world.addCommits commits).Tracked :=
  { tracked with counts := tracked.counts }

theorem Watched.readHeads (watched : world.Watched)
    (isCall : world.headsCall = some ⟨delayedStatus, none⟩) : Watched { world with
      headsCall := some ⟨delayedStatus, some world.storage.getHeadCommitIds⟩ } :=
  { watched with
    checking := watched.checking.trans (by rw [isCall]; rfl)
    mergesAlone := fun hasMerge => by simp [(watched.mergesAlone hasMerge).1] at isCall
    delaysAlone := fun inDelay => by simp [watched.delaysAlone inDelay] at isCall
    headsSeen := fun _ => .inr (.inr ⟨_, rfl, fun heads isRead _ => (some.inj isRead).symm⟩)
    callbacksSeen := fun _ => .inr (.inr rfl) }

theorem Watched.endDelay (watched : world.Watched) (inDelay : world.delayTasks ≠ 0) :
    (world.stopDelay.checkConflicts .dontDelay).Watched := by
  have isDelay : world.resolver.inDelay = true := by
    by_contra notDelay
    have delayed := watched.delaying
    rw [if_neg notDelay] at delayed
    exact inDelay delayed
  have noHeadsCall := watched.delaysAlone isDelay
  have noMerge : ¬world.merge.isSome := fun hasMerge => by
    simp [(watched.mergesAlone hasMerge).2] at isDelay
  have tracked : world.stopDelay.Tracked :=
    { watched.toTracked with
      delaying := by simp [stopDelay, watched.delaying, isDelay]
      mergesAlone := fun hasMerge => absurd hasMerge noMerge
      delaysAlone := nofun }
  refine tracked.checkConflicts .dontDelay fun _ isCheck => ?_
  simp [stopDelay, noHeadsCall] at isCheck

theorem answer_eq_some {call : ResolveCall} {answered : MergeUnderWay → Option ResolverWorld}
    (isAnswer : world.answer call answered = some next) :
    world.merge.isSome ∧ ∃ merge, answered merge = some next := by
  unfold answer at isAnswer
  split at isAnswer
  case h_1 merge isMerge =>
    obtain ⟨-, isAnswer⟩ := ite_none_right_eq_some.mp isAnswer
    exact ⟨by simp [isMerge], merge, isAnswer⟩
  case h_2 => cases isAnswer

theorem Watched.step (watched : world.Watched) {event : ResolverEvent}
    (allowed : event.succeeds ∧ world.LooksAgain event)
    (isStep : world.step event = some next) : next.Watched := by
  obtain ⟨succeeds, looks⟩ := allowed
  cases event with
  | newCommits source commits =>
    cases isStep
    exact (watched.addCommits commits).postCheckConflicts _
  | setMergeStrategy strategy =>
    cases isStep
    exact watched.setMergeStrategy looks
  | registerNoConflictCallback =>
    cases isStep
    exact watched.registerNoConflictCallback
  | runTask index =>
    simp only [ResolverWorld.step] at isStep
    split at isStep
    · cases isStep
    case h_2 delayedStatus isTask =>
      cases isStep
      exact watched.runTask isTask looks
  | readHeads =>
    simp only [ResolverWorld.step] at isStep
    split at isStep
    case h_1 delayedStatus isCall =>
      cases isStep
      exact watched.readHeads isCall
    case h_2 => cases isStep
  | answerHeads isOk =>
    obtain rfl : isOk = true := succeeds
    simp only [ResolverWorld.step] at isStep
    split at isStep
    case h_1 delayedStatus heads isCall =>
      cases isStep
      exact watched.onHeads isCall
    case h_2 => cases isStep
  | answerGetCommits =>
    obtain ⟨hasMerge, merge, isNext⟩ := answer_eq_some isStep
    split at isNext
    case h_1 =>
      cases isNext
      exact watched.onCommits hasMerge merge _
    case h_2 => cases isNext
  | answerStartMergeCommit isOk =>
    obtain rfl : isOk = true := succeeds
    obtain ⟨hasMerge, merge, isNext⟩ := answer_eq_some isStep
    cases isNext
    exact watched.setHasMerged.call hasMerge merge .commitJournal
  | answerCommitJournal isOk | answerMerge isOk =>
    obtain ⟨hasMerge, merge, isNext⟩ := answer_eq_some isStep
    cases isNext
    exact watched.cleanup hasMerge _
  | answerFindCommonAncestor isOk =>
    obtain rfl : isOk = true := succeeds
    obtain ⟨hasMerge, merge, isNext⟩ := answer_eq_some isStep
    cases isNext
    unfold onCommonAncestor
    split
    · exact watched.cleanup hasMerge _
    · exact watched.setHasMerged.call hasMerge merge .merge
  | endDelay =>
    obtain ⟨inDelay, isStep⟩ := ite_none_left_eq_some.mp isStep
    cases isStep
    exact watched.endDelay inDelay

/-- If every check that is skipped is looked after by another one, no conflict is lost. -/
theorem noLostConflict_run (storage : ResolverStorage) {events : List ResolverEvent}
    {final : ResolverWorld} (succeed : ∀ event ∈ events, event.succeeds)
    (looks : EachStep step LooksAgain (new storage) events)
    (isRun : runSteps step (new storage) events = some final) : final.NoLostConflict := by
  have allowed := (eachStep_of_forall succeed (new storage)).and looks
  exact (invariant_runSteps Watched (fun watched allowed isStep => watched.step allowed isStep)
    (watched_new storage) allowed isRun).noLostConflict

def namedCommit (name : UInt8) (parents : List CommitId) : CommitImpl :=
  ⟨[name], ⟨0, 1, ⟨0, 0, [name]⟩, parents⟩⟩

def oneHeadStorage : ResolverStorage :=
  ⟨[[1]], [namedCommit 1 [[0]]]⟩

/-- A head is added while a check is answered; the next check finds it, and both are merged. -/
theorem noLostConflict_run_merged :
    let events : List ResolverEvent := [.registerNoConflictCallback, .setMergeStrategy (some 0),
      .runTask 0, .runTask 0, .readHeads, .newCommits .localChange [namedCommit 2 [[0]]],
      .answerHeads true, .registerNoConflictCallback, .runTask 0, .readHeads, .answerHeads true,
      .answerGetCommits, .answerFindCommonAncestor true,
      .newCommits .localChange [namedCommit 3 [[1], [2]]], .answerMerge true, .runTask 0,
      .runTask 0, .readHeads, .answerHeads true]
    ∃ final, runSteps step (new oneHeadStorage) events = some final ∧ final.Quiet ∧
      final.HasStrategy ∧ final.storage.heads = [[3]] ∧
      final.called = [(0, .noConflicts), (1, .conflictsResolved)] ∧ final.NoLostConflict := by
  intro events
  refine ⟨_, rfl, by decide, by decide, rfl, rfl, ?_⟩
  exact @noLostConflict_run oneHeadStorage events _ (by decide) (by decide) rfl

/-- Two heads stay when a task skips a check because another one is about to answer with the head
that there was, and when a strategy is given during a delay, before which the strategy was to be
taken away. -/
theorem lost_conflict :
    let staleEvents : List ResolverEvent := [.setMergeStrategy (some 0), .runTask 0, .runTask 0,
      .readHeads, .newCommits .localChange [namedCommit 2 [[0]]], .runTask 0, .answerHeads true]
    let delayEvents : List ResolverEvent := [.setMergeStrategy (some 0), .runTask 0, .runTask 0,
      .readHeads, .answerHeads true, .newCommits .sync [namedCommit 2 [[1], [0]],
        namedCommit 3 [[1], [0]]], .runTask 0, .readHeads, .answerHeads true,
      .setMergeStrategy none, .answerGetCommits, .setMergeStrategy (some 1), .runTask 0,
      .endDelay, .readHeads, .answerHeads true, .answerGetCommits, .runTask 0]
    ((∀ event ∈ staleEvents, event.succeeds) ∧ ∃ final,
      runSteps step (new oneHeadStorage) staleEvents = some final ∧ final.Quiet ∧
      final.resolver.strategy = some 0 ∧ final.storage.heads = [[1], [2]] ∧ ¬final.NoLostConflict) ∧
    (∀ event ∈ delayEvents, event.succeeds) ∧ ∃ final,
      runSteps step (new oneHeadStorage) delayEvents = some final ∧ final.Quiet ∧
      final.givenStrategy = some 1 ∧ final.storage.heads = [[2], [3]] ∧
      ¬final.NoLostConflict := by
  intro staleEvents delayEvents
  refine ⟨⟨by decide, _, rfl, by decide, rfl, rfl, fun noneLost => ?_⟩,
    by decide, _, rfl, by decide, rfl, rfl, fun noneLost => ?_⟩
  · exact absurd (noneLost.oneHead (by decide) (by decide)) (by decide)
  · exact absurd (noneLost.oneHead (by decide) (by decide)) (by decide)

end ResolverWorld

end Peridot
