import Peridot.MergeResolver
import Peridot.Waiter

/-!
# The lookups of the heads of a merge

`ResolveConflicts` looks two heads up and joins the lookups with a waiter.  Its callback reads the
two commits before it looks at the status, and there are none after an error.
-/

namespace Peridot

open Option WaiterWorld

/-- The waiter for two commits; a reply without a commit is a null pointer. -/
abbrev HeadWaiter : Type :=
  WaiterWorld (resultAccumulator Status (Option CommitImpl) .ok)

/-- What `GetCommit` replies with a status, if it can. -/
def commitReply (storage : ResolverStorage) (id : CommitId) (status : Status) :
    Option (Status × Option CommitImpl) :=
  if status = .ok then (storage.find id).map fun commit => (.ok, some commit)
  else some (status, none)

/-- One round of the loop in `ResolveConflicts`.  The storage may reply before it returns. -/
def lookUp (storage : ResolverStorage) (waiter : HeadWaiter) (index : ℕ) (id : CommitId)
    (reply : Option Status) : Option HeadWaiter :=
  (waiter.step .newCallback).bind fun waiter =>
    match reply with
    | none => some waiter
    | some status => (commitReply storage id status).bind fun args => waiter.step (.call index args)

/-- `ResolveConflicts` from its first lookup on. -/
def getCommits (storage : ResolverStorage) (heads : CommitId × CommitId)
    (first second : Option Status) : Option HeadWaiter :=
  (lookUp storage (Waiter.world Status (Option CommitImpl) .ok) 0 heads.1 first).bind fun waiter =>
    (lookUp storage waiter 1 heads.2 second).bind fun waiter => waiter.step .finalize

def ResolverWorld.onGetCommits (world : ResolverWorld) (merge : MergeUnderWay) (status : Status)
    (commits : List (Option CommitImpl)) : Option ResolverWorld :=
  match commits[0]?, commits[1]? with
  | some (some first), some (some second) =>
    some <|
      if first.parentIds.length = 2 ∧ second.parentIds.length = 2 ∧
          merge.delayedStatus = .mayDelay then world.startDelay
      else if first.rootIdentifier = second.rootIdentifier then world.call merge .startMergeCommit
      else if world.resolver.hasNextStrategy then world.cleanup merge.delayedStatus
      else if status ≠ .ok then world.cleanup merge.delayedStatus
      else world.call merge .findCommonAncestor
  | _, _ => none

/-- A resolver with the waiter of its merge.  Nothing is said of what happens after a read that is
not valid. -/
structure LookupWorld where
  world : ResolverWorld
  waiter : Option HeadWaiter
  invalidRead : Bool

inductive LookupEvent where
  /-- An event that neither makes nor answers a lookup. -/
  | other (event : ResolverEvent)
  /-- `GetHeadCommitIds` is answered, and so are the lookups that this leads to, if their replies
  are not left for later. -/
  | answerHeads (isOk : Bool) (first second : Option Status)
  | answerGetCommit (index : ℕ) (status : Status)

/-- What the storage answers is no error. -/
def LookupEvent.LookupsSucceed : LookupEvent → Prop
  | .other _ => True
  | .answerHeads _ first second => (∀ status ∈ first, status = .ok) ∧ ∀ status ∈ second, status = .ok
  | .answerGetCommit _ status => status = .ok

instance : (event : LookupEvent) → Decidable event.LookupsSucceed
  | .other _ => .isTrue trivial
  | .answerHeads _ _ _ => inferInstanceAs (Decidable (_ ∧ _))
  | .answerGetCommit _ _ => inferInstanceAs (Decidable (_ = _))

namespace LookupWorld

def new (storage : ResolverStorage) : LookupWorld :=
  ⟨.new storage, none, false⟩

def proceed (world : LookupWorld) (merge : MergeUnderWay) (waiter : HeadWaiter) : LookupWorld :=
  match waiter.fired with
  | [] => { world with waiter := some waiter }
  | result :: _ =>
    match world.world.onGetCommits merge result.1 result.2 with
    | some next => { world with world := next, waiter := none }
    | none => { world with waiter := none, invalidRead := true }

def step (world : LookupWorld) (event : LookupEvent) : Option LookupWorld :=
  if world.invalidRead then none
  else
    match event with
    | .other (.answerHeads _) => none
    | .other .answerGetCommits => none
    | .other event => (world.world.step event).map fun next => { world with world := next }
    | .answerHeads isOk first second =>
      (world.world.step (.answerHeads isOk)).bind fun next =>
        match next.merge with
        | some merge =>
          (getCommits next.storage merge.heads first second).map fun waiter =>
            proceed { world with world := next } merge waiter
        | none =>
          -- No lookup is made, and none is answered.
          if first = none ∧ second = none then some { world with world := next } else none
    | .answerGetCommit index status =>
      match world.waiter, world.world.merge with
      | some waiter, some merge =>
        let id := if index = 0 then merge.heads.1 else merge.heads.2
        (commitReply world.world.storage id status).bind fun args =>
          (waiter.step (.call index args)).map fun waiter => world.proceed merge waiter
      | _, _ => none

end LookupWorld

/-- A waiter for the replies of `GetCommit`. -/
structure AwaitsCommits (waiter : HeadWaiter) (callbacks : ℕ) : Prop where
  consistent : waiter.Consistent
  collects : Waiter.Collects waiter
  callbacks : waiter.callbacks.length = callbacks
  commits : ∀ reply ∈ waiter.replies, reply.1 = .ok → reply.2.isSome

theorem awaitsCommits_world : AwaitsCommits (Waiter.world Status (Option CommitImpl) .ok) 0 where
  consistent := consistent_create _
  collects := Waiter.collects_create
  callbacks := rfl
  commits := by simp [Waiter.world, create]

variable {storage : ResolverStorage} {id : CommitId}

theorem commitReply_eq_some {status : Status} {args : Status × Option CommitImpl}
    (isReply : commitReply storage id status = some args) :
    args.1 = status ∧ (args.1 = .ok → args.2.isSome) := by
  rw [commitReply] at isReply
  split at isReply
  case isTrue isOk =>
    obtain ⟨commit, -, rfl⟩ := map_eq_some_iff.mp isReply
    exact ⟨isOk.symm, fun _ => rfl⟩
  case isFalse isError =>
    cases isReply
    exact ⟨rfl, fun isOk => absurd isOk isError⟩

variable {waiter next : HeadWaiter} {callbacks : ℕ}

theorem AwaitsCommits.newCallback (awaits : AwaitsCommits waiter callbacks)
    (isStep : waiter.step .newCallback = some next) :
    AwaitsCommits next (callbacks + 1) ∧ next.replies = waiter.replies := by
  have consistent := consistent_step awaits.consistent isStep
  have collects := Waiter.collects_step awaits.collects isStep
  obtain ⟨-, rfl⟩ := step_newCallback isStep
  refine ⟨⟨consistent, collects, ?_, awaits.commits⟩, rfl⟩
  simp [awaits.callbacks]

theorem AwaitsCommits.finalize (awaits : AwaitsCommits waiter callbacks)
    (isStep : waiter.step .finalize = some next) :
    AwaitsCommits next callbacks ∧ next.replies = waiter.replies := by
  have consistent := consistent_step awaits.consistent isStep
  have collects := Waiter.collects_step awaits.collects isStep
  obtain ⟨-, rfl⟩ := step_finalize isStep
  exact ⟨⟨consistent, collects, awaits.callbacks, awaits.commits⟩, rfl⟩

theorem AwaitsCommits.call {callbacks index : ℕ} {status : Status}
    {args : Status × Option CommitImpl} (awaits : AwaitsCommits waiter callbacks)
    (isReply : commitReply storage id status = some args)
    (isStep : waiter.step (.call index args) = some next) :
    AwaitsCommits next callbacks ∧ (Waiter.HasError next ↔ Waiter.HasError waiter ∨ status ≠ .ok) := by
  have consistent := consistent_step awaits.consistent isStep
  have collects := Waiter.collects_step awaits.collects isStep
  obtain ⟨isStatus, hasCommit⟩ := commitReply_eq_some isReply
  obtain ⟨token, -, rfl⟩ := step_call isStep
  refine ⟨⟨consistent, collects, ?_, ?_⟩, ?_⟩
  · simpa using awaits.callbacks
  · intro reply inReplies isOk
    rcases List.mem_append.mp inReplies with isOld | isNew
    · exact awaits.commits reply isOld isOk
    · obtain rfl := List.mem_singleton.mp isNew
      exact hasCommit isOk
  · simp [Waiter.HasError, isStatus]

theorem AwaitsCommits.lookUp {index : ℕ} {reply : Option Status}
    (awaits : AwaitsCommits waiter callbacks)
    (looksUp : lookUp storage waiter index id reply = some next) :
    AwaitsCommits next (callbacks + 1) ∧
      (Waiter.HasError next ↔ Waiter.HasError waiter ∨ ∃ status ∈ reply, status ≠ .ok) := by
  obtain ⟨middle, isStep, isRest⟩ := bind_eq_some_iff.mp looksUp
  obtain ⟨middleAwaits, sameReplies⟩ := awaits.newCallback isStep
  have sameError : Waiter.HasError middle ↔ Waiter.HasError waiter := by
    rw [Waiter.HasError, sameReplies, Waiter.HasError]
  cases reply with
  | none =>
    cases isRest
    refine ⟨middleAwaits, ?_⟩
    simpa using sameError
  | some status =>
    obtain ⟨args, isReply, isCall⟩ := bind_eq_some_iff.mp isRest
    obtain ⟨nextAwaits, isError⟩ := middleAwaits.call isReply isCall
    refine ⟨nextAwaits, ?_⟩
    rw [isError, sameError]
    simp

theorem awaitsCommits_getCommits {heads : CommitId × CommitId} {first second : Option Status}
    (gets : getCommits storage heads first second = some waiter) :
    AwaitsCommits waiter 2 ∧ waiter.waiter.finalized ∧
      (Waiter.HasError waiter ↔ (∃ status ∈ first, status ≠ .ok) ∨ ∃ status ∈ second, status ≠ .ok) := by
  obtain ⟨afterFirst, isFirst, isRest⟩ := bind_eq_some_iff.mp gets
  obtain ⟨afterSecond, isSecond, isFinalize⟩ := bind_eq_some_iff.mp isRest
  obtain ⟨firstAwaits, firstError⟩ := awaitsCommits_world.lookUp isFirst
  obtain ⟨secondAwaits, secondError⟩ := firstAwaits.lookUp isSecond
  obtain ⟨awaits, sameReplies⟩ := secondAwaits.finalize isFinalize
  refine ⟨awaits, (finalized_step isFinalize).mpr (.inr rfl), ?_⟩
  have noErrorBefore : ¬Waiter.HasError (Waiter.world Status (Option CommitImpl) .ok) := by
    simp [Waiter.HasError, Waiter.world, create]
  rw [Waiter.HasError, sameReplies, ← Waiter.HasError, secondError, firstError]
  simp [noErrorBefore]

theorem AwaitsCommits.isCommit (awaits : AwaitsCommits waiter callbacks)
    (gathers : Waiter.Gathers waiter) (allCalled : waiter.AllCalled) :
    ∀ result ∈ waiter.waiter.accumulator.results, result.isSome := by
  intro result isResult
  obtain ⟨index, isResult⟩ := List.mem_iff_getElem?.mp isResult
  have inCallbacks : index < waiter.callbacks.length := by
    rw [← gathers.length]
    exact lt_of_getElem?_eq_some isResult
  have isCallback := List.getElem?_eq_getElem inCallbacks
  have isMember := List.getElem_mem inCallbacks
  obtain ⟨reply, isReply⟩ := isSome_iff_exists.mp (allCalled _ isMember)
  have isValue := gathers.value index _ isCallback reply isReply
  have inReplies := gathers.callbacks _ isMember reply isReply
  obtain rfl := some.inj (isResult.symm.trans isValue)
  exact awaits.commits reply inReplies (gathers.replies reply inReplies)

/-- The result callback gets no commits after an error, and otherwise two of them. -/
theorem AwaitsCommits.fired (awaits : AwaitsCommits waiter 2)
    (finalized : waiter.waiter.finalized) :
    (Waiter.HasError waiter → ∃ status, waiter.fired = [(status, [])]) ∧
      (¬Waiter.HasError waiter → waiter.fired = [] ∨
        ∃ first second, waiter.fired = [(.ok, [some first, some second])]) := by
  have fired := awaits.consistent.fired
  have pending := awaits.consistent.pending
  have collects := awaits.collects
  rw [Waiter.Collects] at collects
  constructor
  · intro hasError
    have isDone := awaits.collects.done_iff.mpr hasError
    rw [if_pos isDone] at collects pending
    rw [fired, if_pos ⟨finalized, pending⟩]
    exact ⟨_, congrArg (fun results => [(_, results)]) collects.results⟩
  · intro noError
    have notDone := mt awaits.collects.done_iff.mp noError
    rw [if_neg notDone] at collects pending
    by_cases nonePending : waiter.waiter.pendingCallbacks = 0
    · rw [pending, outstanding_eq_zero] at nonePending
      have isFired : waiter.fired = [(.ok, waiter.waiter.accumulator.results)] := by
        rw [fired, if_pos ⟨finalized, pending.trans (outstanding_eq_zero.mpr nonePending)⟩]
        exact congrArg (fun status => [(status, _)]) collects.resultStatus
      right
      have isLength := collects.length.trans awaits.callbacks
      obtain ⟨first, second, isPair⟩ := List.length_eq_two.mp isLength
      have isCommit := awaits.isCommit collects nonePending
      rw [isPair] at isCommit isFired
      obtain ⟨firstCommit, rfl⟩ := isSome_iff_exists.mp (isCommit first (by simp))
      obtain ⟨secondCommit, rfl⟩ := isSome_iff_exists.mp (isCommit second (by simp))
      exact ⟨firstCommit, secondCommit, isFired⟩
    · left
      rw [fired, if_neg fun finished => nonePending finished.2]

/-- With both commits the callback does what it does in a resolver whose lookups succeed. -/
theorem ResolverWorld.onGetCommits_ok (world : ResolverWorld) (merge : MergeUnderWay)
    (first second : CommitImpl) : world.onGetCommits merge .ok [some first, some second] =
      some (world.onCommits merge (first, second)) := by
  simp [onGetCommits, onCommits]

namespace LookupWorld

/-- No commit has been read that was not received, and no lookup has failed. -/
structure ReadsReceived (world : LookupWorld) : Prop where
  valid : world.invalidRead = false
  awaits : ∀ waiter ∈ world.waiter, AwaitsCommits waiter 2
  finalized : ∀ waiter ∈ world.waiter, waiter.waiter.finalized
  noError : ∀ waiter ∈ world.waiter, ¬Waiter.HasError waiter

theorem readsReceived_new (storage : ResolverStorage) : (new storage).ReadsReceived where
  valid := rfl
  awaits := by simp [new]
  finalized := by simp [new]
  noError := by simp [new]

theorem reads_proceed (world : LookupWorld) (valid : world.invalidRead = false)
    (merge : MergeUnderWay) (awaits : AwaitsCommits waiter 2)
    (finalized : waiter.waiter.finalized) :
    (¬Waiter.HasError waiter → (world.proceed merge waiter).ReadsReceived) ∧
      (Waiter.HasError waiter → (world.proceed merge waiter).invalidRead) := by
  obtain ⟨afterError, withoutError⟩ := awaits.fired finalized
  constructor
  · intro noError
    rw [LookupWorld.proceed]
    rcases withoutError noError with notFired | ⟨first, second, isFired⟩
    · rw [notFired]
      exact ⟨valid, by simpa using awaits, by simpa using finalized, by simpa using noError⟩
    · simp only [isFired, ResolverWorld.onGetCommits_ok]
      exact ⟨valid, by simp, by simp, by simp⟩
  · intro hasError
    obtain ⟨status, isFired⟩ := afterError hasError
    rw [LookupWorld.proceed, isFired]
    rfl

theorem ReadsReceived.step {world next : LookupWorld} (reads : world.ReadsReceived)
    {event : LookupEvent} (isStep : world.step event = some next) :
    (event.LookupsSucceed → next.ReadsReceived) ∧ (¬event.LookupsSucceed → next.invalidRead) := by
  unfold LookupWorld.step at isStep
  rw [if_neg (by simp [reads.valid])] at isStep
  split at isStep
  · simp at isStep
  · simp at isStep
  · obtain ⟨after, -, rfl⟩ := map_eq_some_iff.mp isStep
    exact ⟨fun _ => ⟨reads.valid, reads.awaits, reads.finalized, reads.noError⟩,
      fun fails => absurd trivial fails⟩
  case h_4 isOk first second =>
    obtain ⟨after, -, isRest⟩ := bind_eq_some_iff.mp isStep
    split at isRest
    · obtain ⟨waiter, gets, rfl⟩ := map_eq_some_iff.mp isRest
      obtain ⟨awaits, finalized, isError⟩ := awaitsCommits_getCommits gets
      obtain ⟨keeps, breaks⟩ := reads_proceed { world with world := after } reads.valid _ awaits finalized
      constructor
      · rintro ⟨firstOk, secondOk⟩
        apply keeps
        rw [isError]
        rintro (⟨status, isStatus, notOk⟩ | ⟨status, isStatus, notOk⟩)
        · exact notOk (firstOk status isStatus)
        · exact notOk (secondOk status isStatus)
      · intro fails
        apply breaks
        rw [isError]
        by_contra noError
        push Not at noError
        exact fails noError
    · obtain ⟨noReplies, isRest⟩ := ite_none_right_eq_some.mp isRest
      cases isRest
      refine ⟨fun _ => ⟨reads.valid, reads.awaits, reads.finalized, reads.noError⟩, fun fails => ?_⟩
      obtain ⟨rfl, rfl⟩ := noReplies
      exact absurd ⟨by simp, by simp⟩ fails
  case h_5 index status =>
    split at isStep
    case h_2 => simp at isStep
    case h_1 waiter merge isWaiter _ =>
      obtain ⟨args, isReply, isRest⟩ := bind_eq_some_iff.mp isStep
      obtain ⟨called, isCall, rfl⟩ := map_eq_some_iff.mp isRest
      obtain ⟨awaits, isError⟩ := (reads.awaits waiter isWaiter).call isReply isCall
      have finalized := (finalized_step isCall).mpr (.inl (reads.finalized waiter isWaiter))
      obtain ⟨keeps, breaks⟩ := reads_proceed world reads.valid merge awaits finalized
      constructor
      · intro isOk
        apply keeps
        rw [isError]
        rintro (hasError | notOk)
        · exact reads.noError waiter isWaiter hasError
        · exact notOk isOk
      · intro fails
        exact breaks (isError.mpr (.inr fails))

/-- What a step of a merge attempt promises: it reads only commits that it has received, and ends
the attempt without calling a strategy if a lookup fails, so that conflicts are looked for again. -/
def HandlesReplies (event : LookupEvent) (next : LookupWorld) : Prop :=
  next.invalidRead = false ∧
    (¬event.LookupsSucceed → next.world.merge = none ∧
      next.world.resolver.mergeInProgress = false ∧ next.world.tasks ≠ [])
deriving Decidable

/-- The replies are handled in exactly the runs in which all lookups succeed. -/
theorem handlesReplies_run_iff (storage : ResolverStorage) {events : List LookupEvent}
    {final : LookupWorld} (isRun : runSteps LookupWorld.step (new storage) events = some final) :
    EachStep LookupWorld.step
        (fun before event => ∀ next ∈ before.step event, HandlesReplies event next)
        (new storage) events ↔
      EachStep LookupWorld.step (fun _ event => event.LookupsSucceed) (new storage) events := by
  apply eachStep_iff ReadsReceived _ _ (readsReceived_new storage) isRun
  · intro world next event reads succeeds isStep
    exact (reads.step isStep).1 succeeds
  · intro world next event reads isStep
    constructor
    · intro handles
      by_contra fails
      have isInvalid := (reads.step isStep).2 fails
      rw [(handles next isStep).1] at isInvalid
      simp at isInvalid
    · intro succeeds other isOther
      exact ⟨((reads.step isOther).1 succeeds).valid, fun fails => absurd succeeds fails⟩

def twoHeads : ResolverStorage :=
  ⟨[[1], [2]], [⟨[1], ⟨0, 1, ⟨0, 0, [1]⟩, [[0]]⟩⟩, ⟨[2], ⟨0, 1, ⟨0, 0, [2]⟩, [[0]]⟩⟩]⟩

def lookUpTwoHeads (replies : List LookupEvent) : List LookupEvent :=
  [.other (.setMergeStrategy (some 1)), .other (.runTask 0), .other .readHeads,
    .answerHeads true none none] ++ replies

theorem handlesReplies_run_iff_sample : EachStep LookupWorld.step
    (fun before event => ∀ next ∈ before.step event, HandlesReplies event next)
    (new twoHeads) (lookUpTwoHeads [.answerGetCommit 1 .ok, .answerGetCommit 0 .ok]) :=
  (handlesReplies_run_iff twoHeads (some_get (by decide)).symm).mpr (by decide)

/-- The lookup of the first head fails. -/
theorem not_handlesReplies :
    ¬∀ (storage : ResolverStorage) (events : List LookupEvent) (final : LookupWorld),
      runSteps LookupWorld.step (new storage) events = some final → final.invalidRead = false := by
  intro reads
  have isValid := reads twoHeads (lookUpTwoHeads [.answerGetCommit 0 .ioError]) _
    (some_get (by decide)).symm
  exact absurd isValid (by decide)

end LookupWorld

end Peridot
