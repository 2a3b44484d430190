import Mathlib.Data.List.Sort
import Mathlib.Data.Prod.Lex
import Peridot.LastOneWins
import Peridot.StepRun

/-!
# When conflicts are looked for

`MergeResolver` with its flags and counters.  Posted tasks run and calls to the storage are
answered in any order: the state holds the tasks that have not run, and the calls that are
not answered yet.
-/

namespace Peridot

inductive ConflictResolutionWaitStatus where
  | noConflicts
  | conflictsResolved

/-- `MergeResolver`.  Strategies are named by numbers, and the callbacks that wait for conflicts
to be resolved by the order in which they are registered. -/
structure MergeResolver where
  strategy : Option ℕ
  nextStrategy : Option ℕ
  hasNextStrategy : Bool
  mergeInProgress : Bool
  hasMerged : Bool
  checkConflictsTaskCount : ℕ
  checkConflictsInProgress : Bool
  inDelay : Bool
  noConflictCallbacks : List ℕ

def MergeResolver.hasUnfinishedMerges (resolver : MergeResolver) : Bool :=
  resolver.mergeInProgress || resolver.checkConflictsInProgress ||
    resolver.checkConflictsTaskCount != 0 || resolver.inDelay

/-- The commits that are stored, and which of them are heads. -/
structure ResolverStorage where
  heads : List CommitId
  commits : List CommitImpl

namespace ResolverStorage

def find (storage : ResolverStorage) (id : CommitId) : Option CommitImpl :=
  storage.commits.find? fun commit => commit.id = id

def timestamp (storage : ResolverStorage) (id : CommitId) : Int :=
  ((storage.find id).map fun commit => commit.timestamp.toInt).getD 0

/-- `GetHeadCommitIds`: the heads by their timestamps, and then by their ids. -/
def getHeadCommitIds (storage : ResolverStorage) : List CommitId :=
  storage.heads.insertionSort fun first second =>
    storage.timestamp first < storage.timestamp second ∨
      storage.timestamp first = storage.timestamp second ∧ first ≤ second

def addCommit (storage : ResolverStorage) (commit : CommitImpl) : ResolverStorage :=
  ⟨storage.heads.filter (fun head => head ∉ commit.parentIds) ++ [commit.id],
    storage.commits ++ [commit]⟩

def HasOneHead (storage : ResolverStorage) : Prop :=
  storage.heads.length = 1

instance (storage : ResolverStorage) : Decidable storage.HasOneHead :=
  inferInstanceAs (Decidable (_ = _))

theorem length_getHeadCommitIds (storage : ResolverStorage) :
    storage.getHeadCommitIds.length = storage.heads.length :=
  List.length_insertionSort ..

end ResolverStorage

/-- The calls that `ResolveConflicts` makes one after the other. -/
inductive ResolveCall where
  | getCommits
  | startMergeCommit
  | commitJournal
  | findCommonAncestor
  | merge
deriving DecidableEq

/-- A merge with its `cleanup`, and the call that is not answered yet. -/
structure MergeUnderWay where
  delayedStatus : DelayedStatus
  heads : CommitId × CommitId
  call : ResolveCall

/-- A `GetHeadCommitIds` call, and the heads once they are read. -/
structure HeadsCall where
  delayedStatus : DelayedStatus
  read : Option (List CommitId)

/-- A `MergeResolver`, its storage, its posted tasks and its calls.  `givenStrategy` is the last
argument of `SetMergeStrategy`, `registered` counts the callbacks that have been registered, and
`checked` those that had been when the last check was completed. -/
structure ResolverWorld where
  resolver : MergeResolver
  storage : ResolverStorage
  tasks : List DelayedStatus
  headsCall : Option HeadsCall
  merge : Option MergeUnderWay
  delayTasks : ℕ
  givenStrategy : Option ℕ
  registered : ℕ
  checked : ℕ
  called : List (ℕ × ConflictResolutionWaitStatus)

inductive ResolverEvent where
  /-- The storage adds commits and calls `OnNewCommits`. -/
  | newCommits (source : ChangeSource) (commits : List CommitImpl)
  | setMergeStrategy (strategy : Option ℕ)
  | registerNoConflictCallback
  /-- A posted task runs. -/
  | runTask (index : ℕ)
  /-- `GetHeadCommitIds` reads the heads. -/
  | readHeads
  | answerHeads (isOk : Bool)
  | answerGetCommits
  | answerStartMergeCommit (isOk : Bool)
  | answerCommitJournal (isOk : Bool)
  | answerFindCommonAncestor (isOk : Bool)
  | answerMerge (isOk : Bool)
  | endDelay

/-- The calls of the storage, the search for ancestors and the merges succeed. -/
def ResolverEvent.succeeds : ResolverEvent → Bool
  | answerHeads isOk => isOk
  | answerStartMergeCommit isOk => isOk
  | answerCommitJournal isOk => isOk
  | answerFindCommonAncestor isOk => isOk
  | answerMerge isOk => isOk
  | _ => true

namespace ResolverWorld

def postCheckConflicts (world : ResolverWorld) (delayedStatus : DelayedStatus) : ResolverWorld :=
  { world with
    resolver.checkConflictsTaskCount := world.resolver.checkConflictsTaskCount + 1
    tasks := world.tasks ++ [delayedStatus] }

def new (storage : ResolverStorage) : ResolverWorld :=
  postCheckConflicts ⟨⟨none, none, false, false, false, 0, false, false, []⟩, storage, [], none,
    none, 0, none, 0, 0, []⟩ .dontDelay

def setMergeStrategy (world : ResolverWorld) (strategy : Option ℕ) : ResolverWorld :=
  let world := { world with givenStrategy := strategy }
  if world.resolver.mergeInProgress then
    -- The strategy that merges is cancelled, and its merge is answered later.
    { world with resolver := { world.resolver with
        hasNextStrategy := true
        nextStrategy := strategy } }
  else
    let world := { world with resolver.strategy := strategy }
    if strategy.isSome then world.postCheckConflicts .dontDelay else world

def takeTask (world : ResolverWorld) (index : ℕ) : ResolverWorld :=
  { world with
    resolver.checkConflictsTaskCount := world.resolver.checkConflictsTaskCount - 1
    tasks := world.tasks.eraseIdx index }

def registerNoConflictCallback (world : ResolverWorld) : ResolverWorld :=
  { world with
    resolver.noConflictCallbacks := world.resolver.noConflictCallbacks ++ [world.registered]
    registered := world.registered + 1 }

def addCommits (world : ResolverWorld) (commits : List CommitImpl) : ResolverWorld :=
  { world with storage := commits.foldl .addCommit world.storage }

def onNewCommits (world : ResolverWorld) (source : ChangeSource) : ResolverWorld :=
  world.postCheckConflicts (if source = .localChange then .dontDelay else .mayDelay)

def checkConflicts (world : ResolverWorld) (delayedStatus : DelayedStatus) : ResolverWorld :=
  if world.resolver.strategy.isNone || world.resolver.mergeInProgress ||
      world.resolver.checkConflictsInProgress || world.resolver.inDelay then world
  else
    { world with
      resolver.checkConflictsInProgress := true
      headsCall := some ⟨delayedStatus, none⟩ }

def callNoConflictCallbacks (world : ResolverWorld) : ResolverWorld :=
  { world with
    resolver.noConflictCallbacks := []
    resolver.hasMerged := false
    called := world.called ++ world.resolver.noConflictCallbacks.map fun callback =>
      (callback, if world.resolver.hasMerged then .conflictsResolved else .noConflicts) }

/-- `ResolveConflicts`, up to its call of `GetCommit`. -/
def resolveConflicts (world : ResolverWorld) (delayedStatus : DelayedStatus)
    (heads : CommitId × CommitId) : ResolverWorld :=
  { world with
    resolver.mergeInProgress := true
    merge := some ⟨delayedStatus, heads, .getCommits⟩ }

/-- `GetHeadCommitIds` is answered. -/
def finishCheck (world : ResolverWorld) : ResolverWorld :=
  { world with
    resolver.checkConflictsInProgress := false
    headsCall := none
    checked := world.registered }

/-- The callback of `GetHeadCommitIds`. -/
def onHeads (world : ResolverWorld) (delayedStatus : DelayedStatus) (isOk : Bool)
    (heads : List CommitId) : ResolverWorld :=
  let world := world.finishCheck
  if !isOk || heads.length == 1 then
    if isOk then world.callNoConflictCallbacks else world
  else if world.resolver.strategy.isNone then world
  else world.resolveConflicts delayedStatus (heads.getD 0 [], heads.getD 1 [])

/-- The `cleanup` of `ResolveConflicts`. -/
def cleanup (world : ResolverWorld) (delayedStatus : DelayedStatus) : ResolverWorld :=
  let world := { world with
    resolver.mergeInProgress := false
    merge := none }
  let world := if world.resolver.hasNextStrategy then
      { world with resolver := { world.resolver with
          strategy := world.resolver.nextStrategy
          nextStrategy := none
          hasNextStrategy := false } }
    else world
  world.postCheckConflicts delayedStatus

/-- Two merge commits are merged later: `cleanup` is cancelled. -/
def startDelay (world : ResolverWorld) : ResolverWorld :=
  { world with
    resolver.inDelay := true
    resolver.mergeInProgress := false
    merge := none
    delayTasks := world.delayTasks + 1 }

def stopDelay (world : ResolverWorld) : ResolverWorld :=
  { world with
    resolver.inDelay := false
    delayTasks := world.delayTasks - 1 }

def call (world : ResolverWorld) (merge : MergeUnderWay) (call : ResolveCall) : ResolverWorld :=
  { world with merge := some { merge with call } }

def onCommits (world : ResolverWorld) (merge : MergeUnderWay) (commits : CommitImpl × CommitImpl) :
    ResolverWorld :=
  if commits.1.parentIds.length = 2 ∧ commits.2.parentIds.length = 2 ∧
      merge.delayedStatus = .mayDelay then world.startDelay
  else if commits.1.rootIdentifier = commits.2.rootIdentifier then
    world.call merge .startMergeCommit
  else if world.resolver.hasNextStrategy then world.cleanup merge.delayedStatus
  else world.call merge .findCommonAncestor

def setHasMerged (world : ResolverWorld) : ResolverWorld :=
  { world with resolver.hasMerged := true }

def onJournal (world : ResolverWorld) (merge : MergeUnderWay) (isOk : Bool) : ResolverWorld :=
  if isOk then world.setHasMerged.call merge .commitJournal
  else world.cleanup merge.delayedStatus

/-- The callback of `FindCommonAncestor`. -/
def onCommonAncestor (world : ResolverWorld) (merge : MergeUnderWay) (isOk : Bool) :
    ResolverWorld :=
  if world.resolver.hasNextStrategy then world.cleanup merge.delayedStatus
  else if isOk then world.setHasMerged.call merge .merge
  else world.cleanup merge.delayedStatus

def answer (world : ResolverWorld) (call : ResolveCall)
    (next : MergeUnderWay → Option ResolverWorld) : Option ResolverWorld :=
  match world.merge with
  | some merge => if merge.call = call then next merge else none
  | none => none

def step (world : ResolverWorld) : ResolverEvent → Option ResolverWorld
  | .newCommits source commits =>
    some ((world.addCommits commits).onNewCommits source)
  | .setMergeStrategy strategy => some (world.setMergeStrategy strategy)
  | .registerNoConflictCallback => some world.registerNoConflictCallback
  | .runTask index =>
    match world.tasks[index]? with
    | none => none
    | some delayedStatus =>
      some ((world.takeTask index).checkConflicts delayedStatus)
  | .readHeads =>
    match world.headsCall with
    | some ⟨delayedStatus, none⟩ =>
      some { world with
        headsCall := some ⟨delayedStatus, some world.storage.getHeadCommitIds⟩ }
    | _ => none
  | .answerHeads isOk =>
    match world.headsCall with
    | some ⟨delayedStatus, some heads⟩ => some (world.onHeads delayedStatus isOk heads)
    | _ => none
  | .answerGetCommits =>
    world.answer .getCommits fun merge =>
      match world.storage.find merge.heads.1, world.storage.find merge.heads.2 with
      | some first, some second => some (world.onCommits merge (first, second))
      | _, _ => none
  | .answerStartMergeCommit isOk =>
    world.answer .startMergeCommit fun merge => some (world.onJournal merge isOk)
  | .answerCommitJournal _ =>
    world.answer .commitJournal fun merge => some (world.cleanup merge.delayedStatus)
  | .answerFindCommonAncestor isOk =>
    world.answer .findCommonAncestor fun merge => some (world.onCommonAncestor merge isOk)
  | .answerMerge _ => world.answer .merge fun merge => some (world.cleanup merge.delayedStatus)
  | .endDelay =>
    if world.delayTasks = 0 then none else some (world.stopDelay.checkConflicts .dontDelay)

structure Quiet (world : ResolverWorld) : Prop where
  finished : world.resolver.hasUnfinishedMerges = false
  noTask : world.tasks = []
  noHeadsCall : world.headsCall = none
  noMerge : world.merge = none
  noDelay : world.delayTasks = 0

instance (world : ResolverWorld) : Decidable world.Quiet :=
  decidable_of_iff (world.resolver.hasUnfinishedMerges = false ∧ world.tasks = [] ∧
      world.headsCall = none ∧ world.merge = none ∧ world.delayTasks = 0)
    ⟨fun ⟨finished, noTask, noHeadsCall, noMerge, noDelay⟩ =>
        ⟨finished, noTask, noHeadsCall, noMerge, noDelay⟩,
      fun quiet => ⟨quiet.finished, quiet.noTask, quiet.noHeadsCall, quiet.noMerge, quiet.noDelay⟩⟩

/-- The resolver has a strategy, or it should have the one that it was given last. -/
def HasStrategy (world : ResolverWorld) : Prop :=
  world.resolver.strategy.isSome ∨ world.givenStrategy.isSome

instance (world : ResolverWorld) : Decidable world.HasStrategy :=
  inferInstanceAs (Decidable (_ ∨ _))

/-- When the resolver is quiet and has a strategy, there is one head, and no callback waits that
was registered before the last completed check. -/
structure NoLostConflict (world : ResolverWorld) : Prop where
  oneHead : world.Quiet → world.HasStrategy → world.storage.HasOneHead
  noneWaits : world.Quiet → world.HasStrategy →
    ∀ callback ∈ world.resolver.noConflictCallbacks, world.checked ≤ callback

end ResolverWorld

end Peridot
