import Peridot.AutoMerge
import Peridot.CommonAncestor
import Peridot.JournalRows
import Peridot.PageDbRefinement

/-!
# Merges in which the last head wins

`MergeResolver` takes the two oldest heads and merges them with `LastOneWinsMergeStrategy`:
what the newer head has changed since the common ancestor is written over the older head.
All devices with the same commits make the same merge.
-/

namespace Peridot

open List ByteStore JournalRows KeyedList

/-- Why no merge is made; `outOfFuel` marks an unfinished computation. -/
inductive MergeStop where
  | failed (failure : MergeFailure)
  | outOfFuel

namespace MergeStop

variable {α : Type}

def ofReply : Except MergeFailure α → Except MergeStop α
  | .ok result => .ok result
  | .error failure => .error (.failed failure)

def ofStatus : Except Status α → Except MergeStop α
  | .ok result => .ok result
  | .error status => .error (.failed (.storage status))

def ofCall : Call α → Except MergeStop α
  | .ok result => .ok result
  | .error (.status status) => .error (.failed (.storage status))
  | .error .outOfFuel => .error .outOfFuel

def ofWalk : Option (Except Status α) → Except MergeStop α
  | some reply => ofStatus reply
  | none => .error .outOfFuel

end MergeStop

inductive DelayedStatus where
  | dontDelay
  | mayDelay
deriving DecidableEq

/-- What a device holds of a page, and what its storage answers during a merge. -/
structure MergeDevice (ids : NodeIdentifiers) where
  /-- The rows of the heads with their timestamps, in the order in which they are listed. -/
  headRows : List (CommitId × Bytes)
  getCommit : CommitId → Except Status CommitImpl
  nodes : NodeStore ids
  indeterminate : Bool
  now : Int64
  startMergeCommit : Except MergeFailure Unit
  getCommitContentsDiff : CommitImpl → CommitImpl → Except MergeFailure (List EntryChange)
  /-- The waiter for the `Put` and `Delete` calls on the journal. -/
  journal : Except MergeFailure Unit
  /-- What `CommitJournal` does besides making the commit. -/
  commitJournal : Except MergeFailure Unit

inductive ConflictOutcome (formats : StorageFormats) (ids : NodeIdentifiers) where
  | noConflict
  | delayed
  | merged (commit : Commit formats) (nodes : NodeStore ids)

def EntryChange.operation (change : EntryChange) : Key × JournalValue :=
  (change.entry.key, if change.deleted then .delete
    else .add change.entry.objectIdentifier change.entry.priority)

theorem one_or_two {α : Type} (first second : α) :
    [first, second] ≠ [] ∧ [first, second].length ≤ 2 :=
  ⟨cons_ne_nil _ _, le_rfl⟩

section Resolver

variable {formats : StorageFormats} {ids : NodeIdentifiers} (code : CommitCode formats)
  (level : NodeLevelCalculator) (fuel : ℕ)

/-- `CommitJournal` of a merge: the journal is applied to the left head. -/
def commitMerge (device : MergeDevice ids) (left right : CommitImpl) (rows : JournalRows) :
    Except MergeStop (ConflictOutcome formats ids) := do
  let result ← MergeStop.ofCall (applyChanges level fuel device.indeterminate device.nodes
    left.rootIdentifier ⟨rows.changes, .ok⟩)
  MergeStop.ofReply device.commitJournal
  return .merged (code.fromContentAndParents device.now result.root [left, right]
    (one_or_two left right)) result.store

/-- `LastOneWinsMerger`. -/
def lastOneWins (device : MergeDevice ids) (left right ancestor : CommitImpl) :
    Except MergeStop (ConflictOutcome formats ids) := do
  MergeStop.ofReply device.startMergeCommit
  let changes ← MergeStop.ofReply (device.getCommitContentsDiff ancestor right)
  MergeStop.ofReply device.journal
  commitMerge code level fuel device left right
    (JournalRows.writeAll [] (changes.map EntryChange.operation))

def resolveConflicts (rounds : ℕ) (device : MergeDevice ids) (delayedStatus : DelayedStatus)
    (first second : CommitId) : Except MergeStop (ConflictOutcome formats ids) := do
  let head1 ← MergeStop.ofStatus (device.getCommit first)
  let head2 ← MergeStop.ofStatus (device.getCommit second)
  if head1.parentIds.length = 2 ∧ head2.parentIds.length = 2 ∧ delayedStatus = .mayDelay then
    return .delayed
  if head1.rootIdentifier = head2.rootIdentifier then
    MergeStop.ofReply device.startMergeCommit
    commitMerge code level fuel device head1 head2 []
  else
    let ancestor ← MergeStop.ofWalk (findCommonAncestor device.getCommit rounds head1 head2)
    lastOneWins code level fuel device head1 head2 ancestor

def checkConflicts (rounds : ℕ) (device : MergeDevice ids) (delayedStatus : DelayedStatus) :
    Except MergeStop (ConflictOutcome formats ids) :=
  match ByteStore.extractSortedCommitsIds device.headRows with
  | first :: second :: _ =>
    resolveConflicts code level fuel rounds device delayedStatus first second
  | _ => return .noConflict

def mergeHeads (rounds : ℕ) (device : MergeDevice ids) (delayedStatus : DelayedStatus) :
    Except MergeStop (ConflictOutcome formats ids) := do
  match ← checkConflicts code level fuel rounds device delayedStatus with
  | .delayed => checkConflicts code level fuel rounds device .dontDelay
  | outcome => return outcome

end Resolver

/-- The changes are exactly the differences from `base` to `other`, in any order. -/
structure ReportsDifference (base other : Contents) (changes : List EntryChange) : Prop where
  result : ∀ change ∈ changes, other change.entry.key = change.result
  changed : ∀ change ∈ changes, base change.entry.key ≠ other change.entry.key
  complete : ∀ key, base key ≠ other key → ∃ change ∈ changes, change.entry.key = key

def operationFor (key : Key) : Option Entry → Key × JournalValue
  | some entry => (key, .add entry.objectIdentifier entry.priority)
  | none => (key, .delete)

theorem EntryChange.operation_eq (change : EntryChange) :
    change.operation = operationFor change.entry.key change.result := by
  obtain ⟨entry, deleted⟩ := change
  cases deleted <;> rfl

section Difference

variable {base other : Contents} {changes : List EntryChange} {key : Key}
  (reports : ReportsDifference base other changes)
include reports

theorem ReportsDifference.find_rows :
    KeyedList.find Prod.fst (JournalRows.writeAll [] (changes.map EntryChange.operation)) key =
      if base key ≠ other key then some (operationFor key (other key)) else none := by
  rw [find_writeAll]
  cases isLast : lastOperation (changes.map EntryChange.operation) key with
  | none =>
    rw [if_neg]
    · rfl
    · intro differs
      obtain ⟨change, inChanges, isKey⟩ := reports.complete key differs
      rw [lastOperation, getLast?_eq_none_iff, filter_eq_nil_iff] at isLast
      exact isLast _ (mem_map_of_mem inChanges) (decide_eq_true isKey)
  | some operation =>
    obtain ⟨inOperations, isKey⟩ := mem_filter.mp (mem_of_getLast? isLast)
    obtain ⟨change, inChanges, rfl⟩ := mem_map.mp inOperations
    obtain rfl : change.entry.key = key := of_decide_eq_true isKey
    rw [if_pos (reports.changed change inChanges), reports.result change inChanges,
      ← EntryChange.operation_eq]
    rfl

theorem ReportsDifference.rows_unique {otherChanges : List EntryChange}
    (otherReports : ReportsDifference base other otherChanges) :
    JournalRows.writeAll [] (changes.map EntryChange.operation) =
      JournalRows.writeAll [] (otherChanges.map EntryChange.operation) := by
  refine eq_of_find_eq (sorted_writeAll sorted_nil) (sorted_writeAll sorted_nil) fun key => ?_
  rw [reports.find_rows, otherReports.find_rows]

theorem ReportsDifference.result_rows (map : Contents) :
    JournalRows.result (JournalRows.writeAll [] (changes.map EntryChange.operation)) map key =
      if base key ≠ other key then other key else map key := by
  rw [JournalRows.result, reports.find_rows]
  by_cases differs : base key ≠ other key
  · obtain ⟨change, inChanges, rfl⟩ := reports.complete key differs
    rw [if_pos differs, if_pos differs, reports.result change inChanges]
    obtain ⟨entry, deleted⟩ := change
    cases deleted <;> rfl
  · rw [if_neg differs, if_neg differs]

end Difference

def headRow (head : CommitImpl) : CommitId × Bytes :=
  (head.id, serializeNumber head.timestamp.toUInt64)

/-- The later commit by its time, or by its id if the times are the same. -/
def Newer (newer older : CommitImpl) : Prop :=
  older.timestamp < newer.timestamp ∨ older.timestamp = newer.timestamp ∧ older.id < newer.id

theorem Newer.commitOrder_lt {older newer : CommitImpl} (isNewer : Newer newer older) :
    commitOrder (headRow older) < commitOrder (headRow newer) := by
  simp only [commitOrder, headRow, deserialize_serializeNumber, Int64.toInt64_toUInt64,
    Prod.Lex.toLex_lt_toLex]
  exact isNewer.imp Int64.lt_iff_toInt_lt.mp (And.imp_left (congrArg Int64.toInt))

variable {headRows : List (CommitId × Bytes)}

theorem extractSortedCommitsIds_heads {older newer : CommitImpl} (isNewer : Newer newer older)
    (heads : headRows.Perm [headRow older, headRow newer]) :
    extractSortedCommitsIds headRows = [older.id, newer.id] := by
  have less := isNewer.commitOrder_lt
  have isSorted : (headRows.mergeSort fun first second => !commitLess second first) =
      [headRow older, headRow newer] := by
    refine List.Perm.eq_of_pairwise ?_ (pairwise_mergeSort headRows)
      (by simp [less.le]) ((mergeSort_perm _ _).trans heads)
    intro first second inSorted inHeads firstLe secondLe
    have inRows := ((mergeSort_perm _ _).trans heads).subset inSorted
    simp only [mem_cons, not_mem_nil, or_false] at inRows inHeads
    rcases inRows with rfl | rfl <;> rcases inHeads with rfl | rfl
    · rfl
    · exact absurd secondLe less.not_ge
    · exact absurd firstLe less.not_ge
    · rfl
  rw [extractSortedCommitsIds, isSorted]
  rfl

/-- The device holds the commits of the graph with their trees, and the two heads, listed in any
order.  Its storage does not fail, and its differences are exact. -/
structure HoldsHeads {ids : NodeIdentifiers} (level : NodeLevelCalculator) (dag : CommitDag)
    (contents : ObjectIdentifier → Contents) (older newer : CommitImpl)
    (device : MergeDevice ids) : Prop where
  stored : dag.StoredIn device.getCommit
  heads : device.headRows.Perm [headRow older, headRow newer]
  trees : ∀ commit, dag.Holds commit →
    HoldsContents level device.nodes.read commit.rootIdentifier (contents commit.rootIdentifier)
  differences : ∀ base other, dag.Holds base → dag.Holds other → ∃ changes,
    device.getCommitContentsDiff base other = .ok changes ∧
      ReportsDifference (contents base.rootIdentifier) (contents other.rootIdentifier) changes
  started : device.startMergeCommit = .ok ()
  journaled : device.journal = .ok ()
  committed : device.commitJournal = .ok ()

/-- The entry of the newer head where it has changed the ancestor, that of the older head
elsewhere. -/
def lastOneWinsContents (ancestor older newer : Contents) : Contents := fun key =>
  if ancestor key ≠ newer key then newer key else older key

section Agreement

variable {formats : StorageFormats} {ids : NodeIdentifiers} {code : CommitCode formats}
  {level : NodeLevelCalculator} {fuel : ℕ} {dag : CommitDag}
  {contents : ObjectIdentifier → Contents} {older newer : CommitImpl}
  {first second device : MergeDevice ids}

theorem commitMerge_agree (firstHolds : HoldsHeads level dag contents older newer first)
    (secondHolds : HoldsHeads level dag contents older newer second) (held : dag.Holds older)
    (enough : 257 < fuel) {rows : JournalRows} (sorted : KeyedList.Sorted Prod.fst rows) :
    ∃ merge firstNodes secondNodes,
      commitMerge code level fuel first older newer rows = .ok (.merged merge firstNodes) ∧
      commitMerge code level fuel second older newer rows = .ok (.merged merge secondNodes) ∧
      HoldsContents level firstNodes.read merge.rootIdentifier
        (rows.result (contents older.rootIdentifier)) ∧
      HoldsContents level secondNodes.read merge.rootIdentifier
        (rows.result (contents older.rootIdentifier)) := by
  obtain ⟨result, otherResult, isResult, isOther, sameRoot, holds, otherHolds⟩ :=
    applyChanges_agree (firstHolds.trees older held) (secondHolds.trees older held) rows.changes
      first.indeterminate second.indeterminate enough
  have isContents : rows.changes.foldl applyToMap (contents older.rootIdentifier) =
      rows.result (contents older.rootIdentifier) :=
    funext fun key => foldl_changes sorted _
  rw [isContents] at holds otherHolds
  refine ⟨code.fromContentAndParents first.now result.root [older, newer] (one_or_two _ _),
    result.store, otherResult.store, ?_, ?_, holds, ?_⟩
  · simp only [commitMerge, isResult, firstHolds.committed, MergeStop.ofCall, MergeStop.ofReply]
    rfl
  · simp only [commitMerge, isOther, secondHolds.committed, MergeStop.ofCall, MergeStop.ofReply]
    rw [CommitCode.fromContentAndParents_merge code first.now second.now, sameRoot]
    rfl
  · exact sameRoot ▸ otherHolds

theorem checkConflicts_heads (holds : HoldsHeads level dag contents older newer device)
    (isNewer : Newer newer older) (rounds : ℕ) (delayedStatus : DelayedStatus) :
    checkConflicts code level fuel rounds device delayedStatus =
      resolveConflicts code level fuel rounds device delayedStatus older.id newer.id := by
  simp only [checkConflicts, extractSortedCommitsIds_heads isNewer holds.heads]

/-- The merge is made at once, or it is delayed when both heads are merges. -/
theorem resolveConflicts_delayed (holds : HoldsHeads level dag contents older newer device)
    (olderHeld : dag.Holds older) (newerHeld : dag.Holds newer) (rounds : ℕ)
    (delayedStatus : DelayedStatus) :
    resolveConflicts code level fuel rounds device delayedStatus older.id newer.id = .ok .delayed ∨
      resolveConflicts code level fuel rounds device delayedStatus older.id newer.id =
        resolveConflicts code level fuel rounds device .dontDelay older.id newer.id := by
  cases delayedStatus with
  | dontDelay => exact .inr rfl
  | mayDelay =>
    simp only [resolveConflicts, holds.stored _ _ olderHeld, holds.stored _ _ newerHeld,
      MergeStop.ofStatus]
    by_cases merges : older.parentIds.length = 2 ∧ newer.parentIds.length = 2
    · exact .inl (by simp [merges, bind, Except.bind, pure, Except.pure])
    · refine .inr ?_
      simp [bind, Except.bind, if_neg merges, reduceCtorEq]

section

variable (holds : HoldsHeads level dag contents older newer device) {rounds : ℕ}
include holds

theorem mergeHeads_of_merged (isNewer : Newer newer older) (olderHeld : dag.Holds older)
    (newerHeld : dag.Holds newer) {merge : Commit formats} {nodes : NodeStore ids}
    (merged : resolveConflicts code level fuel rounds device .dontDelay older.id newer.id =
      .ok (.merged merge nodes)) (delayedStatus : DelayedStatus) :
    mergeHeads code level fuel rounds device delayedStatus = .ok (.merged merge nodes) := by
  simp only [mergeHeads, checkConflicts_heads holds isNewer]
  rcases @resolveConflicts_delayed _ _ code level fuel _ _ _ _ _ holds olderHeld newerHeld rounds
    delayedStatus with isDelayed | atOnce
  · rw [isDelayed]
    exact merged
  · rw [atOnce, merged]
    rfl

theorem resolveConflicts_same (olderHeld : dag.Holds older) (newerHeld : dag.Holds newer)
    (sameRoot : older.rootIdentifier = newer.rootIdentifier) (rounds : ℕ) :
    resolveConflicts code level fuel rounds device .dontDelay older.id newer.id =
      commitMerge code level fuel device older newer [] := by
  simp only [resolveConflicts, holds.stored _ _ olderHeld, holds.stored _ _ newerHeld,
    holds.started, MergeStop.ofStatus, MergeStop.ofReply]
  simp [bind, Except.bind, sameRoot]

theorem resolveConflicts_different (olderHeld : dag.Holds older) (newerHeld : dag.Holds newer)
    (different : older.rootIdentifier ≠ newer.rootIdentifier) {ancestor : CommitImpl}
    (isAncestor : findCommonAncestor device.getCommit rounds older newer = some (.ok ancestor))
    {changes : List EntryChange}
    (isDifference : device.getCommitContentsDiff ancestor newer = .ok changes) :
    resolveConflicts code level fuel rounds device .dontDelay older.id newer.id =
      commitMerge code level fuel device older newer
        (JournalRows.writeAll [] (changes.map EntryChange.operation)) := by
  simp only [resolveConflicts, lastOneWins, holds.stored _ _ olderHeld,
    holds.stored _ _ newerHeld, holds.started, holds.journaled, MergeStop.ofStatus,
    MergeStop.ofReply, MergeStop.ofWalk]
  simp [bind, Except.bind, different, isAncestor, isDifference]

end

/-- All devices that hold the same commits and heads make the same merge.  It has the entries of
the newer head where that head has changed the common ancestor, and those of the older head
elsewhere. -/
theorem mergeHeads_agree (firstHolds : HoldsHeads level dag contents older newer first)
    (secondHolds : HoldsHeads level dag contents older newer second)
    (isNewer : Newer newer older) (olderHeld : dag.Holds older) (newerHeld : dag.Holds newer)
    (enough : 257 < fuel) : ∃ ancestor merge firstNodes secondNodes,
      (∃ enoughRounds, ∀ rounds ≥ enoughRounds,
        findCommonAncestor first.getCommit rounds older newer = some (.ok ancestor) ∧
        findCommonAncestor second.getCommit rounds older newer = some (.ok ancestor) ∧
        ∀ firstStatus secondStatus,
          mergeHeads code level fuel rounds first firstStatus = .ok (.merged merge firstNodes) ∧
          mergeHeads code level fuel rounds second secondStatus = .ok (.merged merge secondNodes)) ∧
      HoldsContents level firstNodes.read merge.rootIdentifier
        (lastOneWinsContents (contents ancestor.rootIdentifier) (contents older.rootIdentifier)
          (contents newer.rootIdentifier)) ∧
      HoldsContents level secondNodes.read merge.rootIdentifier
        (lastOneWinsContents (contents ancestor.rootIdentifier) (contents older.rootIdentifier)
          (contents newer.rootIdentifier)) := by
  obtain ⟨ancestor, ancestorHeld, enoughRounds, isAncestor⟩ :=
    findCommonAncestor_agree firstHolds.stored secondHolds.stored olderHeld newerHeld
  obtain ⟨rows, sorted, isResult, firstResolves, secondResolves⟩ :
      ∃ rows : JournalRows, KeyedList.Sorted Prod.fst rows ∧
        rows.result (contents older.rootIdentifier) = lastOneWinsContents
          (contents ancestor.rootIdentifier) (contents older.rootIdentifier)
          (contents newer.rootIdentifier) ∧
        (∀ rounds ≥ enoughRounds,
          resolveConflicts code level fuel rounds first .dontDelay older.id newer.id =
            commitMerge code level fuel first older newer rows) ∧
        ∀ rounds ≥ enoughRounds,
          resolveConflicts code level fuel rounds second .dontDelay older.id newer.id =
            commitMerge code level fuel second older newer rows := by
    by_cases sameRoot : older.rootIdentifier = newer.rootIdentifier
    · refine ⟨[], sorted_nil, ?_,
        fun rounds _ => resolveConflicts_same firstHolds olderHeld newerHeld sameRoot rounds,
        fun rounds _ => resolveConflicts_same secondHolds olderHeld newerHeld sameRoot rounds⟩
      funext key
      simp [JournalRows.result, KeyedList.find, lastOneWinsContents, sameRoot]
    · obtain ⟨changes, isDifference, reports⟩ :=
        firstHolds.differences ancestor newer ancestorHeld newerHeld
      obtain ⟨otherChanges, isOther, otherReports⟩ :=
        secondHolds.differences ancestor newer ancestorHeld newerHeld
      refine ⟨_, sorted_writeAll sorted_nil,
        funext fun key => reports.result_rows _, fun rounds atLeast => ?_,
        fun rounds atLeast => ?_⟩
      · exact resolveConflicts_different firstHolds olderHeld newerHeld sameRoot
          (isAncestor rounds atLeast).1 isDifference
      · rw [reports.rows_unique otherReports]
        exact resolveConflicts_different secondHolds olderHeld newerHeld sameRoot
          (isAncestor rounds atLeast).2 isOther
  obtain ⟨merge, firstNodes, secondNodes, isFirst, isSecond, firstContents, secondContents⟩ :=
    @commitMerge_agree _ _ code _ _ _ _ _ _ _ _ firstHolds secondHolds olderHeld enough _ sorted
  rw [isResult] at firstContents secondContents
  refine ⟨ancestor, merge, firstNodes, secondNodes, ⟨enoughRounds, fun rounds atLeast => ?_⟩,
    firstContents, secondContents⟩
  refine ⟨(isAncestor rounds atLeast).1, (isAncestor rounds atLeast).2,
    fun firstStatus secondStatus => ⟨?_, ?_⟩⟩
  · exact mergeHeads_of_merged firstHolds isNewer olderHeld newerHeld
      ((firstResolves rounds atLeast).trans isFirst) firstStatus
  · exact mergeHeads_of_merged secondHolds isNewer olderHeld newerHeld
      ((secondResolves rounds atLeast).trans isSecond) secondStatus

end Agreement

def forkDag (root : ObjectIdentifier) (children : List CommitImpl)
    (areChildren : ∀ child ∈ children,
      child.parentIds = [kFirstPageCommitId] ∧ child.generation = 1) : CommitDag where
  find id :=
    if id = kFirstPageCommitId then some (.empty root)
    else children.find? fun child => child.id = id
  id_of_find := by
    intro id commit found
    split at found
    case isTrue isFirst =>
      cases found
      exact isFirst.symm
    case isFalse => simpa using List.find?_some found
  first := ⟨_, if_pos rfl, rfl, rfl⟩
  parents_found := by
    intro id commit found parentId isParent
    split at found
    case isTrue =>
      cases found
      cases isParent
    case isFalse =>
      rw [(areChildren commit (List.mem_of_find?_eq_some found)).1, List.mem_singleton] at isParent
      exact ⟨_, if_pos isParent⟩
  generation_eq := by
    intro id commit found notFirst
    rw [if_neg notFirst] at found
    obtain ⟨isChild, isNext⟩ := areChildren commit (List.mem_of_find?_eq_some found)
    refine ⟨kFirstPageCommitId, .empty root, ?_, if_pos rfl, ?_, fun parentId isParent other
      isOther => ?_⟩
    · rw [isChild]
      exact List.mem_singleton_self _
    · rw [isNext]
      rfl
    · rw [isChild, List.mem_singleton] at isParent
      rw [if_pos isParent] at isOther
      cases isOther
      exact le_rfl

def forkLeaf (key : Key) : TreeNode :=
  ⟨0, [sampleMergeEntry key], [], List.Pairwise.nil⟩

def forkRoot (key : Key) : ObjectIdentifier :=
  NodeIdentifiers.byCode.identify (forkLeaf key)

def forkNodes : NodeStore .byCode :=
  ((NodeStore.initial .byCode).add (forkLeaf [1])).add (forkLeaf [2])

def forkHead (key : Key) (timestamp : Int64) : CommitImpl :=
  ⟨key, ⟨timestamp, 1, forkRoot key, [kFirstPageCommitId]⟩⟩

def forkEmptyRoot : ObjectIdentifier :=
  NodeIdentifiers.byCode.identify NodeBuilder.emptyNode

def sampleFork : CommitDag :=
  forkDag forkEmptyRoot [forkHead [1] 10, forkHead [2] 20]
    (by simp [forkHead, CommitImpl.parentIds, CommitImpl.generation])

def forkContents (root : ObjectIdentifier) : Contents :=
  sampleContents ([[1], [2]].filter fun key => forkRoot key = root)

def sampleDifference (keys : List Key) (base other : Contents) : List EntryChange :=
  (keys.filter fun key => base key ≠ other key).map fun key =>
    ⟨(other key).getD (sampleMergeEntry key), (other key).isNone⟩

def forkDevice (headRows : List (CommitId × Bytes)) : MergeDevice .byCode where
  headRows := headRows
  getCommit := sampleFork.getCommit
  nodes := forkNodes
  indeterminate := false
  now := 0
  startMergeCommit := .ok ()
  getCommitContentsDiff base other := .ok (sampleDifference [[1], [2]]
    (forkContents base.rootIdentifier) (forkContents other.rootIdentifier))
  journal := .ok ()
  commitJournal := .ok ()

theorem forkContents_of_not_mem {key : Key} (absent : key ∉ ([[1], [2]] : List Key))
    (root : ObjectIdentifier) : forkContents root key = none :=
  if_neg fun inKeys => absent (mem_of_mem_filter inKeys)

theorem reportsDifference_fork (root otherRoot : ObjectIdentifier) :
    ReportsDifference (forkContents root) (forkContents otherRoot)
      (sampleDifference [[1], [2]] (forkContents root) (forkContents otherRoot)) := by
  have key_eq : ∀ key : Key, ((forkContents otherRoot key).getD (sampleMergeEntry key)).key =
      key := by
    intro key
    simp only [forkContents, sampleContents]
    split <;> rfl
  have inDifference : ∀ change ∈ sampleDifference [[1], [2]] (forkContents root)
      (forkContents otherRoot), ∃ key, forkContents root key ≠ forkContents otherRoot key ∧
        change = ⟨(forkContents otherRoot key).getD (sampleMergeEntry key),
          (forkContents otherRoot key).isNone⟩ := by
    intro change inChanges
    obtain ⟨key, inKeys, rfl⟩ := mem_map.mp inChanges
    exact ⟨key, of_decide_eq_true (mem_filter.mp inKeys).2, rfl⟩
  constructor
  case result =>
    intro change inChanges
    obtain ⟨key, -, rfl⟩ := inDifference change inChanges
    rw [key_eq, EntryChange.result]
    cases forkContents otherRoot key <;> rfl
  case changed =>
    intro change inChanges
    obtain ⟨key, differs, rfl⟩ := inDifference change inChanges
    rw [key_eq]
    exact differs
  case complete =>
    intro key differs
    refine ⟨_, mem_map_of_mem (mem_filter.mpr ⟨?_, decide_eq_true differs⟩), key_eq key⟩
    by_contra absent
    rw [forkContents_of_not_mem absent, forkContents_of_not_mem absent] at differs
    exact differs rfl

def forkTree (keys : List Key) : LeveledTree Entry :=
  ⟨1, .node (Spine.ofList (fun _ => .null 0) 0 (keys.map sampleMergeEntry))⟩

theorem contents_forkTree (keys : List Key) :
    (forkTree keys).contents = keys.map sampleMergeEntry := by
  have flatten : ∀ (items : List Entry) (start : ℕ),
      (Spine.ofList (fun _ => (.null 0 : Slot Entry 0)) start items).flatten (Slot.contents 0) =
        items := by
    intro items
    induction items with
    | nil => exact fun _ => rfl
    | cons item items ih => exact fun start => congrArg (cons item) (ih (start + 1))
  exact flatten _ 0

theorem find_forkTree (keys : List Key) (key : Key) :
    KeyedList.find Entry.key (forkTree keys).contents key = sampleContents keys key := by
  rw [contents_forkTree]
  induction keys with
  | nil => rfl
  | cons other keys ih =>
    rw [map_cons, find_cons, ih, sampleContents, sampleContents]
    by_cases isKey : other = key
    · simp [isKey, sampleMergeEntry]
    · simp [isKey, Ne.symm isKey, sampleMergeEntry]

theorem holdsContents_fork :
    HoldsContents (fun _ => 0) forkNodes.read forkEmptyRoot (forkContents forkEmptyRoot) ∧
      HoldsContents (fun _ => 0) forkNodes.read (forkRoot [1]) (forkContents (forkRoot [1])) ∧
      HoldsContents (fun _ => 0) forkNodes.read (forkRoot [2]) (forkContents (forkRoot [2])) := by
  have noKeys : forkContents forkEmptyRoot = sampleContents [] :=
    congrArg sampleContents (by decide)
  have firstKey : forkContents (forkRoot [1]) = sampleContents [[1]] :=
    congrArg sampleContents (by decide)
  have secondKey : forkContents (forkRoot [2]) = sampleContents [[2]] :=
    congrArg sampleContents (by decide)
  rw [noKeys, firstKey, secondKey]
  exact ⟨⟨forkTree [], by decide, find_forkTree []⟩,
    ⟨forkTree [[1]], by decide, find_forkTree [[1]]⟩,
    ⟨forkTree [[2]], by decide, find_forkTree [[2]]⟩⟩

theorem forkDevice_holds
    (heads : headRows.Perm [headRow (forkHead [1] 10), headRow (forkHead [2] 20)]) :
    HoldsHeads (fun _ => 0) sampleFork forkContents (forkHead [1] 10) (forkHead [2] 20)
      (forkDevice headRows) where
  stored := sampleFork.storedIn_getCommit
  heads := heads
  trees := by
    intro commit held
    have isCommit : commit ∈ [.empty forkEmptyRoot, forkHead [1] 10, forkHead [2] 20] := by
      simp only [CommitDag.Holds, sampleFork, forkDag] at held
      split at held
      case isTrue => exact mem_cons.mpr (.inl (Option.some.inj held).symm)
      case isFalse => exact mem_cons_of_mem _ (mem_of_find?_eq_some held)
    simp only [mem_cons, not_mem_nil, or_false] at isCommit
    obtain ⟨empty, first, second⟩ := holdsContents_fork
    rcases isCommit with rfl | rfl | rfl
    · exact empty
    · exact first
    · exact second
  differences base other _ _ := ⟨_, rfl, reportsDifference_fork _ _⟩
  started := rfl
  journaled := rfl
  committed := rfl

/-- Two devices that list the heads in different orders merge them to the same commit. -/
theorem mergeHeads_agree_fork :
    ∃ merge firstNodes secondNodes, (∃ enoughRounds, ∀ rounds ≥ enoughRounds,
      mergeHeads CommitCode.byCode (fun _ => 0) 258 rounds
        (forkDevice [headRow (forkHead [1] 10), headRow (forkHead [2] 20)]) .dontDelay =
          .ok (.merged merge firstNodes) ∧ mergeHeads CommitCode.byCode (fun _ => 0) 258 rounds
        (forkDevice [headRow (forkHead [2] 20), headRow (forkHead [1] 10)]) .mayDelay =
          .ok (.merged merge secondNodes)) := by
  obtain ⟨_, merge, firstNodes, secondNodes, ⟨enoughRounds, merges⟩, -⟩ :=
    @mergeHeads_agree _ _ CommitCode.byCode _ 258 _ _ _ _ _ _
      (forkDevice_holds (List.Perm.refl _)) (forkDevice_holds (List.Perm.swap _ _ _))
      (.inl (by decide)) (by decide : sampleFork.find [1] = _) (by decide : sampleFork.find [2] = _)
      (by decide)
  exact ⟨merge, firstNodes, secondNodes, enoughRounds, fun rounds atLeast =>
    (merges rounds atLeast).2.2 _ _⟩

end Peridot
