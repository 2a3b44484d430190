import Peridot.CommitHistoryCalls
import Peridot.CommitSyncCalls
import Peridot.PageDbReaders

/-!
# Unsynced commits in order

`GetUnsyncedCommits` sorts the commits by the generations in their rows.  In every run of
the calls of a page, whose commits belong to one history, a row of an unsynced commit holds
the generation of that commit, so that a commit comes after its unsynced ancestors.
-/

namespace Peridot

open PageDb CommitCode List List.Pairwise Option Function

variable {formats : StorageFormats} {code : CommitCode formats} {run : PageRun formats}

/-- `SynchronousGetCommit` on a database, with the identifier of the empty node. -/
def PageDb.getCommit (formats : StorageFormats) (emptyRoot : ObjectIdentifier) (db : PageDb)
    (commitId : CommitId) : Except Status CommitImpl :=
  if commitId = kFirstPageCommitId then .ok (.empty emptyRoot)
  else do
    let bytes ← db.read (.commit commitId)
    let commit ← Commit.fromStorageBytes formats commitId bytes
    return commit.toImpl

/-- `SynchronousGetUnsyncedCommits`, with the replies to its calls of `GetCommit`. -/
def getUnsyncedCommits (store : ByteStore) (getCommit : CommitId → Except Status CommitImpl) :
    Except Status (List CommitImpl) :=
  store.getUnsyncedCommitIds.mapM getCommit

namespace CommitHistory

variable {code : CommitCode formats} {history : CommitHistory code} {batch : List Write}

structure Matches (history : CommitHistory code) (db : PageDb) : Prop where
  commits : ∀ id storageBytes, db.lookup (.commit id) = some storageBytes →
    ∃ commit : Commit formats, history.Holds commit ∧ commit.id = id ∧
      commit.storageBytes = storageBytes
  unsynced : ∀ id generation, db.lookup (.unsyncedCommit id) = some generation →
    .commit id ∈ db ∧ ∃ commit : Commit formats, history.Holds commit ∧ commit.id = id ∧
      commit.generation = generation

variable {db : PageDb}

theorem Matches.initial : history.Matches .initial := by
  constructor
  · intro id storageBytes found
    cases mem_initial.mp (mem_of_lookup found)
  · intro id generation found
    cases mem_initial.mp (mem_of_lookup found)

theorem Stores.mem_commit (stores : history.Stores batch) {id : CommitId} :
    .commit id ∈ db.writeAll batch ↔ .commit id ∈ db ∨ ∃ write ∈ batch, write.row = .commit id := by
  refine mem_writeAll_of_puts fun write member isRow => ?_
  obtain ⟨commit, -, rfl⟩ := stores.commits write member id isRow
  rfl

variable (isMatch : history.Matches db)
include isMatch

theorem Matches.writeAll (stores : history.Stores batch) : history.Matches (db.writeAll batch) := by
  constructor
  · intro id storageBytes found
    rcases lookup_writeAll found with earlier | written
    · exact isMatch.commits id storageBytes earlier
    · obtain ⟨commit, held, isWrite⟩ := stores.commits _ written id rfl
      cases isWrite
      exact ⟨commit, held, rfl, rfl⟩
  · intro id generation found
    rcases lookup_writeAll found with earlier | written
    · obtain ⟨stored, isCommit⟩ := isMatch.unsynced id generation earlier
      exact ⟨stores.mem_commit.mpr (.inl stored), isCommit⟩
    · obtain ⟨commit, held, isWrite, added⟩ := stores.unsynced _ written id rfl rfl
      cases isWrite
      exact ⟨stores.mem_commit.mpr (.inr added), commit, held, rfl, rfl⟩

theorem Matches.other {other : PageDb}
    (sameCommits : ∀ id, other.lookup (.commit id) = db.lookup (.commit id))
    (sameUnsynced : ∀ id, other.lookup (.unsyncedCommit id) = db.lookup (.unsyncedCommit id)) :
    history.Matches other := by
  constructor
  · intro id storageBytes found
    exact isMatch.commits id storageBytes (sameCommits id ▸ found)
  · intro id generation found
    obtain ⟨stored, isCommit⟩ := isMatch.unsynced id generation (sameUnsynced id ▸ found)
    rw [mem_iff_lookup, ← sameCommits, ← mem_iff_lookup] at stored
    exact ⟨stored, isCommit⟩

theorem Matches.getCommit {commit : Commit formats}
    (held : history.Holds commit) (stored : .commit commit.id ∈ db) :
    db.getCommit formats history.emptyRoot commit.id = .ok commit.toImpl := by
  obtain ⟨storageBytes, found⟩ := ne_none_iff_exists'.mp (mem_iff_lookup.mp stored)
  obtain ⟨other, otherHeld, sameId, rfl⟩ := isMatch.commits _ storageBytes found
  have same : other.toImpl = commit.toImpl := some.inj (otherHeld.symm.trans (sameId ▸ held))
  rw [PageDb.getCommit, if_neg (ne_first held commit.hasParents.1), PageDb.read, found, ← sameId,
    ← same]
  simp only [Commit.fromStorageBytes_self, bind, Except.bind, pure, Except.pure]

end CommitHistory

namespace PageRun

variable {code : CommitCode formats} (history : CommitHistory code)

def StartsIn (run next : PageRun formats) : Prop :=
  ∀ id task, run.pool.tasks id = none → next.pool.tasks id = some task →
    ∃ fuel call, history.Adds call ∧ task.rest = (call.routine fuel).run

/-- A step of a page whose commits belong to a history, or the page is opened again. -/
inductive Grows : PageRun formats → PageRun formats → Prop where
  | step {run next : PageRun formats} (step : run.Step next)
      (starts : StartsIn history run next) : Grows run next
  | restart {run next : PageRun formats} (isStart : next.Start)
      (sameDb : next.pool.shared.db = run.pool.shared.db) : Grows run next

/-- The states that a new page comes to when its devices add commits of the history. -/
inductive Grown : PageRun formats → Prop where
  | create {run : PageRun formats} (isStart : run.Start)
      (isNew : run.pool.shared.db = .initial) : Grown run
  | grow {run next : PageRun formats} (before : Grown run) (grows : Grows history run next) :
      Grown next

/-- All tasks belong to the history, and so do the rows of the commits. -/
def BelongsTo (run : PageRun formats) : Prop :=
  run.pool.Disciplined (writeDiscipline formats history.Stores)
    (fun shared => history.Matches shared.db) (fun _ _ _ => True) fun _ _ _ => True

variable {history} {run next : PageRun formats} {id : CommitId}

theorem db_of_acts {id : Nat} {op : PageOp formats} {before after : PageShared} {reply : op.Reply}
    (acts : pageAction id op before reply after) : after.db = before.db ∨
      ∃ writes, op = .execute writes ∧ after.db = before.db.writeAll writes := by
  cases op with
  | acquireLock => rcases acts with ⟨-, -, rfl⟩ | ⟨-, rfl⟩ <;> exact .inl rfl
  | releaseLock | getObjectsFromSync rootIdentifier | notifyWatchers source commits =>
    exact acts ▸ .inl rfl
  | execute writes =>
    rcases acts with ⟨-, rfl⟩ | ⟨-, rfl⟩
    · exact .inr ⟨writes, rfl, rfl⟩
    · exact .inl rfl
  | startBatch | get row | hasKey row | updateBatch => exact acts.2 ▸ .inl rfl

theorem respects_stores : (writeDiscipline formats history.Stores).Respects pageAction
    (fun shared => history.Matches shared.db) fun _ _ _ => True where
  keeps := by
    intro id op before reply after known isMatch _ permitted acts
    rcases db_of_acts acts with sameDb | ⟨writes, rfl, isWritten⟩
    · exact sameDb ▸ isMatch
    · exact isWritten ▸ isMatch.writeAll permitted
  learns _ _ _ _ := trivial
  spares _ _ _ _ _ _ := trivial

theorem Start.belongsTo (isStart : run.Start) (isMatch : history.Matches run.pool.shared.db) :
    run.BelongsTo history := by
  refine ⟨isMatch, fun id task isTask => ?_⟩
  rw [isStart.noTasks id] at isTask
  cases isTask

theorem BelongsTo.grows (belongs : run.BelongsTo history) (grows : Grows history run next) :
    next.BelongsTo history := by
  cases grows with
  | restart isStart sameDb => exact isStart.belongsTo (sameDb ▸ belongs.inv)
  | step step starts =>
    cases step with
    | start id fuel call isFree =>
      obtain ⟨fuel, call, adds, isRoutine⟩ := starts id _ isFree (update_self ..)
      refine Pool.Disciplined.start belongs trivial (?_ : Coroutine.Obeys _ _ () _)
      rw [isRoutine]
      exact Coroutine.Obeys.mono (CommitHistory.writes_routine fuel adds) fun _ _ _ => trivial
    | advance advances => exact Pool.Disciplined.advances belongs respects_stores advances
    | succeed isDone | fail isDone => exact Pool.Disciplined.finish belongs _
    | write writes others =>
      refine Pool.Disciplined.environment belongs ?_ fun _ _ => id
      exact belongs.inv.other
        (fun id => lookup_writeAll_of_ne fun write member => (others write member id).1)
        fun id => lookup_writeAll_of_ne fun write member => (others write member id).2

theorem Grown.belongsTo (grown : Grown history run) : run.BelongsTo history := by
  induction grown with
  | create isStart isNew => exact isStart.belongsTo (isNew ▸ .initial)
  | grow _ grows ih => exact ih.grows grows

theorem BelongsTo.commit_stays (belongs : run.BelongsTo history) (grows : Grows history run next)
    (stored : .commit id ∈ run.pool.shared.db) :
    .commit id ∈ next.pool.shared.db := by
  cases grows with
  | restart isStart sameDb => rwa [sameDb]
  | step step starts =>
    cases step with
    | start | succeed | fail => exact stored
    | write writes others =>
      rw [mem_iff_lookup, lookup_writeAll_of_ne fun write member => (others write member id).1]
      exact mem_iff_lookup.mp stored
    | advance advances =>
      cases advances with
      | @call owner goal op following reply shared isNext acts =>
        obtain ⟨known, -, permitted, -⟩ := belongs.tasks owner _ isNext
        rcases db_of_acts acts with sameDb | ⟨writes, rfl, isWritten⟩
        · exact sameDb ▸ stored
        · have stores : history.Stores writes := permitted
          exact isWritten ▸ stores.mem_commit.mpr (.inl stored)

variable (history) in
/-- Some calls later. -/
def Leads : PageRun formats → PageRun formats → Prop :=
  Relation.ReflTransGen (Grows history)

variable {later : PageRun formats} (leads : Leads history run later)
include leads

variable (belongs : run.BelongsTo history)
include belongs

theorem Leads.belongsTo : later.BelongsTo history := by
  induction leads with
  | refl => exact belongs
  | tail _ grows ih => exact ih.grows grows

theorem Leads.commit_stays (stored : .commit id ∈ run.pool.shared.db) :
    .commit id ∈ later.pool.shared.db := by
  induction leads with
  | refl => exact stored
  | tail before grows ih => exact BelongsTo.commit_stays (Leads.belongsTo before belongs) grows ih

end PageRun

theorem toInt_toInt64 {number : UInt64} (small : number.toNat < 2 ^ 63) :
    number.toInt64.toInt = number.toNat := by
  have isBits : number.toInt64.toInt = number.toBitVec.toInt := rfl
  rw [isBits, BitVec.toInt_eq_toNat_of_lt]
  · rfl
  · have isNumber : number.toBitVec.toNat = number.toNat := rfl
    omega

open CommitHistory in
section

variable {number : CommitId → Option Int64} {ids : List CommitId} (sorted : SortedBy number ids)
include sorted

theorem SortedBy.ancestors {history : CommitHistory code}
    (isGeneration : ∀ id ∈ ids, ∃ commit : Commit formats, history.Holds commit ∧ commit.id = id ∧
      number id = some commit.generation.toInt64) :
    ids.Pairwise fun earlier later => ¬history.Ancestor later earlier := by
  refine imp_of_mem ?_ sorted
  intro earlier later earlierIn laterIn ordered isAncestor
  obtain ⟨first, firstHeld, rfl, isFirst⟩ := isGeneration earlier earlierIn
  obtain ⟨second, secondHeld, rfl, isSecond⟩ := isGeneration later laterIn
  have less : second.generation.toNat < first.generation.toNat :=
    generation_lt_of_ancestor isAncestor secondHeld firstHeld
  have firstSmall : first.generation.toNat < 2 ^ 63 := generation_lt firstHeld
  have notLess : first.generation.toInt64.toInt ≤ second.generation.toInt64.toInt := by
    rcases ordered _ _ isFirst isSecond with isLess | ⟨same, -⟩
    · exact (Int64.lt_iff_toInt_lt.mp isLess).le
    · rw [same]
  rw [toInt_toInt64 firstSmall, toInt_toInt64 (less.trans firstSmall)] at notLess
  exact absurd less (not_lt.mpr (Int.ofNat_le.mp notLess))

theorem SortedBy.nodup (numbered : ∀ id ∈ ids, ∃ isNumber, number id = some isNumber) :
    ids.Nodup := by
  refine imp_of_mem ?_ sorted
  rintro id _ member - ordered rfl
  obtain ⟨isNumber, found⟩ := numbered id member
  rcases ordered _ _ found found with less | ⟨-, less⟩
  · exact Int64.lt_irrefl less
  · exact lt_irrefl _ less

end

open PageRun CommitHistory in
/-- `GetUnsyncedCommits` returns the unsynced commits, each once, so that every commit comes
after all its unsynced ancestors. -/
theorem getUnsyncedCommits_ancestors {code : CommitCode formats} {history : CommitHistory code}
    {run : PageRun formats} (grown : Grown history run) {format : IdentifierFormat}
    {store : ByteStore} (represents : Represents format store run.pool.shared.db)
    {getCommit : CommitId → Except Status CommitImpl}
    (replies : ∀ id ∈ store.getUnsyncedCommitIds, ∃ later : PageRun formats,
      Leads history run later ∧
        getCommit id = later.pool.shared.db.getCommit formats history.emptyRoot id) :
    ∃ commits, getUnsyncedCommits store getCommit = .ok commits ∧
      (∀ id, id ∈ commits.map CommitImpl.id ↔ .unsyncedCommit id ∈ run.pool.shared.db) ∧
      (commits.map CommitImpl.id).Nodup ∧
      (∀ commit ∈ commits, history.find commit.id = some commit) ∧
      commits.Pairwise fun earlier later => ¬history.Ancestor later.id earlier.id := by
  obtain ⟨isUnsynced, sorted⟩ := represents.getUnsyncedCommitIds
  have belongs := grown.belongsTo
  have isGeneration : ∀ id ∈ store.getUnsyncedCommitIds, ∃ commit : Commit formats,
      history.Holds commit ∧ commit.id = id ∧
        (run.pool.shared.db.lookup (.unsyncedCommit id)).map UInt64.toInt64 =
          some commit.generation.toInt64 := by
    intro id member
    obtain ⟨generation, found⟩ :=
      ne_none_iff_exists'.mp (mem_iff_lookup.mp ((isUnsynced id).mp member))
    obtain ⟨-, commit, held, sameId, rfl⟩ := belongs.inv.unsynced id generation found
    exact ⟨commit, held, sameId, by rw [found, map_some]⟩
  have isFound : ∀ id ∈ store.getUnsyncedCommitIds, ∃ commit : CommitImpl,
      getCommit id = .ok commit ∧ commit.id = id ∧ history.find id = some commit := by
    intro id member
    obtain ⟨later, leads, isReply⟩ := replies id member
    obtain ⟨generation, found⟩ :=
      ne_none_iff_exists'.mp (mem_iff_lookup.mp ((isUnsynced id).mp member))
    obtain ⟨stored, commit, held, rfl, -⟩ := belongs.inv.unsynced id generation found
    refine ⟨commit.toImpl, isReply.trans ?_, rfl, held⟩
    exact (leads.belongsTo belongs).inv.getCommit held (leads.commit_stays belongs stored)
  obtain ⟨commits, isResult, sameIds, areFound⟩ := mapM_found isFound
  have ordered := sorted.ancestors isGeneration
  refine ⟨commits, isResult, ?_, ?_, areFound, ?_⟩
  · rw [sameIds]
    exact isUnsynced
  · rw [sameIds]
    exact sorted.nodup fun id member => (isGeneration id member).elim fun _ isOf => ⟨_, isOf.2.2⟩
  · rw [← sameIds, pairwise_map] at ordered
    exact ordered

open PageRun in
/-- What is stored under the id of a commit is read ever after, whatever calls go on at once, and
after restarts. -/
theorem getCommit_later {history : CommitHistory code} (grown : Grown history run) {id : CommitId}
    (stored : .commit id ∈ run.pool.shared.db) :
    ∃ commit : Commit formats, history.Holds commit ∧ commit.id = id ∧
      ∀ later, Leads history run later →
        later.pool.shared.db.getCommit formats history.emptyRoot id = .ok commit.toImpl := by
  have belongs := grown.belongsTo
  obtain ⟨storageBytes, found⟩ := ne_none_iff_exists'.mp (mem_iff_lookup.mp stored)
  obtain ⟨commit, held, rfl, -⟩ := belongs.inv.commits id storageBytes found
  exact ⟨commit, held, rfl, fun later leads =>
    (leads.belongsTo belongs).inv.getCommit held (leads.commit_stays belongs stored)⟩

def olderStorage : CommitStorage :=
  ⟨5, 1, default, [kFirstPageCommitId]⟩

def newerStorage : CommitStorage :=
  ⟨4, 2, default, [[1]]⟩

/-- A child of the older commit that is not made by `FromContentAndParents`. -/
def remoteStorage : CommitStorage :=
  ⟨0, 18446744073709551615, default, [[1]]⟩

def wrappedStorage : CommitStorage :=
  ⟨4, 0, default, [[3]]⟩

def branchBytes (storage : CommitStorage) : Bytes :=
  if storage = olderStorage then [1]
  else if storage = newerStorage then [2]
  else if storage = remoteStorage then [3]
  else if storage = wrappedStorage then [4]
  else 0 :: commitCode storage

noncomputable def branchFormats : StorageFormats where
  parseCommit storageBytes :=
    if storageBytes = [1] then some olderStorage
    else if storageBytes = [2] then some newerStorage
    else if storageBytes = [3] then some remoteStorage
    else if storageBytes = [4] then some wrappedStorage
    else partialInv commitCode storageBytes.tail
  parseFileIndex _ := none

theorem parse_branchBytes (storage : CommitStorage) :
    branchFormats.parseCommit (branchBytes storage) = some storage := by
  unfold branchBytes branchFormats
  split_ifs with isOlder isNewer isRemote isWrapped <;>
    simp_all [partialInv_left commitCode_injective _]

noncomputable def branchCode : CommitCode branchFormats :=
  ⟨branchBytes, id, parse_branchBytes⟩

noncomputable def olderCommit : Commit branchFormats :=
  ⟨[1], [1], olderStorage, rfl, by decide⟩

noncomputable def newerCommit : Commit branchFormats :=
  ⟨[2], [2], newerStorage, rfl, by decide⟩

noncomputable def wrappedCommit : Commit branchFormats :=
  ⟨[4], [4], wrappedStorage, rfl, by decide⟩

theorem CommitCode.one_parent (parent : CommitImpl) : [parent] ≠ [] ∧ [parent].length ≤ 2 :=
  ⟨cons_ne_nil _ _, Nat.le_succ 1⟩

theorem CommitCode.storageOf_single (now : Int64) (rootIdentifier : ObjectIdentifier)
    (parent : CommitImpl) : storageOf now rootIdentifier [parent] =
      ⟨now, nextGeneration [parent], rootIdentifier, [parent.id]⟩ := by
  simp [storageOf]

theorem olderCommit_built : olderCommit =
    branchCode.fromContentAndParents 5 default [.empty default] (CommitCode.one_parent _) := by
  simp only [CommitCode.fromContentAndParents, storageOf_single]
  rfl

theorem newerCommit_built : newerCommit =
    branchCode.fromContentAndParents 4 default [olderCommit.toImpl] (CommitCode.one_parent _) := by
  simp only [CommitCode.fromContentAndParents, storageOf_single]
  rfl

theorem wrappedCommit_built : wrappedCommit =
    branchCode.fromContentAndParents 4 default [⟨[3], remoteStorage⟩] (CommitCode.one_parent _) := by
  simp only [CommitCode.fromContentAndParents, storageOf_single]
  rfl

namespace PageRun

def emptyPage (formats : StorageFormats) : PageRun formats :=
  ⟨⟨⟨.initial, none⟩, fun _ => none⟩, []⟩

theorem emptyPage_start (formats : StorageFormats) : (emptyPage formats).Start where
  noTasks _ := rfl
  noneSynced := rfl
  unlocked := rfl
  unsynced _ unsynced := nomatch mem_initial.mp unsynced

def makeCalls (calls : List (PageCall formats)) (run : PageRun formats) : PageRun formats :=
  calls.foldl (fun run call => (List.replicate 30 0).foldl advance (run.begin 0 call)) run

theorem Reachable.makeCalls (reachable : Reachable run)
    (calls : List (PageCall formats)) : Reachable (run.makeCalls calls) :=
  List.foldlRecOn calls _ reachable fun _ reached call _ => (reached.begin 0 call).advances _

section Grown

variable {code : CommitCode formats} {history : CommitHistory code} {run : PageRun formats}
  (grown : Grown history run)
include grown

theorem Grown.begin (id : Nat) {call : PageCall formats}
    (adds : history.Adds call) : Grown history (run.begin id call) := by
  unfold PageRun.begin
  split
  case isFalse => exact grown
  case isTrue isFree =>
    refine grown.grow (.step (.start id 0 call isFree) fun other task isNone isTask => ?_)
    rcases update_eq_some isTask with ⟨rfl, ⟨⟩⟩ | ⟨-, isTask⟩
    · exact ⟨0, call, adds, rfl⟩
    · cases isNone.symm.trans isTask

theorem Grown.advance (id : Nat) : Grown history (run.advance id) := by
  have noStart : ∀ {shared : PageShared} {synced : List CommitId} {value},
      run.pool.tasks id ≠ none →
      StartsIn history run ⟨⟨shared, update run.pool.tasks id value⟩, synced⟩ := by
    intro shared synced value isTaken other task isNone isTask
    rcases update_eq_some isTask with ⟨rfl, -⟩ | ⟨-, isTask⟩
    · exact absurd isNone isTaken
    · cases isNone.symm.trans isTask
  unfold PageRun.advance
  split
  · exact grown
  case h_2 goal op next isNext =>
    have acts := pageAction_perform id op run.pool.shared
    exact grown.grow (.step (.advance (.call isNext acts)) (noStart (by simp [isNext])))
  case h_3 goal isDone => exact grown.grow (.step (.succeed isDone) (noStart (by simp [isDone])))
  case h_4 goal fault isDone => exact grown.grow (.step (.fail isDone) (noStart (by simp [isDone])))

theorem Grown.makeCalls {calls : List (PageCall formats)}
    (adds : ∀ call ∈ calls, history.Adds call) : Grown history (run.makeCalls calls) := by
  induction calls generalizing run with
  | nil => exact grown
  | cons call calls ih =>
    obtain ⟨first, rest⟩ := forall_mem_cons.mp adds
    have made : Grown history ((List.replicate 30 0).foldl PageRun.advance (run.begin 0 call)) :=
      List.foldlRecOn _ _ (grown.begin 0 first) fun _ reached id _ => reached.advance id
    exact ih made rest

end Grown

end PageRun

def branchRank (id : CommitId) : ℕ :=
  if id = [2] then 2 else if id = [1] then 1 else 0

/-- A path is not longer than the rank of its first commit, if ranks decrease along it. -/
theorem length_le_rank {parentOf : CommitId → CommitId → Prop} {rank : CommitId → ℕ}
    (decreases : ∀ id parentId, parentOf id parentId → rank parentId < rank id)
    {id : CommitId} {path : List CommitId} (isPath : (id :: path).IsChain parentOf) :
    path.length ≤ rank id := by
  induction path generalizing id with
  | nil => exact Nat.zero_le _
  | cons parentId path ih =>
    obtain ⟨isParent, rest⟩ := isChain_cons_cons.mp isPath
    exact (ih rest).trans_lt (decreases id parentId isParent)

noncomputable def branchHistory : CommitHistory branchCode where
  find id :=
    if id = kFirstPageCommitId then some (.empty default)
    else if id = [1] then some olderCommit.toImpl
    else if id = [2] then some newerCommit.toImpl
    else none
  emptyRoot := default
  id_of_find := by
    intro id commit found
    split_ifs at found with isFirst isOlder isNewer
    · exact (congrArg CommitImpl.id (some.inj found)).symm.trans isFirst.symm
    · exact (congrArg CommitImpl.id (some.inj found)).symm.trans isOlder.symm
    · exact (congrArg CommitImpl.id (some.inj found)).symm.trans isNewer.symm
  first := rfl
  built := by
    intro id commit found notFirst
    rw [if_neg notFirst] at found
    split_ifs at found with isOlder isNewer
    · cases found
      exact ⟨5, default, [.empty default], by simp, List.forall_mem_singleton.mpr rfl,
        congrArg Commit.toImpl olderCommit_built⟩
    · cases found
      exact ⟨4, default, [olderCommit.toImpl], by simp, List.forall_mem_singleton.mpr rfl,
        congrArg Commit.toImpl newerCommit_built⟩
  depth := by
    intro path isPath
    have decreases : ∀ id parentId : CommitId, (∃ commit, (if id = kFirstPageCommitId then
          some (.empty default)
        else if id = [1] then some olderCommit.toImpl
        else if id = [2] then some newerCommit.toImpl
        else none) = some commit ∧ parentId ∈ commit.parentIds) →
        branchRank parentId < branchRank id := by
      rintro id parentId ⟨commit, found, isParent⟩
      split_ifs at found with isFirst isOlder isNewer
      · cases found
        cases isParent
      · cases found
        rw [isOlder, List.mem_singleton.mp isParent]
        decide
      · cases found
        rw [isNewer, List.mem_singleton.mp isParent]
        decide
    cases path with
    | nil => simp
    | cons id path =>
      have short := length_le_rank decreases isPath
      have small : branchRank id ≤ 2 := by
        unfold branchRank
        split_ifs <;> omega
      rw [List.length_cons]
      omega

open PageRun in
theorem getCommit_later_branch :
    let run := (emptyPage branchFormats).makeCalls [.addCommitFromLocal olderCommit []]
    ∃ commit : Commit branchFormats, commit.id = [1] ∧ ∀ later, Leads branchHistory run later →
      later.pool.shared.db.getCommit branchFormats default [1] = .ok commit.toImpl := by
  intro run
  have grown : Grown branchHistory run :=
    Grown.makeCalls (.create (emptyPage_start _) rfl) (forall_mem_singleton.mpr rfl)
  have stored : .commit [1] ∈ run.pool.shared.db := by decide +kernel
  obtain ⟨commit, -, isId, reads⟩ := getCommit_later grown stored
  exact ⟨commit, isId, reads⟩

open PageRun in
/-- The newer commit comes after the older one although its clock is behind. -/
theorem getUnsyncedCommits_ancestors_branch :
    let run := (emptyPage branchFormats).makeCalls
      [.addCommitFromLocal olderCommit [], .addCommitFromLocal newerCommit []]
    let batches : List (List Mutation) := [[.addHead kFirstPageCommitId 0],
      [.removeHead kFirstPageCommitId, .addCommitStorageBytes [1] [1],
        .markCommitIdUnsynced [1] 1, .addHead [1] 5],
      [.removeHead [1], .addCommitStorageBytes [2] [2], .markCommitIdUnsynced [2] 2,
        .addHead [2] 4]]
    let store := ByteStore.run sampleIdentifierFormat batches
    ∃ commits, getUnsyncedCommits store
        (run.pool.shared.db.getCommit branchFormats default) = .ok commits ∧
      (∀ id, id ∈ commits.map CommitImpl.id ↔ .unsyncedCommit id ∈ run.pool.shared.db) ∧
      commits.Pairwise fun earlier later => ¬branchHistory.Ancestor later.id earlier.id := by
  intro run batches store
  have grown : Grown branchHistory run := by
    refine Grown.makeCalls (.create (emptyPage_start _) rfl) ?_
    exact forall_mem_cons.mpr ⟨rfl, forall_mem_singleton.mpr rfl⟩
  have sameRows : run.pool.shared.db = PageDb.run batches :=
    AList.ext (by decide +kernel)
  have represents : Represents sampleIdentifierFormat store run.pool.shared.db := by
    rw [sameRows]
    exact represents_run (ValidRun.plain (by
      simp [batches, Mutation.removesJournals, Mutation.Valid]))
  obtain ⟨commits, isResult, isUnsynced, -, -, ordered⟩ :=
    getUnsyncedCommits_ancestors grown represents
      fun id _ => ⟨run, .refl, rfl⟩
  exact ⟨commits, isResult, isUnsynced, ordered⟩

def PageDb.IsParent (formats : StorageFormats) (db : PageDb) (parentId id : CommitId) : Prop :=
  ∃ storageBytes storage, db.lookup (.commit id) = some storageBytes ∧
    formats.parseCommit storageBytes = some storage ∧ parentId ∈ storage.parents

open PageRun in
/-- A commit with the largest generation is received, and the generation of its child is 0:
the child is listed before the older commit, from which both are made. -/
theorem getUnsyncedCommits_wrapped :
    let run := (emptyPage branchFormats).makeCalls [.addCommitFromLocal olderCommit [],
      .addCommitsFromSync [⟨[3], [3]⟩], .addCommitFromLocal wrappedCommit []]
    let batches : List (List Mutation) := [[.addHead kFirstPageCommitId 0],
      [.removeHead kFirstPageCommitId, .addCommitStorageBytes [1] [1],
        .markCommitIdUnsynced [1] 1, .addHead [1] 5],
      [.removeHead [1], .addCommitStorageBytes [3] [3], .addHead [3] 0],
      [.removeHead [3], .addCommitStorageBytes [4] [4], .markCommitIdUnsynced [4] 0,
        .addHead [4] 4]]
    let store := ByteStore.run sampleIdentifierFormat batches
    olderCommit = branchCode.fromContentAndParents 5 default [.empty default]
        (one_parent _) ∧
      wrappedCommit = branchCode.fromContentAndParents 4 default [⟨[3], remoteStorage⟩]
        (one_parent _) ∧
      run.Reachable ∧ Represents sampleIdentifierFormat store run.pool.shared.db ∧
      ¬store.getUnsyncedCommitIds.Pairwise fun earlier later =>
        ¬Relation.TransGen (run.pool.shared.db.IsParent branchFormats) later earlier := by
  intro run batches store
  have sameRows : run.pool.shared.db = PageDb.run batches :=
    AList.ext (by decide +kernel)
  have represents : Represents sampleIdentifierFormat store run.pool.shared.db := by
    rw [sameRows]
    exact represents_run (ValidRun.plain (by
      simp [batches, Mutation.removesJournals, Mutation.Valid]))
  refine ⟨olderCommit_built, wrappedCommit_built,
    (Reachable.start (emptyPage_start _)).makeCalls _, represents, fun ordered => ?_⟩
  obtain ⟨isUnsynced, sorted⟩ := represents.getUnsyncedCommitIds
  have isOlder : run.pool.shared.db.lookup (.unsyncedCommit [1]) = some 1 := by decide +kernel
  have isWrapped : run.pool.shared.db.lookup (.unsyncedCommit [4]) = some 0 := by decide +kernel
  have remoteParent : run.pool.shared.db.IsParent branchFormats [1] [3] :=
    ⟨[3], remoteStorage, by decide +kernel, rfl, mem_cons_self⟩
  have wrappedParent : run.pool.shared.db.IsParent branchFormats [3] [4] :=
    ⟨[4], wrappedStorage, by decide +kernel, rfl, mem_cons_self⟩
  -- the older commit can be listed neither before the other one nor after it
  have neither : store.getUnsyncedCommitIds.Pairwise fun first second =>
      ¬(first = [1] ∧ second = [4]) ∧ ¬(first = [4] ∧ second = [1]) := by
    refine (sorted.and ordered).imp fun holds => ⟨?_, ?_⟩
    · rintro ⟨rfl, rfl⟩
      have less := holds.1 1 0 (congrArg (Option.map UInt64.toInt64) isOlder)
        (congrArg (Option.map UInt64.toInt64) isWrapped)
      revert less
      decide
    · rintro ⟨rfl, rfl⟩
      exact holds.2 (.tail (.single remoteParent) wrappedParent)
  have isSymmetric : Std.Symm fun first second : CommitId =>
      ¬(first = [1] ∧ second = [4]) ∧ ¬(first = [4] ∧ second = [1]) := ⟨fun first second holds =>
    ⟨fun same => holds.2 same.symm, fun same => holds.1 same.symm⟩⟩
  have apart := neither.forall
    ((isUnsynced [1]).mpr (mem_of_lookup isOlder))
    ((isUnsynced [4]).mpr (mem_of_lookup isWrapped)) (by decide)
  exact apart.1 ⟨rfl, rfl⟩

end Peridot
