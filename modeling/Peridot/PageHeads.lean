import Peridot.AddCommitsHeads

/-!
# The heads of a page over its history

Commits come to a page one call after the other, created locally or received from sync.
After each call the heads are the commits without children, and there is at least one.
-/

namespace Peridot

open List Coroutine PageWorld

variable {formats : StorageFormats} {commits : List (Commit formats)} {commit : Commit formats}

namespace PageDb

/-- The commits and the heads are the same. -/
def SameCommits (before after : PageDb) : Prop :=
  ∀ id, after.lookup (.commit id) = before.lookup (.commit id) ∧
    after.lookup (.head id) = before.lookup (.head id)

variable {db first second third : PageDb} {idAndBytes : CommitIdAndBytes}

theorem SameCommits.refl (db : PageDb) : SameCommits db db :=
  fun _ => ⟨rfl, rfl⟩

theorem SameCommits.trans (before : SameCommits first second) (after : SameCommits second third) :
    SameCommits first third :=
  fun id => ⟨(after id).1.trans (before id).1, (after id).2.trans (before id).2⟩

theorem SameCommits.writeAll {writes : List Write}
    (others : ∀ write ∈ writes, ∀ id, write.row ≠ .commit id ∧ write.row ≠ .head id) :
    SameCommits db (db.writeAll writes) :=
  fun id => ⟨lookup_writeAll_of_ne fun write member => (others write member id).1,
    lookup_writeAll_of_ne fun write member => (others write member id).2⟩

section

variable (same : SameCommits first second)
include same

theorem SameCommits.contains : second.Contains = first.Contains := by
  funext id
  simp only [Contains, mem_iff_lookup, (same id).1]

theorem SameCommits.commitTurns (fuel : Nat) (commits : List (Commit formats)) :
    second.commitTurns fuel [] commits = first.commitTurns fuel [] commits := by
  simp only [PageDb.commitTurns, unstored, same.contains]

theorem SameCommits.unstored (commits : List (Commit formats)) :
    second.unstored commits = first.unstored commits := by
  simp only [PageDb.unstored, same.contains]

theorem SameCommits.headsSettle (settle : first.HeadsSettle commits) :
    second.HeadsSettle commits := by
  simpa only [HeadsSettle, same.commitTurns, same.unstored] using settle

theorem SameCommits.graph {history : CommitId → Bytes}
    (graph : CommitGraph formats history first) : CommitGraph formats history second := by
  have sameParents : ∀ id, second.parentsOf formats id = first.parentsOf formats id := fun id => by
    rw [parentsOf, (same id).1, ← parentsOf]
  refine ⟨?_, ?_, ?_, ?_⟩
  · intro id storageBytes found
    exact graph.bytes id storageBytes ((same id).1 ▸ found)
  · rw [mem_iff_lookup, (same _).1, ← mem_iff_lookup]
    exact graph.first
  · simpa only [mem_iff_lookup, (same _).1] using graph.order
  · simpa only [HeadsExact, mem_iff_lookup, (same _).2, sameParents, same.contains] using graph.heads

end

def commitsToAdd (formats : StorageFormats) (db : PageDb) (idsAndBytes : List CommitIdAndBytes) :
    List (Commit formats) :=
  idsAndBytes.filterMap fun idAndBytes =>
    if db.Contains idAndBytes.id then none
    else (Commit.fromStorageBytes formats idAndBytes.id idAndBytes.bytes).toOption

theorem commitsToAdd_cons_stored (contains : db.Contains idAndBytes.id)
    (idsAndBytes : List CommitIdAndBytes) :
    db.commitsToAdd formats (idAndBytes :: idsAndBytes) = db.commitsToAdd formats idsAndBytes := by
  simp [commitsToAdd, contains]

theorem commitsToAdd_cons_new (absent : ¬db.Contains idAndBytes.id)
    (parsed : Commit.fromStorageBytes formats idAndBytes.id idAndBytes.bytes = .ok commit)
    (idsAndBytes : List CommitIdAndBytes) : db.commitsToAdd formats (idAndBytes :: idsAndBytes) =
      commit :: db.commitsToAdd formats idsAndBytes := by
  simp [commitsToAdd, absent, parsed, Except.toOption]

theorem SameCommits.commitsToAdd (same : SameCommits first second)
    (idsAndBytes : List CommitIdAndBytes) :
    second.commitsToAdd formats idsAndBytes = first.commitsToAdd formats idsAndBytes := by
  simp only [PageDb.commitsToAdd, same.contains]

end PageDb

variable {idsAndBytes : List CommitIdAndBytes}

namespace PageWorld

def LeavesCommits : PageOp formats → Prop
  | .execute writes => ∀ write ∈ writes, ∀ id, write.row ≠ .commit id ∧ write.row ≠ .head id
  | _ => True

theorem access_db {α : Type} (world : PageWorld formats) (result : Except Status α)
    (next : PageWorld formats) :
    (world.access result next).2.db = next.db ∨ (world.access result next).2.db = world.db := by
  unfold access
  split
  · exact .inl rfl
  · exact .inl rfl
  · exact .inr rfl

theorem sameCommits_handle {op : PageOp formats} (leaves : LeavesCommits op)
    (world : PageWorld formats) : world.db.SameCommits (handle op world).2.db := by
  by_cases reads : Reads op
  · exact (untouched_handle reads world).db ▸ .refl _
  · cases op with
    | execute writes =>
      rcases access_db world (.ok ()) { world with db := world.db.writeAll writes } with
        executed | unchanged
      · exact executed ▸ .writeAll leaves
      · exact unchanged ▸ .refl _
    | getObjectsFromSync rootIdentifier =>
      rw [handle]
      split
      · exact .refl _
      case h_2 download downloads isNext =>
        refine .writeAll fun write member id => ?_
        obtain ⟨piece, -, inPair⟩ := mem_flatMap.mp member
        rcases mem_pair.mp inPair with rfl | rfl <;> simp [Write.row]
    | notifyWatchers source commits => exact .refl _
    | _ => exact absurd trivial reads

theorem sameCommits_run {α : Type} {routine : PageCoroutine formats α}
    (only : routine.Only LeavesCommits) (world : PageWorld formats) :
    world.db.SameCommits (run handle routine world).2.db :=
  only.run_keeps (fun before after => before.db.SameCommits after.db) (fun _ => .refl _) .trans
    (fun _ leaves world => sameCommits_handle leaves world) world

theorem sameCommits_call {α : Type} {routine : PageRoutine formats α}
    (only : routine.run.Only LeavesCommits) {world after : PageWorld formats}
    {result : Except Fault α} (called : world.call routine = (result, after)) :
    world.db.SameCommits after.db := by
  have same := sameCommits_run only world
  rw [call, outcome] at called
  rwa [called] at same

theorem leavesCommits_returnOnError {α : Type} {attempt : PageCoroutine formats (Except Status α)}
    (only : attempt.Only LeavesCommits) : (returnOnError attempt).run.Only LeavesCommits := by
  refine only.lift.bindExcept fun result => ?_
  cases result <;> exact .done _

theorem leavesCommits_containsCommit (id : CommitId) :
    (containsCommit id : PageCoroutine formats Status).Only LeavesCommits := by
  unfold containsCommit
  split
  · exact .done _
  · refine (Only.perform trivial).bind fun reply => ?_
    cases reply <;> exact .done _

theorem synchronousMarkCommitSynced_eq (commitId : CommitId) :
    (synchronousMarkCommitSynced commitId : PageRoutine formats Unit) = (do
      returnOnError startBatch
      returnOnError updateBatch
      returnOnError (execute [.delete (.unsyncedCommit commitId)])) := by
  simp [synchronousMarkCommitSynced, addWrite]

theorem leavesCommits_markCommitSynced (commitId : CommitId) :
    (synchronousMarkCommitSynced commitId : PageRoutine formats Unit).run.Only LeavesCommits := by
  rw [synchronousMarkCommitSynced_eq]
  refine (leavesCommits_returnOnError (.perform trivial)).bindExcept fun _ => ?_
  refine (leavesCommits_returnOnError (.perform trivial)).bindExcept fun _ => ?_
  refine leavesCommits_returnOnError (.perform fun write member id => ?_)
  rw [mem_singleton.mp member]
  simp [Write.row]

theorem leavesCommits_newCommits (idsAndBytes : List CommitIdAndBytes) :
    (newCommits idsAndBytes : PageRoutine formats (List (Commit formats))).run.Only
      LeavesCommits := by
  induction idsAndBytes with
  | nil => exact .done _
  | cons idAndBytes idsAndBytes ih =>
    refine (leavesCommits_containsCommit _).lift.bindExcept fun status => ?_
    cases status with
    | ok => exact (leavesCommits_markCommitSynced _).bindExcept fun _ => ih
    | notFound =>
      refine (leavesCommits_returnOnError (.done _)).bindExcept fun commit => ?_
      exact ih.bindExcept fun commits => .done _
    | _ => exact .done _

theorem leavesCommits_downloadLeaves (leaves : List (Commit formats)) :
    (downloadLeaves leaves).Only LeavesCommits := by
  induction leaves with
  | nil => exact .done _
  | cons leaf leaves ih =>
    refine (Only.perform trivial).bind fun first => ih.bind fun rest => .done _

variable {world after : PageWorld formats}

theorem newCommits_ok (called : world.call (newCommits idsAndBytes) = (.ok commits, after)) :
    commits = world.db.commitsToAdd formats idsAndBytes := by
  induction idsAndBytes generalizing world commits with
  | nil =>
    cases called
    rfl
  | cons idAndBytes idsAndBytes ih =>
    rw [newCommits, call, outcome_bind, outcome_lift] at called
    rcases run_containsCommit idAndBytes.id world with ⟨failures, runs, -⟩ |
        ⟨failure, failures, -, runs⟩
    · rw [runs] at called
      by_cases contains : world.db.Contains idAndBytes.id
      · simp only [contains, if_true] at called
        obtain ⟨_, next, marked, rest⟩ := outcome_bind_eq_ok.mp called
        have same := sameCommits_call (leavesCommits_markCommitSynced idAndBytes.id) marked
        rw [ih rest, same.commitsToAdd, PageDb.commitsToAdd_cons_stored contains]
      · simp only [contains, if_false] at called
        obtain ⟨commit, next, parsed, rest⟩ := outcome_bind_eq_ok.mp called
        obtain ⟨others, last, newOk, isAll⟩ := outcome_bind_eq_ok.mp rest
        change PageWorld.call _ _ = _ at parsed
        rw [call_returnOnError, run_pure] at parsed
        cases isAll
        cases parses : Commit.fromStorageBytes formats idAndBytes.id idAndBytes.bytes with
        | error status =>
          rw [parses] at parsed
          cases parsed
        | ok new =>
          rw [parses] at parsed
          cases parsed
          rw [ih newOk, PageDb.commitsToAdd_cons_new contains parses]
    · rw [runs] at called
      cases failure <;> cases called

theorem addCommitsFromSync_ok {fuel : Nat}
    (called : world.call (synchronousAddCommitsFromSync fuel idsAndBytes) = (.ok (), after)) :
    world.db.SameCommits after.db ∨ ∃ next : PageWorld formats, world.db.SameCommits next.db ∧
        next.call (synchronousAddCommits fuel (world.db.commitsToAdd formats idsAndBytes) .sync []) =
          (.ok (), after) := by
  rw [synchronousAddCommitsFromSync] at called
  obtain ⟨commits, found, locked, rest⟩ := outcome_bind_eq_ok.mp called
  change world.call _ = _ at locked
  rw [call_withLock] at locked
  obtain ⟨_, inside, acquired, news⟩ := outcome_bind_eq_ok.mp locked
  have lockedSame : world.db.SameCommits inside.db :=
    sameCommits_call (leavesCommits_returnOnError (.perform trivial)) acquired
  have foundSame := lockedSame.trans (sameCommits_call (leavesCommits_newCommits _) news)
  rw [newCommits_ok news, lockedSame.commitsToAdd] at rest
  split at rest
  · cases rest
    exact .inl foundSame
  · obtain ⟨_, next, downloaded, adds⟩ := outcome_bind_eq_ok.mp rest
    have nextSame := sameCommits_call
      (leavesCommits_returnOnError (leavesCommits_downloadLeaves _)) downloaded
    exact .inr ⟨next, foundSame.trans nextSame, adds⟩

end PageWorld

namespace PageDb

/-- The databases that calls can lead to that succeed.  Each list of commits that comes from
sync settles its heads. -/
inductive Reached (formats : StorageFormats) (history : CommitId → Bytes) : PageDb → Prop where
  | initial : Reached formats history initial
  | addCommitFromLocal {world after : PageWorld formats} {fuel : Nat} {commit : Commit formats}
      {newObjects : List ObjectIdentifier} (before : Reached formats history world.db)
      (ofHistory : commit.storageBytes = history commit.id)
      (called : world.call (synchronousAddCommitFromLocal fuel commit newObjects) = (.ok (), after)) :
      Reached formats history after.db
  | addCommitsFromSync {world after : PageWorld formats} {fuel : Nat}
      {idsAndBytes : List CommitIdAndBytes} (before : Reached formats history world.db)
      (ofHistory : ∀ idAndBytes ∈ idsAndBytes, idAndBytes.bytes = history idAndBytes.id)
      (settle : world.db.HeadsSettle (world.db.commitsToAdd formats idsAndBytes))
      (called : world.call (synchronousAddCommitsFromSync fuel idsAndBytes) = (.ok (), after)) :
      Reached formats history after.db

variable {db : PageDb} {history : CommitId → Bytes}

theorem headsSettle_of_inOrder
    (inOrder : ReadyOrder.InOrder Commit.id Commit.parentIds db.Contains [] (db.unstored commits))
    (once : ((db.unstored commits).map Commit.id).Nodup) : db.HeadsSettle commits := by
  intro turn isTurn before parent after splits hasChild
  rw [ReadyOrder.mem_turns_of_inOrder inOrder isTurn] at splits
  obtain ⟨child, inCommits, isParent⟩ := hasChild
  have absent : ¬db.Contains parent.id :=
    (mem_unstored.mp (splits ▸ mem_append_right before mem_cons_self)).2
  have notBefore : ∀ earlier ∈ before, earlier.id ≠ parent.id := by
    rw [splits, map_append, map_cons] at once
    exact fun earlier isEarlier sameId => (nodup_append.mp once).2.2 earlier.id
      (mem_map_of_mem isEarlier) parent.id mem_cons_self sameId
  have notEarlier : ∀ first last, db.unstored commits = first ++ child :: last →
      ¬∀ earlier ∈ first, earlier ∈ before := by
    intro first last splitsChild inBefore
    rcases inOrder.earlier splitsChild isParent with contains | inEmpty | ⟨earlier, isEarlier, isId⟩
    · exact absent contains
    · exact absurd inEmpty not_mem_nil
    · exact notBefore earlier (inBefore earlier isEarlier) isId
  rw [splits] at inCommits
  rcases mem_append.mp inCommits with inBefore | fromParent
  · obtain ⟨first, last, rfl⟩ := append_of_mem inBefore
    refine absurd (fun earlier isEarlier => ?_) (notEarlier first (last ++ parent :: after) ?_)
    · exact mem_append_left _ isEarlier
    · rw [splits, append_assoc, cons_append]
  · rcases mem_cons.mp fromParent with rfl | isLater
    · exact absurd (fun _ isEarlier => isEarlier) (notEarlier before after splits)
    · exact ⟨child, isLater, isParent⟩

theorem headsSettle_single (orderable : db.Orderable [commit]) : db.HeadsSettle [commit] := by
  obtain ⟨order, perm, inOrder⟩ := orderable
  have short : (db.unstored [commit]).length ≤ 1 := length_unstored_le db [commit]
  have isOrder : order = db.unstored [commit] := by
    cases unstored : db.unstored [commit] with
    | nil => exact perm_nil.mp (unstored ▸ perm)
    | cons first rest =>
      rw [unstored] at short perm
      obtain rfl : rest = [] := eq_nil_of_length_eq_zero (by simpa using short)
      exact perm_singleton.mp perm
  refine headsSettle_of_inOrder (isOrder ▸ inOrder) ?_
  cases unstored : db.unstored [commit] with
  | nil => exact nodup_nil
  | cons first rest =>
    rw [unstored] at short
    obtain rfl : rest = [] := eq_nil_of_length_eq_zero (by simpa using short)
    exact nodup_singleton _

theorem graph_initial : CommitGraph formats history initial where
  bytes id storageBytes found := by
    rw [initial, AList.lookup_insert_ne (by simp)] at found
    cases found
  first := by simp [mem_initial]
  order := ⟨[], by simp [mem_initial], trivial⟩
  heads id := by
    have noParents : ∀ child, initial.parentsOf formats child = [] := fun child =>
      CommitGraph.parentsOf_absent (by simp [mem_initial])
    simp [noParents, mem_initial, Contains]

theorem ofHistory_commitsToAdd
    (ofHistory : ∀ idAndBytes ∈ idsAndBytes, idAndBytes.bytes = history idAndBytes.id) :
    OfHistory history (db.commitsToAdd formats idsAndBytes) := by
  intro commit member
  obtain ⟨idAndBytes, inList, parses⟩ := mem_filterMap.mp member
  split at parses
  · cases parses
  · cases parsed : Commit.fromStorageBytes formats idAndBytes.id idAndBytes.bytes with
    | error status => rw [parsed] at parses; cases parses
    | ok new =>
      rw [parsed] at parses
      cases parses
      obtain ⟨isId, isBytes⟩ := Commit.fromStorageBytes_ok parsed
      rw [isId, isBytes, ofHistory idAndBytes inList]

theorem Reached.graph (reached : Reached formats history db) : CommitGraph formats history db := by
  induction reached with
  | initial => exact graph_initial
  | addCommitFromLocal before ofHistory called graph =>
    rw [synchronousAddCommitFromLocal] at called
    obtain ⟨batch, sent, prepares, executed⟩ := executed_of_ok (by rw [called])
    rw [called] at executed
    rw [executed]
    refine graph.writeAll ?_ (headsSettle_single (prepareCommits_orderable prepares)) prepares
    exact fun commit isCommit => mem_singleton.mp isCommit ▸ ofHistory
  | addCommitsFromSync before ofHistory settle called graph =>
    rcases addCommitsFromSync_ok called with same | ⟨next, same, adds⟩
    · exact same.graph graph
    · obtain ⟨batch, sent, prepares, executed⟩ := executed_of_ok (by rw [adds])
      rw [adds] at executed
      rw [executed]
      exact (same.graph graph).writeAll (ofHistory_commitsToAdd ofHistory)
        (same.headsSettle settle) prepares

/-- After each call the heads are the commits without children, and there is one. -/
theorem heads_exact (reached : Reached formats history db) :
    HeadsExact formats db ∧ ∃ id, .head id ∈ db :=
  ⟨reached.graph.heads, reached.graph.exists_head⟩

def sampleHistory (id : CommitId) : Bytes :=
  if id = [1] then [0] else [1]

theorem heads_exact_in_order : let idsAndBytes := [⟨[1], [0]⟩, ⟨[2], [1]⟩]
    let called := (PageWorld.emptyPage sampleFormats).call (synchronousAddCommitsFromSync 0 idsAndBytes)
    called.1 = .ok () ∧ HeadsExact sampleFormats called.2.db ∧ ∃ id, .head id ∈ called.2.db := by
  intro idsAndBytes called
  have start : Reached sampleFormats sampleHistory (PageWorld.emptyPage sampleFormats).db := .initial
  have settle : (PageWorld.emptyPage sampleFormats).db.HeadsSettle
      ((PageWorld.emptyPage sampleFormats).db.commitsToAdd sampleFormats idsAndBytes) :=
    headsSettle_of_inOrder (by decide) (by decide)
  have succeeds : (PageWorld.emptyPage sampleFormats).call (synchronousAddCommitsFromSync 0 idsAndBytes) =
      (.ok (), called.2) := rfl
  exact ⟨rfl, heads_exact (.addCommitsFromSync start (by decide) settle succeeds)⟩

/-- When the child comes before its parent both are heads. -/
theorem heads_not_exact_out_of_order : let idsAndBytes := [⟨[2], [1]⟩, ⟨[1], [0]⟩]
    let called := (PageWorld.emptyPage sampleFormats).call (synchronousAddCommitsFromSync 0 idsAndBytes)
    called.1 = .ok () ∧ .head [1] ∈ called.2.db ∧ .head [2] ∈ called.2.db ∧
      [1] ∈ called.2.db.parentsOf sampleFormats [2] ∧ ¬HeadsExact sampleFormats called.2.db := by
  intro idsAndBytes called
  have isHead : .head [1] ∈ called.2.db := by decide
  have isParent : [1] ∈ called.2.db.parentsOf sampleFormats [2] := by decide
  exact ⟨rfl, isHead, by decide, isParent, fun exact => ((exact [1]).mp isHead).2 [2] isParent⟩

end PageDb

end Peridot
