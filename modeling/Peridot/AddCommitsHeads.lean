import Mathlib.Data.Finset.Max
import Peridot.AddCommitsOutcome

/-!
# The heads of a page

The heads are the commits without children, as long as in each turn of the loop that
retries every commit that gets a child gets one in the same turn.  Otherwise the head that
the turn adds for the commit is not removed when its child is added later.
-/

namespace Peridot

open List ReadyOrder

variable {formats : StorageFormats}

namespace PageDb

variable {db : PageDb} {source : ChangeSource} {isParent : CommitId → Prop}

def Followed (isParent : CommitId → Prop) (turn : List (Commit formats)) : Prop :=
  ∀ before commit after, turn = before ++ commit :: after → isParent commit.id →
    ∃ child ∈ after, commit.id ∈ child.parentIds

variable {state after : AddState formats} {commits : List (Commit formats)} {id : CommitId}

/-- The heads to add are heads to add from the start, or come from the turn, and no later
commit of the turn is a child of them. -/
theorem headsToAdd_foldl
    (toAdd : id ∈ (commits.foldl (db.addCommit source) state).headsToAdd) : (id ∈ state.headsToAdd ∧
        ∀ child ∈ (db.commitTurn state.addedCommits commits).1, id ∉ child.parentIds) ∨
      ∃ before commit after, (db.commitTurn state.addedCommits commits).1 =
          before ++ commit :: after ∧ commit.id = id ∧ ∀ child ∈ after, id ∉ child.parentIds := by
  induction commits generalizing state with
  | nil => exact .inl ⟨toAdd, by simp [commitTurn, unstored, ReadyOrder.turn]⟩
  | cons commit commits ih =>
    rw [foldl_cons] at toAdd
    rcases addCommit_cases db source state commit with ⟨contains, skips⟩ |
        ⟨absent, ready, middle, took, stores⟩ | ⟨absent, notReady, middle, took, leaves⟩
    · rw [commitTurn_stored contains]
      have later := ih toAdd
      simp only [skips] at later
      exact later
    · rw [commitTurn_taken absent ready]
      have later := ih toAdd
      simp only [stores, storeCommit, took.addedCommits] at later
      rcases later with ⟨inHeads, noChild⟩ | ⟨before, parent, after, splits, isId, noChild⟩
      · rcases (AList.mem_insert _).mp inHeads with rfl | earlier
        · exact .inr ⟨[], commit, _, rfl, rfl, noChild⟩
        · obtain ⟨atStart, notParent⟩ := took.heads id earlier
          exact .inl ⟨atStart, forall_mem_cons.mpr ⟨notParent rfl, noChild⟩⟩
      · exact .inr ⟨commit :: before, parent, after, by simp [splits], isId, noChild⟩
    · rw [commitTurn_left absent notReady]
      have later := ih toAdd
      simp only [leaves, took.addedCommits] at later
      refine later.imp_left ?_
      rintro ⟨inHeads, noChild⟩
      exact ⟨(took.heads id inHeads).1, noChild⟩

/-- What the batch does to the heads, in the middle of a turn. -/
structure HeadsLogged (db : PageDb) (isParent : CommitId → Prop) (batch : List Write)
    (headsToAdd : AList fun _ : CommitId => Int64) (sent : List (Commit formats)) : Prop where
  puts : ∀ write ∈ batch, ∀ id, write.row = .head id → write.isPut = true →
    ¬isParent id ∧ ∃ commit ∈ sent, commit.id = id
  removals : ∀ write ∈ batch, ∀ id, write.row = .head id → write.isPut = false → isParent id
  toAdd : ∀ id ∈ headsToAdd, ∃ commit ∈ sent, commit.id = id
  absent : ∀ commit ∈ sent, ¬db.Contains commit.id
  kept : ∀ commit ∈ sent, commit.id ∈ headsToAdd ∨ isParent commit.id
  parents : ∀ commit ∈ sent, ∀ parentId ∈ commit.parentIds,
    db.Contains parentId → .delete (.head parentId) ∈ batch

namespace HeadsLogged

variable {batch : List Write} {headsToAdd : AList fun _ : CommitId => Int64}
  {sent : List (Commit formats)}

theorem append (logged : HeadsLogged db isParent batch headsToAdd sent) {writes : List Write}
    (others : ∀ write ∈ writes, ∀ id, write.row ≠ .head id) :
    HeadsLogged db isParent (batch ++ writes) headsToAdd sent where
  puts write member id isRow :=
    (mem_append.mp member).elim (fun earlier => logged.puts write earlier id isRow)
      fun new => absurd isRow (others write new id)
  removals write member id isRow :=
    (mem_append.mp member).elim (fun earlier => logged.removals write earlier id isRow)
      fun new => absurd isRow (others write new id)
  __ := logged
  parents commit isSent parentId inIds contains :=
    mem_append_left _ (logged.parents commit isSent parentId inIds contains)

theorem tookParents {parentIds : List CommitId} {found : Bool}
    (logged : HeadsLogged db isParent state.batch state.headsToAdd state.commitsToSend)
    (took : TookParents db state parentIds found after)
    (areParents : ∀ id ∈ parentIds, isParent id) :
    HeadsLogged db isParent after.batch after.headsToAdd state.commitsToSend := by
  obtain ⟨removed, appended, inParents, -⟩ := took.batch
  have origin : ∀ write ∈ after.batch,
      write ∈ state.batch ∨ ∃ id ∈ parentIds, write = .delete (.head id) := by
    intro write member
    rw [appended] at member
    refine (mem_append.mp member).imp_right fun isRemoval => ?_
    obtain ⟨id, isRemoved, rfl⟩ := mem_map.mp isRemoval
    exact ⟨id, (inParents id isRemoved).1, rfl⟩
  refine ⟨?_, ?_, ?_, logged.absent, ?_, ?_⟩
  · intro write member id isRow isPut
    rcases origin write member with earlier | ⟨parentId, -, rfl⟩
    · exact logged.puts write earlier id isRow isPut
    · cases isPut
  · intro write member id isRow notPut
    rcases origin write member with earlier | ⟨parentId, inIds, rfl⟩
    · exact logged.removals write earlier id isRow notPut
    · exact Row.head.inj isRow ▸ areParents parentId inIds
  · exact fun id toAdd => logged.toAdd id (took.heads id toAdd).1
  · intro commit isSent
    rcases logged.kept commit isSent with toAdd | isParent
    · by_cases inIds : commit.id ∈ parentIds
      · exact .inr (areParents _ inIds)
      · exact .inl (took.kept _ toAdd inIds)
    · exact .inr isParent
  · intro commit isSent parentId inIds contains
    rw [appended]
    exact mem_append_left _ (logged.parents commit isSent parentId inIds contains)

variable (logged : HeadsLogged db isParent batch headsToAdd sent)
include logged

theorem store {commit : Commit formats} (absent : ¬db.Contains commit.id)
    (removed : ∀ parentId ∈ commit.parentIds, db.Contains parentId →
      .delete (.head parentId) ∈ batch) :
    HeadsLogged db isParent batch (headsToAdd.insert commit.id commit.timestamp)
      (sent ++ [commit]) where
  puts write member id isRow isPut :=
    (logged.puts write member id isRow isPut).imp_right fun ⟨earlier, isSent, isId⟩ =>
      ⟨earlier, mem_append_left _ isSent, isId⟩
  removals := logged.removals
  toAdd id isToAdd := by
    rcases (AList.mem_insert _).mp isToAdd with rfl | earlier
    · exact ⟨commit, by simp, rfl⟩
    · obtain ⟨earlier, isSent, isId⟩ := logged.toAdd id earlier
      exact ⟨earlier, mem_append_left _ isSent, isId⟩
  absent earlier isSent := by
    rcases mem_append.mp isSent with isSent | isLast
    · exact logged.absent earlier isSent
    · exact mem_singleton.mp isLast ▸ absent
  kept earlier isSent := by
    rcases mem_append.mp isSent with isSent | isLast
    · exact (logged.kept earlier isSent).imp_left fun toAdd => (AList.mem_insert _).mpr (.inr toAdd)
    · exact .inl ((AList.mem_insert _).mpr (.inl (mem_singleton.mp isLast ▸ rfl)))
  parents earlier isSent := by
    rcases mem_append.mp isSent with isSent | isLast
    · exact logged.parents earlier isSent
    · exact mem_singleton.mp isLast ▸ removed

theorem addHeads (noParents : ∀ id ∈ headsToAdd, ¬isParent id) :
    HeadsLogged db isParent (batch ++ headWrites headsToAdd.entries) headsToAdd sent := by
  have origin : ∀ write ∈ batch ++ headWrites headsToAdd.entries,
      write ∈ batch ∨ ∃ id ∈ headsToAdd, write.row = .head id ∧ write.isPut = true := by
    intro write member
    refine (mem_append.mp member).imp_right fun isHead => ?_
    obtain ⟨head, inEntries, rfl⟩ := mem_map.mp isHead
    exact ⟨head.1, mem_keys_of_mem inEntries, rfl, rfl⟩
  refine ⟨?_, ?_, logged.toAdd, logged.absent, logged.kept, ?_⟩
  · intro write member id isRow isPut
    rcases origin write member with earlier | ⟨head, toAdd, isHead, -⟩
    · exact logged.puts write earlier id isRow isPut
    · obtain rfl := Row.head.inj (isHead.symm.trans isRow)
      exact ⟨noParents head toAdd, logged.toAdd head toAdd⟩
  · intro write member id isRow notPut
    rcases origin write member with earlier | ⟨head, -, -, isPut⟩
    · exact logged.removals write earlier id isRow notPut
    · exact nomatch isPut.symm.trans notPut
  · intro commit isSent parentId inIds contains
    exact mem_append_left _ (logged.parents commit isSent parentId inIds contains)

end HeadsLogged

variable {commit : Commit formats} {newObjects : List ObjectIdentifier} {fuel : Nat}
    {child : CommitId} {write : Write}

theorem mem_commitWrites_row (member : write ∈ commitWrites source commit) :
    write.row = .commit commit.id ∨ write.row = .unsyncedCommit commit.id := by
  unfold commitWrites at member
  rcases mem_cons.mp member with rfl | member
  · exact .inl rfl
  · split at member
    · exact .inr (mem_singleton.mp member ▸ rfl)
    · exact absurd member not_mem_nil

theorem mem_skipWrites_row (member : write ∈ skipWrites source commit) :
    write.row = .unsyncedCommit commit.id := by
  unfold skipWrites at member
  split at member
  · exact mem_singleton.mp member ▸ rfl
  · exact absurd member not_mem_nil

abbrev HeadsLoggedIn (db : PageDb) (isParent : CommitId → Prop) (state : AddState formats) : Prop :=
  HeadsLogged db isParent state.batch state.headsToAdd state.commitsToSend

theorem HeadsLogged.addCommit (logged : HeadsLoggedIn db isParent state) (commit : Commit formats)
    (areParents : ¬db.Contains commit.id → ∀ id ∈ commit.parentIds, isParent id) :
    HeadsLoggedIn db isParent (db.addCommit source state commit) := by
  rcases addCommit_cases db source state commit with ⟨contains, skips⟩ |
      ⟨absent, ready, middle, took, stores⟩ | ⟨absent, notReady, middle, took, leaves⟩
  · rw [skips]
    exact logged.append fun write member id isRow => by
      rw [mem_skipWrites_row member] at isRow
      cases isRow
  · have others : ∀ write ∈ commitWrites source commit, ∀ id, write.row ≠ .head id := by
      intro write member id isRow
      rcases mem_commitWrites_row member with isCommit | isUnsynced
      · cases isCommit.symm.trans isRow
      · cases isUnsynced.symm.trans isRow
    have removed : ∀ parentId ∈ commit.parentIds, db.Contains parentId →
        .delete (.head parentId) ∈ middle.batch := by
      intro parentId inIds contains
      obtain ⟨removed, appended, -, complete⟩ := took.batch
      have notToAdd : parentId ∉ state.headsToAdd := fun toAdd => by
        obtain ⟨earlier, isSent, rfl⟩ := logged.toAdd parentId toAdd
        exact logged.absent earlier isSent contains
      rw [appended]
      exact mem_append_right _ (mem_map_of_mem (complete rfl parentId inIds notToAdd))
    have taken := ((logged.tookParents took (areParents absent)).store absent removed).append others
    rw [stores]
    simpa only [HeadsLoggedIn, storeCommit, took.commitsToSend] using taken
  · rw [leaves]
    have taken := logged.tookParents took (areParents absent)
    simpa only [HeadsLoggedIn, took.commitsToSend] using taken

structure HeadsDone (db : PageDb) (isParent : CommitId → Prop) (state : AddState formats) :
    Prop where
  logged : HeadsLoggedIn db isParent state
  noParents : ∀ id ∈ state.headsToAdd, ¬isParent id
  added : ∀ id ∈ state.headsToAdd, ∃ write ∈ state.batch, write.row = .head id

theorem HeadsDone.addPass (done : HeadsDone db isParent state)
    (areParents : ∀ commit ∈ db.unstored commits, ∀ id ∈ commit.parentIds, isParent id)
    (followed : Followed isParent (db.commitTurn state.addedCommits commits).1) :
    HeadsDone db isParent (db.addPass source state commits) := by
  have folded : HeadsLoggedIn db isParent (commits.foldl (db.addCommit source)
      { state with continueTrying := false, remainingCommits := [] }) := by
    refine foldlRecOn commits _ done.logged fun _ middle commit inCommits => ?_
    exact middle.addCommit commit fun absent =>
      areParents commit (mem_unstored.mpr ⟨inCommits, absent⟩)
  have noParents : ∀ id ∈ (commits.foldl (db.addCommit source)
      { state with continueTrying := false, remainingCommits := [] }).headsToAdd,
      ¬isParent id := by
    intro id toAdd isParent
    rcases headsToAdd_foldl toAdd with ⟨atStart, -⟩ | ⟨before, commit, after, splits, rfl, noChild⟩
    · exact done.noParents id atStart isParent
    · obtain ⟨child, isLater, isChild⟩ := followed before commit after splits isParent
      exact noChild child isLater isChild
  refine ⟨folded.addHeads noParents, noParents, fun id toAdd => ?_⟩
  obtain ⟨head, inEntries, rfl⟩ := mem_map.mp toAdd
  exact ⟨.put (.head head.1) head.2, mem_append_right _ (mem_map.mpr ⟨head, inEntries, rfl⟩), rfl⟩

theorem mem_unstored_commitTurn {addedCommits : List CommitId}
    (member : commit ∈ db.unstored (db.commitTurn addedCommits commits).2) :
    commit ∈ db.unstored commits := by
  rw [unstored_commitTurn] at member
  exact (turn_perm Commit.id Commit.parentIds db.Contains addedCommits
    (db.unstored commits)).mem_iff.mp (mem_append_right _ member)

theorem HeadsDone.addPasses {rest : List (Commit formats)} (done : HeadsDone db isParent state)
    (areParents : ∀ commit ∈ db.unstored commits, ∀ id ∈ commit.parentIds, isParent id)
    (followed : ∀ turn ∈ (db.commitTurns fuel state.addedCommits commits).1, Followed isParent turn)
    (result : db.addPasses source fuel state commits = .ok (after, rest)) :
    HeadsDone db isParent after := by
  induction fuel generalizing state commits with
  | zero =>
    cases commits with
    | nil => cases result; exact done
    | cons commit commits => cases result
  | succ fuel ih =>
    cases commits with
    | nil => cases result; exact done
    | cons commit commits =>
      obtain ⟨added, -, remaining, continues⟩ := addPass_turn db source state (commit :: commits)
      rw [commitTurns_succ] at followed
      have firstFollowed : Followed isParent
          (db.commitTurn state.addedCommits (commit :: commits)).1 := by
        by_cases takesNone : (db.commitTurn state.addedCommits (commit :: commits)).1 = []
        · rw [takesNone]
          exact fun before commit after splits => by simp at splits
        · rw [if_neg takesNone] at followed
          exact followed _ mem_cons_self
      have first : HeadsDone db isParent (db.addPass source state (commit :: commits)) :=
        done.addPass areParents firstFollowed
      simp only [PageDb.addPasses] at result
      split at result
      case isTrue goesOn =>
        rw [if_neg (continues.mp goesOn)] at followed
        rw [remaining] at result
        refine ih first (fun commit left => areParents commit (mem_unstored_commitTurn left))
          (fun turn later => followed turn (mem_cons_of_mem _ ?_)) result
        rwa [added] at later
      case isFalse =>
        cases result
        exact first

def parentsIn (formats : StorageFormats) (history : CommitId → Bytes) (id : CommitId) :
    List CommitId :=
  match formats.parseCommit (history id) with
  | some storage => storage.parents
  | none => []

def parentsOf (formats : StorageFormats) (db : PageDb) (id : CommitId) : List CommitId :=
  match db.lookup (.commit id) with
  | some storageBytes => parentsIn formats (fun _ => storageBytes) id
  | none => []

/-- The heads are the commits of the database, with the first one, that are not a parent of
a commit of the database. -/
def HeadsExact (formats : StorageFormats) (db : PageDb) : Prop :=
  ∀ id, .head id ∈ db ↔ db.Contains id ∧ ∀ child, id ∉ db.parentsOf formats child

/-- The commits of a page: their bytes are those of the history, and they have come in an
order in which parents are first. -/
structure CommitGraph (formats : StorageFormats) (history : CommitId → Bytes) (db : PageDb) :
    Prop where
  bytes : ∀ id storageBytes, db.lookup (.commit id) = some storageBytes → storageBytes = history id
  first : .commit kFirstPageCommitId ∉ db
  order : ∃ order : List CommitId, (∀ id, id ∈ order ↔ .commit id ∈ db) ∧
    ReadyOrder.InOrder (fun id => id) (parentsIn formats history) (· = kFirstPageCommitId) [] order
  heads : HeadsExact formats db

def OfHistory (history : CommitId → Bytes) (commits : List (Commit formats)) : Prop :=
  ∀ commit ∈ commits, commit.storageBytes = history commit.id

theorem parentsIn_eq {history : CommitId → Bytes}
    (ofHistory : commit.storageBytes = history commit.id) :
    parentsIn formats history commit.id = commit.parentIds := by
  rw [parentsIn, ← ofHistory, commit.parsed]
  rfl

namespace CommitGraph

variable {history : CommitId → Bytes}

theorem parentsOf_stored (graph : CommitGraph formats history db)
    (stored : .commit id ∈ db) : db.parentsOf formats id = parentsIn formats history id := by
  cases found : db.lookup (.commit id) with
  | none => exact absurd found (mem_iff_lookup.mp stored)
  | some storageBytes =>
    obtain rfl := graph.bytes id storageBytes found
    rw [parentsOf, found]
    rfl

theorem parentsOf_absent (absent : .commit id ∉ db) : db.parentsOf formats id = [] := by
  rw [mem_iff_lookup, not_not] at absent
  rw [parentsOf, absent]

variable (graph : CommitGraph formats history db)
include graph

theorem closed (isParent : id ∈ db.parentsOf formats child) :
    .commit child ∈ db ∧ db.Contains id := by
  by_cases stored : .commit child ∈ db
  · refine ⟨stored, ?_⟩
    obtain ⟨order, inDb, inOrder⟩ := graph.order
    rw [graph.parentsOf_stored stored] at isParent
    by_cases isFirst : id = kFirstPageCommitId
    · exact .inl isFirst
    · have earlier := inOrder.idxOf_lt ((inDb child).mpr stored) isParent isFirst
      have inOrder : id ∈ order := idxOf_lt_length_iff.mp (earlier.trans_le idxOf_le_length)
      exact .inr ((inDb id).mp inOrder)
  · rw [parentsOf_absent stored] at isParent
    exact absurd isParent not_mem_nil

theorem exists_head : ∃ id, .head id ∈ db := by
  obtain ⟨order, inDb, inOrder⟩ := graph.order
  by_cases noCommits : order = []
  · refine ⟨kFirstPageCommitId, (graph.heads _).mpr ⟨.inl rfl, fun child isParent => ?_⟩⟩
    have stored := (inDb child).mpr (graph.closed isParent).1
    rw [noCommits] at stored
    exact absurd stored not_mem_nil
  · obtain ⟨last, isLast, maximal⟩ := order.toFinset.exists_max_image order.idxOf
      ((toFinset_nonempty_iff _).mpr noCommits)
    have stored := (inDb last).mp (mem_toFinset.mp isLast)
    refine ⟨last, (graph.heads last).mpr ⟨.inr stored, fun child isParent => ?_⟩⟩
    obtain ⟨childStored, -⟩ := graph.closed isParent
    rw [graph.parentsOf_stored childStored] at isParent
    have notFirst : last ≠ kFirstPageCommitId := fun isFirst => graph.first (isFirst ▸ stored)
    have inChild := (inDb child).mpr childStored
    have later := inOrder.idxOf_lt inChild isParent notFirst
    exact absurd later (not_lt.mpr (maximal child (mem_toFinset.mpr inChild)))

end CommitGraph

/-- Every commit that gets a child in a call gets one in the turn in which it is added. -/
def HeadsSettle (db : PageDb) (commits : List (Commit formats)) : Prop :=
  ∀ turn ∈ (db.commitTurns (commits.length + 1) [] commits).1,
    Followed (fun id => ∃ child ∈ db.unstored commits, id ∈ child.parentIds) turn

theorem headsLogged_prepared {sent : List (Commit formats)} {batch : List Write}
    (settle : db.HeadsSettle commits)
    (result : db.prepareCommits fuel commits source newObjects = .ok (batch, sent)) : ∃ headsToAdd,
      HeadsLogged db (fun id => ∃ child ∈ db.unstored commits, id ∈ child.parentIds) batch
        headsToAdd sent ∧ ∀ id ∈ headsToAdd, ∃ write ∈ batch, write.row = .head id := by
  obtain ⟨after, writes, passes, -, -, rfl, rfl, rows⟩ := prepareCommits_ok result
  have start : HeadsDone db (fun id => ∃ child ∈ db.unstored commits, id ∈ child.parentIds)
      (⟨[], [], [], ∅, true, []⟩ : AddState formats) :=
    ⟨⟨by simp, by simp, by simp, by simp, by simp, by simp⟩, by simp, by simp⟩
  have done := start.addPasses (fun child member id isParent => ⟨child, member, isParent⟩)
    settle passes
  refine ⟨after.headsToAdd, done.logged.append fun write member id isRow => ?_, fun id toAdd => ?_⟩
  · obtain ⟨status, object, isStatus⟩ := rows write member
    cases isStatus.symm.trans isRow
  · obtain ⟨write, member, isRow⟩ := done.added id toAdd
    exact ⟨write, mem_append_left _ member, isRow⟩

namespace CommitGraph

variable {history : CommitId → Bytes} {commits sent : List (Commit formats)} {batch : List Write}
  (graph : CommitGraph formats history db)
include graph

variable (ofHistory : OfHistory history commits)
include ofHistory

section

variable (prepared : Prepared db commits batch sent)
include prepared

theorem order_writeAll :
    ∃ order : List CommitId, (∀ id, id ∈ order ↔ .commit id ∈ db.writeAll batch) ∧
      ReadyOrder.InOrder (fun id => id) (parentsIn formats history) (· = kFirstPageCommitId) []
        order := by
  obtain ⟨order, inDb, inOrder⟩ := graph.order
  refine ⟨order ++ sent.map Commit.id, fun id => ?_, ?_⟩
  · rw [mem_append, inDb, mem_map, prepared.mem_commit_iff]
  · refine inOrder_append.mpr ⟨inOrder, ?_⟩
    refine prepared.inOrder.map Commit.id (fun _ _ => rfl) (fun commit isSent => ?_) fun id isDone => ?_
    · exact parentsIn_eq (ofHistory commit (prepared.mem_sent.mp isSent).1)
    · rcases isDone with inEmpty | isFirst | stored
      · exact absurd inEmpty not_mem_nil
      · exact .inr isFirst
      · exact .inl (mem_done.mpr (.inr ⟨id, (inDb id).mpr stored, rfl⟩))

theorem bytes_writeAll (id : CommitId) (storageBytes : Bytes)
    (found : (db.writeAll batch).lookup (.commit id) = some storageBytes) :
    storageBytes = history id := by
  by_cases contains : db.Contains id
  · rw [prepared.lookup_stored contains] at found
    exact graph.bytes id storageBytes found
  · have isNew : (db.writeAll batch).Contains id :=
      .inr (mem_iff_lookup.mpr (by rw [found]; simp))
    obtain ⟨commit, inCommits, rfl⟩ := ((prepared.contains_iff id).mp isNew).resolve_left contains
    obtain ⟨stored, isStored, sameId, storedBytes⟩ := prepared.lookup_new inCommits contains
    rw [found] at storedBytes
    rw [Option.some.inj storedBytes, ofHistory stored isStored, sameId]

theorem parentsOf_writeAll : id ∈ (db.writeAll batch).parentsOf formats child ↔
      id ∈ db.parentsOf formats child ∨
        ∃ commit ∈ sent, commit.id = child ∧ id ∈ commit.parentIds := by
  have ofSent : ∀ commit ∈ sent, parentsIn formats history commit.id = commit.parentIds :=
    fun commit isSent => parentsIn_eq (ofHistory commit (prepared.mem_sent.mp isSent).1)
  by_cases contains : db.Contains child
  · have notSent : ¬∃ commit ∈ sent, commit.id = child ∧ id ∈ commit.parentIds := by
      rintro ⟨commit, isSent, rfl, -⟩
      exact (prepared.mem_sent.mp isSent).2 contains
    rw [parentsOf, prepared.lookup_stored contains, ← parentsOf, or_iff_left notSent]
  · have notBefore : id ∉ db.parentsOf formats child := by
      rw [parentsOf_absent fun stored => contains (.inr stored)]
      exact not_mem_nil
    rw [or_iff_right notBefore]
    cases found : (db.writeAll batch).lookup (.commit child) with
    | none =>
      rw [parentsOf, found]
      refine iff_of_false not_mem_nil ?_
      rintro ⟨commit, isSent, rfl, -⟩
      exact mem_iff_lookup.mp ((prepared.mem_commit_iff _).mpr (.inr ⟨commit, isSent, rfl⟩)) found
    | some storageBytes =>
      have stored : .commit child ∈ db.writeAll batch := mem_iff_lookup.mpr (by rw [found]; simp)
      obtain ⟨commit, isSent, rfl⟩ :=
        ((prepared.mem_commit_iff child).mp stored).resolve_left fun old => contains (.inr old)
      obtain rfl := graph.bytes_writeAll ofHistory prepared commit.id storageBytes found
      have parents : (db.writeAll batch).parentsOf formats commit.id =
          parentsIn formats history commit.id := by
        rw [parentsOf, found]
        rfl
      rw [parents, ofSent commit isSent]
      constructor
      · exact fun isParent => ⟨commit, isSent, rfl, isParent⟩
      · rintro ⟨other, otherSent, sameId, isParent⟩
        rwa [← ofSent commit isSent, ← sameId, ofSent other otherSent]

theorem heads_writeAll {headsToAdd : AList fun _ : CommitId => Int64}
    (logged : HeadsLogged db (fun id => ∃ child ∈ db.unstored commits, id ∈ child.parentIds) batch
      headsToAdd sent) (added : ∀ id ∈ headsToAdd, ∃ write ∈ batch, write.row = .head id) :
    HeadsExact formats (db.writeAll batch) := by
  intro id
  have childless : (∀ child, id ∉ (db.writeAll batch).parentsOf formats child) ↔
      (∀ child, id ∉ db.parentsOf formats child) ∧
        ¬∃ child ∈ db.unstored commits, id ∈ child.parentIds := by
    simp only [graph.parentsOf_writeAll ofHistory prepared, ← prepared.perm.mem_iff]
    grind
  rw [childless]
  by_cases isParent : ∃ child ∈ db.unstored commits, id ∈ child.parentIds
  · -- the head of a parent is removed, and never put
    rw [mem_writeAll_of_deletes fun write member isRow => by
      rw [← Bool.not_eq_true]
      exact fun isPut => (logged.puts write member id isRow isPut).1 isParent]
    refine iff_of_false ?_ fun ⟨_, _, noParent⟩ => noParent isParent
    rintro ⟨isHead, notWritten⟩
    obtain ⟨child, isNew, inIds⟩ := isParent
    exact notWritten _ (logged.parents child (prepared.perm.mem_iff.mpr isNew) id inIds
      ((graph.heads id).mp isHead).1) rfl
  · have puts : ∀ write ∈ batch, write.row = .head id → write.isPut = true := by
      intro write member isRow
      by_contra notPut
      exact isParent (logged.removals write member id isRow (Bool.not_eq_true _ ▸ notPut))
    rw [mem_writeAll_of_puts puts, prepared.contains_iff, graph.heads id, and_iff_left isParent]
    constructor
    · rintro (⟨contains, noChild⟩ | ⟨write, member, isRow⟩)
      · exact ⟨.inl contains, noChild⟩
      · obtain ⟨-, commit, isSent, rfl⟩ :=
          logged.puts write member id isRow (puts write member isRow)
        obtain ⟨inCommits, absent⟩ := prepared.mem_sent.mp isSent
        exact ⟨.inr ⟨commit, inCommits, rfl⟩, fun child isParent => absent (graph.closed isParent).2⟩
    · rintro ⟨contains | ⟨commit, inCommits, rfl⟩, noChild⟩
      · exact .inl ⟨contains, noChild⟩
      · by_cases contains : db.Contains commit.id
        · exact .inl ⟨contains, noChild⟩
        · have isSent := prepared.mem_sent.mpr ⟨inCommits, contains⟩
          exact .inr (added commit.id ((logged.kept commit isSent).resolve_right isParent))

end

theorem writeAll (settle : db.HeadsSettle commits)
    (result : db.prepareCommits fuel commits source newObjects = .ok (batch, sent)) :
    CommitGraph formats history (db.writeAll batch) := by
  have prepared := prepareCommits_prepared result
  obtain ⟨headsToAdd, logged, added⟩ := headsLogged_prepared settle result
  refine ⟨graph.bytes_writeAll ofHistory prepared, fun isFirst => ?_,
    graph.order_writeAll ofHistory prepared, graph.heads_writeAll ofHistory prepared logged added⟩
  rcases (prepared.mem_commit_iff _).mp isFirst with stored | ⟨commit, isSent, isId⟩
  · exact graph.first stored
  · exact (prepared.mem_sent.mp isSent).2 (.inl isId)

end CommitGraph

end PageDb

end Peridot
