import Peridot.UnsyncedCommits

/-!
# Common ancestors on all devices

The devices of a page find the same ancestors, whatever each of them has stored.
-/

namespace Peridot

open List PageRun

variable {formats : StorageFormats} {code : CommitCode formats} {history : CommitHistory code}
  {head1 head2 : CommitImpl} {heads : List CommitId}

theorem CommitHistory.Matches.find {db : PageDb} {id : CommitId} {commit : CommitImpl}
    (isMatch : history.Matches db)
    (isRead : db.getCommit formats history.emptyRoot id = .ok commit) :
    history.dag.find id = some commit := by
  by_cases isFirst : id = kFirstPageCommitId
  · subst isFirst
    rw [PageDb.getCommit, if_pos rfl] at isRead
    exact history.first.trans (congrArg some (Except.ok.inj isRead))
  · cases found : db.lookup (.commit id) with
    | none =>
      rw [PageDb.getCommit, if_neg isFirst, PageDb.read, found] at isRead
      cases isRead
    | some storageBytes =>
      obtain ⟨stored, held, rfl, -⟩ := isMatch.commits id storageBytes found
      rw [isMatch.getCommit held (PageDb.mem_of_lookup found)] at isRead
      exact held.trans (congrArg some (Except.ok.inj isRead))

variable (history) in
/-- The commits with the identifiers `heads` and their ancestors. -/
def CommitHistory.UpTo (heads : List CommitId) (id : CommitId) : Prop :=
  ∃ head ∈ heads, Relation.ReflTransGen (· ∈ history.dag.parents ·) id head

section

variable {getCommit : CommitId → Except Status CommitImpl}
  (agree : ∀ id commit, getCommit id = .ok commit → history.dag.find id = some commit)
include agree

theorem mapM_partial (ids : List CommitId) :
    (∃ id ∈ ids, ∃ status, getCommit id = .error status ∧ ids.mapM getCommit = .error status) ∨
      ids.mapM getCommit = ids.mapM history.dag.getCommit := by
  induction ids with
  | nil => exact .inr rfl
  | cons id ids ih =>
    rw [mapM_cons, mapM_cons]
    cases isRead : getCommit id with
    | error status => exact .inl ⟨id, mem_cons_self, status, isRead, rfl⟩
    | ok commit =>
      rw [history.dag.storedIn_getCommit id commit (agree id commit isRead)]
      rcases ih with ⟨other, isOther, status, isError, fails⟩ | same
      · exact .inl ⟨other, mem_cons_of_mem _ isOther, status, isError, by rw [fails]; rfl⟩
      · exact .inr (by rw [same])

/-- A search fails at a commit that cannot be read, or it finds what is found in the whole graph. -/
theorem walkToCommonAncestor_partial (rounds : ℕ) {commits : List CommitImpl}
    (isSet : history.dag.CommitSet commits)
    (upTo : ∀ commit ∈ commits, history.UpTo heads commit.id) :
    (∃ id status, history.UpTo heads id ∧ getCommit id = .error status ∧
        walkToCommonAncestor getCommit rounds commits = some (.error status)) ∨
      walkToCommonAncestor getCommit rounds commits =
        walkToCommonAncestor history.dag.getCommit rounds commits := by
  induction rounds generalizing commits with
  | zero => rcases commits with _ | ⟨_, _ | _⟩ <;> exact .inr rfl
  | succ rounds ih =>
    match commits with
    | [] | [_] => exact .inr rfl
    | newest :: next :: older =>
      obtain ⟨split, -⟩ := popNewest_spec newest.generation (cons_ne_nil newest (next :: older))
      dsimp only [walkToCommonAncestor]
      generalize popNewest newest.generation (newest :: next :: older) = popped at split ⊢
      rw [← split] at isSet upTo
      have known : ∀ id ∈ popped.1.flatMap CommitImpl.parentIds,
          history.UpTo heads id ∧ ∃ commit, history.dag.find id = some commit := by
        intro id inIds
        obtain ⟨commit, isPopped, isParent⟩ := mem_flatMap.mp inIds
        have inSet := mem_append_left popped.2 isPopped
        have held := isSet.held commit inSet
        obtain ⟨head, isHead, leads⟩ := upTo commit inSet
        exact ⟨⟨head, isHead, leads.head (CommitDag.parents_of_find held ▸ isParent)⟩,
          history.dag.parents_found held id isParent⟩
      rcases mapM_partial agree (popped.1.flatMap CommitImpl.parentIds) with
        ⟨id, inIds, status, isError, fails⟩ | same
      · exact .inl ⟨id, status, (known id inIds).1, isError, by rw [fails]⟩
      · obtain ⟨parents, areRead, sameIds, held⟩ :=
          mapM_getCommit history.dag.storedIn_getCommit fun id inIds => (known id inIds).2
        rw [same, areRead]
        have stays : history.dag.CommitSet popped.2 :=
          ⟨fun commit stays => isSet.held commit (mem_append_right _ stays),
            (pairwise_append.mp isSet.ordered).2.1⟩
        obtain ⟨isNext, members⟩ := insertAll_spec held stays
        refine ih isNext fun commit inSet => ?_
        rcases (members commit).mp inSet with isParent | isOld
        · exact (known commit.id (sameIds ▸ mem_map_of_mem isParent)).1
        · exact upTo commit (mem_append_right _ isOld)

end

theorem insertCommit_comm (held1 : history.dag.Holds head1) (held2 : history.dag.Holds head2) :
    insertCommit head1 [head2] = insertCommit head2 [head1] := by
  have asymm (less : generationComparator head1 head2)
      (greater : generationComparator head2 head1) :=
    generationComparator_irrefl head1 ▸ generationComparator_trans less greater
  simp only [insertCommit]
  split_ifs with less greater greater
  · cases asymm greater less
  · rfl
  · rfl
  · rw [held1.eq_of_not_less held2 greater less]

/-- All devices find the same ancestor of two commits, in either order, unless they cannot read one
of the commits on the way.  Other calls may go on during a search, and reads may fail. -/
theorem findCommonAncestor_shared (held1 : history.dag.Holds head1)
    (held2 : history.dag.Holds head2) : ∃ ancestor enough, history.dag.Holds ancestor ∧
      ∀ (run : PageRun formats) (getCommit : CommitId → Except Status CommitImpl),
        Grown history run → (∀ id commit, getCommit id = .ok commit → ∃ later,
          Leads history run later ∧
            later.pool.shared.db.getCommit formats history.emptyRoot id = .ok commit) →
        ∀ rounds ≥ enough, ∀ heads ∈ [(head1, head2), (head2, head1)],
          (∃ id status, history.UpTo [head1.id, head2.id] id ∧ getCommit id = .error status ∧
              findCommonAncestor getCommit rounds heads.1 heads.2 = some (.error status)) ∨
            findCommonAncestor getCommit rounds heads.1 heads.2 = some (.ok ancestor) := by
  obtain ⟨ancestor, isHeld, ⟨enough, isFound⟩, -⟩ :=
    findCommonAncestor_spec history.dag.storedIn_getCommit held1 held2
  obtain ⟨isSet, members⟩ := CommitDag.CommitSet.heads held1 held2
  refine ⟨ancestor, enough, isHeld, fun run getCommit grown replies rounds atLeast heads isHeads =>
    ?_⟩
  have sameSet : insertCommit heads.2 [heads.1] = insertCommit head2 [head1] := by
    rcases mem_pair.mp isHeads with rfl | rfl
    · rfl
    · exact insertCommit_comm held1 held2
  have agree (id : CommitId) (commit : CommitImpl) (isRead : getCommit id = .ok commit) :
      history.dag.find id = some commit := by
    obtain ⟨later, leads, isReply⟩ := replies id commit isRead
    exact (leads.belongsTo grown.belongsTo).inv.find isReply
  rw [findCommonAncestor, sameSet, ← isFound rounds atLeast]
  refine walkToCommonAncestor_partial agree rounds isSet fun commit inSet => ?_
  rcases (members commit).mp inSet with rfl | rfl
  · exact ⟨commit.id, by simp, .refl⟩
  · exact ⟨commit.id, by simp, .refl⟩

theorem upTo_branch {id : CommitId} (upTo : branchHistory.UpTo [[1], [2]] id) :
    id ∈ [kFirstPageCommitId, [1], [2]] := by
  obtain ⟨head, isHead, path⟩ := upTo
  induction path using Relation.ReflTransGen.head_induction_on with
  | refl => exact mem_cons_of_mem _ isHead
  | head isParent _ ih =>
    simp only [mem_cons, not_mem_nil, or_false] at ih
    rcases ih with rfl | rfl | rfl
    · cases isParent
    · exact mem_append_left [_, _] isParent
    · exact mem_cons_of_mem _ (mem_append_left [_] isParent)

/-- The older commit is an ancestor of the newer one, and both are stored. -/
theorem findCommonAncestor_shared_branch :
    let run := (emptyPage branchFormats).makeCalls
      [.addCommitFromLocal olderCommit [], .addCommitFromLocal newerCommit []]
    let find := findCommonAncestor (run.pool.shared.db.getCommit branchFormats default)
    ∃ ancestor enough, ∀ rounds ≥ enough,
      ∀ heads ∈ [(olderCommit.toImpl, newerCommit.toImpl),
          (newerCommit.toImpl, olderCommit.toImpl)],
        find rounds heads.1 heads.2 = some (.ok ancestor) := by
  intro run find
  have grown : Grown branchHistory run := Grown.makeCalls (.create (emptyPage_start _) rfl)
    (forall_mem_cons.mpr ⟨rfl, forall_mem_singleton.mpr rfl⟩)
  have stored : ∀ id ∈ [kFirstPageCommitId, [1], [2]],
      (run.pool.shared.db.getCommit branchFormats default id).isOk = true := by
    decide +kernel
  obtain ⟨ancestor, enough, -, found⟩ := @findCommonAncestor_shared _ _ branchHistory
    olderCommit.toImpl newerCommit.toImpl rfl rfl
  refine ⟨ancestor, enough, fun rounds atLeast heads isHeads => ?_⟩
  rcases found run _ grown (fun id commit isRead => ⟨run, .refl, isRead⟩) rounds atLeast heads
    isHeads with ⟨id, status, upTo, isError, -⟩ | isAncestor
  · exact absurd (stored id (upTo_branch upTo)) (isError ▸ Bool.false_ne_true)
  · exact isAncestor

end Peridot
