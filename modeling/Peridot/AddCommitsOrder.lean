import Peridot.AddCommitsRun
import Peridot.ReadyOrder

/-!
# The order in which commits are added

The loop that retries adds the commits that are not stored in turns: a commit is taken
when all its parents are stored or have been taken before it.
-/

namespace Peridot

open List ReadyOrder

variable {formats : StorageFormats}

namespace PageDb

variable (db : PageDb) (source : ChangeSource)

def unstored (commits : List (Commit formats)) : List (Commit formats) :=
  commits.filter fun commit => ¬db.Contains commit.id

def Ready (addedCommits : List CommitId) (commit : Commit formats) : Prop :=
  ∀ parentId ∈ commit.parentIds, parentId ∈ addedCommits ∨ db.Contains parentId

structure TookParents (state : AddState formats) (parentIds : List CommitId) (found : Bool)
    (after : AddState formats) : Prop where
  addedCommits : after.addedCommits = state.addedCommits
  commitsToSend : after.commitsToSend = state.commitsToSend
  continueTrying : after.continueTrying = state.continueTrying
  remainingCommits : after.remainingCommits = state.remainingCommits
  found_iff : found = true ↔
    ∀ parentId ∈ parentIds, parentId ∈ state.addedCommits ∨ db.Contains parentId
  batch : ∃ removed : List CommitId,
    after.batch = state.batch ++ removed.map (fun id => .delete (.head id)) ∧
      (∀ id ∈ removed, id ∈ parentIds ∧ id ∉ after.headsToAdd) ∧
      (found = true → ∀ id ∈ parentIds, id ∉ state.headsToAdd → id ∈ removed)
  heads : ∀ id ∈ after.headsToAdd, id ∈ state.headsToAdd ∧ (found = true → id ∉ parentIds)
  kept : ∀ id ∈ state.headsToAdd, id ∉ parentIds → id ∈ after.headsToAdd

theorem tookParents (state : AddState formats) (parentIds : List CommitId) :
    TookParents db state parentIds (db.takeParents state parentIds).1
      (db.takeParents state parentIds).2 := by
  induction parentIds generalizing state with
  | nil => exact ⟨rfl, rfl, rfl, rfl, by simp, ⟨[], by simp⟩, by simp, by simp⟩
  | cons parentId parentIds ih =>
    rw [takeParents_cons]
    by_cases available : parentId ∈ state.addedCommits ∨ db.Contains parentId
    · rw [if_pos available]
      by_cases toAdd : parentId ∈ state.headsToAdd
      · rw [if_pos toAdd]
        have rest := ih { state with headsToAdd := state.headsToAdd.erase parentId }
        obtain ⟨removed, appended, inParents, complete⟩ := rest.batch
        refine ⟨rest.addedCommits, rest.commitsToSend, rest.continueTrying,
          rest.remainingCommits, ?_, ⟨removed, appended, ?_, ?_⟩, ?_, ?_⟩
        · rw [rest.found_iff, forall_mem_cons]
          exact (and_iff_right available).symm
        · exact fun id isRemoved => ⟨mem_cons_of_mem _ (inParents id isRemoved).1,
            (inParents id isRemoved).2⟩
        · intro found
          refine forall_mem_cons.mpr ⟨absurd toAdd, ?_⟩
          intro id isParent absent
          exact complete found id isParent fun member => absent (AList.mem_erase.mp member).2
        · intro id member
          obtain ⟨inHeads, notParent⟩ := rest.heads id member
          have kept := AList.mem_erase.mp inHeads
          exact ⟨kept.2, fun found => not_mem_cons_of_ne_of_not_mem kept.1 (notParent found)⟩
        · intro id member notParent
          have notFirst := ne_of_not_mem_cons notParent
          exact rest.kept id (AList.mem_erase.mpr ⟨notFirst, member⟩)
            (not_mem_of_not_mem_cons notParent)
      · rw [if_neg toAdd]
        have rest := ih { state with batch := state.batch ++ [.delete (.head parentId)] }
        obtain ⟨removed, appended, inParents, complete⟩ := rest.batch
        refine ⟨rest.addedCommits, rest.commitsToSend, rest.continueTrying,
          rest.remainingCommits, ?_, ⟨parentId :: removed, ?_, ?_, ?_⟩, ?_, ?_⟩
        · rw [rest.found_iff, forall_mem_cons]
          exact (and_iff_right available).symm
        · rw [appended, append_assoc]
          rfl
        · refine forall_mem_cons.mpr ⟨⟨mem_cons_self, fun member =>
            toAdd (rest.heads _ member).1⟩, fun id isRemoved => ?_⟩
          exact ⟨mem_cons_of_mem _ (inParents id isRemoved).1, (inParents id isRemoved).2⟩
        · intro found
          refine forall_mem_cons.mpr ⟨fun _ => mem_cons_self, ?_⟩
          exact fun id isParent absent => mem_cons_of_mem _ (complete found id isParent absent)
        · intro id member
          obtain ⟨inHeads, notParent⟩ := rest.heads id member
          have different : id ≠ parentId := fun same => toAdd (same ▸ inHeads)
          exact ⟨inHeads, fun found => not_mem_cons_of_ne_of_not_mem different (notParent found)⟩
        · exact fun id member notParent => rest.kept id member (not_mem_of_not_mem_cons notParent)
    · rw [if_neg available]
      refine ⟨rfl, rfl, rfl, rfl, ?_, ⟨[], by simp⟩, by simp, fun id member _ => member⟩
      simp only [Bool.false_eq_true, false_iff, forall_mem_cons, not_and]
      exact fun first => absurd first available

theorem addCommit_cases (state : AddState formats) (commit : Commit formats) :
    (db.Contains commit.id ∧ db.addCommit source state commit =
        { state with batch := state.batch ++ skipWrites source commit }) ∨
      (¬db.Contains commit.id ∧ db.Ready state.addedCommits commit ∧
        ∃ after, TookParents db state commit.parentIds true after ∧
          db.addCommit source state commit = storeCommit source after commit) ∨
      (¬db.Contains commit.id ∧ ¬db.Ready state.addedCommits commit ∧
        ∃ after, TookParents db state commit.parentIds false after ∧
          db.addCommit source state commit =
            { after with remainingCommits := after.remainingCommits ++ [commit] }) := by
  have took := tookParents db state commit.parentIds
  rw [addCommit]
  by_cases contains : db.Contains commit.id
  · exact .inl ⟨contains, if_pos contains⟩
  · rw [if_neg contains]
    rcases takes : db.takeParents state commit.parentIds with ⟨found, after⟩
    rw [takes] at took
    cases found with
    | true => exact .inr (.inl ⟨contains, took.found_iff.mp rfl, after, took, rfl⟩)
    | false =>
      have notReady : ¬db.Ready state.addedCommits commit := fun ready =>
        Bool.false_ne_true (took.found_iff.mpr ready)
      exact .inr (.inr ⟨contains, notReady, after, took, rfl⟩)

/-- The commits that one turn of the loop adds and those that it leaves. -/
def commitTurn (addedCommits : List CommitId) (commits : List (Commit formats)) :
    List (Commit formats) × List (Commit formats) :=
  ReadyOrder.turn Commit.id Commit.parentIds db.Contains addedCommits (db.unstored commits)

/-- The commits that each turn of the loop adds and those that are left in the end. -/
def commitTurns (fuel : Nat) (addedCommits : List CommitId) (commits : List (Commit formats)) :
    List (List (Commit formats)) × List (Commit formats) :=
  ReadyOrder.turns Commit.id Commit.parentIds db.Contains fuel addedCommits (db.unstored commits)

variable {db} {commits : List (Commit formats)}

theorem mem_unstored {commit : Commit formats} :
    commit ∈ db.unstored commits ↔ commit ∈ commits ∧ ¬db.Contains commit.id := by
  simp [unstored]

theorem unstored_cons (commit : Commit formats) (commits : List (Commit formats)) :
    db.unstored (commit :: commits) =
      if db.Contains commit.id then db.unstored commits else commit :: db.unstored commits := by
  by_cases contains : db.Contains commit.id <;> simp [unstored, contains]

theorem length_unstored_le (db : PageDb) (commits : List (Commit formats)) :
    (db.unstored commits).length ≤ commits.length :=
  length_filter_le ..

section Turn

variable {addedCommits : List CommitId} {commit : Commit formats} {commits : List (Commit formats)}

theorem commitTurn_stored (contains : db.Contains commit.id) :
    db.commitTurn addedCommits (commit :: commits) = db.commitTurn addedCommits commits := by
  simp only [commitTurn, unstored_cons, if_pos contains]

theorem commitTurn_taken (absent : ¬db.Contains commit.id) (ready : db.Ready addedCommits commit) :
    db.commitTurn addedCommits (commit :: commits) =
      (commit :: (db.commitTurn (commit.id :: addedCommits) commits).1,
        (db.commitTurn (commit.id :: addedCommits) commits).2) := by
  simp only [commitTurn, unstored_cons, if_neg absent, ReadyOrder.turn]
  exact if_pos ready

theorem commitTurn_left (absent : ¬db.Contains commit.id)
    (notReady : ¬db.Ready addedCommits commit) : db.commitTurn addedCommits (commit :: commits) =
      ((db.commitTurn addedCommits commits).1, commit :: (db.commitTurn addedCommits commits).2) := by
  simp only [commitTurn, unstored_cons, if_neg absent, ReadyOrder.turn]
  exact if_neg notReady

end Turn

theorem unstored_commitTurn (addedCommits : List CommitId) (commits : List (Commit formats)) :
    db.unstored (db.commitTurn addedCommits commits).2 = (db.commitTurn addedCommits commits).2 := by
  refine filter_eq_self.mpr fun commit left => ?_
  have member := (turn_perm Commit.id Commit.parentIds db.Contains addedCommits
    (db.unstored commits)).mem_iff.mp (mem_append_right _ left)
  simpa using (mem_unstored.mp member).2

variable (db)

theorem foldl_addCommit (state : AddState formats) (commits : List (Commit formats)) :
    let after := commits.foldl (db.addCommit source) state
    let turn := db.commitTurn state.addedCommits commits
    after.addedCommits = ReadyOrder.done Commit.id state.addedCommits turn.1 ∧
      after.commitsToSend = state.commitsToSend ++ turn.1 ∧
      after.remainingCommits = state.remainingCommits ++ turn.2 ∧
      (after.continueTrying = true ↔ state.continueTrying = true ∨ turn.1 ≠ []) := by
  intro after turn
  induction commits generalizing state with
  | nil => simp [after, turn, commitTurn, unstored, ReadyOrder.turn, ReadyOrder.done]
  | cons commit commits ih =>
    obtain ⟨added, sent, remaining, continues⟩ := ih (db.addCommit source state commit)
    simp only [after, foldl_cons, added, sent, remaining, continues]
    rcases addCommit_cases db source state commit with ⟨contains, skips⟩ |
        ⟨absent, ready, middle, took, stores⟩ | ⟨absent, notReady, middle, took, leaves⟩
    · simp [skips, turn, commitTurn_stored contains]
    · simp [stores, storeCommit, took.addedCommits, took.commitsToSend, took.remainingCommits,
        turn, commitTurn_taken absent ready, done_cons]
    · simp [leaves, took.addedCommits, took.commitsToSend, took.remainingCommits,
        took.continueTrying, turn, commitTurn_left absent notReady]

theorem addPass_turn (state : AddState formats) (commits : List (Commit formats)) :
    let after := db.addPass source state commits
    let turn := db.commitTurn state.addedCommits commits
    after.addedCommits = ReadyOrder.done Commit.id state.addedCommits turn.1 ∧
      after.commitsToSend = state.commitsToSend ++ turn.1 ∧
      after.remainingCommits = turn.2 ∧ (after.continueTrying = true ↔ turn.1 ≠ []) := by
  have pass := foldl_addCommit db source
    { state with continueTrying := false, remainingCommits := [] } commits
  simpa [addPass] using pass

theorem commitTurns_succ (fuel : Nat) (addedCommits : List CommitId)
    (commits : List (Commit formats)) : db.commitTurns (fuel + 1) addedCommits commits =
      if (db.commitTurn addedCommits commits).1 = [] then
        ([], (db.commitTurn addedCommits commits).2) else
        let rest := db.commitTurns fuel (ReadyOrder.done Commit.id addedCommits
          (db.commitTurn addedCommits commits).1) (db.commitTurn addedCommits commits).2
        ((db.commitTurn addedCommits commits).1 :: rest.1, rest.2) := by
  rw [commitTurns, ReadyOrder.turns]
  simp only [commitTurns, unstored_commitTurn]
  rfl

/-- The loop that retries makes all turns: its fuel suffices. -/
theorem addPasses_turns {fuel : Nat} (state : AddState formats)
    (enough : commits.length < fuel) : ∃ after, db.addPasses source fuel state commits =
        .ok (after, (db.commitTurns fuel state.addedCommits commits).2) ∧
      after.commitsToSend = state.commitsToSend ++
        (db.commitTurns fuel state.addedCommits commits).1.flatten := by
  induction fuel generalizing state commits with
  | zero => exact absurd enough (Nat.not_lt_zero _)
  | succ fuel ih =>
    cases commits with
    | nil => exact ⟨state, rfl, by simp [commitTurns, unstored, ReadyOrder.turns, ReadyOrder.turn]⟩
    | cons commit commits =>
      obtain ⟨added, sent, remaining, continues⟩ := addPass_turn db source state (commit :: commits)
      simp only [addPasses, commitTurns_succ, remaining]
      by_cases takesNone : (db.commitTurn state.addedCommits (commit :: commits)).1 = []
      · have stops : ¬(db.addPass source state (commit :: commits)).continueTrying = true :=
          fun goesOn => continues.mp goesOn takesNone
        refine ⟨db.addPass source state (commit :: commits), ?_, ?_⟩
        · rw [if_neg stops, if_pos takesNone]
        · rw [if_pos takesNone, sent, takesNone]
          rfl
      · have fewer : (db.commitTurn state.addedCommits (commit :: commits)).2.length < fuel := by
          have total := (turn_perm Commit.id Commit.parentIds db.Contains
            state.addedCommits (db.unstored (commit :: commits))).length_eq
          have some := length_pos_iff.mpr takesNone
          have atMost := length_unstored_le db (commit :: commits)
          rw [length_append] at total
          simp only [commitTurn] at some ⊢
          omega
        obtain ⟨after, result, sentRest⟩ := ih (db.addPass source state (commit :: commits)) fewer
        rw [added] at result sentRest
        refine ⟨after, ?_, ?_⟩
        · rw [if_pos (continues.mpr takesNone), if_neg takesNone, result]
        · rw [if_neg takesNone, sentRest, sent, flatten_cons, append_assoc]

end PageDb

end Peridot
