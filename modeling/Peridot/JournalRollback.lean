import Peridot.AddCommitsNotify
import Peridot.JournalCommit

/-!
# Rolling back a journal

`CommitJournal` rolls a journal back whose commit fails.  `AddCommitFromLocal` has marked the
journal as not valid when it fails, and then nothing is rolled back.
-/

namespace Peridot

variable {formats : StorageFormats} {ids : NodeIdentifiers} {env : JournalEnv formats}
  {state next final : JournalState formats ids}

open JournalCall JournalState

namespace PageDb

/-- No row of the journal is left. -/
def Forgets (db : PageDb) (journalId : JournalId) : Prop :=
  ∀ row ∈ db, row.journal ≠ some journalId

theorem SameRows.forgets {before after : PageDb} (same : SameRows before after)
    (journalId : JournalId) : after.Forgets journalId ↔ before.Forgets journalId := by
  have notObject : ∀ row : Row, row.journal = some journalId → row.isObject = false := by
    intro row ofJournal
    cases row <;> first | rfl | cases ofJournal
  refine forall_congr' fun row => ?_
  rw [imp_not_comm, imp_not_comm (a := row ∈ before)]
  refine imp_congr_right fun ofJournal => not_congr ?_
  rw [mem_iff_lookup, mem_iff_lookup, same row (notObject row ofJournal)]

end PageDb

namespace JournalImpl

/-- `CreateCommitFromChanges` before `AddCommitFromLocal`: the commit that is to be added with
its objects, or the base. -/
def prepareFromChanges (env : JournalEnv formats) (base : CommitImpl) (other : Option CommitImpl)
    (changes : List EntryChange) :
    JournalCall formats ids (CommitImpl ⊕ Commit formats × List ObjectIdentifier) := do
  let (rootIdentifier, newNodes) ← applyChangesOnPage env base.rootIdentifier changes
  if other = none ∧ base.rootIdentifier = rootIdentifier then
    rollbackInternal
    return .inl base
  else
    let commit := env.code.fromContentAndParents env.now rootIdentifier (base :: other.toList)
      (oneOrTwo base other)
    let objectsToSync ← getObjectsToSync
    return .inr (commit, objectsToSync ++ newNodes)

/-- `Commit` before `AddCommitFromLocal`. -/
def prepareCommit (env : JournalEnv formats) :
    JournalCall formats ids (CommitImpl ⊕ Commit formats × List ObjectIdentifier) := do
  let state ← get
  if state.journal.isClosed then throw (.status .illegalState)
  else
    let (base, other) ← getParents env
    let changes ← getJournalEntries
    prepareFromChanges env base other changes

/-- `Commit` from `AddCommitFromLocal` on. -/
def finishCommit (env : JournalEnv formats) :
    CommitImpl ⊕ Commit formats × List ObjectIdentifier → JournalCall formats ids CommitImpl
  | .inl base => return base
  | .inr (commit, newObjects) => do
      let added ← attempt (addCommitFromLocal env commit newObjects)
      modify fun state => { state with journal.valid := false }
      ofResult added
      let _ ← attempt removeJournal
      return commit.toImpl

theorem createCommitFromChanges_eq (base : CommitImpl) (other : Option CommitImpl)
    (changes : List EntryChange) :
    (createCommitFromChanges env base other changes : JournalCall formats ids CommitImpl) =
      prepareFromChanges env base other changes >>= finishCommit env := by
  rw [createCommitFromChanges, prepareFromChanges, bind_assoc]
  congr 1
  funext ⟨root, newNodes⟩
  dsimp only
  split <;> rw [bind_assoc] <;> rfl

theorem commit_eq : (JournalImpl.commit env : JournalCall formats ids CommitImpl) =
    prepareCommit env >>= finishCommit env := by
  rw [commit, prepareCommit, bind_assoc]
  congr 1
  funext state
  split
  · rfl
  · simp only [bind_assoc, createCommitFromChanges_eq]

variable {fault : Fault} {result : Except Fault _}

theorem rollbackInternal_error (fails : rollbackInternal state = (.error fault, next)) :
    Quiet state next := by
  rw [rollbackInternal, get_bind] at fails
  split at fails
  · obtain ⟨result, middle, removes, sameJournal, sameNodes, outcome⟩ := removeJournal_cases state
    rcases outcome with ⟨rfl, -⟩ | ⟨⟨fault', rfl⟩, sameDb⟩
    · rw [bind_of_ok removes] at fails
      cases fails
    · rw [bind_of_error removes] at fails
      cases fails
      exact ⟨sameJournal, fun row _ => by rw [sameDb]⟩
  · cases fails
    exact .refl state

theorem quiet_prepareFromChanges {base : CommitImpl} {other : Option CommitImpl}
    {changes : List EntryChange}
    (prepares : prepareFromChanges env base other changes state = (result, next))
    (notBase : ∀ base, result ≠ .ok (.inl base)) : Quiet state next := by
  have quiet := @quiet_applyChangesOnPage formats ids env base.rootIdentifier changes state
  rw [prepareFromChanges] at prepares
  rcases applied : applyChangesOnPage env base.rootIdentifier changes state with
    ⟨fault | ⟨root, newNodes⟩, middle⟩ <;> rw [applied] at quiet
  · rw [bind_of_error applied] at prepares
    cases prepares
    exact quiet
  · rw [bind_of_ok applied] at prepares
    dsimp only at prepares
    split at prepares
    · rcases rolled : rollbackInternal middle with ⟨fault | ⟨⟩, after⟩
      · rw [bind_of_error rolled] at prepares
        cases prepares
        exact quiet.trans (rollbackInternal_error rolled)
      · rw [bind_of_ok rolled] at prepares
        cases prepares
        exact absurd rfl (notBase base)
    · have idle := idle_getObjectsToSync middle
      rcases collected : getObjectsToSync middle with ⟨fault | objectsToSync, after⟩ <;>
        rw [collected] at idle
      · rw [bind_of_error collected] at prepares
        cases prepares
        exact quiet.trans idle.quiet
      · rw [bind_of_ok collected] at prepares
        cases prepares
        exact quiet.trans idle.quiet

theorem quiet_prepareCommit (prepares : prepareCommit env state = (result, next))
    (notBase : ∀ base, result ≠ .ok (.inl base)) : Quiet state next := by
  rw [prepareCommit, get_bind] at prepares
  split at prepares
  · cases prepares
    exact .refl state
  · have quiet := @quiet_getParents formats ids env state
    rcases gotParents : getParents env state with ⟨fault | ⟨base, other⟩, middle⟩ <;>
      rw [gotParents] at quiet
    · rw [bind_of_error gotParents] at prepares
      cases prepares
      exact quiet
    · rw [bind_of_ok gotParents] at prepares
      dsimp only at prepares
      have idle := idle_getJournalEntries middle
      rcases gotEntries : getJournalEntries middle with ⟨fault | changes, after⟩ <;>
        rw [gotEntries] at idle
      · rw [bind_of_error gotEntries] at prepares
        cases prepares
        exact quiet.trans idle.quiet
      · rw [bind_of_ok gotEntries] at prepares
        exact (quiet.trans idle.quiet).trans (quiet_prepareFromChanges prepares notBase)

/-- `AddCommitFromLocal` is called and fails. -/
def AddFails (env : JournalEnv formats) (state : JournalState formats ids) : Prop :=
  ∃ commit newObjects middle fault,
    prepareCommit env state = (.ok (.inr (commit, newObjects)), middle) ∧
      (addCommitFromLocal env commit newObjects middle).1 = .error fault

theorem addCommitFromLocal_error {commit : Commit formats} {newObjects : List ObjectIdentifier}
    (fails : (addCommitFromLocal env commit newObjects state).1 = .error fault) :
    (addCommitFromLocal env commit newObjects state).2.page.db = state.page.db := by
  rcases PageWorld.synchronousAddCommits_cases env.fuel [commit] .localChange newObjects
    state.page with ⟨-, -, -, sameDb, -⟩ | ⟨-, -, -, -, sameDb, -⟩ | ⟨-, -, -, -, -, isOk, -⟩
  · exact sameDb
  · exact sameDb
  · cases fails.symm.trans isOk

section

variable (fails : JournalImpl.commit env state = (.error fault, next))
include fails

/-- `Commit` fails with a journal that is as before, or with one that is not valid. -/
theorem commit_error : next.journal.id = state.journal.id ∧ state.page.db.SameRows next.page.db ∧
      (next.journal.valid = true ↔ state.journal.valid = true ∧ ¬AddFails env state) := by
  rw [commit_eq] at fails
  rcases prepared : prepareCommit env state with ⟨fault' | result, middle⟩
  · have quiet := quiet_prepareCommit prepared (by simp)
    have added : ¬AddFails env state := by
      rintro ⟨commit, newObjects, middle', fault'', prepared', -⟩
      cases prepared.symm.trans prepared'
    rw [bind_of_error prepared] at fails
    cases fails
    exact ⟨congrArg id quiet.journal, quiet.rows, by simp [quiet.journal, added]⟩
  · rw [bind_of_ok prepared] at fails
    rcases result with base | ⟨commit, newObjects⟩
    · cases fails
    · have quiet := quiet_prepareCommit prepared (by simp)
      rcases adds : addCommitFromLocal env commit newObjects middle with ⟨result, after⟩
      have sameJournal : (addCommitFromLocal env commit newObjects middle).2.journal.id =
          middle.journal.id := rfl
      have attempted : (addCommitFromLocal env commit newObjects).attempt middle =
          (.ok result, after) := by
        rw [attempt, adds]
      rw [finishCommit, bind_of_ok attempted] at fails
      rcases result with fault' | ⟨⟩
      · cases fails
        have failed : AddFails env state :=
          ⟨commit, newObjects, middle, fault, prepared, congrArg Prod.fst adds⟩
        have sameDb := addCommitFromLocal_error (congrArg Prod.fst adds)
        rw [adds] at sameDb sameJournal
        refine ⟨?_, fun row notObject => ?_, by simp [failed]⟩
        · exact sameJournal.trans (congrArg id quiet.journal)
        · exact (congrArg (AList.lookup row) sameDb).trans (quiet.rows row notObject)
      · cases fails

theorem commitJournal_error :
    commitJournal env state = (.error fault, (rollbackInternal next).2) := by
  have attempted : (commit env).attempt state = (.ok (.error fault), next) := by
    rw [attempt, fails]
  rw [commitJournal, bind_of_ok attempted]
  rfl

end

theorem commitJournal_of_ok {commit : CommitImpl}
    (succeeds : JournalImpl.commit env state = (.ok commit, next)) :
    commitJournal env state = (.ok commit, next) := by
  have attempted : (JournalImpl.commit env).attempt state = (.ok (.ok commit), next) := by
    rw [attempt, succeeds]
  rw [commitJournal, bind_of_ok attempted]
  rfl

/-- When the rows can be removed, `RollbackInternal` removes those of a valid journal. -/
theorem forgets_rollbackInternal (accepts : (removeJournal state).1 = .ok ()) :
    (rollbackInternal state).2.page.db.Forgets state.journal.id ↔
      state.page.db.Forgets state.journal.id ∨ state.journal.valid = true := by
  rw [rollbackInternal, get_bind]
  split
  case isTrue valid =>
    obtain ⟨result, middle, removes, -, -, outcome⟩ := removeJournal_cases state
    rw [removes] at accepts
    cases accepts
    rw [bind_of_ok removes]
    refine iff_of_true (fun row inDb isRow => ?_) (.inr valid)
    rcases outcome with ⟨-, lookups⟩ | ⟨⟨fault, isError⟩, -⟩
    · exact PageDb.mem_iff_lookup.mp inDb ((lookups row).trans (if_pos isRow))
    · cases isError
  case isFalse notValid => exact (or_iff_left notValid).symm

/-- A `CommitJournal` that fails leaves no row of the journal exactly when there was none, or
when the journal was valid and it was not `AddCommitFromLocal` that failed. -/
theorem commitJournal_forgets_iff {fault : Fault}
    (fails : (commitJournal env state).1 = .error fault)
    (accepts : (removeJournal (JournalImpl.commit env state).2).1 = .ok ()) :
    (commitJournal env state).2.page.db.Forgets state.journal.id ↔
      state.page.db.Forgets state.journal.id ∨
        state.journal.valid = true ∧ ¬AddFails env state := by
  rcases committed : commit env state with ⟨fault' | commit, next⟩ <;>
    rw [committed] at accepts
  · obtain ⟨sameId, sameRows, valid⟩ := commit_error committed
    rw [commitJournal_error committed, ← valid, ← sameId, forgets_rollbackInternal accepts,
      sameRows.forgets]
  · rw [commitJournal_of_ok committed] at fails
    cases fails

noncomputable section

/-- An implicit journal with one entry, on a page whose database fails when `AddCommitFromLocal`
starts its batch. -/
def failingState : JournalState codeFormats .byCode where
  journal := ⟨.implicit, sampleJournalId, kFirstPageCommitId, none, true, false⟩
  page := { PageWorld.emptyPage codeFormats with
    db := (PageDb.initial.execute
        [.createJournalId .implicit kFirstPageCommitId sampleJournalId]).execute
      [.addJournalEntry sampleJournalId [1] default .eager]
    failures := List.replicate 5 none ++ [some .internalIoError] }
  nodes := .initial .byCode

theorem commitJournal_failing :
    (commitJournal undoneEnv failingState).1 = .error (.status .internalIoError) := by
  decide +kernel

theorem removeJournal_failing :
    (removeJournal (JournalImpl.commit undoneEnv failingState).2).1 = .ok () := by
  decide +kernel

theorem commitJournal_forgets_iff_failing :
    (commitJournal undoneEnv failingState).2.page.db.Forgets failingState.journal.id ↔
      failingState.page.db.Forgets failingState.journal.id ∨
        failingState.journal.valid = true ∧ ¬AddFails undoneEnv failingState :=
  commitJournal_forgets_iff commitJournal_failing removeJournal_failing

/-- The journal is left behind, although its rows could be removed. -/
theorem commitJournal_failing_not_forgets :
    (commitJournal undoneEnv failingState).1 = .error (.status .internalIoError) ∧
      (removeJournal (JournalImpl.commit undoneEnv failingState).2).1 = .ok () ∧
      .implicitJournalMetadata sampleJournalId ∈ (commitJournal undoneEnv failingState).2.page.db ∧
      ¬(commitJournal undoneEnv failingState).2.page.db.Forgets sampleJournalId := by
  have inDb : .implicitJournalMetadata sampleJournalId ∈
      (commitJournal undoneEnv failingState).2.page.db := by
    decide +kernel
  exact ⟨commitJournal_failing, removeJournal_failing, inDb, fun forgets => forgets _ inDb rfl⟩

end

end JournalImpl

end Peridot
