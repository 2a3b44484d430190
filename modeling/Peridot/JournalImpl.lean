import Mathlib.Data.Finset.Sort
import Peridot.AddCommitsOutcome
import Peridot.CommitImpl
import Peridot.JournalRows
import Peridot.PageDbReaders

/-!
# Journals

`JournalImpl`: the operations of a journal are rows of the database.  `Commit` applies them to
the tree of the base commit, and makes a commit of the result.  `CommitJournal` rolls a journal
back whose commit fails.
-/

namespace Peridot

def Row.entryOf (journalId : JournalId) : (Sigma Row.Value) → Option (Key × JournalValue)
  | ⟨.journalEntry other key, value⟩ => if other = journalId then some (key, value) else none
  | _ => none

namespace PageDb

def journalRows (db : PageDb) (journalId : JournalId) : JournalRows :=
  (db.entries.filterMap (Row.entryOf journalId)).mergeSort fun first second =>
    !decide (second.1 < first.1)

def writePieces (db : PageDb) (pieces : List (ObjectIdentifier × Bytes)) : PageDb :=
  pieces.foldl (fun db piece => db.writeAll (db.objectWrites piece.1 piece.2 .transient)) db

end PageDb

structure JournalImpl where
  type : JournalType
  id : JournalId
  base : CommitId
  other : Option CommitId
  valid : Bool
  failedOperation : Bool

structure JournalState (formats : StorageFormats) (ids : NodeIdentifiers) where
  journal : JournalImpl
  page : PageWorld formats
  nodes : NodeStore ids

structure JournalEnv (formats : StorageFormats) where
  code : CommitCode formats
  level : NodeLevelCalculator
  fuel : ℕ
  indeterminate : Bool
  now : Int64
  /-- The pieces into which a tree node is split. -/
  pieces : TreeNode → List (ObjectIdentifier × Bytes)

abbrev JournalCall (formats : StorageFormats) (ids : NodeIdentifiers) :=
  ExceptT Fault (StateM (JournalState formats ids))

namespace JournalCall

variable {formats : StorageFormats} {ids : NodeIdentifiers} {α β : Type}

def access (reply : PageDb → Except Status α) : JournalCall formats ids α := fun state =>
  let outcome := state.page.access (reply state.page.db) state.page
  (outcome.1.mapError .status, { state with page := outcome.2 })

def execute (writes : List Write) : JournalCall formats ids Unit := fun state =>
  let outcome := state.page.access (.ok ())
    { state.page with db := state.page.db.writeAll writes }
  (outcome.1.mapError .status, { state with page := outcome.2 })

/-- A call of the database: a batch of one operation, which is added by some updates. -/
def mutate (updates : ℕ) (mutation : Mutation) : JournalCall formats ids Unit := do
  access fun _ => .ok ()
  (List.replicate updates ()).forM fun _ => access fun _ => .ok ()
  let state ← get
  execute (state.page.db.mutate mutation)

def ofPage (routine : PageRoutine formats α) : JournalCall formats ids α := fun state =>
  let outcome := state.page.call routine
  (outcome.1, { state with page := outcome.2 })

def ofResult (result : Except Fault α) : JournalCall formats ids α := fun state =>
  (result, state)

def attempt (call : JournalCall formats ids α) : JournalCall formats ids (Except Fault α) :=
  fun state => (.ok (call state).1, (call state).2)

end JournalCall

/-- The order of `std::set<ObjectIdentifier>`. -/
def identifierOrder (identifier : ObjectIdentifier) : ℕ ×ₗ ℕ ×ₗ Bytes :=
  toLex (identifier.keyIndex.toNat,
    toLex (identifier.deletionScopeId.toNat, identifier.objectDigest))

theorem identifierOrder_injective : Function.Injective identifierOrder := by
  rintro ⟨index, scope, digest⟩ ⟨index', scope', digest'⟩ same
  simp only [identifierOrder, toLex_inj, Prod.mk.injEq, UInt32.toNat_inj] at same
  obtain ⟨rfl, rfl, rfl⟩ := same
  rfl

def IdentifierLe (first second : ObjectIdentifier) : Prop :=
  identifierOrder first ≤ identifierOrder second

instance identifierLeDecidable : DecidableRel IdentifierLe := fun first second =>
  inferInstanceAs (Decidable (identifierOrder first ≤ identifierOrder second))

instance identifierLeTrans : IsTrans ObjectIdentifier IdentifierLe :=
  ⟨fun _ _ _ => le_trans⟩

instance identifierLeAntisymm : Std.Antisymm IdentifierLe :=
  ⟨fun _ _ less greater => identifierOrder_injective (le_antisymm less greater)⟩

instance identifierLeTotal : Std.Total IdentifierLe :=
  ⟨fun _ _ => le_total _ _⟩

def sortIdentifiers (identifiers : Finset ObjectIdentifier) : List ObjectIdentifier :=
  identifiers.sort IdentifierLe

theorem oneOrTwo {α : Type} (base : α) (other : Option α) :
    base :: other.toList ≠ [] ∧ (base :: other.toList).length ≤ 2 := by
  cases other <;> simp

section Journal

variable {formats : StorageFormats} {ids : NodeIdentifiers} (env : JournalEnv formats)

open JournalCall

def getCommit (commitId : CommitId) : JournalCall formats ids CommitImpl := do
  if commitId = kFirstPageCommitId then
    -- `CommitImpl::Empty` stores the empty node.
    access fun _ => .ok ()
    modify fun state => { state with
      page.db := state.page.db.writePieces (env.pieces NodeBuilder.emptyNode)
      nodes := state.nodes.add NodeBuilder.emptyNode }
    return .empty (ids.identify NodeBuilder.emptyNode)
  else
    let bytes ← access fun db => db.read (.commit commitId)
    let commit ← ofResult ((Commit.fromStorageBytes formats commitId bytes).mapError .status)
    return commit.toImpl

/-- `PageStorageImpl::GetJournalEntries`, and its iterator. -/
def getJournalEntries : JournalCall formats ids (List EntryChange) := do
  let state ← get
  access fun db => .ok (db.journalRows state.journal.id).changes

/-- `ApplyChanges`, with the pieces of the nodes that it stores. -/
def applyChangesOnPage (rootIdentifier : ObjectIdentifier) (changes : List EntryChange) :
    JournalCall formats ids (ObjectIdentifier × List ObjectIdentifier) := do
  access fun _ => .ok ()
  let state ← get
  match applyChanges env.level env.fuel env.indeterminate state.nodes rootIdentifier
      ⟨changes, .ok⟩ with
  | .error fault => throw fault
  | .ok result =>
    let newNodes := sortIdentifiers result.newIdentifiers
    set { state with
      page.db := state.page.db.writePieces (newNodes.flatMap fun identifier =>
        ((result.store.read identifier).map env.pieces).getD [])
      nodes := result.store }
    return (result.root, newNodes)

def objectIsUntracked (objectIdentifier : ObjectIdentifier) : JournalCall formats ids Bool := do
  if getObjectDigestType objectIdentifier.objectDigest = .inline then return false
  else
    let objectStatus ← ofPage (getObjectStatus objectIdentifier)
    return objectStatus = .transient

def addCommitFromLocal (commit : Commit formats) (newObjects : List ObjectIdentifier) :
    JournalCall formats ids Unit :=
  ofPage (synchronousAddCommits env.fuel [commit] .localChange newObjects)

def removeJournal : JournalCall formats ids Unit := do
  let state ← get
  -- The batch also deletes the metadata row of an implicit journal.
  mutate (if state.journal.id.head? = some kImplicitPrefix then 2 else 1)
    (.removeJournal state.journal.id)

namespace JournalImpl

/-- `Put` and `Delete` fail on a journal that is not valid, as `Commit` does. -/
def isClosed (journal : JournalImpl) : Bool :=
  !journal.valid || (journal.type = .explicit && journal.failedOperation)

def write (mutation : JournalId → Mutation) : JournalCall formats ids Unit := do
  let state ← get
  if state.journal.isClosed then throw (.status .illegalState)
  else
    match ← attempt (mutate 1 (mutation state.journal.id)) with
    | .ok () => return ()
    | .error fault =>
      modify fun state => { state with
        journal.failedOperation := true }
      throw fault

def put (key : Key) (objectIdentifier : ObjectIdentifier) (priority : KeyPriority) :
    JournalCall formats ids Unit :=
  write fun id => .addJournalEntry id key objectIdentifier priority

def delete (key : Key) : JournalCall formats ids Unit :=
  write fun id => .removeJournalEntry id key

def rollbackInternal : JournalCall formats ids Unit := do
  let state ← get
  if state.journal.valid then
    removeJournal
    modify fun state => { state with journal.valid := false }
  else throw (.status .illegalState)

/-- `GetParents`: the commits of the base and of the other head. -/
def getParents : JournalCall formats ids (CommitImpl × Option CommitImpl) := do
  let state ← get
  let base ← getCommit env state.journal.base
  match state.journal.other with
  | none => return (base, none)
  | some otherId =>
    let other ← getCommit env otherId
    return (base, some other)

/-- The values that `GetObjectsToSync` collects. -/
def putValues (changes : List EntryChange) : List (Key × ObjectIdentifier) :=
  changes.foldl (fun keyValues change =>
    KeyedList.replaceAt Prod.fst change.entry.key
      (if change.deleted then [] else [(change.entry.key, change.entry.objectIdentifier)])
      keyValues) []

def getObjectsToSync : JournalCall formats ids (List ObjectIdentifier) := do
  let changes ← getJournalEntries
  let values := (putValues changes).map Prod.snd
  let isUntracked ← values.mapM objectIsUntracked
  return sortIdentifiers (((values.zip isUntracked).filter Prod.snd).map Prod.fst).toFinset

def createCommitFromChanges (base : CommitImpl) (other : Option CommitImpl)
    (changes : List EntryChange) : JournalCall formats ids CommitImpl := do
  let (rootIdentifier, newNodes) ← applyChangesOnPage env base.rootIdentifier changes
  if other = none ∧ base.rootIdentifier = rootIdentifier then
    rollbackInternal
    return base
  else
    let commit := env.code.fromContentAndParents env.now rootIdentifier (base :: other.toList)
      (oneOrTwo base other)
    let objectsToSync ← getObjectsToSync
    let added ← attempt (addCommitFromLocal env commit (objectsToSync ++ newNodes))
    modify fun state => { state with journal.valid := false }
    ofResult added
    -- The commit is there, also when the journal cannot be removed.
    let _ ← attempt removeJournal
    return commit.toImpl

def commit : JournalCall formats ids CommitImpl := do
  let state ← get
  if state.journal.isClosed then throw (.status .illegalState)
  else
    let (base, other) ← getParents env
    let changes ← getJournalEntries
    createCommitFromChanges env base other changes

def commitJournal : JournalCall formats ids CommitImpl := do
  match ← attempt (commit env) with
  | .ok commit => return commit
  | .error fault =>
    let _ ← attempt rollbackInternal
    throw fault

end JournalImpl

end Journal

end Peridot
