import Mathlib.Data.Prod.Lex
import Peridot.ObjectStatus
import Peridot.PageRows

/-!
# The operations of the database on bytes

The operations of `page_db_impl.cc` and `page_db_batch_impl.cc` twice: as reads and writes
of one ordered store of byte strings, as the code has them, and as writes of rows that are
kept by kind.
-/

namespace Peridot

inductive JournalType where
  | implicit
  | explicit
deriving DecidableEq

/-- The operations of `PageDbMutator`.  `CreateJournalId` comes with the id that it draws. -/
inductive Mutation where
  | addHead (head : CommitId) (timestamp : Int64)
  | removeHead (head : CommitId)
  | addCommitStorageBytes (commitId : CommitId) (storageBytes : Bytes)
  | removeCommit (commitId : CommitId)
  | createJournalId (journalType : JournalType) (base : CommitId) (journalId : JournalId)
  | removeExplicitJournals
  | removeJournal (journalId : JournalId)
  | addJournalEntry (journalId : JournalId) (key : Key) (objectIdentifier : ObjectIdentifier)
      (priority : KeyPriority)
  | removeJournalEntry (journalId : JournalId) (key : Key)
  | writeObject (objectIdentifier : ObjectIdentifier) (content : Bytes)
      (objectStatus : PageDbObjectStatus)
  | setObjectStatus (objectIdentifier : ObjectIdentifier) (objectStatus : PageDbObjectStatus)
  | markCommitIdSynced (commitId : CommitId)
  | markCommitIdUnsynced (commitId : CommitId) (generation : UInt64)
  | setSyncMetadata (key : Bytes) (value : Bytes)

inductive ByteWrite where
  | put (key value : Bytes)
  | delete (key : Bytes)

abbrev ByteStore := OrderedStore UInt8 Bytes

namespace ByteStore

def write (store : ByteStore) : ByteWrite → ByteStore
  | .put key value => store.put key value
  | .delete key => store.delete key

def writeAll (store : ByteStore) (writes : List ByteWrite) : ByteStore :=
  writes.foldl write store

def hasKey (store : ByteStore) (key : Bytes) : Bool :=
  (store.get key).isSome

def deleteByPrefix (store : ByteStore) (start : Bytes) : List ByteWrite :=
  (store.scan start).map fun row => .delete row.1

def getByPrefix (store : ByteStore) (start : Bytes) : List Bytes :=
  (store.scan start).map fun row => row.1.drop start.length

def getEntriesByPrefix (store : ByteStore) (start : Bytes) : List (Bytes × Bytes) :=
  (store.scan start).map fun row => (row.1.drop start.length, row.2)

variable (format : IdentifierFormat)

def getObjectStatus (store : ByteStore) (objectIdentifier : ObjectIdentifier) :
    PageDbObjectStatus :=
  if store.hasKey ((Row.objectStatus .synced objectIdentifier).key format) then .synced
  else if store.hasKey ((Row.objectStatus .transient objectIdentifier).key format) then .transient
  else if store.hasKey ((Row.objectStatus .localObject objectIdentifier).key format) then
    .localObject
  else .unknown

def setObjectStatus (store : ByteStore) (objectIdentifier : ObjectIdentifier)
    (objectStatus : PageDbObjectStatus) : List ByteWrite :=
  let previousObjectStatus := store.getObjectStatus format objectIdentifier
  if previousObjectStatus.rank ≥ objectStatus.rank then []
  else [.delete ((Row.objectStatus previousObjectStatus objectIdentifier).key format),
    .put ((Row.objectStatus objectStatus objectIdentifier).key format) []]

def mutate (store : ByteStore) : Mutation → List ByteWrite
  | .addHead head timestamp =>
    [.put ((Row.head head).key format) (serializeNumber timestamp.toUInt64)]
  | .removeHead head => [.delete ((Row.head head).key format)]
  | .addCommitStorageBytes commitId storageBytes =>
    [.put ((Row.commit commitId).key format) storageBytes]
  | .removeCommit commitId => [.delete ((Row.commit commitId).key format)]
  | .createJournalId journalType base journalId =>
    if journalType = .implicit then
      [.put ((Row.implicitJournalMetadata journalId).key format) base]
    else []
  | .removeExplicitJournals => store.deleteByPrefix (journalEntryRowPrefix ++ [kExplicitPrefix])
  | .removeJournal journalId =>
    (if journalId.head? = some kImplicitPrefix then
      [.delete ((Row.implicitJournalMetadata journalId).key format)]
    else []) ++ store.deleteByPrefix (journalPrefixFor journalId)
  | .addJournalEntry journalId key objectIdentifier priority =>
    [.put ((Row.journalEntry journalId key).key format)
      ((JournalValue.add objectIdentifier priority).bytes format)]
  | .removeJournalEntry journalId key =>
    [.put ((Row.journalEntry journalId key).key format) [kDeletePrefix]]
  | .writeObject objectIdentifier content objectStatus =>
    -- `HasObject` adds the prefix of the object rows once more.
    let objectKey := (Row.object objectIdentifier.objectDigest).key format
    if store.hasKey ((Row.object objectKey).key format) then
      if objectStatus = .transient then []
      else store.setObjectStatus format objectIdentifier objectStatus
    else [.put objectKey content,
      .put ((Row.objectStatus objectStatus objectIdentifier).key format) []]
  | .setObjectStatus objectIdentifier objectStatus =>
    store.setObjectStatus format objectIdentifier objectStatus
  | .markCommitIdSynced commitId => [.delete ((Row.unsyncedCommit commitId).key format)]
  | .markCommitIdUnsynced commitId generation =>
    [.put ((Row.unsyncedCommit commitId).key format) (serializeNumber generation)]
  | .setSyncMetadata key value => [.put ((Row.syncMetadata key).key format) value]

def execute (store : ByteStore) (batch : List Mutation) : ByteStore :=
  store.writeAll (batch.flatMap (store.mutate format))

/-- The order of `ExtractSortedCommitsIds`. -/
def commitLess (first second : Bytes × Bytes) : Bool :=
  let firstNumber := (deserializeNumber first.2).toInt64
  let secondNumber := (deserializeNumber second.2).toInt64
  if firstNumber ≠ secondNumber then firstNumber < secondNumber else first.1 < second.1

def extractSortedCommitsIds (entries : List (Bytes × Bytes)) : List CommitId :=
  (entries.mergeSort fun first second => !commitLess second first).map Prod.fst

def getHeads (store : ByteStore) : List CommitId :=
  extractSortedCommitsIds (store.getEntriesByPrefix headRowPrefix)

def getUnsyncedCommitIds (store : ByteStore) : List CommitId :=
  extractSortedCommitsIds (store.getEntriesByPrefix unsyncedCommitRowPrefix)

def getImplicitJournalIds (store : ByteStore) : List JournalId :=
  store.getByPrefix implicitJournalMetadataRowPrefix

/-- `PageDbImpl::GetJournalEntries`: what its iterator goes through. -/
def getJournalEntries (store : ByteStore) (journalId : JournalId) : List EntryChange :=
  (store.scan (journalPrefixFor journalId)).map (prepareEntry format)

end ByteStore

def Row.isEntryOf (journalId : JournalId) : Row → Bool
  | journalEntry other _ => other = journalId
  | _ => false

def Row.isExplicitEntry : Row → Bool
  | journalEntry journalId _ => journalId.head? = some kExplicitPrefix
  | _ => false

namespace PageDb

def mutate (db : PageDb) : Mutation → List Write
  | .addHead head timestamp => [.put (.head head) timestamp]
  | .removeHead head => [.delete (.head head)]
  | .addCommitStorageBytes commitId storageBytes => [.put (.commit commitId) storageBytes]
  | .removeCommit commitId => [.delete (.commit commitId)]
  | .createJournalId journalType base journalId =>
    if journalType = .implicit then [.put (.implicitJournalMetadata journalId) base] else []
  | .removeExplicitJournals => (db.keys.filter Row.isExplicitEntry).map .delete
  | .removeJournal journalId =>
    .delete (.implicitJournalMetadata journalId) ::
      (db.keys.filter (Row.isEntryOf journalId)).map .delete
  | .addJournalEntry journalId key objectIdentifier priority =>
    [.put (.journalEntry journalId key) (.add objectIdentifier priority)]
  | .removeJournalEntry journalId key => [.put (.journalEntry journalId key) .delete]
  | .writeObject objectIdentifier content objectStatus =>
    db.objectWrites objectIdentifier content objectStatus
  | .setObjectStatus objectIdentifier objectStatus => db.statusWrites objectIdentifier objectStatus
  | .markCommitIdSynced commitId => [.delete (.unsyncedCommit commitId)]
  | .markCommitIdUnsynced commitId generation => [.put (.unsyncedCommit commitId) generation]
  | .setSyncMetadata key value => [.put (.syncMetadata key) value]

def execute (db : PageDb) (batch : List Mutation) : PageDb :=
  db.writeAll (batch.flatMap db.mutate)

end PageDb

end Peridot
