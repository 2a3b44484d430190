import Peridot.AddCommits
import Peridot.OrderedStore

/-!
# The rows of the database as bytes

The encodings of `db_serialization.cc`: all rows of a page share one key space, in which
the kinds of rows are told apart by their first bytes only.
-/

namespace Peridot

open List

def isDigestValid (objectDigest : ObjectDigest) : Bool :=
  if objectDigest.length ≤ kStorageHashSize then true
  else if objectDigest.length ≠ kStorageHashSize + 1 then false
  else objectDigest.head? = some 1 ∨ objectDigest.head? = some 2

/-- The code that is generated for `ObjectIdentifierStorage`: what is built is read back. -/
structure IdentifierFormat where
  build : ObjectIdentifier → Bytes
  read : Bytes → Option ObjectIdentifier
  read_build : ∀ objectIdentifier, read (build objectIdentifier) = some objectIdentifier

variable (format : IdentifierFormat) {journalId : JournalId}

def encodeObjectIdentifier (objectIdentifier : ObjectIdentifier) : Bytes :=
  format.build objectIdentifier

def decodeObjectIdentifier (data : Bytes) : Option ObjectIdentifier :=
  match format.read data with
  | none => none
  | some objectIdentifier =>
    if isDigestValid objectIdentifier.objectDigest then some objectIdentifier else none

theorem decode_encodeObjectIdentifier {identifier : ObjectIdentifier}
    (valid : isDigestValid identifier.objectDigest = true) :
    decodeObjectIdentifier format (encodeObjectIdentifier format identifier) =
      some identifier := by
  simp [decodeObjectIdentifier, encodeObjectIdentifier, format.read_build, valid]

theorem encodeObjectIdentifier_injective : Function.Injective (encodeObjectIdentifier format) := by
  intro first second same
  have read := congrArg format.read same
  simpa only [encodeObjectIdentifier, format.read_build, Option.some.injEq] using read

/-- `SerializeNumber`: the bytes of a 64-bit number in memory, the lowest one first. -/
def serializeNumber (value : UInt64) : Bytes :=
  (List.range 8).map fun index => UInt8.ofNat (value.toNat >>> (8 * index))

def deserializeNumber (bytes : Bytes) : UInt64 :=
  UInt64.ofNat (bytes.foldr (fun byte rest => byte.toNat + 256 * rest) 0)

@[simp]
theorem deserialize_serializeNumber (value : UInt64) :
    deserializeNumber (serializeNumber value) = value := by
  have bound := value.toNat_lt
  have sum : (serializeNumber value).foldr (fun byte rest => byte.toNat + 256 * rest) 0 =
      value.toNat := by
    simp [serializeNumber, range_succ, Nat.shiftRight_eq_div_pow]
    omega
  rw [deserializeNumber, sum, UInt64.ofNat_toNat]

/-- `HeadRow::kPrefix`. -/
def headRowPrefix : Bytes :=
  ascii ['h', 'e', 'a', 'd', 's', '/']

/-- `CommitRow::kPrefix`. -/
def commitRowPrefix : Bytes :=
  ascii ['c', 'o', 'm', 'm', 'i', 't', 's', '/']

/-- `UnsyncedCommitRow::kPrefix`. -/
def unsyncedCommitRowPrefix : Bytes :=
  ascii ['u', 'n', 's', 'y', 'n', 'c', 'e', 'd', '/', 'c', 'o', 'm', 'm', 'i', 't', 's', '/']

/-- What follows the status in the keys of `ObjectStatusRow`. -/
def objectDigestsPart : Bytes :=
  ascii ['/', 'o', 'b', 'j', 'e', 'c', 't', '_', 'd', 'i', 'g', 'e', 's', 't', 's', '/']

/-- `ObjectStatusRow::GetPrefixFor`. -/
def objectStatusRowPrefix : PageDbObjectStatus → Bytes
  | .unknown => []
  | .transient => ascii ['t', 'r', 'a', 'n', 's', 'i', 'e', 'n', 't'] ++ objectDigestsPart
  | .localObject => ascii ['l', 'o', 'c', 'a', 'l'] ++ objectDigestsPart
  | .synced => ascii ['s', 'y', 'n', 'c', 'e', 'd'] ++ objectDigestsPart

/-- `JournalEntryRow::kPrefix`. -/
def journalEntryRowPrefix : Bytes :=
  ascii ['j', 'o', 'u', 'r', 'n', 'a', 'l', 's', '/']

/-- `ImplicitJournalMetadataRow::kPrefix`. -/
def implicitJournalMetadataRowPrefix : Bytes :=
  journalEntryRowPrefix ++ ascii ['i', 'm', 'p', 'l', 'i', 'c', 'i', 't', '_', 'm', 'e', 't', 'a',
    'd', 'a', 't', 'a', '/']

/-- `SyncMetadataRow::kPrefix`. -/
def syncMetadataRowPrefix : Bytes :=
  ascii ['s', 'y', 'n', 'c', '_', 'm', 'e', 't', 'a', 'd', 'a', 't', 'a', '/']

/-- `JournalEntryRow::kJournalEntry`, behind the slash that ends the journal id. -/
def journalEntryPart : Bytes :=
  ascii ['/', 'e', 'n', 't', 'r', 'y', '/']

def kJournalIdSize : Nat :=
  16

def kImplicitPrefix : UInt8 :=
  73

def kExplicitPrefix : UInt8 :=
  69

/-- `JournalEntryRow::GetPrefixFor`. -/
def journalPrefixFor (journalId : JournalId) : Bytes :=
  journalEntryRowPrefix ++ journalId ++ journalEntryPart

def kPrefixSize : Nat :=
  journalEntryRowPrefix.length + kJournalIdSize + journalEntryPart.length

/-- `GetKeyFor` of the rows. -/
def Row.key : Row → Bytes
  | head commitId => headRowPrefix ++ commitId
  | commit commitId => commitRowPrefix ++ commitId
  | object objectDigest => objectRowPrefix ++ objectDigest
  | unsyncedCommit commitId => unsyncedCommitRowPrefix ++ commitId
  | objectStatus status objectIdentifier =>
    objectStatusRowPrefix status ++ encodeObjectIdentifier format objectIdentifier
  | implicitJournalMetadata journalId => implicitJournalMetadataRowPrefix ++ journalId
  | syncMetadata key => syncMetadataRowPrefix ++ key
  | journalEntry journalId key => journalPrefixFor journalId ++ key

namespace Row

/-- A row that the code writes: journal ids have 16 bytes, there is metadata for implicit
journals only, and a status is known. -/
def Proper : Row → Prop
  | objectStatus status _ => status ≠ .unknown
  | implicitJournalMetadata journalId =>
    journalId.length = kJournalIdSize ∧ journalId.head? = some kImplicitPrefix
  | journalEntry journalId _ => journalId.length = kJournalIdSize
  | _ => True

variable {other : JournalId}

/-- The first seventeen bytes of the metadata keys, which the seventeenth byte tells apart from
a journal id and its slash. -/
theorem metadata_ne_entry {key : Key} (size : other.length = kJournalIdSize) :
    implicitJournalMetadataRowPrefix ++ journalId ≠ journalPrefixFor other ++ key := by
  intro same
  simp only [implicitJournalMetadataRowPrefix, journalPrefixFor, append_assoc,
    append_cancel_left_eq] at same
  have split : ascii ['i', 'm', 'p', 'l', 'i', 'c', 'i', 't', '_', 'm', 'e', 't', 'a', 'd', 'a',
      't', 'a', '/'] = ascii ['i', 'm', 'p', 'l', 'i', 'c', 'i', 't', '_', 'm', 'e', 't', 'a',
        'd', 'a', 't'] ++ ascii ['a', '/'] := rfl
  rw [split, append_assoc] at same
  have rest := (append_inj same (by rw [size]; rfl)).2
  cases rest

/-- The journal ids have one size, so the key of an entry starts behind them. -/
theorem entry_inj {key otherKey : Bytes}
    (size : journalId.length = kJournalIdSize) (otherSize : other.length = kJournalIdSize)
    (same : journalPrefixFor journalId ++ key = journalPrefixFor other ++ otherKey) :
    journalId = other ∧ key = otherKey := by
  simp only [journalPrefixFor, append_assoc, append_cancel_left_eq] at same
  obtain ⟨sameId, rest⟩ := append_inj same (size.trans otherSize.symm)
  exact ⟨sameId, append_cancel_left rest⟩

end Row

/-- The kinds of rows that the first bytes of a key tell apart. -/
inductive RowKind where
  | head
  | commit
  | object
  | unsyncedCommit
  | objectStatus (status : PageDbObjectStatus)
  | journal
  | syncMetadata

def RowKind.tag : RowKind → Bytes
  | head => headRowPrefix.take 6
  | commit => commitRowPrefix.take 6
  | object => objectRowPrefix.take 6
  | unsyncedCommit => unsyncedCommitRowPrefix.take 6
  | objectStatus status => (objectStatusRowPrefix status).take 6
  | journal => journalEntryRowPrefix.take 6
  | syncMetadata => syncMetadataRowPrefix.take 6

theorem RowKind.tag_injective : Function.Injective RowKind.tag := by
  intro first second same
  have sameStatus : ∀ {first second : PageDbObjectStatus},
      (objectStatus first).tag = (objectStatus second).tag → first = second := by
    intro first second same
    cases first <;> cases second <;> first | rfl | cases same
  cases first with
  | objectStatus first =>
    cases second with
    | objectStatus second => exact congrArg _ (sameStatus same)
    | _ => cases first <;> cases same
  | _ =>
    cases second with
    | objectStatus second => cases second <;> cases same
    | _ => first | rfl | cases same

namespace Row

def kind : Row → RowKind
  | head _ => .head
  | commit _ => .commit
  | object _ => .object
  | unsyncedCommit _ => .unsyncedCommit
  | objectStatus status _ => .objectStatus status
  | implicitJournalMetadata _ => .journal
  | syncMetadata _ => .syncMetadata
  | journalEntry _ _ => .journal

variable {row first second : Row} {start : Bytes}

theorem take_key (proper : row.Proper) : (row.key format).take 6 = row.kind.tag := by
  cases row with
  | objectStatus status identifier =>
    cases status with
    | unknown => exact absurd rfl proper
    | _ => rfl
  | _ => rfl

variable {format}

theorem kind_of_isPrefix {kind : RowKind} (proper : row.Proper) (starts : start <+: row.key format)
    (long : 6 ≤ start.length) (isTag : start.take 6 = kind.tag) : row.kind = kind := by
  obtain ⟨rest, isKey⟩ := starts
  refine RowKind.tag_injective ?_
  rw [← take_key format proper, ← isTag, ← isKey, take_append_of_le_length long]

theorem key_injective (properFirst : first.Proper) (properSecond : second.Proper)
    (same : first.key format = second.key format) : first = second := by
  have sameKind : first.kind = second.kind := by
    refine RowKind.tag_injective ?_
    rw [← take_key format properFirst, ← take_key format properSecond, same]
  cases first with
  | objectStatus status identifier =>
    cases second <;> cases sameKind
    rw [encodeObjectIdentifier_injective format (append_cancel_left same)]
  | implicitJournalMetadata journalId =>
    cases second <;> cases sameKind
    · rw [append_cancel_left same]
    · exact absurd same (metadata_ne_entry properSecond)
  | journalEntry journalId key =>
    cases second <;> cases sameKind
    · exact absurd same.symm (metadata_ne_entry properFirst)
    · obtain ⟨sameId, sameKey⟩ := entry_inj properFirst properSecond same
      rw [sameId, sameKey]
  | _ =>
    cases second <;> cases sameKind
    rw [append_cancel_left same]

theorem metadata_of_isPrefix (proper : row.Proper)
    (starts : implicitJournalMetadataRowPrefix <+: row.key format) :
    ∃ journalId, row = implicitJournalMetadata journalId := by
  have isJournal : row.kind = .journal := kind_of_isPrefix proper starts (by decide) rfl
  cases row <;> cases isJournal
  · exact ⟨_, rfl⟩
  · obtain ⟨rest, isKey⟩ := starts
    exact absurd isKey (metadata_ne_entry proper)

theorem entry_of_isPrefix (size : journalId.length = kJournalIdSize)
    (proper : row.Proper) (starts : journalPrefixFor journalId <+: row.key format) :
    ∃ key, row = journalEntry journalId key := by
  have isJournal : row.kind = .journal := kind_of_isPrefix proper starts
    (by simp [journalPrefixFor, journalEntryRowPrefix, ascii]) rfl
  obtain ⟨rest, isKey⟩ := starts
  cases row <;> cases isJournal
  · exact absurd isKey.symm (metadata_ne_entry size)
  · obtain ⟨rfl, -⟩ := entry_inj size proper isKey
    exact ⟨_, rfl⟩

theorem explicit_of_isPrefix (proper : row.Proper)
    (starts : journalEntryRowPrefix ++ [kExplicitPrefix] <+: row.key format) :
    ∃ journalId key, row = journalEntry journalId key ∧ journalId.head? = some kExplicitPrefix := by
  have isJournal : row.kind = .journal := kind_of_isPrefix proper starts (by decide) rfl
  obtain ⟨rest, isKey⟩ := starts
  cases row <;> cases isJournal
  · cases isKey
  case journalEntry journalId key =>
    refine ⟨journalId, key, rfl, ?_⟩
    simp only [Row.key, journalPrefixFor, append_assoc, append_cancel_left_eq] at isKey
    cases journalId with
    | nil => cases proper
    | cons letter journalId => rw [head?_cons, (cons.inj isKey).1]

end Row

def kAddPrefix : UInt8 :=
  65

def kDeletePrefix : UInt8 :=
  68

def kLazyPrefix : UInt8 :=
  76

def kEagerPrefix : UInt8 :=
  69

def kAddPrefixSize : Nat :=
  2

/-- `JournalEntryRow::GetValueFor`, and the value of a deletion. -/
def JournalValue.bytes : JournalValue → Bytes
  | add objectIdentifier priority =>
    [kAddPrefix] ++ [if priority = .eager then kEagerPrefix else kLazyPrefix] ++
      encodeObjectIdentifier format objectIdentifier
  | delete => [kDeletePrefix]

def Row.bytes : (row : Row) → row.Value → Bytes
  | head _, timestamp => serializeNumber timestamp.toUInt64
  | commit _, storageBytes => storageBytes
  | object _, content => content
  | unsyncedCommit _, generation => serializeNumber generation
  | objectStatus _ _, _ => []
  | implicitJournalMetadata _, base => base
  | syncMetadata _, value => value
  | journalEntry _ _, value => value.bytes format

def extractObjectIdentifier (dbValue : Bytes) : Except Status ObjectIdentifier :=
  if dbValue.head? = some kDeletePrefix then .error .notFound
  else
    match decodeObjectIdentifier format (dbValue.drop kAddPrefixSize) with
    | none => .error .formatError
    | some objectIdentifier => .ok objectIdentifier

def prepareEntry (keyValue : Bytes × Bytes) : EntryChange :=
  let key := keyValue.1.drop kPrefixSize
  if keyValue.2.head? = some kAddPrefix then
    let objectIdentifier := match extractObjectIdentifier format keyValue.2 with
      | .ok objectIdentifier => objectIdentifier
      | .error _ => default
    let priority := if keyValue.2[1]? = some kLazyPrefix then .lazy else .eager
    ⟨⟨key, objectIdentifier, priority⟩, false⟩
  else ⟨⟨key, default, .eager⟩, true⟩

def JournalValue.change (key : Key) : JournalValue → EntryChange
  | add objectIdentifier priority => ⟨⟨key, objectIdentifier, priority⟩, false⟩
  | delete => ⟨⟨key, default, .eager⟩, true⟩

def Row.ValidValue : (row : Row) → row.Value → Prop
  | journalEntry _ _, .add objectIdentifier _ =>
    isDigestValid objectIdentifier.objectDigest = true
  | _, _ => True

variable {journalId : JournalId} (size : journalId.length = kJournalIdSize)
include size

theorem drop_journalPrefix (key : Key) :
    (journalPrefixFor journalId ++ key).drop kPrefixSize = key := by
  have prefixSize : (journalPrefixFor journalId).length = kPrefixSize := by
    simp [journalPrefixFor, kPrefixSize, size, Nat.add_assoc]
  rw [← prefixSize, drop_left]

theorem prepareEntry_bytes (key : Key) {value : JournalValue}
    (valid : (Row.journalEntry journalId key).ValidValue value) :
    prepareEntry format (journalPrefixFor journalId ++ key, value.bytes format) =
      value.change key := by
  rw [prepareEntry, drop_journalPrefix size]
  cases value with
  | delete => rfl
  | add identifier priority =>
    have decoded := decode_encodeObjectIdentifier format valid
    cases priority <;> simp [JournalValue.bytes, JournalValue.change, extractObjectIdentifier,
      kAddPrefix, kDeletePrefix, kAddPrefixSize, kLazyPrefix, kEagerPrefix, decoded]

end Peridot
