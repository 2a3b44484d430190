import Peridot.PageDbMutations

/-!
# The database on bytes refines the database by kinds of rows

Runs of batches on the two models of the database keep their contents in step: every row
is stored under its key, and every key belongs to a row.  So the readers of the code, which
scan the store for keys with a common start, return the rows of one kind.
-/

namespace Peridot

open List PageDb OrderedStore KeyedList

theorem ByteStore.writeAll_append (store : ByteStore) (first second : List ByteWrite) :
    store.writeAll (first ++ second) = (store.writeAll first).writeAll second :=
  foldl_append ..

theorem ByteStore.get_deleteAll (store : ByteStore) (keys : List Bytes) (key : Bytes) :
    (store.writeAll (keys.map .delete)).get key = if key ∈ keys then none else store.get key := by
  induction keys generalizing store with
  | nil => simp [writeAll]
  | cons first keys ih =>
    change (writeAll (store.delete first) (keys.map .delete)).get key = _
    rw [ih, get_delete]
    by_cases isFirst : key = first
    · simp [isFirst]
    · simp [isFirst]

theorem lookup_deleteAll (db : PageDb) (rows : List Row) (row : Row) :
    (db.writeAll (rows.map .delete)).lookup row = if row ∈ rows then none else db.lookup row := by
  induction rows generalizing db with
  | nil => simp
  | cons first rows ih =>
    change (writeAll (db.write (.delete first)) (rows.map .delete)).lookup row = _
    rw [ih]
    by_cases isFirst : first = row
    · subst isFirst
      simp
    · rw [lookup_delete_of_ne isFirst]
      simp [Ne.symm isFirst]

variable {format : IdentifierFormat}

/-- The store holds the rows of the database under their keys, and nothing else. -/
structure Represents (format : IdentifierFormat) (store : ByteStore) (db : PageDb) : Prop where
  proper : ∀ row ∈ db, row.Proper
  valid : ∀ row value, db.lookup row = some value → row.ValidValue value
  get : ∀ row : Row, row.Proper →
    store.get (row.key format) = (db.lookup row).map (row.bytes format)
  rows : ∀ key value, store.get key = some value → ∃ row ∈ db, key = row.key format

namespace Represents

variable {store : ByteStore} {db : PageDb}

theorem empty : Represents format empty ∅ where
  proper row member := absurd member (AList.notMem_empty row)
  valid row value found := by
    rw [AList.lookup_empty] at found
    cases found
  get row _ := by
    rw [get_empty, AList.lookup_empty]
    rfl
  rows key value found := by exact nomatch get_empty.symm.trans found

theorem put (represents : Represents format store db) (written : Row) (stored : written.Value)
    (isProper : written.Proper) (isValid : written.ValidValue stored) :
    Represents format (store.put (written.key format) (written.bytes format stored))
      (db.write (.put written stored)) := by
  refine ⟨fun row member => ?_, fun row value found => ?_, fun row rowProper => ?_,
    fun key value found => ?_⟩
  · by_cases same : written = row
    · exact same ▸ isProper
    · rw [mem_iff_lookup, lookup_put_of_ne same, ← mem_iff_lookup] at member
      exact represents.proper row member
  · by_cases same : written = row
    · subst same
      rw [lookup_put] at found
      cases found
      exact isValid
    · rw [lookup_put_of_ne same] at found
      exact represents.valid row value found
  · rw [get_put]
    by_cases same : written = row
    · subst same
      rw [if_pos rfl, lookup_put, Option.map_some]
    · rw [if_neg fun sameKey => same (Row.key_injective rowProper isProper sameKey).symm,
        lookup_put_of_ne same]
      exact represents.get row rowProper
  · rw [get_put] at found
    by_cases sameKey : key = written.key format
    · exact ⟨written, mem_of_lookup (lookup_put db written stored), sameKey⟩
    · rw [if_neg sameKey] at found
      obtain ⟨row, member, isKey⟩ := represents.rows key value found
      have other : written ≠ row := by
        rintro rfl
        exact sameKey isKey
      refine ⟨row, ?_, isKey⟩
      rw [mem_iff_lookup, lookup_put_of_ne other, ← mem_iff_lookup]
      exact member

theorem deleteAll (represents : Represents format store db) {keys : List Bytes} {rows : List Row}
    (same : ∀ row : Row, row.Proper → (row.key format ∈ keys ↔ row ∈ rows)) :
    Represents format (store.writeAll (keys.map .delete)) (db.writeAll (rows.map .delete)) := by
  refine ⟨fun row member => ?_, fun row value found => ?_, fun row rowProper => ?_,
    fun key value found => ?_⟩
  · rw [mem_iff_lookup, lookup_deleteAll] at member
    refine represents.proper row (mem_iff_lookup.mpr fun absent => member ?_)
    rw [absent, ite_self]
  · rw [lookup_deleteAll] at found
    split at found
    · cases found
    · exact represents.valid row value found
  · rw [ByteStore.get_deleteAll, lookup_deleteAll]
    by_cases deleted : row ∈ rows
    · rw [if_pos ((same row rowProper).mpr deleted), if_pos deleted, Option.map_none]
    · rw [if_neg fun isKey => deleted ((same row rowProper).mp isKey), if_neg deleted]
      exact represents.get row rowProper
  · rw [ByteStore.get_deleteAll] at found
    split at found
    · cases found
    case isFalse kept =>
      obtain ⟨row, member, isKey⟩ := represents.rows key value found
      refine ⟨row, mem_iff_lookup.mpr ?_, isKey⟩
      rw [lookup_deleteAll, if_neg fun deleted => kept ?_]
      · exact mem_iff_lookup.mp member
      · rw [isKey]
        exact (same row (represents.proper row member)).mpr deleted

variable (represents : Represents format store db)
include represents

theorem delete (written : Row) (isProper : written.Proper) :
    Represents format (store.delete (written.key format)) (db.write (.delete written)) := by
  refine represents.deleteAll (fun row rowProper => ?_ :
    ∀ row : Row, row.Proper → (row.key format ∈ [written.key format] ↔ row ∈ [written]))
  rw [mem_singleton, mem_singleton]
  exact ⟨Row.key_injective rowProper isProper, congrArg _⟩

theorem hasKey {row : Row} (isProper : row.Proper) :
    store.hasKey (row.key format) = decide (row ∈ db) := by
  rw [ByteStore.hasKey, represents.get row isProper, Option.isSome_map]
  exact Bool.eq_iff_iff.mpr (by rw [decide_eq_true_iff, AList.lookup_isSome])

theorem objectStatus (identifier : ObjectIdentifier) :
    store.getObjectStatus format identifier = db.objectStatus identifier := by
  have known : ∀ {status : PageDbObjectStatus}, status ≠ .unknown →
      store.hasKey ((Row.objectStatus status identifier).key format) =
        decide (.objectStatus status identifier ∈ db) := fun isKnown =>
    represents.hasKey isKnown
  rw [ByteStore.getObjectStatus, PageDb.objectStatus, known (by simp), known (by simp),
    known (by simp)]
  simp

theorem key_mem_scan {row : Row} (isProper : row.Proper) (start : Bytes) :
    row.key format ∈ (store.scan start).map Prod.fst ↔ start <+: row.key format ∧ row ∈ db := by
  rw [mem_iff_lookup, mem_map]
  constructor
  · rintro ⟨⟨key, value⟩, found, rfl⟩
    obtain ⟨starts, isValue⟩ := mem_scan.mp found
    refine ⟨starts, fun absent => ?_⟩
    rw [represents.get row isProper, absent] at isValue
    cases isValue
  · rintro ⟨starts, present⟩
    obtain ⟨value, isValue⟩ := Option.ne_none_iff_exists'.mp present
    refine ⟨(row.key format, row.bytes format value), mem_scan.mpr ⟨starts, ?_⟩, rfl⟩
    rw [represents.get row isProper, isValue, Option.map_some]

end Represents

/-- What the code checks of the arguments, and what its callers keep to: journal ids have 16
bytes and start with their type, digests are valid, and the status of an object is only
raised when it has one. -/
def Mutation.Valid (db : PageDb) : Mutation → Prop
  | createJournalId journalType _ journalId => journalId.length = kJournalIdSize ∧
      journalId.head? = some (if journalType = .implicit then kImplicitPrefix else kExplicitPrefix)
  | removeJournal journalId => journalId.length = kJournalIdSize
  | addJournalEntry journalId _ objectIdentifier _ => journalId.length = kJournalIdSize ∧
      isDigestValid objectIdentifier.objectDigest = true
  | removeJournalEntry journalId _ => journalId.length = kJournalIdSize
  | writeObject objectIdentifier _ objectStatus =>
    PageDbObjectStatus.unknown.rank < objectStatus.rank ∧
      (.object (objectRowPrefix ++ objectIdentifier.objectDigest) ∈ db →
        objectStatus ≠ .transient → db.objectStatus objectIdentifier ≠ .unknown)
  | setObjectStatus objectIdentifier objectStatus =>
    PageDbObjectStatus.localObject.rank ≤ objectStatus.rank ∧
      db.objectStatus objectIdentifier ≠ .unknown
  | _ => True

theorem known_of_rank {first second : PageDbObjectStatus} (lower : first.rank < second.rank) :
    second ≠ .unknown := by
  rintro rfl
  exact Nat.not_lt_zero _ lower

namespace Represents

variable {store nowStore : ByteStore} {db nowDb : PageDb}

section

variable (now : Represents format nowStore nowDb)
include now

variable (represents : Represents format store db)
include represents

theorem setObjectStatus {identifier : ObjectIdentifier}
    {objectStatus : PageDbObjectStatus} (previous : db.objectStatus identifier ≠ .unknown) :
    Represents format (nowStore.writeAll (store.setObjectStatus format identifier objectStatus))
      (nowDb.writeAll (db.statusWrites identifier objectStatus)) := by
  rw [ByteStore.setObjectStatus, represents.objectStatus, PageDb.statusWrites]
  split
  · exact now
  case isFalse greater =>
    have known : objectStatus ≠ .unknown := known_of_rank (Nat.not_le.mp greater)
    exact (now.delete (.objectStatus _ _) previous).put (.objectStatus _ _) () known trivial

theorem removeExplicitJournals :
    Represents format (nowStore.writeAll (store.mutate format .removeExplicitJournals))
      (nowDb.writeAll (db.mutate .removeExplicitJournals)) := by
  have deletes : store.mutate format .removeExplicitJournals =
      ((store.scan (journalEntryRowPrefix ++ [kExplicitPrefix])).map Prod.fst).map .delete := by
    rw [map_map]
    rfl
  rw [deletes]
  refine now.deleteAll fun row isProper => ?_
  rw [represents.key_mem_scan isProper, mem_filter, and_comm]
  refine and_congr_right fun _ => ⟨fun starts => ?_, fun isExplicit => ?_⟩
  · obtain ⟨journalId, key, rfl, isExplicit⟩ := Row.explicit_of_isPrefix isProper starts
    exact decide_eq_true isExplicit
  · cases row with
    | journalEntry journalId key =>
      obtain ⟨rest, rfl⟩ := head?_eq_some_iff.mp (of_decide_eq_true isExplicit)
      refine ⟨rest ++ journalEntryPart ++ key, ?_⟩
      simp [Row.key, journalPrefixFor]
    | _ => cases isExplicit

theorem removeJournal {journalId : JournalId} (size : journalId.length = kJournalIdSize) :
    Represents format (nowStore.writeAll (store.mutate format (.removeJournal journalId)))
      (nowDb.writeAll (db.mutate (.removeJournal journalId))) := by
  have entries : ∀ row : Row, row.Proper →
      (row.key format ∈ (store.scan (journalPrefixFor journalId)).map Prod.fst ↔
        row ∈ db.keys.filter (Row.isEntryOf journalId)) := by
    intro row isProper
    rw [represents.key_mem_scan isProper, mem_filter, and_comm]
    refine and_congr_right fun _ => ⟨fun starts => ?_, fun isEntry => ?_⟩
    · obtain ⟨key, rfl⟩ := Row.entry_of_isPrefix size isProper starts
      exact decide_eq_true rfl
    · cases row with
      | journalEntry other key =>
        obtain rfl : other = journalId := of_decide_eq_true isEntry
        exact prefix_append _ _
      | _ => cases isEntry
  have deletes : store.mutate format (.removeJournal journalId) =
      ((if journalId.head? = some kImplicitPrefix then
          [(Row.implicitJournalMetadata journalId).key format] else []) ++
        (store.scan (journalPrefixFor journalId)).map Prod.fst).map .delete := by
    rw [map_append, map_map]
    simp only [ByteStore.mutate, apply_ite, map_cons, map_nil]
    rfl
  rw [deletes]
  refine @deleteAll _ _ _ now _ (_ :: _) fun row isProper => ?_
  rw [mem_append, entries row isProper, mem_cons]
  refine or_congr_left ?_
  by_cases isImplicit : journalId.head? = some kImplicitPrefix
  · rw [if_pos isImplicit, mem_singleton]
    exact ⟨Row.key_injective isProper ⟨size, isImplicit⟩, congrArg _⟩
  · rw [if_neg isImplicit]
    refine ⟨fun none => absurd none not_mem_nil, ?_⟩
    rintro rfl
    exact absurd isProper.2 isImplicit

theorem mutate {mutation : Mutation} (valid : mutation.Valid db) :
    Represents format (nowStore.writeAll (store.mutate format mutation))
      (nowDb.writeAll (db.mutate mutation)) := by
  cases mutation with
  | addHead head timestamp => exact now.put (.head head) timestamp trivial trivial
  | removeHead head => exact now.delete (.head head) trivial
  | addCommitStorageBytes commitId storageBytes =>
    exact now.put (.commit commitId) storageBytes trivial trivial
  | removeCommit commitId => exact now.delete (.commit commitId) trivial
  | createJournalId journalType base journalId =>
    cases journalType with
    | implicit => exact now.put (.implicitJournalMetadata journalId) base valid trivial
    | explicit => exact now
  | removeExplicitJournals => exact now.removeExplicitJournals represents
  | removeJournal journalId => exact now.removeJournal represents valid
  | addJournalEntry journalId key identifier priority =>
    exact now.put (.journalEntry journalId key) (.add identifier priority) valid.1 valid.2
  | removeJournalEntry journalId key =>
    exact now.put (.journalEntry journalId key) .delete valid trivial
  | writeObject identifier content objectStatus =>
    have known : objectStatus ≠ .unknown := known_of_rank valid.1
    have found : store.hasKey ((Row.object
        ((Row.object identifier.objectDigest).key format)).key format) =
          decide (Row.object (objectRowPrefix ++ identifier.objectDigest) ∈ db) :=
      represents.hasKey trivial
    simp only [ByteStore.mutate, PageDb.mutate, PageDb.objectWrites, found, decide_eq_true_eq]
    split
    case isTrue isFound =>
      split
      · exact now
      case isFalse notTransient =>
        exact now.setObjectStatus represents (valid.2 isFound notTransient)
    case isFalse =>
      exact (now.put (.object identifier.objectDigest) content trivial trivial).put
        (.objectStatus objectStatus identifier) () known trivial
  | setObjectStatus identifier objectStatus => exact now.setObjectStatus represents valid.2
  | markCommitIdSynced commitId => exact now.delete (.unsyncedCommit commitId) trivial
  | markCommitIdUnsynced commitId generation =>
    exact now.put (.unsyncedCommit commitId) generation trivial trivial
  | setSyncMetadata key value => exact now.put (.syncMetadata key) value trivial trivial

end

theorem execute (represents : Represents format store db) {batch : List Mutation}
    (valid : ∀ mutation ∈ batch, mutation.Valid db) :
    Represents format (store.execute format batch) (db.execute batch) := by
  -- The operations of a batch read what is stored before it is executed.
  have step : ∀ {nowStore : ByteStore} {nowDb : PageDb}, Represents format nowStore nowDb →
      Represents format (nowStore.writeAll (batch.flatMap (store.mutate format)))
        (nowDb.writeAll (batch.flatMap db.mutate)) := by
    induction batch with
    | nil => exact id
    | cons mutation batch ih =>
      intro nowStore nowDb now
      obtain ⟨isValid, restValid⟩ := forall_mem_cons.mp valid
      rw [flatMap_cons, flatMap_cons, ByteStore.writeAll_append, PageDb.writeAll_append]
      exact ih restValid (now.mutate represents isValid)
  exact step represents

end Represents

namespace ByteStore

def commitOrder (entry : Bytes × Bytes) : Int ×ₗ Bytes :=
  toLex ((deserializeNumber entry.2).toInt64.toInt, entry.1)

theorem commitLess_iff (first second : Bytes × Bytes) :
    commitLess first second = true ↔ commitOrder first < commitOrder second := by
  rw [commitOrder, commitOrder, Prod.Lex.toLex_lt_toLex, commitLess]
  by_cases same : (deserializeNumber first.2).toInt64 = (deserializeNumber second.2).toInt64
  · simp [same]
  · have otherInt : (deserializeNumber first.2).toInt64.toInt ≠
        (deserializeNumber second.2).toInt64.toInt := fun sameInt => same (Int64.toInt_inj.mp sameInt)
    simp [same, otherInt, Int64.lt_iff_toInt_lt]

variable {entries : List (Bytes × Bytes)}

theorem mem_extractSortedCommitsIds {id : CommitId} :
    id ∈ extractSortedCommitsIds entries ↔ ∃ number, (id, number) ∈ entries := by
  simp [extractSortedCommitsIds]

theorem pairwise_mergeSort (entries : List (Bytes × Bytes)) :
    (entries.mergeSort fun first second => !commitLess second first).Pairwise
      fun first second => commitOrder first ≤ commitOrder second := by
  have le_iff : ∀ first second, (!commitLess second first) = true ↔
      commitOrder first ≤ commitOrder second := by
    intro first second
    rw [← not_lt, ← commitLess_iff]
    cases commitLess second first <;> simp
  refine (List.pairwise_mergeSort ?_ ?_ entries).imp fun {first second} => (le_iff first second).mp
  · intro first second third
    rw [le_iff, le_iff, le_iff]
    exact le_trans
  · intro first second
    rw [Bool.or_eq_true, le_iff, le_iff]
    exact le_total _ _

theorem sorted_extractSortedCommitsIds (sorted : KeyedList.Sorted Prod.fst entries) :
    (extractSortedCommitsIds entries).Pairwise fun first second => ∀ firstNumber secondNumber,
      (first, firstNumber) ∈ entries → (second, secondNumber) ∈ entries →
        commitOrder (first, firstNumber) < commitOrder (second, secondNumber) := by
  have distinct : (entries.mergeSort fun first second => !commitLess second first).Pairwise
      fun first second => first.1 ≠ second.1 := by
    refine (List.Perm.pairwise_iff Ne.symm (mergeSort_perm entries _)).mpr ?_
    exact sorted.imp fun less => less.ne
  refine pairwise_map.mpr (List.Pairwise.imp_of_mem ?_ ((pairwise_mergeSort entries).and distinct))
  rintro ⟨first, firstValue⟩ ⟨second, secondValue⟩ inFirst inSecond ⟨ordered, other⟩
    firstNumber secondNumber isFirst isSecond
  rw [mem_mergeSort] at inFirst inSecond
  have firstSame := find_of_mem sorted inFirst
  rw [find_of_mem sorted isFirst] at firstSame
  have secondSame := find_of_mem sorted inSecond
  rw [find_of_mem sorted isSecond] at secondSame
  rw [Option.some.inj firstSame, Option.some.inj secondSame]
  refine ordered.lt_of_ne fun same => other ?_
  exact congrArg (fun order => (ofLex order).2) same

end ByteStore

end Peridot
