import Peridot.PageDbRefinement

/-!
# What the readers of the database return

After any run of batches the readers of the code return the rows of their kind, in order:
the heads, the unsynced commits, the implicit journals and the entries of a journal, which
are the last operations on their keys.
-/

namespace Peridot

open List OrderedStore PageDb Row

variable {format : IdentifierFormat} {batches : List (List Mutation)} {journalId : JournalId}
    {batch : List Mutation}

def SortedBy (number : CommitId → Option Int64) (ids : List CommitId) : Prop :=
  ids.Pairwise fun first second => ∀ firstNumber secondNumber,
    number first = some firstNumber → number second = some secondNumber →
      firstNumber < secondNumber ∨ firstNumber = secondNumber ∧ first < second

namespace Represents

variable {store : ByteStore} {db : PageDb}

theorem get_append (represents : Represents format store db) {start : Bytes}
    {rowOf : CommitId → Row} (isKey : ∀ id, (rowOf id).key format = start ++ id)
    (proper : ∀ id, (rowOf id).Proper) (id : CommitId) :
    store.get (start ++ id) = (db.lookup (rowOf id)).map ((rowOf id).bytes format) := by
  rw [← isKey, represents.get _ (proper id)]

theorem extractSortedCommitsIds (represents : Represents format store db) {start : Bytes}
    {rowOf : CommitId → Row} (isKey : ∀ id, (rowOf id).key format = start ++ id)
    (proper : ∀ id, (rowOf id).Proper) :
    let ids := ByteStore.extractSortedCommitsIds (store.getEntriesByPrefix start)
    (∀ id, id ∈ ids ↔ rowOf id ∈ db) ∧ SortedBy (fun id => (db.lookup (rowOf id)).map
      fun value => (deserializeNumber ((rowOf id).bytes format value)).toInt64) ids := by
  intro ids
  have entries : ∀ id number, (id, number) ∈ store.getEntriesByPrefix start ↔
      (db.lookup (rowOf id)).map ((rowOf id).bytes format) = some number := by
    intro id number
    rw [← represents.get_append isKey proper]
    exact mem_suffixes
  constructor
  · intro id
    rw [ByteStore.mem_extractSortedCommitsIds, mem_iff_lookup]
    simp only [entries]
    cases db.lookup (rowOf id) <;> simp
  · refine (ByteStore.sorted_extractSortedCommitsIds (store.sorted_suffixes start)).imp ?_
    intro first second ordered firstNumber secondNumber isFirst isSecond
    obtain ⟨firstValue, firstFound, rfl⟩ := Option.map_eq_some_iff.mp isFirst
    obtain ⟨secondValue, secondFound, rfl⟩ := Option.map_eq_some_iff.mp isSecond
    have less := ordered _ _ ((entries first _).mpr (by rw [firstFound, Option.map_some]))
      ((entries second _).mpr (by rw [secondFound, Option.map_some]))
    rw [ByteStore.commitOrder, ByteStore.commitOrder, Prod.Lex.toLex_lt_toLex] at less
    exact less.imp Int64.lt_iff_toInt_lt.mpr (And.imp_left Int64.toInt_inj.mp)

variable (represents : Represents format store db)
include represents

theorem getHeads : (∀ id, id ∈ store.getHeads ↔ .head id ∈ db) ∧
    SortedBy (fun id => db.lookup (.head id)) store.getHeads := by
  have sorted := @extractSortedCommitsIds _ _ _ represents headRowPrefix .head (fun _ => rfl)
    fun _ => trivial
  simpa [bytes, ByteStore.getHeads] using sorted

theorem getUnsyncedCommitIds : (∀ id, id ∈ store.getUnsyncedCommitIds ↔ .unsyncedCommit id ∈ db) ∧
    SortedBy (fun id => (db.lookup (.unsyncedCommit id)).map UInt64.toInt64)
      store.getUnsyncedCommitIds := by
  have sorted := @extractSortedCommitsIds _ _ _ represents unsyncedCommitRowPrefix .unsyncedCommit
    (fun _ => rfl) fun _ => trivial
  simpa [bytes, ByteStore.getUnsyncedCommitIds, Function.comp_def] using sorted

theorem getImplicitJournalIds :
    (∀ id, id ∈ store.getImplicitJournalIds ↔ .implicitJournalMetadata id ∈ db) ∧
      store.getImplicitJournalIds.Pairwise (· < ·) := by
  have isMap : store.getImplicitJournalIds =
      (store.getEntriesByPrefix implicitJournalMetadataRowPrefix).map Prod.fst := by
    rw [ByteStore.getImplicitJournalIds, ByteStore.getByPrefix, ByteStore.getEntriesByPrefix,
      map_map]
    rfl
  rw [isMap]
  constructor
  · intro id
    rw [mem_map]
    constructor
    · rintro ⟨⟨journalId, base⟩, member, rfl⟩
      obtain ⟨row, inDb, isKey⟩ := represents.rows _ _ (mem_suffixes.mp member)
      obtain ⟨other, rfl⟩ := metadata_of_isPrefix (represents.proper row inDb)
        (isKey ▸ prefix_append ..)
      rwa [append_cancel_left isKey]
    · intro inDb
      obtain ⟨base, found⟩ := Option.ne_none_iff_exists'.mp (mem_iff_lookup.mp inDb)
      refine ⟨(id, base), mem_suffixes.mpr ?_, rfl⟩
      have isBase := represents.get _ (represents.proper _ inDb)
      rwa [found] at isBase
  · exact pairwise_map.mpr (store.sorted_suffixes _)

theorem getJournalEntries (size : journalId.length = kJournalIdSize) :
    (∀ change, change ∈ store.getJournalEntries format journalId ↔ ∃ key value,
        db.lookup (.journalEntry journalId key) = some value ∧ change = value.change key) ∧
      KeyedList.Sorted (fun change => change.entry.key)
        (store.getJournalEntries format journalId) := by
  have isEntry : ∀ key value, (key, value) ∈ store.scan (journalPrefixFor journalId) ↔
      ∃ entryKey entryValue, db.lookup (.journalEntry journalId entryKey) = some entryValue ∧
        key = journalPrefixFor journalId ++ entryKey ∧ value = entryValue.bytes format := by
    intro key value
    rw [mem_scan]
    constructor
    · rintro ⟨⟨entryKey, rfl⟩, found⟩
      have isValue := represents.get (.journalEntry journalId entryKey) size
      rw [key, found, eq_comm, Option.map_eq_some_iff] at isValue
      obtain ⟨entryValue, isFound, rfl⟩ := isValue
      exact ⟨entryKey, entryValue, isFound, rfl, rfl⟩
    · rintro ⟨entryKey, entryValue, isFound, rfl, rfl⟩
      have isValue := represents.get (.journalEntry journalId entryKey) size
      rw [isFound, Option.map_some] at isValue
      exact ⟨prefix_append .., isValue⟩
  have isChange : ∀ key value, db.lookup (.journalEntry journalId key) = some value →
      prepareEntry format (journalPrefixFor journalId ++ key, value.bytes format) =
        value.change key := fun key value found =>
    prepareEntry_bytes format size key (represents.valid _ _ found)
  constructor
  · intro change
    rw [ByteStore.getJournalEntries, mem_map]
    constructor
    · rintro ⟨⟨_, _⟩, found, rfl⟩
      obtain ⟨key, value, isFound, rfl, rfl⟩ := (isEntry _ _).mp found
      exact ⟨key, value, isFound, isChange key value isFound⟩
    · rintro ⟨key, value, isFound, rfl⟩
      exact ⟨(_, _), (isEntry _ _).mpr ⟨key, value, isFound, rfl, rfl⟩, isChange key value isFound⟩
  · refine pairwise_map.mpr (List.Pairwise.imp_of_mem ?_ (store.sorted_scan _))
    rintro ⟨_, _⟩ ⟨_, _⟩ firstFound secondFound less
    obtain ⟨first, firstValue, isFirst, rfl, rfl⟩ := (isEntry _ _).mp firstFound
    obtain ⟨second, secondValue, isSecond, rfl, rfl⟩ := (isEntry _ _).mp secondFound
    have keyOf : ∀ key (value : JournalValue), (value.change key).entry.key = key := by
      intro key value
      cases value <;> rfl
    simp only [isChange _ _ isFirst, isChange _ _ isSecond, keyOf]
    exact lt_of_append_lt less

end Represents

def ByteStore.run (format : IdentifierFormat) (batches : List (List Mutation)) : ByteStore :=
  batches.foldl (ByteStore.execute format) OrderedStore.empty

def PageDb.run (batches : List (List Mutation)) : PageDb :=
  batches.foldl PageDb.execute ∅

/-- The operations that remove journals, which look for the rows to delete in the store. -/
def Mutation.removesJournals : Mutation → Bool
  | removeExplicitJournals => true
  | removeJournal _ => true
  | _ => false

/-- A batch whose operations are valid.  Journals are removed in a batch of their own. -/
structure ValidBatch (db : PageDb) (batch : List Mutation) : Prop where
  valid : ∀ mutation ∈ batch, mutation.Valid db
  alone : ∀ mutation ∈ batch, mutation.removesJournals = true → batch = [mutation]

/-- Each batch is one that the page may write in the state that the earlier ones have made. -/
def ValidRun (batches : List (List Mutation)) : Prop :=
  ∀ earlier batch later, batches = earlier ++ batch :: later →
    ValidBatch (PageDb.run earlier) batch

theorem ValidBatch.singleton {db : PageDb} (mutation : Mutation) (valid : mutation.Valid db) :
    ValidBatch db [mutation] where
  valid := forall_mem_singleton.mpr valid
  alone other member _ := by rw [mem_singleton.mp member]

theorem ValidRun.nil : ValidRun [] := by
  intro earlier batch later split
  simp at split

theorem ValidRun.snoc (valid : ValidRun batches) (isValid : ValidBatch (PageDb.run batches) batch) :
    ValidRun (batches ++ [batch]) := by
  intro earlier found later split
  rcases eq_nil_or_concat later with rfl | ⟨later, final, rfl⟩
  · obtain ⟨rfl, isBatch⟩ := append_inj' split rfl
    exact singleton_injective isBatch ▸ isValid
  · have inside : batches ++ [batch] = (earlier ++ found :: later) ++ [final] := by simp [split]
    exact valid earlier found later (append_inj' inside rfl).1

theorem ValidRun.plain (plain : ∀ batch ∈ batches, ∀ mutation ∈ batch,
      mutation.removesJournals = false ∧ ∀ db, mutation.Valid db) : ValidRun batches := by
  rintro earlier batch later rfl
  have inBatch := plain batch (by simp)
  refine ⟨fun mutation member => (inBatch mutation member).2 _, fun mutation member removes => ?_⟩
  rw [(inBatch mutation member).1] at removes
  cases removes

theorem ValidRun.append_left {first second : List (List Mutation)}
    (valid : ValidRun (first ++ second)) : ValidRun first := by
  intro earlier batch later split
  exact valid earlier batch (later ++ second) (by simp [split])

theorem PageDb.run_append (batches : List (List Mutation)) (batch : List Mutation) :
    run (batches ++ [batch]) = (run batches).execute batch := by
  simp [run]

theorem ByteStore.run_append (batches : List (List Mutation)) (batch : List Mutation) :
    run format (batches ++ [batch]) = (run format batches).execute format batch := by
  simp [run]

theorem represents_run {batches : List (List Mutation)} (valid : ValidRun batches) :
    Represents format (ByteStore.run format batches) (PageDb.run batches) := by
  induction batches using reverseRecOn with
  | nil => exact .empty
  | append_singleton batches batch ih =>
    rw [ByteStore.run_append, PageDb.run_append]
    exact (ih valid.append_left).execute (valid batches batch [] rfl).valid

def Mutation.lastOperation (journalId : JournalId) (key : Key) (previous : Option JournalValue) :
    Mutation → Option JournalValue
  | addJournalEntry other otherKey objectIdentifier priority =>
    if other = journalId ∧ otherKey = key then some (.add objectIdentifier priority) else previous
  | removeJournalEntry other otherKey =>
    if other = journalId ∧ otherKey = key then some .delete else previous
  | removeJournal other => if other = journalId then none else previous
  | removeExplicitJournals =>
    if journalId.head? = some kExplicitPrefix then none else previous
  | _ => previous

def lastOperation (journalId : JournalId) (key : Key) (mutations : List Mutation) :
    Option JournalValue :=
  mutations.foldl (Mutation.lastOperation journalId key) none

def Row.journal : Row → Option JournalId
  | implicitJournalMetadata journalId => some journalId
  | journalEntry journalId _ => some journalId
  | _ => none

theorem Row.journal_eq_some {row : Row} : row.journal = some journalId ↔
    row = implicitJournalMetadata journalId ∨ row.isEntryOf journalId = true := by
  cases row <;> simp [journal, isEntryOf]

def Row.isExplicit (row : Row) : Bool :=
  row.journal.any fun journalId => journalId.head? = some kExplicitPrefix

namespace PageDb

variable {db nowDb : PageDb} {journalId : JournalId} {key : Key}

theorem execute_singleton (db : PageDb) (mutation : Mutation) :
    db.execute [mutation] = db.writeAll (db.mutate mutation) := by
  rw [execute, flatMap_singleton]

theorem lookup_deleteKind (db : PageDb) (isKind : Row → Bool) (row : Row) :
    (db.writeAll ((db.keys.filter isKind).map .delete)).lookup row =
      if isKind row = true then none else db.lookup row := by
  rw [lookup_deleteAll]
  by_cases ofKind : isKind row = true
  · rw [if_pos ofKind]
    by_cases inDb : row ∈ db
    · rw [if_pos (mem_filter.mpr ⟨inDb, ofKind⟩)]
    · rw [AList.lookup_eq_none.mpr inDb, ite_self]
  · rw [if_neg ofKind, if_neg fun member => ofKind (mem_filter.mp member).2]

theorem lookup_removeJournal (db : PageDb) (journalId : JournalId) (row : Row) :
    (db.execute [.removeJournal journalId]).lookup row =
      if row.journal = some journalId then none else db.lookup row := by
  have deletes : db.execute [.removeJournal journalId] = db.writeAll
      ((.implicitJournalMetadata journalId :: db.keys.filter (isEntryOf journalId)).map
        .delete) := execute_singleton db _
  rw [deletes, lookup_deleteAll]
  by_cases ofJournal : row.journal = some journalId
  · rw [if_pos ofJournal, ite_eq_left_iff]
    refine fun kept => AList.lookup_eq_none.mpr fun inDb => kept ?_
    rcases journal_eq_some.mp ofJournal with rfl | isEntry
    · exact mem_cons_self
    · exact mem_cons_of_mem _ (mem_filter.mpr ⟨inDb, isEntry⟩)
  · rw [if_neg ofJournal, if_neg fun deleted => ofJournal (journal_eq_some.mpr ?_)]
    exact (mem_cons.mp deleted).imp_right fun isEntry => (mem_filter.mp isEntry).2

theorem lookup_removeExplicitJournals (proper : ∀ row ∈ db, row.Proper) (row : Row) :
    (db.execute [.removeExplicitJournals]).lookup row =
      if row.isExplicit = true then none else db.lookup row := by
  have deletes : db.execute [.removeExplicitJournals] =
      db.writeAll ((db.keys.filter isExplicitEntry).map .delete) := execute_singleton db _
  rw [deletes, lookup_deleteKind]
  cases row with
  | implicitJournalMetadata other =>
    by_cases explicit : other.head? = some kExplicitPrefix
    · have absent : .implicitJournalMetadata other ∉ db := by
        intro inDb
        exact nomatch explicit.symm.trans ((proper _ inDb).2)
      simp [AList.lookup_eq_none.mpr absent]
    · simp [isExplicitEntry, isExplicit, journal, explicit]
  | _ => rfl

theorem lookup_put_entry (db : PageDb) (other journalId : JournalId) (otherKey key : Key)
    (value : JournalValue) :
    (db.write (.put (.journalEntry other otherKey) value)).lookup (.journalEntry journalId key) =
      if other = journalId ∧ otherKey = key then some value
      else db.lookup (.journalEntry journalId key) := by
  by_cases same : other = journalId ∧ otherKey = key
  · obtain ⟨rfl, rfl⟩ := same
    rw [if_pos ⟨rfl, rfl⟩]
    exact lookup_put db (.journalEntry other otherKey) value
  · rw [if_neg same, lookup_put_of_ne fun isSame => same (journalEntry.inj isSame)]

theorem lookup_entry_objectCall (nowDb : PageDb) (call : ObjectCall) :
    (nowDb.writeAll (call.writes db)).lookup (.journalEntry journalId key) =
      nowDb.lookup (.journalEntry journalId key) := by
  refine lookup_writeAll_of_ne fun write member isEntry => ?_
  rcases ObjectCall.row_of_mem_writes member with rfl | ⟨_, rfl⟩ | ⟨_, _, rfl⟩ <;> cases isEntry

/-- An operation does to a journal entry what it does to the last operation on its key. -/
theorem lookup_entry_mutate (proper : ∀ row ∈ db, row.Proper) (mutation : Mutation)
    (alone : mutation.removesJournals = true → nowDb = db) :
    (nowDb.writeAll (db.mutate mutation)).lookup (.journalEntry journalId key) =
      mutation.lastOperation journalId key (nowDb.lookup (.journalEntry journalId key)) := by
  cases mutation with
  | removeExplicitJournals =>
    obtain rfl := alone rfl
    have removed := lookup_removeExplicitJournals proper (.journalEntry journalId key)
    rw [execute_singleton] at removed
    rw [removed]
    simp [isExplicit, journal, Mutation.lastOperation]
  | removeJournal other =>
    obtain rfl := alone rfl
    have removed := lookup_removeJournal nowDb other (.journalEntry journalId key)
    rw [execute_singleton] at removed
    rw [removed]
    simp [journal, Mutation.lastOperation, eq_comm]
  | addJournalEntry other otherKey identifier priority =>
    exact lookup_put_entry nowDb other journalId otherKey key _
  | removeJournalEntry other otherKey => exact lookup_put_entry nowDb other journalId otherKey key _
  | createJournalId journalType base other =>
    refine lookup_writeAll_of_ne fun write member isEntry => ?_
    cases journalType with
    | implicit =>
      cases mem_singleton.mp member
      cases isEntry
    | explicit => cases member
  | writeObject identifier content objectStatus =>
    exact lookup_entry_objectCall nowDb (.writeObject identifier content objectStatus)
  | setObjectStatus identifier objectStatus =>
    exact lookup_entry_objectCall nowDb (.setObjectStatus identifier objectStatus)
  | _ =>
    refine lookup_writeAll_of_ne fun write member isEntry => ?_
    cases mem_singleton.mp member
    cases isEntry

theorem lookup_entry_execute (proper : ∀ row ∈ db, row.Proper)
    (valid : ValidBatch db batch) : (db.execute batch).lookup (.journalEntry journalId key) =
      batch.foldl (Mutation.lastOperation journalId key)
        (db.lookup (.journalEntry journalId key)) := by
  by_cases removes : ∃ mutation ∈ batch, mutation.removesJournals = true
  · obtain ⟨mutation, member, isRemoval⟩ := removes
    rw [valid.alone mutation member isRemoval, execute_singleton]
    exact lookup_entry_mutate proper mutation fun _ => rfl
  · have steps : ∀ (batch : List Mutation) (nowDb : PageDb),
        (∀ mutation ∈ batch, mutation.removesJournals ≠ true) →
          (nowDb.writeAll (batch.flatMap db.mutate)).lookup (.journalEntry journalId key) =
            batch.foldl (Mutation.lastOperation journalId key)
              (nowDb.lookup (.journalEntry journalId key)) := by
      intro batch
      induction batch with
      | nil => exact fun nowDb _ => rfl
      | cons mutation batch ih =>
        intro nowDb keeps
        obtain ⟨isKept, restKept⟩ := forall_mem_cons.mp keeps
        rw [flatMap_cons, writeAll_append, ih _ restKept, foldl_cons,
          lookup_entry_mutate proper mutation fun removal => absurd removal isKept]
    exact steps batch db fun mutation member isRemoval => removes ⟨mutation, member, isRemoval⟩

end PageDb

theorem lookup_entry_run (format : IdentifierFormat) (valid : ValidRun batches)
    (journalId : JournalId) (key : Key) :
    (PageDb.run batches).lookup (.journalEntry journalId key) =
      lastOperation journalId key batches.flatten := by
  induction batches using reverseRecOn with
  | nil => rfl
  | append_singleton batches batch ih =>
    have represents := @represents_run format _ valid.append_left
    rw [PageDb.run_append, flatten_append, flatten_singleton, lastOperation,
      foldl_append, lookup_entry_execute represents.proper
        (valid batches batch [] rfl), ih valid.append_left]
    rfl

/-- After a run of batches the store holds the rows of the database, the readers return the
rows of their kind and the removal of journals removes their rows. -/
structure RowsKept (format : IdentifierFormat) (batches : List (List Mutation)) : Prop where
  represents : Represents format (ByteStore.run format batches) (PageDb.run batches)
  heads : (∀ id, id ∈ (ByteStore.run format batches).getHeads ↔ .head id ∈ PageDb.run batches) ∧
    SortedBy (fun id => (PageDb.run batches).lookup (.head id))
      (ByteStore.run format batches).getHeads
  unsyncedCommits : (∀ id, id ∈ (ByteStore.run format batches).getUnsyncedCommitIds ↔
      .unsyncedCommit id ∈ PageDb.run batches) ∧
    SortedBy (fun id => ((PageDb.run batches).lookup (.unsyncedCommit id)).map UInt64.toInt64)
      (ByteStore.run format batches).getUnsyncedCommitIds
  implicitJournals : (∀ id, id ∈ (ByteStore.run format batches).getImplicitJournalIds ↔
      .implicitJournalMetadata id ∈ PageDb.run batches) ∧
    (ByteStore.run format batches).getImplicitJournalIds.Pairwise (· < ·)
  entries : ∀ journalId : JournalId, journalId.length = kJournalIdSize →
    (∀ change, change ∈ (ByteStore.run format batches).getJournalEntries format journalId ↔
      ∃ key value, lastOperation journalId key batches.flatten = some value ∧
        change = value.change key) ∧
    KeyedList.Sorted (fun change => change.entry.key)
      ((ByteStore.run format batches).getJournalEntries format journalId)
  removeJournal : ∀ journalId : JournalId, journalId.length = kJournalIdSize →
    ∀ row : Row, row.Proper →
      (ByteStore.run format (batches ++ [[.removeJournal journalId]])).get (row.key format) =
        if row.journal = some journalId then none
        else (ByteStore.run format batches).get (row.key format)
  removeExplicitJournals : ∀ row : Row, row.Proper →
    (ByteStore.run format (batches ++ [[.removeExplicitJournals]])).get (row.key format) =
      if row.isExplicit = true then none
      else (ByteStore.run format batches).get (row.key format)

/-- The database on one ordered store of bytes keeps the rows of all kinds apart. -/
theorem rowsKept_run (format : IdentifierFormat) {batches : List (List Mutation)}
    (valid : ValidRun batches) : RowsKept format batches := by
  have represents := @represents_run format _ valid
  refine ⟨represents, represents.getHeads, represents.getUnsyncedCommitIds,
    represents.getImplicitJournalIds, fun journalId size => ?_, fun journalId size row proper => ?_,
    fun row proper => ?_⟩
  · have entries := represents.getJournalEntries size
    simp only [lookup_entry_run format valid] at entries
    exact entries
  · have removed := represents.execute (ValidBatch.singleton (.removeJournal journalId) size).valid
    rw [ByteStore.run_append, removed.get row proper, PageDb.lookup_removeJournal,
      represents.get row proper]
    split <;> rfl
  · have removed := represents.execute (ValidBatch.singleton .removeExplicitJournals trivial).valid
    rw [ByteStore.run_append, removed.get row proper,
      lookup_removeExplicitJournals represents.proper, represents.get row proper]
    split <;> rfl

def sampleBuild (objectIdentifier : ObjectIdentifier) : Bytes :=
  serializeNumber objectIdentifier.keyIndex.toUInt64 ++
    (serializeNumber objectIdentifier.deletionScopeId.toUInt64 ++ objectIdentifier.objectDigest)

def sampleRead (data : Bytes) : Option ObjectIdentifier :=
  if 16 ≤ data.length then
    some ⟨(deserializeNumber (data.take 8)).toUInt32,
      (deserializeNumber ((data.drop 8).take 8)).toUInt32, (data.drop 8).drop 8⟩
  else none

theorem sampleRead_build (identifier : ObjectIdentifier) :
    sampleRead (sampleBuild identifier) = some identifier := by
  have size : ∀ value, (serializeNumber value).length = 8 := fun value => by simp [serializeNumber]
  simp [sampleRead, sampleBuild, size]
  omega

def sampleIdentifierFormat : IdentifierFormat :=
  ⟨sampleBuild, sampleRead, sampleRead_build⟩

def sampleJournalId : JournalId :=
  kImplicitPrefix :: List.replicate 15 0

/-- Two journals of a new page, of which the one that puts and deletes is removed. -/
theorem rowsKept_run_journal :
    let other := kExplicitPrefix :: List.replicate 15 0
    let batches : List (List Mutation) := [[.addHead kFirstPageCommitId 0],
      [.createJournalId .implicit kFirstPageCommitId sampleJournalId],
      [.addJournalEntry sampleJournalId [1] ⟨0, 0, [42]⟩ .eager],
      [.addJournalEntry other [1] ⟨0, 0, [43]⟩ .lazy], [.removeJournalEntry sampleJournalId [0]],
      [.removeJournal sampleJournalId]]
    ValidRun batches ∧ RowsKept sampleIdentifierFormat batches := by
  intro other batches
  have created := (ValidRun.nil.snoc (.singleton (.addHead kFirstPageCommitId 0) trivial)).snoc
    (.singleton (.createJournalId .implicit kFirstPageCommitId sampleJournalId) ⟨rfl, rfl⟩)
  have valid : ValidRun batches := (((created.snoc
      (.singleton (.addJournalEntry sampleJournalId [1] ⟨0, 0, [42]⟩ .eager) ⟨rfl, rfl⟩)).snoc
      (.singleton (.addJournalEntry other [1] ⟨0, 0, [43]⟩ .lazy) ⟨rfl, rfl⟩)).snoc
      (.singleton (.removeJournalEntry sampleJournalId [0]) rfl)).snoc
      (.singleton (.removeJournal sampleJournalId) rfl)
  exact ⟨valid, rowsKept_run sampleIdentifierFormat valid⟩

end Peridot
