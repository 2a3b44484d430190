import Mathlib.Data.List.AList
import Mathlib.Data.List.Induction
import Peridot.Coroutine
import Peridot.TreeNode

/-!
# The database of a page

The rows of `PageDb`, kept by kind, the batches that write them and the operations
of `page_db_impl.cc` and `page_db_batch_impl.cc` on objects and their statuses.
Every access to the database is an operation of a coroutine, at which other coroutines
may run and which may fail.
-/

namespace Peridot

open List

abbrev CommitId := Bytes

abbrev JournalId := Bytes

inductive PageDbObjectStatus where
  | unknown
  | transient
  | localObject
  | synced
deriving DecidableEq, Inhabited

/-- The order of `PageDbObjectStatus` in the source. -/
def PageDbObjectStatus.rank : PageDbObjectStatus → Nat
  | unknown => 0
  | transient => 1
  | localObject => 2
  | synced => 3

/-- The value of a journal entry: an upsert or a deletion of its key. -/
inductive JournalValue where
  | add (objectIdentifier : ObjectIdentifier) (priority : KeyPriority)
  | delete
deriving DecidableEq

inductive Row where
  | head (commitId : CommitId)
  | commit (commitId : CommitId)
  | object (objectDigest : ObjectDigest)
  | unsyncedCommit (commitId : CommitId)
  | objectStatus (status : PageDbObjectStatus) (objectIdentifier : ObjectIdentifier)
  | implicitJournalMetadata (journalId : JournalId)
  | syncMetadata (key : Bytes)
  | journalEntry (journalId : JournalId) (key : Key)
deriving DecidableEq

@[reducible]
def Row.Value : Row → Type
  | head _ => Int64
  | commit _ => Bytes
  | object _ => Bytes
  | unsyncedCommit _ => UInt64
  | objectStatus _ _ => Unit
  | implicitJournalMetadata _ => CommitId
  | syncMetadata _ => Bytes
  | journalEntry _ _ => JournalValue

instance : (row : Row) → DecidableEq row.Value
  | .head _ => inferInstanceAs (DecidableEq Int64)
  | .commit _ => inferInstanceAs (DecidableEq Bytes)
  | .object _ => inferInstanceAs (DecidableEq Bytes)
  | .unsyncedCommit _ => inferInstanceAs (DecidableEq UInt64)
  | .objectStatus _ _ => inferInstanceAs (DecidableEq Unit)
  | .implicitJournalMetadata _ => inferInstanceAs (DecidableEq Bytes)
  | .syncMetadata _ => inferInstanceAs (DecidableEq Bytes)
  | .journalEntry _ _ => inferInstanceAs (DecidableEq JournalValue)

def Row.isCommit : Row → Bool
  | commit _ => true
  | _ => false

abbrev PageDb := AList Row.Value

inductive Write where
  | put (row : Row) (value : row.Value)
  | delete (row : Row)

namespace Write

def row : Write → Row
  | put row _ => row
  | delete row => row

def isPut : Write → Bool
  | put _ _ => true
  | delete _ => false

end Write

namespace PageDb

variable {db : PageDb} {row : Row} {writes : List Write} {value : row.Value}

/-- `Get` of a row. -/
def read (db : PageDb) (row : Row) : Except Status row.Value :=
  match db.lookup row with
  | some value => .ok value
  | none => .error .notFound

def write (db : PageDb) : Write → PageDb
  | .put row value => db.insert row value
  | .delete row => db.erase row

def writeAll (db : PageDb) (writes : List Write) : PageDb :=
  writes.foldl write db

@[simp]
theorem writeAll_nil : writeAll db [] = db :=
  rfl

@[simp]
theorem writeAll_append (db : PageDb) (first second : List Write) :
    writeAll db (first ++ second) = writeAll (writeAll db first) second :=
  foldl_append ..

@[simp]
theorem writeAll_singleton (db : PageDb) (write : Write) : writeAll db [write] = db.write write :=
  rfl

variable {write : Write} {written : Row}

theorem lookup_write_of_ne (other : write.row ≠ row) :
    (db.write write).lookup row = db.lookup row := by
  cases write with
  | put written value => exact AList.lookup_insert_ne (Ne.symm other)
  | delete written => exact AList.lookup_erase_ne (Ne.symm other)

@[simp]
theorem lookup_put (db : PageDb) (row : Row) (value : row.Value) :
    (db.write (.put row value)).lookup row = some value :=
  AList.lookup_insert db

@[simp]
theorem lookup_delete (db : PageDb) (row : Row) : (db.write (.delete row)).lookup row = none :=
  AList.lookup_erase row db

theorem lookup_put_of_ne (other : written ≠ row) (value : written.Value) :
    (db.write (.put written value)).lookup row = db.lookup row :=
  AList.lookup_insert_ne (Ne.symm other)

theorem lookup_delete_of_ne (other : written ≠ row) :
    (db.write (.delete written)).lookup row = db.lookup row :=
  AList.lookup_erase_ne (Ne.symm other)

theorem lookup_writeAll_of_ne (others : ∀ write ∈ writes, write.row ≠ row) :
    (db.writeAll writes).lookup row = db.lookup row := by
  induction writes generalizing db with
  | nil => rfl
  | cons write writes ih => rw [← singleton_append, writeAll_append, writeAll_singleton,
      ih fun later member => others later (mem_cons_of_mem _ member),
      lookup_write_of_ne (others write mem_cons_self)]

theorem mem_iff_lookup : row ∈ db ↔ db.lookup row ≠ none := by
  rw [ne_eq, AList.lookup_eq_none, not_not]

theorem mem_of_lookup (found : db.lookup row = some value) : row ∈ db :=
  mem_iff_lookup.mpr (by simp [found])

theorem mem_write :
    row ∈ db.write write ↔ if write.row = row then write.isPut = true else row ∈ db := by
  by_cases same : write.row = row
  · subst same
    cases write with
    | put row value | delete row => simp [Write.row, Write.isPut, mem_iff_lookup]
  · rw [mem_iff_lookup, lookup_write_of_ne same, if_neg same, mem_iff_lookup]

theorem lookup_writeAll_filter {touches : Write → Bool}
    (complete : ∀ write : Write, write.row = row → touches write = true) :
    (db.writeAll writes).lookup row = (db.writeAll (writes.filter touches)).lookup row := by
  induction writes using reverseRecOn with
  | nil => rfl
  | append_singleton writes write ih =>
    rw [writeAll_append, writeAll_singleton, filter_append, writeAll_append]
    by_cases same : write.row = row
    · rw [filter_singleton, complete write same]
      subst same
      cases write <;> simp [Write.row]
    · rw [lookup_write_of_ne same, ih]
      cases touched : touches write with
      | false => simp [touched]
      | true => simp [touched, lookup_write_of_ne same]

theorem mem_of_mem_writeAll (member : row ∈ db.writeAll writes) :
    row ∈ db ∨ ∃ write ∈ writes, write.row = row ∧ write.isPut = true := by
  induction writes using reverseRecOn with
  | nil => exact .inl member
  | append_singleton writes write ih =>
    rw [writeAll_append, writeAll_singleton, mem_write] at member
    split at member
    case isTrue isRow => exact .inr ⟨write, by simp, isRow, member⟩
    case isFalse =>
      refine (ih member).imp_right fun ⟨earlier, inWrites, isPut⟩ => ?_
      exact ⟨earlier, mem_append_left _ inWrites, isPut⟩

theorem lookup_writeAll (found : (db.writeAll writes).lookup row = some value) :
    db.lookup row = some value ∨ .put row value ∈ writes := by
  induction writes using reverseRecOn with
  | nil => exact .inl found
  | append_singleton writes write ih =>
    rw [writeAll_append, writeAll_singleton] at found
    by_cases same : write.row = row
    · subst same
      cases write with
      | put row written =>
        obtain rfl := Option.some.inj ((lookup_put _ row written).symm.trans found)
        exact .inr (mem_append_right _ mem_cons_self)
      | delete row => cases (lookup_delete _ row).symm.trans found
    · rw [lookup_write_of_ne same] at found
      exact (ih found).imp_right (mem_append_left _)

theorem mem_writeAll_of_puts (puts : ∀ write ∈ writes, write.row = row → write.isPut = true) :
    row ∈ db.writeAll writes ↔ row ∈ db ∨ ∃ write ∈ writes, write.row = row := by
  induction writes using reverseRecOn with
  | nil => simp
  | append_singleton writes write ih =>
    rw [writeAll_append, writeAll_singleton, mem_write,
      ih fun earlier member => puts earlier (mem_append_left _ member)]
    by_cases same : write.row = row
    · simp [same, puts write (by simp) same]
    · simp [same, or_and_right, exists_or]

theorem mem_writeAll_of_deletes
    (deletes : ∀ write ∈ writes, write.row = row → write.isPut = false) :
    row ∈ db.writeAll writes ↔ row ∈ db ∧ ∀ write ∈ writes, write.row ≠ row := by
  induction writes using reverseRecOn with
  | nil => simp
  | append_singleton writes write ih =>
    rw [writeAll_append, writeAll_singleton, mem_write,
      ih fun earlier member => deletes earlier (mem_append_left _ member)]
    by_cases same : write.row = row
    · simp [same, deletes write (by simp) same]
    · simp [same, or_imp, forall_and]

theorem exists_put_of_puts (puts : ∀ write ∈ writes, write.row = row → write.isPut = true)
    (written : ∃ write ∈ writes, write.row = row) :
    ∃ value, .put row value ∈ writes ∧ (db.writeAll writes).lookup row = some value := by
  induction writes using reverseRecOn with
  | nil => simp at written
  | append_singleton writes write ih =>
    rw [writeAll_append, writeAll_singleton]
    by_cases same : write.row = row
    · subst same
      cases write with
      | put row value => exact ⟨value, by simp [Write.row], by simp [Write.row]⟩
      | delete row => exact absurd (puts (.delete row) (by simp) rfl) (by simp [Write.isPut])
    · have earlier : ∃ write ∈ writes, write.row = row := by
        obtain ⟨found, member, isRow⟩ := written
        rcases mem_append.mp member with inWrites | isLast
        · exact ⟨found, inWrites, isRow⟩
        · exact absurd (mem_singleton.mp isLast ▸ isRow) same
      obtain ⟨value, isPut, found⟩ :=
        ih (fun earlier member => puts earlier (mem_append_left _ member)) earlier
      exact ⟨value, mem_append_left _ isPut, by rw [lookup_write_of_ne same, found]⟩

end PageDb

end Peridot
