import Peridot.MergeContents
import Peridot.PageRows

/-!
# The rows of a journal

A journal keeps the last operation on every key.  Its changes are applied in the order of the
keys.
-/

namespace Peridot

open KeyedList List

abbrev JournalRows := List (Key × JournalValue)

namespace JournalRows

def write (rows : JournalRows) (operation : Key × JournalValue) : JournalRows :=
  KeyedList.replaceAt Prod.fst operation.1 [operation] rows

def writeAll (rows : JournalRows) (operations : List (Key × JournalValue)) : JournalRows :=
  operations.foldl write rows

/-- The changes that `GetJournalEntries` goes through. -/
def changes (rows : JournalRows) : List EntryChange :=
  rows.map fun row => row.2.change row.1

def result (rows : JournalRows) (map : Contents) (key : Key) : Option Entry :=
  match KeyedList.find Prod.fst rows key with
  | some row => (row.2.change row.1).result
  | none => map key

variable {rows : JournalRows} {operations : List (Key × JournalValue)} {key : Key}

theorem sorted_writeAll (sorted : Sorted Prod.fst rows) :
    Sorted Prod.fst (rows.writeAll operations) := by
  induction operations generalizing rows with
  | nil => exact sorted
  | cons operation operations ih => exact ih (sorted_replaceAt sorted (by simp) (by simp))

def lastOperation (operations : List (Key × JournalValue)) (key : Key) :
    Option (Key × JournalValue) :=
  (operations.filter fun operation => operation.1 = key).getLast?

theorem lastOperation_append (operation : Key × JournalValue) :
    lastOperation (operations ++ [operation]) key =
      if operation.1 = key then some operation else lastOperation operations key := by
  rw [lastOperation, filter_append]
  by_cases isKey : operation.1 = key
  · simp [isKey]
  · simp [isKey, lastOperation]

theorem find_writeAll (rows : JournalRows) : find Prod.fst (rows.writeAll operations) key =
    (lastOperation operations key).or (find Prod.fst rows key) := by
  induction operations using List.reverseRecOn with
  | nil => rfl
  | append_singleton operations operation ih =>
    rw [writeAll, foldl_append, foldl_cons, foldl_nil, write,
      find_replaceAt (by simp), lastOperation_append]
    by_cases isKey : operation.1 = key
    · simp [isKey, find]
    · rw [if_neg (Ne.symm isKey), if_neg isKey]
      exact ih

theorem change_key (value : JournalValue) (key : Key) : (value.change key).entry.key = key := by
  cases value <;> rfl

theorem lastChange_changes (sorted : Sorted Prod.fst rows) : lastChange rows.changes key =
    (find Prod.fst rows key).map fun row => row.2.change row.1 := by
  induction rows with
  | nil => rfl
  | cons row rows ih =>
    obtain ⟨above, sortedRows⟩ := sorted_cons.mp sorted
    rw [find_cons]
    by_cases isKey : row.1 = key
    · have others : (changes rows).filter (fun change => change.entry.key = key) = [] := by
        rw [filter_eq_nil_iff]
        intro change inChanges
        obtain ⟨other, inRows, rfl⟩ := mem_map.mp inChanges
        rw [change_key, decide_eq_true_eq, ← isKey]
        exact (above other inRows).ne'
      simp only [changes] at others
      rw [lastChange, changes, map_cons, filter_cons, others, change_key]
      simp [isKey]
    · rw [if_neg isKey, ← ih sortedRows, lastChange, changes, map_cons, filter_cons,
        change_key, if_neg (by simpa using isKey)]
      rfl

/-- The changes of a journal leave at every key what the row of the key says. -/
theorem foldl_changes (sorted : Sorted Prod.fst rows) (map : Contents) :
    rows.changes.foldl applyToMap map key = rows.result map key := by
  rw [foldl_applyToMap, lastChange_changes sorted, result]
  cases find Prod.fst rows key <;> rfl

end JournalRows

end Peridot
