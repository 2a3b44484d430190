import Mathlib.Data.List.Basic
import Mathlib.Data.List.Nodup

/-!
# Registries

A finite map as a list of its entries.  Where the keys are distinct, an entry splits the list in
two, and what is done to the entry is done between the two parts.
-/

namespace Peridot

open List Option

namespace Registry

variable {κ α : Type} [DecidableEq κ]

def find (entries : List (κ × α)) (key : κ) : Option α :=
  (entries.find? fun entry => entry.1 = key).map Prod.snd

def update (entries : List (κ × α)) (key : κ) (change : α → α) : List (κ × α) :=
  entries.map fun entry => if entry.1 = key then (key, change entry.2) else entry

def erase (entries : List (κ × α)) (key : κ) : List (κ × α) :=
  entries.filter fun entry => entry.1 ≠ key

variable {entries : List (κ × α)} {key : κ} {value : α}

structure Split (entries : List (κ × α)) (key : κ) (value : α) (before after : List (κ × α)) :
    Prop where
  isSplit : entries = before ++ (key, value) :: after
  update_eq : ∀ change, update entries key change = before ++ (key, change value) :: after
  erase_eq : erase entries key = before ++ after

theorem update_of_notMem (change : α → α) (notMem : key ∉ entries.map Prod.fst) :
    update entries key change = entries := by
  induction entries with
  | nil => rfl
  | cons entry entries ih =>
    simp only [map_cons, mem_cons, not_or] at notMem
    have rest := ih notMem.2
    simp only [update] at rest
    simp [update, if_neg (Ne.symm notMem.1), rest]

theorem erase_of_notMem (notMem : key ∉ entries.map Prod.fst) : erase entries key = entries := by
  refine filter_eq_self.mpr fun entry inEntries => ?_
  have different : entry.1 ≠ key := fun same => notMem (same ▸ mem_map_of_mem inEntries)
  simpa using different

theorem find_eq_none_iff : find entries key = none ↔ key ∉ entries.map Prod.fst := by
  rw [find, map_eq_none_iff, find?_eq_none]
  constructor
  · intro noEntry inKeys
    obtain ⟨entry, inEntries, isKey⟩ := mem_map.mp inKeys
    exact noEntry entry inEntries (decide_eq_true isKey)
  · intro notKey entry inEntries isKey
    exact notKey (of_decide_eq_true isKey ▸ mem_map_of_mem inEntries)

theorem mem_of_find (found : find entries key = some value) : (key, value) ∈ entries := by
  obtain ⟨entry, isEntry, rfl⟩ := map_eq_some_iff.mp found
  obtain rfl : entry.1 = key := by simpa using find?_some isEntry
  exact mem_of_find?_eq_some isEntry

theorem Split.of_append {before after : List (κ × α)}
    (notBefore : key ∉ before.map Prod.fst) (notAfter : key ∉ after.map Prod.fst) :
    Split (before ++ (key, value) :: after) key value before after where
  isSplit := rfl
  update_eq change := by
    have sameBefore := update_of_notMem change notBefore
    have sameAfter := update_of_notMem change notAfter
    simp only [update] at sameBefore sameAfter
    simp [update, sameBefore, sameAfter]
  erase_eq := by
    have sameBefore := erase_of_notMem notBefore
    have sameAfter := erase_of_notMem notAfter
    simp only [erase] at sameBefore sameAfter
    rw [erase, filter_append, filter_cons_of_neg (by simp), sameBefore, sameAfter]

theorem exists_split (distinct : (entries.map Prod.fst).Nodup) (isEntry : (key, value) ∈ entries) :
    ∃ before after, Split entries key value before after := by
  obtain ⟨before, after, rfl⟩ := append_of_mem isEntry
  rw [map_append, map_cons, nodup_middle, nodup_cons, mem_append, not_or] at distinct
  exact ⟨before, after, .of_append distinct.1.1 distinct.1.2⟩

theorem find_of_mem (distinct : (entries.map Prod.fst).Nodup)
    (isEntry : (key, value) ∈ entries) : find entries key = some value := by
  cases found : find entries key with
  | none => exact absurd (mem_map_of_mem isEntry) (find_eq_none_iff.mp found)
  | some other =>
    have same := inj_on_of_nodup_map distinct (mem_of_find found) isEntry rfl
    exact congrArg some (congrArg Prod.snd same)

theorem find_erase (entries : List (κ × α)) (key : κ) : find (erase entries key) key = none := by
  apply find_eq_none_iff.mpr
  intro isKey
  obtain ⟨entry, isEntry, sameKey⟩ := mem_map.mp isKey
  exact of_decide_eq_true (mem_filter.mp isEntry).2 sameKey

theorem not_isSome_iff : ¬(find entries key).isSome = true ↔ find entries key = none := by
  rw [Bool.not_eq_true, isSome_eq_false_iff, isNone_iff_eq_none]

theorem find_append (first second : List (κ × α)) (key : κ) :
    find (first ++ second) key = (find first key).or (find second key) := by
  rw [find, find?_append, map_or]
  rfl

theorem find_erase_of_ne (entries : List (κ × α)) {other : κ} (different : other ≠ key) :
    find (erase entries key) other = find entries other := by
  induction entries with
  | nil => rfl
  | cons entry entries ih =>
    rw [find, find] at ih
    rw [find, find, erase, filter_cons]
    by_cases isKey : entry.1 = key
    · rw [if_neg (by simpa using isKey), find?_cons_of_neg (by simpa [isKey] using
        different.symm)]
      exact ih
    · rw [if_pos (by simpa using isKey), find?_cons, find?_cons]
      cases decide (entry.1 = other) with
      | true => rfl
      | false => exact ih

theorem find_update (entries : List (κ × α)) (change : α → α) (other : κ) :
    find (update entries key change) other =
      if other = key then (find entries key).map change else find entries other := by
  induction entries with
  | nil => by_cases same : other = key <;> simp [find, update, same]
  | cons entry entries ih =>
    rw [find, find, find, update] at *
    rw [map_cons]
    by_cases isKey : entry.1 = key <;> by_cases isOther : other = key <;>
      by_cases isEntry : entry.1 = other <;> simp_all

/-- What is not there is not there when another key is erased. -/
theorem find_erase_none (other : κ) (isNone : find entries key = none) :
    find (erase entries other) key = none := by
  by_cases same : key = other
  · rw [same]
    exact find_erase entries other
  · exact (find_erase_of_ne entries same).trans isNone

theorem find_concat_none {other : κ} {value : α} (isNone : find entries key = none)
    (different : other ≠ key) : find (entries ++ [(other, value)]) key = none := by
  rw [find_append, isNone, find, find?_cons_of_neg (by simpa using different)]
  rfl

theorem find_update_none (other : κ) (change : α → α) (isNone : find entries key = none) :
    find (update entries other change) key = none := by
  rw [find_update]
  split
  case isTrue same => rw [← same, isNone, map_none]
  case isFalse => exact isNone

end Registry

end Peridot
