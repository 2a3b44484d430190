import Peridot.ApplyChanges

/-!
# Contents of commits under merges

The contents of a commit as a map, the changes of a journal on it, and what an exact
difference of two commits is.
-/

namespace Peridot

open LeveledTree List

abbrev Contents := Key → Option Entry

def EntryChange.result (change : EntryChange) : Option Entry :=
  if change.deleted then none else some change.entry

/-- `operator==` of `EntryChange`. -/
def EntryChange.same (first second : EntryChange) : Bool :=
  first.deleted = second.deleted ∧
    if first.deleted then first.entry.key = second.entry.key else first.entry = second.entry

theorem EntryChange.same_iff {first second : EntryChange} : first.same second = true ↔
    first.entry.key = second.entry.key ∧ first.result = second.result := by
  obtain ⟨entry, deleted⟩ := first
  obtain ⟨other, otherDeleted⟩ := second
  cases deleted <;> cases otherDeleted <;> simp [EntryChange.same, EntryChange.result]
  rintro rfl
  rfl

def lastChange (changes : List EntryChange) (key : Key) : Option EntryChange :=
  (changes.filter fun change => change.entry.key = key).getLast?

theorem applyToMap_apply (map : Contents) (change : EntryChange) (key : Key) :
    applyToMap map change key = if change.entry.key = key then change.result else map key := by
  rw [applyToMap, Function.update_apply, EntryChange.result]
  exact if_congr eq_comm rfl rfl

theorem lastChange_append (changes : List EntryChange) (change : EntryChange) (key : Key) :
    lastChange (changes ++ [change]) key =
      if change.entry.key = key then some change else lastChange changes key := by
  rw [lastChange, filter_append]
  by_cases isKey : change.entry.key = key
  · simp [isKey]
  · simp [isKey, lastChange]

theorem foldl_applyToMap (changes : List EntryChange) (map : Contents) (key : Key) :
    changes.foldl applyToMap map key = ((lastChange changes key).map EntryChange.result).getD
      (map key) := by
  induction changes using List.reverseRecOn with
  | nil => simp [lastChange]
  | append_singleton changes change ih =>
    rw [foldl_append, foldl_cons, foldl_nil, applyToMap_apply, lastChange_append]
    split
    · simp
    · exact ih

variable {changes : List EntryChange} {change : EntryChange}

theorem mem_of_lastChange {key : Key} (isLast : lastChange changes key = some change) :
    change ∈ changes ∧ change.entry.key = key := by
  have inFilter := mem_of_getLast? isLast
  simpa using mem_filter.mp inFilter

theorem lastChange_ne_none (inChanges : change ∈ changes) :
    lastChange changes change.entry.key ≠ none := by
  intro isNone
  rw [lastChange, List.getLast?_eq_none_iff] at isNone
  have inFilter : change ∈ changes.filter fun other => other.entry.key = change.entry.key :=
    mem_filter.mpr ⟨inChanges, by simp⟩
  simp [isNone] at inFilter

/-- A difference is reported change by change, until the receiver stops it. -/
def reportChanges {σ : Type} (onNext : σ → EntryChange → σ × Bool) : σ → List EntryChange → σ
  | state, [] => state
  | state, change :: changes =>
    if (onNext state change).2 then reportChanges onNext (onNext state change).1 changes
    else (onNext state change).1

/-- The changes are exactly the differences from `base` to `other`, in the order of the keys:
what `GetCommitContentsDiff` reports. -/
structure ExactDiff (base other : Contents) (changes : List EntryChange) : Prop where
  sorted : KeyedList.Sorted (fun change : EntryChange => change.entry.key) changes
  result : ∀ change ∈ changes, other change.entry.key = change.result
  changed : ∀ change ∈ changes, base change.entry.key ≠ other change.entry.key
  complete : ∀ key, base key ≠ other key → ∃ change ∈ changes, change.entry.key = key

/-- The changes to another commit overwrite what it changed, and nothing else. -/
theorem ExactDiff.foldl_applyToMap {base other : Contents}
    (exact : ExactDiff base other changes) (map : Contents) (key : Key) :
    changes.foldl applyToMap map key = if base key ≠ other key then other key else map key := by
  rw [Peridot.foldl_applyToMap]
  cases isLast : lastChange changes key with
  | none =>
    have unchanged : ¬base key ≠ other key := by
      intro changed
      obtain ⟨change, inChanges, rfl⟩ := exact.complete key changed
      exact lastChange_ne_none inChanges isLast
    rw [if_neg unchanged]
    rfl
  | some change =>
    obtain ⟨inChanges, rfl⟩ := mem_of_lastChange isLast
    rw [if_pos (exact.changed change inChanges), exact.result change inChanges]
    rfl

/-- The storage holds a well-formed tree with the given contents under a root. -/
def HoldsContents (level : NodeLevelCalculator) (read : NodeReader) (root : ObjectIdentifier)
    (contents : Contents) : Prop :=
  ∃ tree, WellFormed level read root tree ∧
    ∀ key, KeyedList.find Entry.key tree.contents key = contents key

section HoldsContents

variable {ids : NodeIdentifiers} {level : NodeLevelCalculator} {store other : NodeStore ids}
  {root : ObjectIdentifier} {contents otherContents : Contents} {fuel : Nat}

theorem HoldsContents.mono (holds : HoldsContents level store.read root contents)
    (larger : NodeStore.Extends other.read store.read) :
    HoldsContents level other.read root contents := by
  obtain ⟨tree, wellFormed, found⟩ := holds
  exact ⟨tree, ⟨wellFormed.stored.mono larger, wellFormed.sorted, wellFormed.leveled⟩, found⟩

theorem holdsContents_emptyNode (store : NodeStore ids) (level : NodeLevelCalculator) :
    HoldsContents level (store.add NodeBuilder.emptyNode).read
      (ids.identify NodeBuilder.emptyNode) fun _ => none :=
  ⟨_, wellFormed_emptyNode store level, fun _ => rfl⟩

section

variable (holds : HoldsContents level store.read root contents)
include holds

variable (otherHolds : HoldsContents level other.read root otherContents)
include otherHolds

/-- Storages that hold contents under one root hold the same contents. -/
theorem HoldsContents.unique : contents = otherContents := by
  obtain ⟨tree, wellFormed, found⟩ := holds
  obtain ⟨otherTree, otherWellFormed, otherFound⟩ := otherHolds
  obtain rfl := Stored.tree_agree wellFormed.stored otherWellFormed.stored
  exact funext fun key => (found key).symm.trans (otherFound key)

theorem applyChanges_agree (changes : List EntryChange)
    (indeterminate otherIndeterminate : Bool) (enough : 257 < fuel) : ∃ result otherResult,
      applyChanges level fuel indeterminate store root ⟨changes, .ok⟩ = .ok result ∧
      applyChanges level fuel otherIndeterminate other root ⟨changes, .ok⟩ = .ok otherResult ∧
      result.root = otherResult.root ∧
      HoldsContents level result.store.read result.root (changes.foldl applyToMap contents) ∧
      HoldsContents level otherResult.store.read otherResult.root
        (changes.foldl applyToMap contents) := by
  obtain rfl := holds.unique otherHolds
  obtain ⟨tree, wellFormed, found⟩ := holds
  obtain ⟨otherTree, otherWellFormed, -⟩ := otherHolds
  obtain rfl := Stored.tree_agree wellFormed.stored otherWellFormed.stored
  obtain ⟨result, isResult, -, stored⟩ :=
    applyChanges_stored wellFormed.stored changes indeterminate enough
  obtain ⟨otherResult, isOther, -, otherStored⟩ :=
    applyChanges_stored otherWellFormed.stored changes otherIndeterminate enough
  obtain ⟨sorted, shaped, changed⟩ := applyChanges_run wellFormed.sorted wellFormed.leveled changes
  have holdsChanged : ∀ {read : NodeReader} {newRoot : ObjectIdentifier},
      Stored read (changes.foldl (applyChange level) tree).storedForm.height
        (some newRoot) (changes.foldl (applyChange level) tree).storedForm.slot →
      HoldsContents level read newRoot (changes.foldl applyToMap contents) := by
    intro read newRoot newStored
    refine ⟨_, ⟨newStored, ?_, shaped_storedForm (by simp) shaped⟩, fun key => ?_⟩
    · rwa [contents_storedForm]
    · rw [contents_storedForm, changed, funext found]
  exact ⟨result, otherResult, isResult, isOther,
    Option.some.inj (Stored.identifier_unique stored otherStored), holdsChanged stored,
    holdsChanged otherStored⟩

end

theorem applyChange_unchanged {tree : LeveledTree Entry}
    (sorted : KeyedList.Sorted Entry.key tree.contents)
    (leveled : tree.Shaped level.entryLevel .loose)
    (unchanged : KeyedList.find Entry.key tree.contents change.entry.key = change.result) :
    tree.applyChange level change = tree := by
  obtain ⟨entry, deleted⟩ := change
  cases deleted with
  | true => exact tree.erase_of_absent _ (KeyedList.find_eq_none_iff.mp unchanged)
  | false =>
    exact upsert_same (fun key => (level key).toNat) sorted leveled
      (KeyedList.mem_of_find unchanged)

theorem applyChanges_unchanged (holds : HoldsContents level store.read root contents)
    (unchanged : ∀ change ∈ changes, contents change.entry.key = change.result)
    {indeterminate : Bool} (enough : 257 < fuel) {result : ApplyResult ids}
    (isResult : applyChanges level fuel indeterminate store root ⟨changes, .ok⟩ = .ok result) :
    result.root = root := by
  obtain ⟨tree, wellFormed, found⟩ := holds
  obtain ⟨other, isOther, -, stored⟩ :=
    applyChanges_stored wellFormed.stored changes indeterminate enough
  obtain rfl := Except.ok.inj (isResult.symm.trans isOther)
  have sameTree : changes.foldl (applyChange level) tree = tree := by
    clear isResult isOther stored
    induction changes with
    | nil => rfl
    | cons change changes ih =>
      have same := applyChange_unchanged wellFormed.sorted wellFormed.leveled
        ((found _).trans (unchanged change mem_cons_self))
      rw [foldl_cons, same]
      exact ih fun later isLater => unchanged later (mem_cons_of_mem _ isLater)
  have notNull : ¬tree.isNull = true := by
    rw [isNull, wellFormed.stored.isNull]
    exact Bool.false_ne_true
  rw [sameTree, storedForm, if_neg notNull] at stored
  exact Option.some.inj (Stored.identifier_unique stored wellFormed.stored)

end HoldsContents

end Peridot
