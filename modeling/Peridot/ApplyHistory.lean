import Peridot.ApplyChanges

/-!
# Histories of `ApplyChanges`

A history is a list of batches, each applied by one call of `ApplyChanges` to the
root of the previous one, starting with the empty node.  Two histories with the
same final map end with the same root identifier as long as no step leaves a
trace in the shape of the tree.  There are two such steps: the first insertion
into the stored empty node, when the key is above the lowest level, keeps the
empty node as a child; and the deletion of the only key of the highest level
keeps the old root although it has no entry any more.
-/

namespace Peridot

open LeveledTree KeyedList List Slot NodeBuilder NodeStore NodeIdentifiers NodeLevelCalculator

def applyHistory {ids : NodeIdentifiers} (level : NodeLevelCalculator) (fuel : Nat)
    (indeterminate : Bool) :
    List (List EntryChange) → NodeStore ids → ObjectIdentifier →
      Call (ObjectIdentifier × NodeStore ids)
  | [], store, root => return (root, store)
  | batch :: batches, store, root => do
      let result ← applyChanges level fuel indeterminate store root ⟨batch, .ok⟩
      applyHistory level fuel indeterminate batches result.store result.root

def KeepsTop (level : NodeLevelCalculator) (items : List Entry) (key : Key) : Prop :=
  (∃ item ∈ items, item.key = key) → (∃ other ∈ items, other.key ≠ key) →
    ∃ other ∈ items, other.key ≠ key ∧ ∀ item ∈ items, level item.key ≤ level other.key
deriving Decidable

/-- The change leaves no trace, when the tree holds `items`; `fresh` tells whether
it still is the stored empty node. -/
def Traceless (level : NodeLevelCalculator) (items : List Entry) (fresh : Bool)
    (change : EntryChange) : Prop :=
  if change.deleted then KeepsTop level items change.entry.key
  else fresh = true → level change.entry.key = 0
deriving Decidable

def applyToItems (items : List Entry) (change : EntryChange) : List Entry :=
  KeyedList.replaceAt Entry.key change.entry.key
    (if change.deleted then [] else [change.entry]) items

def TracelessBatch (level : NodeLevelCalculator) :
    List Entry → Bool → List EntryChange → Prop
  | _, _, [] => True
  | items, fresh, change :: changes =>
    Traceless level items fresh change ∧
      TracelessBatch level (applyToItems items change) (fresh && change.deleted) changes

/-- No batch of a history leaves a trace of what it adds and removes. -/
def TracelessHistory (level : NodeLevelCalculator) :
    List Entry → List (List EntryChange) → Prop
  | _, [] => True
  | items, batch :: batches =>
    TracelessBatch level items items.isEmpty batch ∧
      TracelessHistory level (batch.foldl applyToItems items) batches

instance TracelessBatch.decidable (level : NodeLevelCalculator) :
    (items : List Entry) → (fresh : Bool) → (changes : List EntryChange) →
      Decidable (TracelessBatch level items fresh changes)
  | _, _, [] => isTrue trivial
  | items, fresh, change :: changes =>
    have := TracelessBatch.decidable level (applyToItems items change)
      (fresh && change.deleted) changes
    inferInstanceAs (Decidable (_ ∧ _))

instance TracelessHistory.decidable (level : NodeLevelCalculator) :
    (items : List Entry) → (batches : List (List EntryChange)) →
      Decidable (TracelessHistory level items batches)
  | _, [] => isTrue trivial
  | items, batch :: batches =>
    have := TracelessHistory.decidable level (batch.foldl applyToItems items) batches
    inferInstanceAs (Decidable (_ ∧ _))

def Settled (level : NodeLevelCalculator) (fresh : Bool) (tree : LeveledTree Entry) : Prop :=
  if fresh then tree = .empty
  else tree.isNull = true ∨
    tree.Shaped level.entryLevel .tidy ∧ tree.Crowned level.entryLevel

namespace LeveledTree

variable {level : NodeLevelCalculator} {tree : LeveledTree Entry} {change : EntryChange}

theorem applyChange_empty_deleted (deleted : change.deleted = true) :
    (empty : LeveledTree Entry).applyChange level change = empty := by
  rw [applyChange, if_pos deleted, erase]
  split
  · rfl
  · have absent : (empty : LeveledTree Entry).slot.erase Entry.key
        (level change.entry.key).toNat change.entry.key 1 = none :=
      erase_absent (by simp) (by simp [Spine.next])
    show (⟨1, ((empty : LeveledTree Entry).slot.erase Entry.key (level change.entry.key).toNat
      change.entry.key 1).getD empty.slot⟩ : LeveledTree Entry) = empty
    rw [absent]
    rfl

theorem applyChange_empty_upsert (upsert : change.deleted = false)
    (lowest : level change.entry.key = 0) :
    (empty : LeveledTree Entry).applyChange level change = single 0 change.entry := by
  rw [applyChange, upsert, lowest]
  rfl

theorem isNull_applyChange_deleted (deleted : change.deleted = true)
    (null : tree.isNull = true) : (tree.applyChange level change).isNull = true := by
  rw [applyChange, if_pos deleted, erase]
  split
  · exact null
  · obtain ⟨height, slot⟩ := tree
    obtain rfl : slot = .null height := eq_null_of_isNull null
    cases height with
    | zero => rfl
    | succ n => rfl

theorem crowned_upsert {entry : Entry} (sorted : KeyedList.Sorted Entry.key tree.contents)
    (tidy : tree.Shaped level.entryLevel .tidy) (crowned : tree.Crowned level.entryLevel) :
    (tree.upsert Entry.key (level.entryLevel entry) entry).Crowned level.entryLevel := by
  have contents : (tree.upsert Entry.key (level.entryLevel entry) entry).contents = _ :=
    contents_upsert (fun key => (level key).toNat) sorted tidy
  have entryMem : entry ∈ (tree.upsert Entry.key (level.entryLevel entry) entry).contents :=
    contents ▸ mem_replaceAt.mpr (.inl (by simp))
  obtain ⟨top, topMem, topHeight⟩ := crowned
  have solid : ¬tree.isNull = true := by
    intro null
    rw [contents_of_isNull null] at topMem
    exact not_mem_nil topMem
  by_cases higher : tree.height ≤ level.entryLevel entry
  · refine ⟨entry, entryMem, ?_⟩
    rw [upsert, if_neg solid, dif_pos higher]
    rfl
  · have height : (tree.upsert Entry.key (level.entryLevel entry) entry).height = tree.height := by
      rw [upsert, if_neg solid, dif_neg higher]
    rw [Crowned, height]
    by_cases same : top.key = entry.key
    · refine ⟨entry, entryMem, ?_⟩
      rw [← topHeight, entryLevel, ← same]
      rfl
    · exact ⟨top, contents ▸ mem_replaceAt.mpr (.inr ⟨topMem, same⟩), topHeight⟩

theorem settled_erase {key : Key} (sorted : KeyedList.Sorted Entry.key tree.contents)
    (tidy : tree.Shaped level.entryLevel .tidy) (crowned : tree.Crowned level.entryLevel)
    (keeps : KeepsTop level tree.contents key) :
    (tree.erase Entry.key (level key).toNat key).isNull = true ∨
      (tree.erase Entry.key (level key).toNat key).Shaped level.entryLevel .tidy ∧
        (tree.erase Entry.key (level key).toNat key).Crowned level.entryLevel := by
  have contents := contents_erase (fun key => (level key).toNat) (k := key) sorted tidy
  have newTidy : (tree.erase Entry.key (level key).toNat key).Shaped level.entryLevel .tidy :=
    shaped_erase _ key tidy
  have height : (tree.erase Entry.key (level key).toNat key).height = tree.height := by
    rw [erase]
    split <;> rfl
  obtain ⟨top, topMem, topHeight⟩ := crowned
  by_cases empty : (tree.erase Entry.key (level key).toNat key).contents = []
  · exact .inl (isNull_of_contents_eq_nil newTidy empty)
  · refine .inr ⟨newTidy, ?_⟩
    rw [Crowned, height]
    by_cases topKey : top.key = key
    · obtain ⟨kept, keptMem⟩ := exists_mem_of_ne_nil _ empty
      rw [contents, mem_replaceAt] at keptMem
      obtain ⟨other, otherMem, different, highest⟩ := keeps ⟨top, topMem, topKey⟩
        ⟨kept, by simpa using keptMem⟩
      refine ⟨other, contents ▸ mem_replaceAt.mpr (.inr ⟨otherMem, different⟩), ?_⟩
      have lower : level.entryLevel other < tree.height := tidy.level_lt otherMem
      have upper : level.entryLevel top ≤ level.entryLevel other :=
        UInt8.le_iff_toNat_le.mp (highest top topMem)
      omega
    · exact ⟨top, contents ▸ mem_replaceAt.mpr (.inr ⟨topMem, topKey⟩), topHeight⟩

variable {fresh : Bool}

section

variable (sorted : KeyedList.Sorted Entry.key tree.contents)
include sorted

theorem settled_applyChange (settled : Settled level fresh tree)
    (traceless : Traceless level tree.contents fresh change) :
    Settled level (fresh && change.deleted) (tree.applyChange level change) := by
  cases fresh with
  | true =>
    obtain rfl : tree = empty := settled
    cases deleted : change.deleted with
    | true => exact applyChange_empty_deleted deleted
    | false =>
      have lowest : level change.entry.key = 0 := by simpa [Traceless, deleted] using traceless
      rw [applyChange_empty_upsert deleted lowest]
      refine .inr ⟨shaped_single ?_, change.entry, by simp, ?_⟩
      · rw [entryLevel, lowest]
        rfl
      · rw [entryLevel, lowest]
        rfl
  | false =>
    rw [Bool.false_and]
    rcases settled with null | ⟨tidy, crowned⟩
    · cases deleted : change.deleted with
      | true => exact .inl (isNull_applyChange_deleted deleted null)
      | false =>
        rw [applyChange, deleted, if_neg (by simp), upsert, if_pos null]
        exact .inr ⟨shaped_single rfl, change.entry, by simp, rfl⟩
    · cases deleted : change.deleted with
      | true =>
        rw [Traceless, if_pos deleted] at traceless
        rw [applyChange, if_pos deleted]
        exact settled_erase sorted tidy crowned traceless
      | false =>
        rw [applyChange, deleted, if_neg (by simp)]
        exact .inr ⟨shaped_upsert tidy, crowned_upsert sorted tidy crowned⟩

theorem settled_batch {changes : List EntryChange}
    (leveled : tree.Shaped level.entryLevel .loose) (settled : Settled level fresh tree)
    (traceless : TracelessBatch level tree.contents fresh changes) :
    (changes.foldl (applyChange level) tree).contents = changes.foldl applyToItems tree.contents ∧
      ∃ stillFresh, Settled level stillFresh (changes.foldl (applyChange level) tree) := by
  induction changes generalizing tree fresh with
  | nil => exact ⟨rfl, fresh, settled⟩
  | cons change changes ih =>
    have contentsEq : (tree.applyChange level change).contents =
        applyToItems tree.contents change := contents_applyChange sorted leveled change
    have rest := traceless.2
    rw [← contentsEq] at rest
    have step := ih (sorted_applyChange sorted leveled change)
      (shaped_applyChange leveled change) (settled_applyChange sorted settled traceless.1) rest
    rwa [contentsEq] at step

end

theorem settled_storedForm (settled : Settled level fresh tree) :
    Settled level tree.contents.isEmpty tree.storedForm := by
  cases fresh with
  | true =>
    obtain rfl : tree = empty := settled
    rfl
  | false =>
    rcases settled with null | ⟨tidy, crowned⟩
    · rw [contents_of_isNull null, storedForm, if_pos null]
      rfl
    · obtain ⟨top, topMem, -⟩ := id crowned
      have solid : ¬tree.isNull = true := by
        intro null
        rw [contents_of_isNull null] at topMem
        exact not_mem_nil topMem
      have notEmpty : tree.contents.isEmpty = false := by
        simpa [isEmpty_eq_false_iff] using ne_nil_of_mem topMem
      rw [notEmpty, storedForm, if_neg solid]
      exact .inr ⟨tidy, crowned⟩

/-- Settled stored trees are determined by their contents. -/
theorem eq_of_settled {first second : LeveledTree Entry}
    (settledFirst : Settled level first.contents.isEmpty first)
    (settledSecond : Settled level second.contents.isEmpty second)
    (same : first.contents = second.contents) : first = second := by
  rw [← same] at settledSecond
  cases isEmpty : first.contents.isEmpty with
  | true =>
    rw [isEmpty] at settledFirst settledSecond
    exact Eq.trans settledFirst (Eq.symm settledSecond)
  | false =>
    have solid : ∀ {tree : LeveledTree Entry}, tree.contents = first.contents →
        ¬tree.isNull = true := by
      intro tree contentsEq null
      rw [← contentsEq, contents_of_isNull null] at isEmpty
      exact absurd isEmpty (by simp)
    rw [isEmpty] at settledFirst settledSecond
    rcases settledFirst with null | ⟨firstTidy, firstCrowned⟩
    · exact absurd null (solid rfl)
    · rcases settledSecond with null | ⟨secondTidy, secondCrowned⟩
      · exact absurd null (solid same.symm)
      · exact eq_of_contents_eq firstTidy secondTidy firstCrowned secondCrowned same

end LeveledTree

section History

variable {ids : NodeIdentifiers} {level : NodeLevelCalculator} {fuel : Nat}
    {tree : LeveledTree Entry}

def historyTree (level : NodeLevelCalculator) :
    List (List EntryChange) → LeveledTree Entry → LeveledTree Entry
  | [], tree => tree
  | batch :: batches, tree =>
    historyTree level batches (batch.foldl (LeveledTree.applyChange level) tree).storedForm

theorem applyHistory_wellFormed {store : NodeStore ids} {root : ObjectIdentifier}
    (enough : 257 < fuel) (indeterminate : Bool)
    (wellFormed : WellFormed level store.read root tree) (batches : List (List EntryChange)) :
    ∃ newRoot newStore,
      applyHistory level fuel indeterminate batches store root = .ok (newRoot, newStore) ∧
      WellFormed level newStore.read newRoot (historyTree level batches tree) := by
  induction batches generalizing store root tree with
  | nil => exact ⟨root, store, rfl, wellFormed⟩
  | cons batch batches ih =>
    obtain ⟨result, applyOk, -, stored⟩ := applyChanges_stored
      wellFormed.stored batch indeterminate enough
    obtain ⟨sorted, shaped, -⟩ := applyChanges_run wellFormed.sorted wellFormed.leveled batch
    obtain ⟨newRoot, newStore, historyOk, newWellFormed⟩ :=
      ih ⟨stored, (contents_storedForm _).symm ▸ sorted, shaped_storedForm (by simp) shaped⟩
    refine ⟨newRoot, newStore, ?_, newWellFormed⟩
    simp only [applyHistory, applyOk, bind, Except.bind]
    exact historyOk

theorem shaped_historyTree (sorted : KeyedList.Sorted Entry.key tree.contents)
    (trimmed : tree.Shaped level.entryLevel .trimmed) (batches : List (List EntryChange)) :
    (historyTree level batches tree).Shaped level.entryLevel .trimmed := by
  induction batches generalizing tree with
  | nil => exact trimmed
  | cons batch batches ih =>
    obtain ⟨batchSorted, shaped, -⟩ := applyChanges_run sorted trimmed batch
    exact ih ((contents_storedForm _).symm ▸ batchSorted) (shaped_storedForm (by simp) shaped)

/-- In the trees that are made from the empty node no empty child stands before an entry. -/
theorem applyHistory_trimmed (enough : 257 < fuel) (indeterminate : Bool)
    (batches : List (List EntryChange)) : ∃ root store tree,
      applyHistory level fuel indeterminate batches (initial ids)
        (ids.identify emptyNode) = .ok (root, store) ∧
      WellFormed level store.read root tree ∧ tree.Shaped level.entryLevel .trimmed := by
  have start := wellFormed_initial ids level
  obtain ⟨root, store, runOk, wellFormed⟩ :=
    applyHistory_wellFormed enough indeterminate start batches
  have trimmed : empty.Shaped level.entryLevel .trimmed :=
    Slot.shaped_node.mpr ⟨by simp, Slot.shaped_null 0⟩
  exact ⟨root, store, _, runOk, wellFormed, shaped_historyTree start.sorted trimmed batches⟩

theorem historyTree_settled {batches : List (List EntryChange)}
    (sorted : KeyedList.Sorted Entry.key tree.contents)
    (leveled : tree.Shaped level.entryLevel .loose)
    (settled : Settled level tree.contents.isEmpty tree)
    (traceless : TracelessHistory level tree.contents batches) :
    Settled level (historyTree level batches tree).contents.isEmpty
      (historyTree level batches tree) := by
  induction batches generalizing tree with
  | nil => exact settled
  | cons batch batches ih =>
    obtain ⟨batchSorted, shaped, -⟩ := applyChanges_run sorted leveled batch
    obtain ⟨contentsEq, stillFresh, batchSettled⟩ :=
      settled_batch sorted leveled settled traceless.1
    have storedContents := contents_storedForm (batch.foldl (applyChange level) tree)
    have rest := traceless.2
    rw [← contentsEq, ← storedContents] at rest
    have restSettled := settled_storedForm batchSettled
    rw [← storedContents] at restSettled batchSorted
    exact ih batchSorted (shaped_storedForm (by simp) shaped) restSettled rest

/-- Histories without traces, from the empty node to the same map, end with the same
root identifier. -/
theorem applyHistory_root_unique {first second : List (List EntryChange)}
    (enough : 257 < fuel) (indeterminate : Bool) (tracelessFirst : TracelessHistory level [] first)
    (tracelessSecond : TracelessHistory level [] second) : ∃ root store tree root' store' tree',
      applyHistory level fuel indeterminate first (initial ids)
        (ids.identify emptyNode) = .ok (root, store) ∧
      applyHistory level fuel indeterminate second (initial ids)
        (ids.identify emptyNode) = .ok (root', store') ∧
      WellFormed level store.read root tree ∧ WellFormed level store'.read root' tree' ∧
      ((∀ key, KeyedList.find Entry.key tree.contents key =
        KeyedList.find Entry.key tree'.contents key) → root = root') := by
  have start := wellFormed_initial ids level
  obtain ⟨root, store, runOk, wellFormed⟩ :=
    applyHistory_wellFormed enough indeterminate start first
  obtain ⟨root', store', runOk', wellFormed'⟩ :=
    applyHistory_wellFormed enough indeterminate start second
  have settled := historyTree_settled start.sorted start.leveled rfl tracelessFirst
  have settled' := historyTree_settled start.sorted start.leveled rfl tracelessSecond
  refine ⟨root, store, _, root', store', _, runOk, runOk', wellFormed, wellFormed',
    fun sameMap => ?_⟩
  have contentsEq := eq_of_find_eq wellFormed.sorted wellFormed'.sorted sameMap
  rw [eq_of_settled settled settled' contentsEq] at wellFormed
  exact Option.some.inj (wellFormed.stored.identifier_unique wellFormed'.stored)

theorem applyHistory_root_unique_two_batches : ∃ root store tree root' store' tree',
    applyHistory (fun key => if key = [2] then 1 else 0) 258 false
      [[⟨⟨[1], default, .eager⟩, false⟩], [⟨⟨[2], default, .eager⟩, false⟩]]
      (initial .byCode) (byCode.identify emptyNode) =
        .ok (root, store) ∧ applyHistory (fun key => if key = [2] then 1 else 0) 258 false
      [[⟨⟨[1], default, .eager⟩, false⟩, ⟨⟨[2], default, .eager⟩, false⟩,
        ⟨⟨[3], default, .eager⟩, false⟩], [⟨⟨[3], default, .eager⟩, true⟩]]
      (initial .byCode) (byCode.identify emptyNode) =
        .ok (root', store') ∧
    WellFormed (fun key => if key = [2] then 1 else 0) store.read root tree ∧
    WellFormed (fun key => if key = [2] then 1 else 0) store'.read root' tree' ∧
    ((∀ key, KeyedList.find Entry.key tree.contents key =
      KeyedList.find Entry.key tree'.contents key) → root = root') :=
  applyHistory_root_unique (by decide) false
    (by decide) (by decide)

/-- A key of a higher level that came and went leaves its root behind. -/
theorem applyHistory_root_not_unique : ∃ root store tree root' store' tree',
    applyHistory (fun key => if key = [2] then 1 else 0) 258 false
      [[⟨⟨[1], default, .eager⟩, false⟩]]
      (initial .byCode) (byCode.identify emptyNode) =
        .ok (root, store) ∧ applyHistory (fun key => if key = [2] then 1 else 0) 258 false
      [[⟨⟨[1], default, .eager⟩, false⟩, ⟨⟨[2], default, .eager⟩, false⟩],
        [⟨⟨[2], default, .eager⟩, true⟩]]
      (initial .byCode) (byCode.identify emptyNode) =
        .ok (root', store') ∧
    WellFormed (fun key => if key = [2] then 1 else 0) store.read root tree ∧
    WellFormed (fun key => if key = [2] then 1 else 0) store'.read root' tree' ∧
    (∀ key, KeyedList.find Entry.key tree.contents key =
      KeyedList.find Entry.key tree'.contents key) ∧ root ≠ root' := by
  have start := wellFormed_initial .byCode fun key => if key = [2] then 1 else 0
  obtain ⟨root, store, runOk, wellFormed⟩ := applyHistory_wellFormed
    (by decide : 257 < 258) false start [[⟨⟨[1], default, .eager⟩, false⟩]]
  obtain ⟨root', store', runOk', wellFormed'⟩ := applyHistory_wellFormed
    (by decide : 257 < 258) false start [[⟨⟨[1], default, .eager⟩, false⟩, ⟨⟨[2], default, .eager⟩, false⟩],
      [⟨⟨[2], default, .eager⟩, true⟩]]
  refine ⟨root, store, _, root', store', _, runOk, runOk', wellFormed, wellFormed',
    fun key => rfl, fun same => ?_⟩
  have heights := Stored.height_unique wellFormed.stored (same ▸ wellFormed'.stored)
  exact absurd heights (by decide)

end History

end Peridot
