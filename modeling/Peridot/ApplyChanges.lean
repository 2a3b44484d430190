import Peridot.NodeBuilderStore
import Peridot.NodeCode

/-!
# Correctness of `ApplyChanges`

On a well-formed tree `ApplyChanges` always succeeds, and the tree that it stores
is the leveled tree obtained by applying the changes one by one.
-/

namespace Peridot

open Entry NodeBuilder LeveledTree KeyedList

def LeveledTree.applyChange (level : NodeLevelCalculator) (tree : LeveledTree Entry)
    (change : EntryChange) : LeveledTree Entry :=
  if change.deleted then
    tree.erase Entry.key (level change.entry.key).toNat change.entry.key
  else tree.upsert Entry.key (level change.entry.key).toNat change.entry

def applyToMap (map : Key → Option Entry) (change : EntryChange) : Key → Option Entry :=
  Function.update map change.entry.key (if change.deleted then none else some change.entry)

namespace LeveledTree

variable {level : NodeLevelCalculator} {grade : Grade} {tree : LeveledTree Entry}

theorem contents_applyChange (sorted : KeyedList.Sorted key tree.contents)
    (shaped : tree.Shaped level.entryLevel grade) (change : EntryChange) :
    (tree.applyChange level change).contents = KeyedList.replaceAt key change.entry.key
        (if change.deleted then [] else [change.entry]) tree.contents := by
  unfold applyChange
  split
  · exact contents_erase (fun key => (level key).toNat) sorted shaped
  · exact contents_upsert (fun key => (level key).toNat) sorted shaped

theorem shaped_applyChange (shaped : tree.Shaped level.entryLevel grade)
    (change : EntryChange) : (tree.applyChange level change).Shaped level.entryLevel grade := by
  unfold applyChange
  split
  · exact shaped_erase _ _ shaped
  · exact shaped_upsert shaped

section

variable (sorted : KeyedList.Sorted Entry.key tree.contents)
include sorted

variable (shaped : tree.Shaped level.entryLevel grade)
include shaped

theorem sorted_applyChange (change : EntryChange) :
    KeyedList.Sorted key (tree.applyChange level change).contents := by
  rw [contents_applyChange sorted shaped]
  refine sorted_replaceAt sorted ?_ ?_ <;> split <;> simp

theorem find_applyChange (change : EntryChange) :
    KeyedList.find key (tree.applyChange level change).contents =
      applyToMap (KeyedList.find key tree.contents) change := by
  funext key
  rw [contents_applyChange sorted shaped, find_replaceAt (by split <;> simp),
    applyToMap, Function.update_apply]
  split
  · split <;> simp [KeyedList.find]
  · rfl

theorem applyChanges_run (changes : List EntryChange) :
    KeyedList.Sorted key (changes.foldl (applyChange level) tree).contents ∧
      (changes.foldl (applyChange level) tree).Shaped level.entryLevel grade ∧
      KeyedList.find key (changes.foldl (applyChange level) tree).contents =
        changes.foldl applyToMap (KeyedList.find key tree.contents) := by
  induction changes generalizing tree with
  | nil => exact ⟨sorted, shaped, rfl⟩
  | cons change changes ih =>
    have step := ih (sorted_applyChange sorted shaped change) (shaped_applyChange shaped change)
    rwa [find_applyChange sorted shaped] at step

end

theorem height_applyChange (bound : tree.height ≤ 256) (change : EntryChange) :
    (tree.applyChange level change).height ≤ 256 := by
  have levelBound := (level change.entry.key).toNat_lt
  unfold applyChange erase upsert
  split
  · split
    · exact bound
    · exact bound
  · split
    · exact levelBound
    · split
      · exact levelBound
      · exact bound

end LeveledTree

namespace NodeBuilder

variable {level : NodeLevelCalculator} {read : NodeReader} {builder : NodeBuilder}
  {tree : LeveledTree Entry} {change : EntryChange} {fuel : Nat} {didMutate : Bool}

theorem update_above_spec {entry : Entry} {changeLevel : UInt8} (enough : tree.height < fuel)
    (represents : Represents read tree.height builder tree.slot)
    (solid : builder.isNull = false) (higher : tree.height ≤ changeLevel.toNat) :
    ∃ updated, update read fuel changeLevel entry builder = .ok (updated, true) ∧
      Represents read (changeLevel.toNat + 1) updated (crown changeLevel.toNat higher
          (tree.slot.split key entry.key tree.height).1 entry
          (tree.slot.split key entry.key tree.height).2).slot := by
  have heightEq := represents.level_of_not_null solid
  have above : changeLevel > builder.level := by
    rw [gt_iff_lt, UInt8.lt_iff_toNat_lt]
    omega
  have targetLevel : (changeLevel - 1).toNat + 1 = changeLevel.toNat := by
    have := UInt8.toNat_pred (by omega : changeLevel.toNat = changeLevel.toNat - 1 + 1)
    omega
  obtain ⟨left, right, halves, leftRep, rightRep⟩ := split_spec entry.key enough represents
  simp only [update, above, if_true, halves, bind, Except.bind]
  have leftRaised := toLevel_spec leftRep higher targetLevel
  have rightRaised := toLevel_spec rightRep higher targetLevel
  exact ⟨_, rfl, represents_normal rfl rfl rfl rfl (.step leftRaised (.last rightRaised))⟩

section

variable (enough : 257 < fuel) (represents : Represents read tree.height builder tree.slot)
include enough represents

/-- `Apply` of a deletion whose key belongs above the root leaves the root alone. -/
theorem apply_delete_above (deleted : change.deleted = true)
    (higher : tree.height ≤ (level change.entry.key).toNat) :
    ∃ mutated, apply level read change fuel didMutate builder = .ok (builder, mutated) := by
  obtain ⟨fuel, rfl⟩ : ∃ less, fuel = less + 1 := ⟨fuel - 1, by omega⟩
  by_cases isNull : builder.isNull = true
  · exact ⟨false, by simp [apply, isNull, deleted]; rfl⟩
  · have notNull : builder.isNull = false := by simpa using isNull
    have heightEq := represents.level_of_not_null notNull
    have above : level change.entry.key > builder.level := by
      rw [gt_iff_lt, UInt8.lt_iff_toNat_lt]
      omega
    use didMutate
    rw [apply_not_below notNull (by omega), if_pos deleted, delete, if_pos above]
    rfl

variable (bound : tree.height ≤ 256)
include bound

theorem apply_root_delete (deleted : change.deleted = true) :
    ∃ result mutated, apply level read change fuel didMutate builder = .ok (result, mutated) ∧
      Represents read tree.height result
        (if tree.height ≤ (level change.entry.key).toNat then tree.slot
        else (tree.slot.erase key (level change.entry.key).toNat change.entry.key
          tree.height).getD tree.slot) := by
  by_cases higher : tree.height ≤ (level change.entry.key).toNat
  · rw [if_pos higher]
    obtain ⟨mutated, applyOk⟩ := apply_delete_above enough represents deleted higher
    exact ⟨builder, mutated, applyOk, represents⟩
  · rw [if_neg higher]
    obtain ⟨result, applyOk, resultRep⟩ := apply_delete_spec deleted
      (show tree.height < fuel by omega) represents
      (not_le.mp higher)
    exact ⟨result, _, applyOk, resultRep⟩

theorem apply_root_upsert (upsert : change.deleted = false) :
    ∃ result mutated, apply level read change fuel didMutate builder = .ok (result, mutated) ∧
      Represents read (tree.upsert key (level change.entry.key).toNat change.entry).height result
        (tree.upsert key (level change.entry.key).toNat change.entry).slot := by
  obtain ⟨fuel, rfl⟩ : ∃ less, fuel = less + 1 := ⟨fuel - 1, by omega⟩
  by_cases isNull : builder.isNull = true
  · have treeNull : tree.isNull = true := represents.isNull.symm.trans isNull
    rw [LeveledTree.upsert, if_pos treeNull]
    obtain ⟨result, applyOk, resultRep⟩ := apply_null upsert isNull
    exact ⟨result, true, applyOk, resultRep⟩
  · have solid : builder.isNull = false := by simpa using isNull
    have treeSolid : ¬tree.isNull = true := fun treeNull =>
      isNull (represents.isNull.trans treeNull)
    have heightEq := represents.level_of_not_null solid
    rw [LeveledTree.upsert, if_neg treeSolid]
    by_cases higher : tree.height ≤ (level change.entry.key).toNat
    · rw [dif_pos higher]
      obtain ⟨result, updateOk, resultRep⟩ := update_above_spec
        (by omega : tree.height < fuel) represents solid higher
      refine ⟨result, true, ?_, resultRep⟩
      rw [apply_not_below solid (by omega), upsert, if_neg Bool.false_ne_true, updateOk]
    · rw [dif_neg higher]
      obtain ⟨result, mutated, applyOk, resultRep, -, -, raised⟩ := apply_upsert_spec upsert
        (show tree.height < fuel + 1 by omega) represents heightEq (not_le.mp higher)
      rw [raised (by rw [← represents.isNull, solid])] at resultRep
      exact ⟨result, mutated, applyOk, resultRep⟩

/-- `Apply` on the root computes the change of leveled trees. -/
theorem apply_spec :
    ∃ result mutated, apply level read change fuel didMutate builder = .ok (result, mutated) ∧
      Represents read (tree.applyChange level change).height result
        (tree.applyChange level change).slot := by
  cases deleted : change.deleted with
  | true =>
    obtain ⟨result, mutated, applyOk, resultRep⟩ := apply_root_delete enough represents bound deleted
    refine ⟨result, mutated, applyOk, ?_⟩
    rw [applyChange, if_pos deleted, erase]
    by_cases higher : tree.height ≤ (level change.entry.key).toNat
    · rw [if_pos higher] at resultRep ⊢
      exact resultRep
    · rw [if_neg higher] at resultRep ⊢
      exact resultRep
  | false =>
    rw [applyChange, deleted]
    exact apply_root_upsert enough represents bound deleted

theorem apply_run_spec (changes : List EntryChange) :
    ∃ result : NodeBuilder, changes.foldlM (fun builder change => do
        let (builder, _) ← apply level read change fuel didMutate builder
        return builder) builder = (.ok result : Call NodeBuilder) ∧
      (changes.foldl (applyChange level) tree).height ≤ 256 ∧
      Represents read (changes.foldl (applyChange level) tree).height result
        (changes.foldl (applyChange level) tree).slot := by
  induction changes generalizing builder tree with
  | nil => exact ⟨builder, rfl, bound, represents⟩
  | cons change changes ih =>
    obtain ⟨next, mutated, applyOk, nextRep⟩ := apply_spec enough represents bound
    obtain ⟨result, runOk, resultBound, resultRep⟩ := ih nextRep (height_applyChange bound change)
    refine ⟨result, ?_, resultBound, resultRep⟩
    rw [List.foldlM_cons, applyOk]
    exact runOk

end

theorem fromIdentifier_spec {root : ObjectIdentifier}
    (stored : Stored read tree.height (some root) tree.slot) :
    tree.height ≤ 256 ∧ ∃ builder, fromIdentifier read root = .ok builder ∧
      Represents read tree.height builder tree.slot := by
  obtain ⟨height, slot⟩ := tree
  cases height with
  | zero => exact absurd stored (by simp [Stored])
  | succ n =>
    obtain ⟨node, spine, found, rfl, level, inRange, rel⟩ := id stored
    have bound := node.level.toNat_lt
    refine ⟨by simp only; omega, (createExistingBuilder node.level root).extractContent node, ?_,
      (loaded_extractContent rfl level stored level inRange rel).represents⟩
    simp [fromIdentifier, NodeReader.treeNodeFromIdentifier, found]

end NodeBuilder

section ApplyChanges

variable {ids : NodeIdentifiers} {level : NodeLevelCalculator} {store : NodeStore ids}
  {root : ObjectIdentifier} {tree : LeveledTree Entry} {fuel : Nat}

theorem applyChanges_stored (stored : Stored store.read tree.height (some root) tree.slot)
    (changes : List EntryChange) (indeterminate : Bool) (enough : 257 < fuel) :
    ∃ result, applyChanges level fuel indeterminate store root ⟨changes, .ok⟩ = .ok result ∧
      NodeStore.Extends result.store.read store.read ∧ Stored result.store.read
        (changes.foldl (applyChange level) tree).storedForm.height (some result.root)
        (changes.foldl (applyChange level) tree).storedForm.slot := by
  obtain ⟨bound, builder, loadOk, represents⟩ := fromIdentifier_spec stored
  obtain ⟨changed, runOk, changedBound, changedRep⟩ :=
    apply_run_spec enough represents bound changes
  obtain ⟨newRoot, final, buildOk, larger, newStored⟩ :=
    build_spec ⟨store, ∅⟩ (by omega : _ < fuel) changedRep
  have onRoot : applyChangesOnRoot level fuel indeterminate store builder ⟨changes, .ok⟩ =
      .ok (newRoot, final) := by
    unfold applyChangesOnRoot
    rw [runOk]
    exact buildOk
  refine ⟨⟨newRoot, final.newIdentifiers, final.store⟩, ?_, larger, newStored⟩
  simp only [applyChanges, loadOk, onRoot, bind, Except.bind]
  rw [if_pos newStored.digest_ne_nil]
  rfl

theorem wellFormed_emptyNode (store : NodeStore ids) (level : NodeLevelCalculator) :
    WellFormed level (store.add emptyNode).read (ids.identify emptyNode) empty where
  stored := ⟨emptyNode, _, NodeStore.add_read _ _, rfl, rfl,
    by simp [TreeNode.InRange, emptyNode], .last rfl⟩
  sorted := sorted_nil
  leveled := Slot.shaped_node.mpr ⟨by simp, Slot.shaped_null 0⟩

theorem wellFormed_initial (ids : NodeIdentifiers) (level : NodeLevelCalculator) :
    WellFormed level (NodeStore.initial ids).read (ids.identify emptyNode) empty :=
  wellFormed_emptyNode _ level

/-- `ApplyChanges` keeps well-formed trees, and changes their map as asked. -/
theorem applyChanges_wellFormed (wellFormed : WellFormed level store.read root tree)
    (changes : List EntryChange) (indeterminate : Bool) (enough : 257 < fuel) :
    ∃ result, applyChanges level fuel indeterminate store root ⟨changes, .ok⟩ = .ok result ∧
      NodeStore.Extends result.store.read store.read ∧
      ∃ newTree, WellFormed level result.store.read result.root newTree ∧
        ∀ key, KeyedList.find Entry.key newTree.contents key =
          changes.foldl applyToMap (KeyedList.find Entry.key tree.contents) key := by
  obtain ⟨result, applyOk, larger, stored⟩ :=
    applyChanges_stored wellFormed.stored changes indeterminate enough
  obtain ⟨sorted, shaped, found⟩ :=
    applyChanges_run wellFormed.sorted wellFormed.leveled changes
  refine ⟨result, applyOk, larger, _, ⟨stored, ?_, ?_⟩, fun key => ?_⟩
  · rwa [contents_storedForm]
  · exact shaped_storedForm (by simp) shaped
  · rw [contents_storedForm, found]

theorem applyChanges_wellFormed_initial :
    ∃ result, applyChanges (fun key => if key = [2] then 1 else 0) 258 false
        (NodeStore.initial .byCode) (NodeIdentifiers.byCode.identify NodeBuilder.emptyNode)
        ⟨[⟨⟨[1], default, .eager⟩, false⟩, ⟨⟨[2], default, .lazy⟩, false⟩,
          ⟨⟨[3], default, .eager⟩, true⟩], .ok⟩ = .ok result ∧
      NodeStore.Extends result.store.read (NodeStore.initial .byCode).read ∧
      ∃ newTree, WellFormed (fun key => if key = [2] then 1 else 0) result.store.read
        result.root newTree ∧ ∀ key, KeyedList.find Entry.key newTree.contents key =
          [⟨⟨[1], default, .eager⟩, false⟩, ⟨⟨[2], default, .lazy⟩, false⟩,
            ⟨⟨[3], default, .eager⟩, true⟩].foldl applyToMap
              (KeyedList.find Entry.key LeveledTree.empty.contents) key :=
  applyChanges_wellFormed (wellFormed_initial .byCode _) _ false (by decide)

end ApplyChanges

end Peridot
