import Peridot.ApplyChanges

/-!
# Changes that change nothing

`ApplyChanges` keeps the root and stores no node when the changes leave the contents of the tree as
they are.  Nodes are loaded on the way to the keys, but none of them becomes a new one.
-/

namespace Peridot

open KeyedList List NodeBuilder Spine

section Changes

variable {map : Key → Option Entry} {changes : List EntryChange}

theorem foldl_applyToMap_of_not_mem {key : Key}
    (notChanged : ∀ change ∈ changes, change.entry.key ≠ key) :
    changes.foldl applyToMap map key = map key := by
  induction changes generalizing map with
  | nil => rfl
  | cons change changes ih =>
    rw [foldl_cons, ih fun other isOther =>
      notChanged other (mem_cons_of_mem change isOther), applyToMap,
      Function.update_of_ne (notChanged change (by simp)).symm]

theorem foldl_applyToMap_of_mem
    (sorted : Sorted (fun change : EntryChange => change.entry.key) changes)
    {change : EntryChange} (isChange : change ∈ changes) :
    changes.foldl applyToMap map change.entry.key =
      if change.deleted then none else some change.entry := by
  induction changes generalizing map with
  | nil => exact absurd isChange not_mem_nil
  | cons first changes ih =>
    obtain ⟨isFirst, sortedRest⟩ := sorted_cons.mp sorted
    rw [foldl_cons]
    rcases mem_cons.mp isChange with rfl | isLater
    · rw [foldl_applyToMap_of_not_mem fun other isOther => (isFirst other isOther).ne']
      exact Function.update_self ..
    · exact ih sortedRest isLater

end Changes

namespace NodeBuilder

structure SameNode (builder result : NodeBuilder) : Prop where
  type : result.type = builder.type
  objectIdentifier : result.objectIdentifier = builder.objectIdentifier

section Operations

variable {read : NodeReader} {builder result this : NodeBuilder} {fuel n : ℕ}

theorem SameNode.refl (builder : NodeBuilder) : SameNode builder builder :=
  ⟨rfl, rfl⟩

theorem SameNode.trans {first second third : NodeBuilder} (same : SameNode first second)
    (sameToo : SameNode second third) : SameNode first third :=
  ⟨sameToo.type.trans same.type, sameToo.objectIdentifier.trans same.objectIdentifier⟩

theorem sameNode_computeContent (content : builder.computeContent read = .ok this) :
    SameNode builder this := by
  unfold computeContent at content
  split at content
  · cases found : read.treeNodeFromIdentifier builder.objectIdentifier with
    | error failure => simp [found, bind, Except.bind] at content
    | ok node =>
      simp only [found, bind, Except.bind] at content
      cases content
      exact ⟨rfl, rfl⟩
  · cases content
    exact SameNode.refl builder

variable {level : NodeLevelCalculator} {change : EntryChange} {didMutate : Bool}
  {spine : Spine (Slot Entry n) Entry}

variable (fuel didMutate) in
theorem delete_absent {keyLevel : UInt8} {key : Key}
    (atLevel : keyLevel.toNat = n) (represents : Represents read (n + 1) builder (.node spine))
    (absent : ∀ item ∈ (Slot.node spine).contents (n + 1), item.key ≠ key) :
    ∃ result, delete read fuel keyLevel key didMutate builder = .ok (result, false) ∧
      Represents read (n + 1) result (.node spine) ∧ SameNode builder result := by
  obtain ⟨this, laid, content, loaded⟩ := computeContent_spec represents
  have notNext : ¬(spine.next (Spine.beforeKey Entry.key key)).map Entry.key = some key := by
    intro present
    obtain ⟨item, isNext, isKey⟩ := Option.map_eq_some_iff.mp present
    exact absent item (mem_flatten_of_next isNext) isKey
  refine ⟨this, ?_, loaded.represents, sameNode_computeContent content⟩
  simp only [delete, not_above atLevel represents, if_false, content, bind, Except.bind,
    loaded.entry_index]
  rw [if_pos notNext]
  rfl

variable (fuel) in
theorem update_present {changeLevel : UInt8} {entry : Entry} (atLevel : changeLevel.toNat = n)
    (represents : Represents read (n + 1) builder (.node spine))
    (isNext : spine.next (Spine.beforeKey Entry.key entry.key) = some entry) :
    ∃ result, update read fuel changeLevel entry builder = .ok (result, false) ∧
      Represents read (n + 1) result (.node spine) ∧ SameNode builder result := by
  obtain ⟨this, laid, content, loaded⟩ := computeContent_spec represents
  refine ⟨this, ?_, loaded.represents, sameNode_computeContent content⟩
  simp only [update, not_above atLevel represents, if_false, content, bind, Except.bind,
    loaded.entry_index, isNext, if_true, and_self]
  rfl

theorem apply_lower_unchanged (represents : Represents read (n + 1) builder (.node spine))
    (lower : (level change.entry.key).toNat < n) (childUnchanged : ∀ child, Represents read n child
        (spine.focus (Spine.beforeKey Entry.key change.entry.key)) →
      ∃ result, apply level read change fuel didMutate child = .ok (result, false) ∧
        Represents read n result
          (spine.focus (Spine.beforeKey Entry.key change.entry.key)) ∧ SameNode child result) :
    ∃ result, apply level read change (fuel + 1) didMutate builder = .ok (result, false) ∧
      Represents read (n + 1) result (.node spine) ∧ SameNode builder result := by
  obtain ⟨this, laid, content, loaded⟩ := computeContent_spec represents
  obtain ⟨child, childOk, childRep, -⟩ := childUnchanged _ loaded.represents_focus
  rw [apply_lower represents lower content childOk, if_neg Bool.false_ne_true]
  refine ⟨_, rfl, loaded.setChild childRep, ?_⟩
  exact (sameNode_computeContent content).trans ⟨rfl, rfl⟩

variable {slot : Slot Entry n}

variable (didMutate) in
theorem apply_delete_absent (deleted : change.deleted = true)
    (enough : n < fuel) (fits : (level change.entry.key).toNat < n)
    (represents : Represents read n builder slot)
    (absent : ∀ item ∈ slot.contents n, item.key ≠ change.entry.key) :
    ∃ result, apply level read change fuel didMutate builder = .ok (result, false) ∧
      Represents read n result slot ∧ SameNode builder result := by
  induction n generalizing fuel builder with
  | zero => exact absurd fits (Nat.not_lt_zero _)
  | succ n ih =>
    obtain ⟨fuel, rfl⟩ : ∃ less, fuel = less + 1 := ⟨fuel - 1, by omega⟩
    cases slot using Slot.succCases with
    | null =>
      have isNull := represents_null_iff.mp represents
      exact ⟨builder, by simp [apply, isNull, deleted]; rfl, represents, SameNode.refl builder⟩
    | node spine =>
      by_cases lower : (level change.entry.key).toNat < n
      · apply apply_lower_unchanged represents lower
        intro child childRep
        apply ih (by omega) lower childRep
        intro item inFocus
        exact absent item (mem_flatten_of_mem_focus inFocus)
      · have atLevel : (level change.entry.key).toNat = n := by omega
        obtain ⟨notNull, builderLevel, -⟩ := represents_node_iff.mp represents
        obtain ⟨result, deleteOk, isSame⟩ := delete_absent fuel didMutate atLevel represents absent
        refine ⟨result, ?_, isSame⟩
        rwa [apply_not_below notNull (by omega), if_pos deleted]

variable (didMutate) in
theorem apply_upsert_present {grade : Grade} (upsert : change.deleted = false) (enough : n < fuel)
    (represents : Represents read n builder slot) (sorted : Sorted Entry.key (slot.contents n))
    (shaped : slot.Shaped level.entryLevel n grade) (present : change.entry ∈ slot.contents n) :
    ∃ result, apply level read change fuel didMutate builder = .ok (result, false) ∧
      Represents read n result slot ∧ SameNode builder result := by
  induction n generalizing fuel builder grade with
  | zero => exact absurd present not_mem_nil
  | succ n ih =>
    obtain ⟨fuel, rfl⟩ : ∃ less, fuel = less + 1 := ⟨fuel - 1, by omega⟩
    cases slot using Slot.succCases with
    | null => simp at present
    | node spine =>
      rcases mem_focus_or_next sorted present rfl with inFocus | isNext
      · have focusSorted :=
          sorted_focus sorted (Spine.beforeKey Entry.key change.entry.key)
        have focusShaped : ∃ grade, (spine.focus
            (Spine.beforeKey Entry.key change.entry.key)).Shaped level.entryLevel n grade := by
          rcases shaped.all.focus with inner | outer
          · exact ⟨_, inner⟩
          · exact ⟨_, outer⟩
        obtain ⟨focusGrade, focusShaped⟩ := focusShaped
        apply apply_lower_unchanged represents (focusShaped.level_lt inFocus)
        intro child childRep
        exact ih (by omega) childRep focusSorted focusShaped inFocus
      · have atLevel : (level change.entry.key).toNat = n := shaped.all.next isNext
        obtain ⟨notNull, builderLevel, -⟩ := represents_node_iff.mp represents
        obtain ⟨result, updateOk, isSame⟩ := update_present fuel atLevel represents isNext
        refine ⟨result, ?_, isSame⟩
        rwa [apply_not_below notNull (by omega), upsert, if_neg Bool.false_ne_true]

end Operations

section Root

variable {level : NodeLevelCalculator} {read : NodeReader} {builder : NodeBuilder}
  {tree : LeveledTree Entry} {change : EntryChange} {changes : List EntryChange} {fuel : ℕ}
  {didMutate : Bool} {grade : Grade}

section

variable (didMutate) (enough : 257 < fuel) (bound : tree.height ≤ 256)
  (represents : Represents read tree.height builder tree.slot)
  (sorted : Sorted Entry.key tree.contents) (shaped : tree.Shaped level.entryLevel grade)
include enough bound represents sorted shaped

theorem apply_unchanged
    (unchanged : find Entry.key tree.contents change.entry.key =
      if change.deleted then none else some change.entry) :
    ∃ result mutated, apply level read change fuel didMutate builder = .ok (result, mutated) ∧
      Represents read tree.height result tree.slot ∧ SameNode builder result := by
  cases deleted : change.deleted with
  | true =>
    rw [if_pos deleted] at unchanged
    by_cases fits : (level change.entry.key).toNat < tree.height
    · have absent : ∀ item ∈ tree.contents, item.key ≠ change.entry.key := by
        simpa [find] using unchanged
      obtain ⟨result, applyOk, isSame⟩ := apply_delete_absent didMutate deleted
        (by omega : tree.height < fuel) fits represents absent
      exact ⟨result, false, applyOk, isSame⟩
    · obtain ⟨mutated, applyOk⟩ := apply_delete_above enough represents deleted (not_lt.mp fits)
      exact ⟨builder, mutated, applyOk, represents, SameNode.refl builder⟩
  | false =>
    rw [deleted, if_neg Bool.false_ne_true] at unchanged
    have present : change.entry ∈ tree.contents := mem_of_find?_eq_some unchanged
    obtain ⟨result, applyOk, isSame⟩ := apply_upsert_present didMutate deleted
      (by omega : tree.height < fuel) represents sorted shaped present
    exact ⟨result, false, applyOk, isSame⟩

theorem apply_run_unchanged
    (unchanged : ∀ change ∈ changes, find Entry.key tree.contents change.entry.key =
      if change.deleted then none else some change.entry) : ∃ result : NodeBuilder,
      changes.foldlM (fun builder change => do
        let (builder, _) ← apply level read change fuel didMutate builder
        return builder) builder = (.ok result : Call NodeBuilder) ∧ SameNode builder result := by
  induction changes generalizing builder with
  | nil => exact ⟨builder, rfl, SameNode.refl builder⟩
  | cons change changes ih =>
    obtain ⟨next, mutated, applyOk, nextRep, nextSame⟩ := apply_unchanged didMutate enough
      bound represents sorted shaped (unchanged change (by simp))
    obtain ⟨result, runOk, resultSame⟩ := ih nextRep fun other isOther =>
      unchanged other (mem_cons_of_mem change isOther)
    refine ⟨result, ?_, nextSame.trans resultSame⟩
    rw [foldlM_cons, applyOk]
    exact runOk

end

theorem fromIdentifier_existing {root : ObjectIdentifier}
    (loadOk : fromIdentifier read root = .ok builder) :
    builder.type = .existingNode ∧ builder.objectIdentifier = root := by
  unfold fromIdentifier at loadOk
  cases found : read.treeNodeFromIdentifier root with
  | error failure => simp [found, bind, Except.bind] at loadOk
  | ok node =>
    simp only [found, bind, Except.bind] at loadOk
    cases loadOk
    exact ⟨rfl, rfl⟩

variable (fuel) in
theorem build_existing {ids : NodeIdentifiers} (state : BuildState ids)
    (existing : builder.type = .existingNode) :
    build (fuel + 1) builder state = .ok (builder.objectIdentifier, state) := by
  have notNull : builder.isNull = false := by simp [isNull, existing]
  have notNew : builder.isNew = false := by simp [isNew, existing]
  rw [build, notNull, buildLoop, notNew]
  rfl

end Root

end NodeBuilder

section ApplyChanges

variable {ids : NodeIdentifiers} {level : NodeLevelCalculator} {store : NodeStore ids}
  {root : ObjectIdentifier} {tree : LeveledTree Entry} {changes : List EntryChange} {fuel : ℕ}

/-- `ApplyChanges` with changes that leave the contents as they are: the root is the same, and no
node is stored. -/
theorem applyChanges_storesNothing (wellFormed : WellFormed level store.read root tree)
    (sorted : KeyedList.Sorted (fun change : EntryChange => change.entry.key) changes)
    (unchanged : changes.foldl applyToMap (KeyedList.find Entry.key tree.contents) =
      KeyedList.find Entry.key tree.contents) (indeterminate : Bool) (enough : 257 < fuel) :
    applyChanges level fuel indeterminate store root ⟨changes, .ok⟩ = .ok ⟨root, ∅, store⟩ := by
  obtain ⟨fuel, rfl⟩ : ∃ less, fuel = less + 1 := ⟨fuel - 1, by omega⟩
  obtain ⟨bound, builder, loadOk, represents⟩ :=
    fromIdentifier_spec wellFormed.stored
  have eachUnchanged : ∀ change ∈ changes,
      find Entry.key tree.contents change.entry.key =
        if change.deleted then none else some change.entry := by
    intro change isChange
    rw [← foldl_applyToMap_of_mem sorted isChange, unchanged]
  obtain ⟨result, runOk, same⟩ := apply_run_unchanged indeterminate
    enough bound represents wellFormed.sorted wellFormed.leveled eachUnchanged
  obtain ⟨existing, isRoot⟩ := fromIdentifier_existing loadOk
  have buildOk := build_existing fuel ⟨store, ∅⟩ (same.type.trans existing)
  rw [same.objectIdentifier, isRoot] at buildOk
  have onRoot : applyChangesOnRoot level (fuel + 1) indeterminate store builder ⟨changes, .ok⟩ =
      .ok (root, ⟨store, ∅⟩) := by
    unfold applyChangesOnRoot
    rw [runOk]
    exact buildOk
  simp only [applyChanges, loadOk, onRoot, bind, Except.bind]
  rw [if_pos wellFormed.stored.digest_ne_nil]
  rfl

def twoEntries : TreeNode :=
  ⟨0, [⟨[1], default, .eager⟩, ⟨[3], default, .lazy⟩], [], sorted_childless⟩

theorem wellFormed_twoEntries :
    WellFormed (fun _ => 0) ((NodeStore.initial .byCode).add twoEntries).read
      (NodeIdentifiers.byCode.identify twoEntries) ⟨1, .node (.step (.null 0) ⟨[1], default, .eager⟩
        (.step (.null 0) ⟨[3], default, .lazy⟩ (.last (.null 0))))⟩ where
  stored := ⟨twoEntries, _, NodeStore.add_read _ _, rfl, rfl,
    by simp [TreeNode.InRange, twoEntries], .step rfl (.step rfl (.last rfl))⟩
  sorted := by decide
  leveled := by decide

/-- An entry is put again, and two absent keys are deleted. -/
theorem applyChanges_storesNothing_twoEntries :
    applyChanges (fun _ => 0) 258 true ((NodeStore.initial .byCode).add twoEntries)
        (NodeIdentifiers.byCode.identify twoEntries)
        ⟨[⟨⟨[0], default, .lazy⟩, true⟩, ⟨⟨[1], default, .eager⟩, false⟩,
          ⟨⟨[2], default, .eager⟩, true⟩], .ok⟩ =
      .ok ⟨NodeIdentifiers.byCode.identify twoEntries, ∅,
        (NodeStore.initial .byCode).add twoEntries⟩ := by
  apply applyChanges_storesNothing wellFormed_twoEntries (by decide) _ true (by decide)
  funext key
  by_cases isZero : key = [0]
  · subst isZero
    decide
  · by_cases isOne : key = [1]
    · subst isOne
      decide
    · by_cases isTwo : key = [2]
      · subst isTwo
        decide
      · exact foldl_applyToMap_of_not_mem (by simp [Ne.symm isZero, Ne.symm isOne, Ne.symm isTwo])

end ApplyChanges

end Peridot
