import Peridot.BTreeDiffCorrect

/-!
# Skipping to a key

`SkipTo` and `SkipToIndex` of `btree/iterator.cc`.  While it moves down towards a
key, the iterator has passed smaller keys only, the last of them on a level that is
not below its own node, and everything outside of its node is greater.
-/

namespace Peridot

open List KeyedList Position Entry Option Spine NodeLevelCalculator

variable {identifier : ObjectIdentifier} {entry : Entry} {index : Nat}

namespace TreeNode

variable {level : NodeLevelCalculator} {read : NodeReader} {node : TreeNode}

def Leveled (level : NodeLevelCalculator) (read : NodeReader) (node : TreeNode) : Prop :=
  node.InRange ∧ ∃ spine : Spine (Slot Entry node.level.toNat) Entry,
    node.spine.Rel (Stored read node.level.toNat) spine ∧
      (Slot.node spine).Shaped level.entryLevel (node.level.toNat + 1) .loose

theorem leveled_of_stored {n : Nat} {slot : Slot Entry n}
    (stored : Stored read n (some identifier) slot)
    (shaped : slot.Shaped level.entryLevel n .loose) :
    ∃ root, read identifier = some root ∧ root.Leveled level read ∧ n = root.level.toNat + 1 := by
  cases n with
  | zero => exact absurd stored (by simp [Stored])
  | succ n =>
    obtain ⟨root, spine, found, rfl, rootLevel, inRange, rel⟩ := stored
    subst rootLevel
    exact ⟨root, found, ⟨inRange, spine, rel, shaped⟩, rfl⟩

variable (leveled : node.Leveled level read)
include leveled

theorem Leveled.sound : node.Sound read := by
  obtain ⟨inRange, spine, rel, -⟩ := leveled
  exact ⟨inRange, spine, rel⟩

theorem Leveled.level_eq (member : entry ∈ node.entries) :
    level.entryLevel entry = node.level.toNat := by
  obtain ⟨-, spine, rel, shaped⟩ := leveled
  rw [← entries_spine, rel.entries] at member
  exact shaped.all.entry member

/-- The children of the node are leveled subtrees one level below. -/
theorem Leveled.stored_child (index : Nat) :
    ∃ slot, Stored read node.level.toNat (node.childAt index) slot ∧
      slot.Shaped level.entryLevel node.level.toNat .loose := by
  obtain ⟨inRange, spine, rel, shaped⟩ := leveled
  by_cases inside : index ≤ node.entries.length
  · have member : node.childAt index ∈ node.spine.children := by
      rw [children_spine]
      exact mem_map_of_mem (by simpa using Nat.lt_succ_of_le inside)
    exact rel.exists_all_of_mem_children shaped.all (fun _ holds => holds) member
  · rw [childAt_of_length_lt inRange (not_le.mp inside)]
    exact ⟨_, Stored.null _, Slot.shaped_null _⟩

theorem Leveled.child (found : node.childAt index = some identifier) :
    ∃ child, read identifier = some child ∧ child.Leveled level read ∧
      node.level.toNat = child.level.toNat + 1 := by
  obtain ⟨slot, stored, shaped⟩ := leveled.stored_child index
  rw [found] at stored
  exact leveled_of_stored stored shaped

theorem Leveled.level_lt
    (member : entry ∈ Position.entries (Position.below read (node.childAt index))) :
    level.entryLevel entry < node.level.toNat := by
  obtain ⟨slot, stored, shaped⟩ := leveled.stored_child index
  rw [entries_below stored] at member
  exact shaped.level_lt member

end TreeNode

section LowerBound

variable {entries : List Entry} {minKey : Key}

theorem key_lt_of_lt_index (found : entries[index]? = some entry)
    (less : index < getEntryOrChildIndex entries minKey) : entry.key < minKey := by
  induction entries generalizing index with
  | nil => simp at found
  | cons first entries ih =>
    by_cases isBefore : Spine.beforeKey key minKey first = true
    · cases index with
      | zero =>
        obtain rfl : first = entry := by simpa using found
        simpa [Spine.beforeKey] using isBefore
      | succ index =>
        rw [getEntryOrChildIndex, position_cons_of_before isBefore] at less
        exact ih (by simpa using found) (Nat.lt_of_succ_lt_succ less)
    · rw [getEntryOrChildIndex, position_cons_of_not_before isBefore] at less
      exact absurd less (Nat.not_lt_zero _)

theorem le_key_of_index (found : entries[getEntryOrChildIndex entries minKey]? = some entry) :
    minKey ≤ entry.key := by
  induction entries with
  | nil => simp at found
  | cons first entries ih =>
    by_cases isBefore : Spine.beforeKey key minKey first = true
    · rw [getEntryOrChildIndex, position_cons_of_before isBefore, getElem?_cons_succ] at found
      exact ih found
    · rw [getEntryOrChildIndex, position_cons_of_not_before isBefore] at found
      obtain rfl : first = entry := by simpa using found
      simpa [Spine.beforeKey] using isBefore

end LowerBound

abbrev TreeNode.indexOf (node : TreeNode) (key : Key) : Nat :=
  getEntryOrChildIndex node.entries key

theorem TreeNode.indexOf_le (node : TreeNode) (key : Key) :
    node.indexOf key ≤ node.entries.length :=
  position_le_length _

namespace BTreeIterator

variable {level : NodeLevelCalculator} {read : NodeReader} {minKey : Key}
  {items before : List Entry} {node : TreeNode} {index fuel : Nat} {outer : List (TreeNode × Nat)}

def gapPositions (read : NodeReader) (frame : TreeNode × Nat) : List Position :=
  ⟨none, frame.1.childAt frame.2, frame.1.level⟩ ::
    (Position.below read (frame.1.childAt frame.2) ++ framePositions read frame)

theorem positions_descending : positions read ⟨(node, index) :: outer, true⟩ =
    gapPositions read (node, index) ++ outer.flatMap (framePositions read) := by
  simp [positions, finished, current, currentEntry?, getNextChild, getLevel, gapPositions]

theorem positions_value : positions read ⟨(node, index) :: outer, false⟩ =
    framePositions read (node, index) ++ outer.flatMap (framePositions read) := by
  simp [positions]

theorem framePositions_eq_cons (found : node.entries[index]? = some entry) :
    framePositions read (node, index) = ⟨some entry, node.childAt (index + 1), node.level⟩ ::
        gapPositions read (node, index + 1) :=
  framePositions_of_getElem? found

/-- Moving on inside a node passes entries up to the one before the new index. -/
theorem gapPositions_skip {target : Nat} (notBack : index ≤ target)
    (inBounds : target ≤ node.entries.length) :
    ∃ dropped, gapPositions read (node, index) = dropped ++ gapPositions read (node, target) ∧
      ∀ entry ∈ (Position.entries dropped).getLast?, ∃ passed < target,
        node.entries[passed]? = some entry := by
  induction target, notBack using Nat.le_induction with
  | base => exact ⟨[], rfl, by simp⟩
  | succ target notBack ih =>
    obtain ⟨dropped, skipped, -⟩ := ih (by omega)
    have found := getElem?_eq_getElem (show target < node.entries.length by omega)
    refine ⟨dropped ++ (⟨none, node.childAt target, node.level⟩ ::
      (Position.below read (node.childAt target) ++
        [⟨some node.entries[target], node.childAt (target + 1), node.level⟩])), ?_, ?_⟩
    · rw [skipped, gapPositions, framePositions_eq_cons found]
      simp
    · intro entry isLast
      refine ⟨target, by omega, ?_⟩
      simp only [entries_append, entries_cons, entries_nil,
        toList_some, toList_none, nil_append, append_nil,
        ← append_assoc, getLast?_append, getLast?_singleton] at isLast
      rw [found]
      simpa using isLast

/-- The iterator moves down towards a key, and has passed `before`. -/
structure Searching (level : NodeLevelCalculator) (read : NodeReader) (minKey : Key)
    (items before : List Entry) (node : TreeNode) (index : Nat)
    (outer : List (TreeNode × Nat)) : Prop where
  valid : Valid read ⟨(node, index) :: outer, true⟩
  leveled : node.Leveled level read
  index_le : index ≤ node.indexOf minKey
  sorted : KeyedList.Sorted Entry.key items
  split : items = before ++ rest read ⟨(node, index) :: outer, true⟩
  passed : ∀ entry ∈ before, entry.key < minKey
  last : ∀ entry ∈ before.getLast?, node.level.toNat ≤ level.entryLevel entry
  outside : ∀ entry ∈ Position.entries (outer.flatMap (framePositions read)), minKey < entry.key

namespace Searching

section

variable (searching : Searching level read minKey items before node index outer)
include searching

theorem rest_sorted : Sorted key (rest read ⟨(node, index) :: outer, true⟩) := by
  have sorted := searching.sorted
  rw [searching.split] at sorted
  exact (sorted_append.mp sorted).2.1

theorem skipToIndex_eq : skipToIndex minKey ⟨(node, index) :: outer, true⟩ =
    if (node.entries[node.indexOf minKey]?).map key = some minKey then
      (true, ⟨(node, node.indexOf minKey) :: outer, false⟩)
    else (false, ⟨(node, node.indexOf minKey) :: outer, true⟩) := by
  exact if_neg (not_lt.mpr searching.index_le)

theorem move : (positions read ⟨(node, node.indexOf minKey) :: outer, true⟩ <:+
      positions read ⟨(node, index) :: outer, true⟩) ∧
    ∃ before', Searching level read minKey items before' node (node.indexOf minKey) outer := by
  obtain ⟨dropped, skipped, lastDropped⟩ := gapPositions_skip
    searching.index_le (node.indexOf_le minKey)
  have positions : positions read ⟨(node, index) :: outer, true⟩ = dropped ++ positions read
      ⟨(node, node.indexOf minKey) :: outer, true⟩ := by
    rw [positions_descending, positions_descending, skipped, append_assoc]
  have valid : Valid read ⟨(node, node.indexOf minKey) :: outer, true⟩ :=
    searching.valid.replace (node.indexOf_le minKey)
  have split : items = (before ++ Position.entries dropped) ++ rest read
      ⟨(node, node.indexOf minKey) :: outer, true⟩ := by
    rw [searching.split, rest, rest, positions, entries_append, append_assoc]
  have sorted := searching.sorted
  rw [split] at sorted
  have droppedSorted := (sorted_append.mp (sorted_append.mp sorted).1).2.1
  refine ⟨⟨dropped, positions.symm⟩, before ++ Position.entries dropped,
    valid, searching.leveled, le_rfl, searching.sorted, split, ?_, ?_, searching.outside⟩
  · intro entry member
    rcases mem_append.mp member with inBefore | inDropped
    · exact searching.passed entry inBefore
    · obtain ⟨final, isFinal⟩ : ∃ final, final ∈ (Position.entries dropped).getLast? :=
        isSome_iff_exists.mp (by simpa using ne_nil_of_mem inDropped)
      obtain ⟨passed, less, found⟩ := lastDropped final isFinal
      exact (key_le_getLast droppedSorted inDropped isFinal).trans_lt
        (key_lt_of_lt_index found less)
  · intro entry isLast
    rw [getLast?_append] at isLast
    cases finalDropped : (Position.entries dropped).getLast? with
    | none =>
      rw [finalDropped] at isLast
      exact searching.last entry (by simpa using isLast)
    | some final =>
      obtain rfl : final = entry := by simpa [finalDropped] using isLast
      obtain ⟨passed, -, found⟩ := lastDropped final finalDropped
      exact (searching.leveled.level_eq (mem_of_getElem? found)).ge

theorem frame_greater (atKey : index = node.indexOf minKey)
    (notFound : (node.entries[index]?).map key ≠ some minKey) :
    ∀ entry ∈ Position.entries (framePositions read (node, index) ++
      outer.flatMap (framePositions read)), minKey < entry.key := by
  rw [entries_append]
  intro entry member
  rcases mem_append.mp member with inFrame | inOuter
  · cases found : node.entries[index]? with
    | none =>
      rw [framePositions_of_length_le (getElem?_eq_none_iff.mp found)] at inFrame
      exact absurd inFrame (by simp)
    | some first =>
      have firstGreater : minKey < first.key := by
        refine lt_of_le_of_ne (le_key_of_index (atKey ▸ found)) fun same => notFound ?_
        rw [found, map_some, same]
      have sorted := searching.rest_sorted
      rw [rest, positions_descending, gapPositions, framePositions_eq_cons found] at sorted
      rw [framePositions_eq_cons found, entries_cons] at inFrame
      simp only [entries_cons, entries_append, toList_none,
        toList_some, nil_append, cons_append, append_assoc] at sorted
      have fromFirst := (sorted_append.mp sorted).2.1
      rcases mem_cons.mp inFrame with rfl | later
      · exact firstGreater
      · exact firstGreater.trans ((sorted_cons.mp fromFirst).1 entry (mem_append_left _ later))
  · exact searching.outside entry inOuter

end

theorem rest_eq (node : TreeNode) (index : Nat) (outer : List (TreeNode × Nat)) :
    rest read ⟨(node, index) :: outer, true⟩ =
      Position.entries (Position.below read (node.childAt index)) ++
        Position.entries (framePositions read (node, index) ++
          outer.flatMap (framePositions read)) := by
  rw [rest, positions_descending, gapPositions]
  simp

variable (searching : Searching level read minKey items before node index outer)
include searching

theorem mem_items (entryAt : node.entries[node.indexOf minKey]? = some entry) : entry ∈ items := by
  obtain ⟨-, before', moved⟩ := searching.move
  rw [moved.split, rest_eq, framePositions_eq_cons entryAt]
  simp

theorem extra_left : ∃ extra, rest read ⟨(node, index) :: outer, true⟩ =
      extra ++ startingAt key minKey items ∧ (∀ entry ∈ extra, entry.key < minKey) ∧
    (extra ≠ [] ↔ ∃ entry ∈ rest read ⟨(node, index) :: outer, true⟩, entry.key < minKey) := by
  have cut := below_append_startingAt (k := minKey) searching.rest_sorted
  have same : startingAt key minKey (rest read ⟨(node, index) :: outer, true⟩) =
      startingAt key minKey items := by
    have parts : items = (before ++ KeyedList.below key minKey
        (rest read ⟨(node, index) :: outer, true⟩)) ++ startingAt key minKey
          (rest read ⟨(node, index) :: outer, true⟩) := by
      rw [append_assoc, cut, ← searching.split]
    refine eq_startingAt parts ?_ ?_
    · intro entry member
      rcases mem_append.mp member with inBefore | inRest
      · exact searching.passed entry inBefore
      · exact (mem_below.mp inRest).2
    · exact fun entry member => (mem_startingAt.mp member).2
  refine ⟨KeyedList.below key minKey (rest read ⟨(node, index) :: outer, true⟩),
    by rw [← same, cut], fun entry member => (mem_below.mp member).2, ?_⟩
  simp only [ne_eq, eq_nil_iff_forall_not_mem, mem_below, not_forall, not_not]

theorem found (found : (node.entries[node.indexOf minKey]?).map key = some minKey) :
    Valid read ⟨(node, node.indexOf minKey) :: outer, false⟩ ∧
      rest read ⟨(node, node.indexOf minKey) :: outer, false⟩ = startingAt key minKey items ∧
      positions read ⟨(node, node.indexOf minKey) :: outer, false⟩ <:+
        positions read ⟨(node, index) :: outer, true⟩ := by
  obtain ⟨suffix, before', moved⟩ := searching.move
  obtain ⟨entry, entryAt, sameKey⟩ := map_eq_some_iff.mp found
  have positionsEq : positions read ⟨(node, node.indexOf minKey) :: outer, true⟩ =
      (⟨none, node.childAt (node.indexOf minKey), node.level⟩ ::
        Position.below read (node.childAt (node.indexOf minKey))) ++
          positions read ⟨(node, node.indexOf minKey) :: outer, false⟩ := by
    rw [positions_descending, positions_value, gapPositions]
    simp
  have valid : Valid read ⟨(node, node.indexOf minKey) :: outer, false⟩ :=
    moved.valid.replace (node.indexOf_le minKey)
  refine ⟨valid, ?_, .trans ⟨_, positionsEq.symm⟩ suffix⟩
  have split : items = (before' ++
      Position.entries (Position.below read (node.childAt (node.indexOf minKey)))) ++
        rest read ⟨(node, node.indexOf minKey) :: outer, false⟩ := by
    rw [moved.split, rest_eq, rest, positions_value, append_assoc]
  have starts : rest read ⟨(node, node.indexOf minKey) :: outer, false⟩ =
      entry :: Position.entries (gapPositions read (node, node.indexOf minKey + 1) ++
        outer.flatMap (framePositions read)) := by
    rw [rest, positions_value, framePositions_eq_cons entryAt]
    simp
  have sorted := moved.sorted
  rw [split, starts] at sorted
  obtain ⟨-, fromEntry, increasing⟩ := sorted_append.mp sorted
  refine eq_startingAt split (fun passed member => ?_) ?_
  · exact sameKey ▸ increasing passed member entry (by simp)
  · rw [starts]
    intro later member
    rcases mem_cons.mp member with rfl | behind
    · exact sameKey.ge
    · exact sameKey ▸ ((sorted_cons.mp fromEntry).1 later behind).le

section

variable (atKey : index = node.indexOf minKey)
include atKey

variable (notFound : (node.entries[index]?).map key ≠ some minKey)
include notFound

theorem no_child (noChild : node.childAt index = none) :
    rest read ⟨(node, index) :: outer, true⟩ = startingAt key minKey items := by
  refine eq_startingAt searching.split searching.passed ?_
  rw [rest_eq, noChild]
  exact fun entry member => (searching.frame_greater atKey notFound entry member).le

theorem descend (next : node.childAt index = some identifier) :
    ∃ child, read identifier = some child ∧ node.level.toNat = child.level.toNat + 1 ∧
      Searching level read minKey items before child 0 ((node, index) :: outer) ∧
      positions read ⟨(child, 0) :: (node, index) :: outer, true⟩ <:+
        positions read ⟨(node, index) :: outer, true⟩ := by
  obtain ⟨child, found, childLeveled, oneBelow⟩ := searching.leveled.child next
  have positionsEq : positions read ⟨(node, index) :: outer, true⟩ =
      [⟨none, some identifier, node.level⟩] ++
        positions read ⟨(child, 0) :: (node, index) :: outer, true⟩ := by
    rw [positions_enter found childLeveled.sound, positions_descending, gapPositions, next]
    simp
  refine ⟨child, found, oneBelow, ⟨searching.valid.push childLeveled.sound true, childLeveled,
    Nat.zero_le _, searching.sorted, ?_, searching.passed, fun entry isLast => ?_, ?_⟩,
    ⟨_, positionsEq.symm⟩⟩
  · rw [searching.split, rest, rest, positionsEq]
    rfl
  · have := searching.last entry isLast
    omega
  · rw [flatMap_cons]
    exact searching.frame_greater atKey notFound

/-- Keys in front of the searched one are left exactly when the last of them is below
the current node. -/
theorem exists_smaller_iff :
    (∃ entry ∈ rest read ⟨(node, index) :: outer, true⟩, entry.key < minKey) ↔
      ∃ predecessor, IsPredecessor key items minKey predecessor ∧
        level.entryLevel predecessor < node.level.toNat := by
  have greater := searching.frame_greater atKey notFound
  have sorted := searching.sorted
  rw [searching.split] at sorted
  obtain ⟨beforeSorted, -, increasing⟩ := sorted_append.mp sorted
  constructor
  · rintro ⟨entry, inRest, less⟩
    obtain ⟨predecessor, isPredecessor⟩ := exists_predecessor searching.sorted
      (searching.split ▸ mem_append_right before inRest) less
    refine ⟨predecessor, isPredecessor, ?_⟩
    obtain ⟨member, predecessorLess, greatest⟩ := isPredecessor
    rw [searching.split, mem_append] at member
    rcases member with inBefore | predecessorInRest
    · have later := increasing predecessor inBefore entry inRest
      have notLater := greatest entry (searching.split ▸ mem_append_right before inRest) less
      exact absurd later (not_lt.mpr notLater)
    · rw [rest_eq, mem_append] at predecessorInRest
      rcases predecessorInRest with below | behind
      · exact searching.leveled.level_lt below
      · exact absurd predecessorLess (greater predecessor behind).asymm
  · rintro ⟨predecessor, ⟨member, less, greatest⟩, low⟩
    rw [searching.split, mem_append] at member
    rcases member with inBefore | inRest
    · exfalso
      obtain ⟨final, isFinal⟩ : ∃ final, final ∈ before.getLast? :=
        isSome_iff_exists.mp (by simpa using ne_nil_of_mem inBefore)
      have finalMem : final ∈ before := mem_of_getLast? isFinal
      have sameKey : final.key = predecessor.key := le_antisymm
        (greatest final (searching.split ▸ mem_append_left _ finalMem)
          (searching.passed final finalMem))
        (key_le_getLast beforeSorted inBefore isFinal)
      have high := searching.last final isFinal
      rw [entryLevel, sameKey] at high
      exact absurd low (not_lt.mpr high)
    · exact ⟨predecessor, inRest, less⟩

end

theorem found_iff (member : entry ∈ items) (sameKey : entry.key = minKey) :
    (level minKey).toNat ≤ node.level.toNat ∧
      ((node.entries[node.indexOf minKey]?).map key = some minKey ↔
        (level minKey).toNat = node.level.toNat) ∧ ((level minKey).toNat ≠ node.level.toNat →
        node.childAt (node.indexOf minKey) ≠ none) := by
  obtain ⟨-, before', moved⟩ := searching.move
  have inside : (node.entries[node.indexOf minKey]?).map key ≠ some minKey →
      entry ∈ Position.entries (Position.below read (node.childAt (node.indexOf minKey))) := by
    intro notFound
    rw [moved.split, rest_eq, mem_append, mem_append] at member
    rcases member with inBefore | below | behind
    · exact absurd (moved.passed entry inBefore) (by simp [sameKey])
    · exact below
    · exact absurd (moved.frame_greater rfl notFound entry behind) (by simp [sameKey])
  have atLevel : (node.entries[node.indexOf minKey]?).map key = some minKey →
      (level minKey).toNat = node.level.toNat := by
    intro found
    obtain ⟨value, valueAt, valueKey⟩ := map_eq_some_iff.mp found
    rw [← searching.leveled.level_eq (mem_of_getElem? valueAt), entryLevel,
      valueKey]
  have below : (node.entries[node.indexOf minKey]?).map key ≠ some minKey →
      (level minKey).toNat < node.level.toNat := by
    intro notFound
    have less := searching.leveled.level_lt (inside notFound)
    rwa [entryLevel, sameKey] at less
  by_cases isFound : (node.entries[node.indexOf minKey]?).map key = some minKey
  · exact ⟨(atLevel isFound).le, ⟨atLevel, fun _ => isFound⟩,
      fun different => absurd (atLevel isFound) different⟩
  · refine ⟨(below isFound).le, ⟨atLevel, fun same => absurd same (below isFound).ne⟩, ?_⟩
    intro _ noChild
    have member := inside isFound
    rw [noChild] at member
    exact absurd member not_mem_nil

theorem skipTo_spec (enough : node.level.toNat < fuel) :
    ∃ moved, skipTo read fuel minKey ⟨(node, index) :: outer, true⟩ = .ok (.ok, moved) ∧
      moved.Valid read ∧ moved.rest read = startingAt key minKey items ∧
      moved.positions read <:+ positions read ⟨(node, index) :: outer, true⟩ := by
  unfold skipTo
  induction fuel generalizing before node index outer with
  | zero => omega
  | succ fuel ih =>
    by_cases found : (node.entries[node.indexOf minKey]?).map key = some minKey
    · obtain ⟨valid, restEq, suffix⟩ := searching.found found
      refine ⟨_, ?_, valid, restEq, suffix⟩
      simp only [skipToLoop, searching.skipToIndex_eq, if_pos found]
      rfl
    · obtain ⟨suffix, before', moved⟩ := searching.move
      cases next : node.childAt (node.indexOf minKey) with
      | none =>
        refine ⟨_, ?_, moved.valid, moved.no_child rfl found next, suffix⟩
        simp only [skipToLoop, searching.skipToIndex_eq, if_neg found, getNextChild, if_true, next]
        rfl
      | some identifier =>
        obtain ⟨child, readOk, oneBelow, searchingChild, childSuffix⟩ :=
          moved.descend rfl found next
        obtain ⟨final, loopOk, valid, restEq, finalSuffix⟩ := ih searchingChild (by omega)
        refine ⟨final, ?_, valid, restEq, finalSuffix.trans (childSuffix.trans suffix)⟩
        simp only [skipToLoop, searching.skipToIndex_eq, if_neg found, getNextChild, if_true,
          next, BTreeIterator.descend, NodeReader.treeNodeFromIdentifier, readOk, bind, Except.bind]
        exact loopOk

end Searching

structure Seeking (level : NodeLevelCalculator) (read : NodeReader) (minKey : Key)
    (items before : List Entry) (node : TreeNode) (index : Nat)
    (outer : List (TreeNode × Nat)) : Prop
    extends Searching level read minKey items before node index outer where
  ready : Ready read ⟨(node, index) :: outer, true⟩

namespace Seeking

variable (seeking : Seeking level read minKey items before node index outer)
include seeking

theorem ready_of_suffix {moved : BTreeIterator} (valid : moved.Valid read)
    (suffix : moved.positions read <:+ positions read ⟨(node, index) :: outer, true⟩) :
    moved.Ready read := by
  obtain ⟨dropped, positionsEq⟩ := suffix
  exact seeking.ready.of_positions valid positionsEq.symm

theorem move : (positions read ⟨(node, node.indexOf minKey) :: outer, true⟩ <:+
      positions read ⟨(node, index) :: outer, true⟩) ∧
    ∃ before', Seeking level read minKey items before' node (node.indexOf minKey) outer := by
  obtain ⟨suffix, before', moved⟩ := seeking.toSearching.move
  exact ⟨suffix, before', { moved with ready := seeking.ready_of_suffix moved.valid suffix }⟩

theorem found (found : (node.entries[node.indexOf minKey]?).map key = some minKey) :
    Ready read ⟨(node, node.indexOf minKey) :: outer, false⟩ ∧
      rest read ⟨(node, node.indexOf minKey) :: outer, false⟩ = startingAt key minKey items ∧
      positions read ⟨(node, node.indexOf minKey) :: outer, false⟩ <:+
        positions read ⟨(node, index) :: outer, true⟩ := by
  obtain ⟨valid, restEq, suffix⟩ := seeking.toSearching.found found
  exact ⟨seeking.ready_of_suffix valid suffix, restEq, suffix⟩

theorem descend (atKey : index = node.indexOf minKey)
    (notFound : (node.entries[index]?).map key ≠ some minKey) (next : node.childAt index = some identifier) :
    ∃ child, read identifier = some child ∧ node.level.toNat = child.level.toNat + 1 ∧
      Seeking level read minKey items before child 0 ((node, index) :: outer) ∧
      positions read ⟨(child, 0) :: (node, index) :: outer, true⟩ <:+
        positions read ⟨(node, index) :: outer, true⟩ := by
  obtain ⟨child, found, oneBelow, searching, suffix⟩ :=
    seeking.toSearching.descend atKey notFound next
  exact ⟨child, found, oneBelow,
    { searching with ready := seeking.ready_of_suffix searching.valid suffix }, suffix⟩

end Seeking

/-- In a trimmed tree, `SkipTo` leaves the entries from the key on. -/
theorem skipTo_spec (seeking : Seeking level read minKey items before node index outer)
    (enough : node.level.toNat < fuel) :
    ∃ moved, skipTo read fuel minKey ⟨(node, index) :: outer, true⟩ = .ok (.ok, moved) ∧
      moved.Ready read ∧ moved.rest read = startingAt key minKey items ∧
      moved.positions read <:+ positions read ⟨(node, index) :: outer, true⟩ := by
  obtain ⟨moved, skipOk, valid, restEq, suffix⟩ := seeking.toSearching.skipTo_spec enough
  exact ⟨moved, skipOk, seeking.ready_of_suffix valid suffix, restEq, suffix⟩

end BTreeIterator

end Peridot
