import Peridot.ForEachEntry

/-!
# The identifiers of the objects of a tree

`GetObjectIdentifiers` of `btree/iterator.cc` collects the identifiers of nodes where it visits an
entry, so that a node without entries is found only by chance.
-/

namespace Peridot

open List TreeNode Visit NodeIdentifiers

/-- `GetObjectIdentifiers`: the calls of its callback. -/
def getObjectIdentifiers (ids : NodeIdentifiers) (read : NodeReader) (fuel : Nat)
    (rootIdentifier : ObjectIdentifier) : Call (List (Status × Finset ObjectIdentifier)) := do
  let onNext (state : Finset ObjectIdentifier × List (Status × Finset ObjectIdentifier))
      (e : EntryAndNodeIdentifier) :=
    ((insert e.nodeIdentifier (insert e.entry.objectIdentifier state.1), state.2), true)
  let onDone (state : Finset ObjectIdentifier × List (Status × Finset ObjectIdentifier))
      (status : Status) :=
    (state.1, state.2 ++ [if status ≠ .ok then (status, ∅) else (status, state.1)])
  let state ← forEachEntry ids read fuel rootIdentifier [] onNext onDone ({rootIdentifier}, [])
  return state.2

/-- The nodes that are reached from the root by the children of stored nodes. -/
inductive NodeBelow (read : NodeReader) (root : ObjectIdentifier) : ObjectIdentifier → Prop where
  | root : NodeBelow read root root
  | child {identifier child : ObjectIdentifier} {node : TreeNode} {index : Nat}
      (isBelow : NodeBelow read root identifier) (found : read identifier = some node)
      (isChild : (index, child) ∈ node.children) : NodeBelow read root child

variable {level : NodeLevelCalculator} {ids : NodeIdentifiers} {read : NodeReader}
  {store : NodeStore ids} {root identifier other : ObjectIdentifier} {node : TreeNode}
  {visit : EntryAndNodeIdentifier} {tree : LeveledTree Entry}

theorem NodeBelow.trans (first : NodeBelow read root identifier)
    (second : NodeBelow read identifier other) : NodeBelow read root other := by
  induction second with
  | root => exact first
  | child _ found isChild ih => exact .child ih found isChild

theorem NodeBelow.sound (isBelow : NodeBelow read root identifier)
    (isStored : ∃ node, read root = some node ∧ node.Sound read) :
    ∃ node, read identifier = some node ∧ node.Sound read := by
  induction isBelow with
  | root => exact isStored
  | child _ found isChild ih =>
    obtain ⟨parent, isParent, sound⟩ := ih
    cases isParent.symm.trans found
    obtain ⟨child, isFound, childSound, -⟩ := sound.child (childAt_eq_some.mpr isChild)
    exact ⟨child, isFound, childSound⟩

theorem Visit.mem_ofSpine {inner : Option ObjectIdentifier → List EntryAndNodeIdentifier}
    {spine : Spine (Option ObjectIdentifier) Entry} : visit ∈ Visit.ofSpine inner identifier spine ↔
      (∃ child ∈ spine.children, visit ∈ inner child) ∨
        visit.nodeIdentifier = identifier ∧ visit.entry ∈ spine.entries := by
  induction spine with
  | last child => simp [Visit.ofSpine, Visit.afterFirst, Spine.children, Spine.entries]
  | step child entry rest ih =>
    obtain ⟨visited, nodeIdentifier⟩ := visit
    rw [Visit.ofSpine] at ih
    simp only [Visit.ofSpine, Visit.afterFirst, Spine.first_step, Spine.children, Spine.entries,
      mem_append, mem_cons, EntryAndNodeIdentifier.mk.injEq] at ih ⊢
    rw [ih]
    simp only [exists_eq_or_imp]
    grind

theorem Visit.mem_below (found : store.read identifier = some node)
    (sound : node.Sound store.read) : visit ∈ Visit.below ids store.read (some identifier) ↔
      (∃ child ∈ node.children, visit ∈ Visit.below ids store.read (some child.2)) ∨
        visit.nodeIdentifier = identifier ∧ visit.entry ∈ node.entries := by
  rw [below_some found sound, store.identified found, mem_ofSpine, entries_spine, children_spine]
  apply or_congr_left
  constructor
  · rintro ⟨child, isChild, isVisit⟩
    obtain ⟨index, -, rfl⟩ := mem_map.mp isChild
    cases isSome : node.childAt index with
    | none =>
      rw [isSome] at isVisit
      exact absurd isVisit not_mem_nil
    | some child => exact ⟨(index, child), childAt_eq_some.mp isSome, isSome ▸ isVisit⟩
  · rintro ⟨⟨index, child⟩, isChild, isVisit⟩
    have inRange := sound.1 _ isChild
    have isSome := childAt_eq_some.mpr isChild
    exact ⟨some child, mem_map.mpr ⟨index, mem_range.mpr (by omega), isSome⟩, isVisit⟩

theorem Visit.node_of_mem_below {height : Nat} (found : store.read identifier = some node)
    (sound : node.Sound store.read) (isLow : node.level.toNat < height)
    (isVisit : visit ∈ Visit.below ids store.read (some identifier)) :
    NodeBelow store.read identifier visit.nodeIdentifier ∧
      ∃ other, store.read visit.nodeIdentifier = some other ∧ visit.entry ∈ other.entries := by
  induction height generalizing identifier node with
  | zero => omega
  | succ height ih =>
    rcases (mem_below found sound).mp isVisit with ⟨child, isChild, inChild⟩ | ⟨rfl, isEntry⟩
    · obtain ⟨childNode, isFound, childSound, oneBelow⟩ :=
        sound.child (childAt_eq_some.mpr isChild)
      obtain ⟨isBelow, isNode⟩ := ih isFound childSound (by omega) inChild
      exact ⟨(NodeBelow.root.child found isChild).trans isBelow, isNode⟩
    · exact ⟨.root, node, found, isEntry⟩

/-- Every entry of every node of the tree is visited there. -/
theorem Visit.mem_below_of_node (isStored : ∃ node, store.read root = some node ∧
    node.Sound store.read) (isBelow : NodeBelow store.read root identifier)
    (isVisit : visit ∈ Visit.below ids store.read (some identifier)) :
    visit ∈ Visit.below ids store.read (some root) := by
  induction isBelow with
  | root => exact isVisit
  | child isBelow found isChild ih =>
    obtain ⟨parent, isParent, sound⟩ := isBelow.sound isStored
    cases isParent.symm.trans found
    exact ih ((mem_below found sound).mpr (.inl ⟨_, isChild, isVisit⟩))

theorem runUntil_insert (calls : List (Status × Finset ObjectIdentifier))
    (visited : List EntryAndNodeIdentifier) (digests : Finset ObjectIdentifier) :
    ∃ result, (runUntil (fun (state : Finset ObjectIdentifier × List (Status × Finset _)) e =>
        ((insert e.nodeIdentifier (insert e.entry.objectIdentifier state.1), state.2), true))
        (digests, calls) visited).1 = (result, calls) ∧
      ∀ identifier, identifier ∈ result ↔ identifier ∈ digests ∨ ∃ visit ∈ visited,
        visit.nodeIdentifier = identifier ∨ visit.entry.objectIdentifier = identifier := by
  induction visited generalizing digests with
  | nil => exact ⟨digests, rfl, by simp⟩
  | cons visit visited ih =>
    obtain ⟨result, isResult, isMember⟩ :=
      ih (insert visit.nodeIdentifier (insert visit.entry.objectIdentifier digests))
    refine ⟨result, isResult, fun identifier => ?_⟩
    rw [isMember]
    simp only [Finset.mem_insert, mem_cons, exists_eq_or_imp, eq_comm (a := identifier)]
    grind

/-- `GetObjectIdentifiers` finds the identifiers of all nodes and values if and only if every node
below the root that has no entry has the identifier of a value. -/
theorem getObjectIdentifiers_iff (wellFormed : WellFormed level store.read root tree) :
    ∃ result, (∃ bound, ∀ fuel ≥ bound,
        getObjectIdentifiers ids store.read fuel root = .ok [(.ok, result)]) ∧
      ((∀ identifier, identifier ∈ result ↔ NodeBelow store.read root identifier ∨
          ∃ entry ∈ tree.contents, entry.objectIdentifier = identifier) ↔
        ∀ identifier node, NodeBelow store.read root identifier → identifier ≠ root →
          store.read identifier = some node → node.entries = [] →
            ∃ entry ∈ tree.contents, entry.objectIdentifier = identifier) := by
  obtain ⟨rootNode, isRoot, sound, -⟩ := sound_of_stored wellFormed.stored
  have isStored : ∃ node, store.read root = some node ∧ node.Sound store.read :=
    ⟨rootNode, isRoot, sound⟩
  obtain ⟨visited, suffix, isFrom, bound, visits⟩ :=
    forEachEntryInternal_spec ids wellFormed []
  -- All keys are from the empty key on, so that nothing is skipped.
  have allEntries : (Visit.below ids store.read (some root)).map (·.entry) = tree.contents :=
    (entries_below _).trans (Position.entries_below wellFormed.stored)
  have isAll : visited = Visit.below ids store.read (some root) := by
    apply suffix.eq_of_length
    have lengths := congrArg List.length isFrom
    rw [KeyedList.startingAt_eq_self fun _ _ => not_lt.mp (not_lt_nil _),
      ← allEntries] at lengths
    simpa only [length_map] using lengths
  have isContent : ∀ entry, entry ∈ tree.contents ↔ ∃ visit ∈ visited, visit.entry = entry := by
    intro entry
    rw [← allEntries, isAll, mem_map]
  obtain ⟨result, isResult, isMember⟩ := runUntil_insert [] visited {root}
  simp only [Finset.mem_singleton] at isMember
  refine ⟨result, ⟨bound, fun fuel enough => ?_⟩, ?_⟩
  · simp only [getObjectIdentifiers, forEachEntry, visits fuel enough, isResult]
    rfl
  constructor
  · intro finds identifier node isBelow notRoot found noEntries
    rcases (isMember identifier).mp ((finds identifier).mpr (.inl isBelow)) with
      isRoot | ⟨visit, isVisit, rfl | rfl⟩
    · exact absurd isRoot notRoot
    · rw [isAll] at isVisit
      obtain ⟨-, other, isOther, isEntry⟩ :=
        node_of_mem_below isRoot sound (Nat.lt_succ_self _) isVisit
      cases isOther.symm.trans found
      simp [noEntries] at isEntry
    · exact ⟨visit.entry, (isContent _).mpr ⟨visit, isVisit, rfl⟩, rfl⟩
  · intro findable identifier
    rw [isMember]
    constructor
    · rintro (rfl | ⟨visit, isVisit, rfl | rfl⟩)
      · exact .inl .root
      · rw [isAll] at isVisit
        exact .inl (node_of_mem_below isRoot sound (Nat.lt_succ_self _) isVisit).1
      · exact .inr ⟨visit.entry, (isContent _).mpr ⟨visit, isVisit, rfl⟩, rfl⟩
    · have ofValue : (∃ entry ∈ tree.contents, entry.objectIdentifier = identifier) →
          ∃ visit ∈ visited, visit.nodeIdentifier = identifier ∨
            visit.entry.objectIdentifier = identifier := by
        rintro ⟨entry, isEntry, rfl⟩
        obtain ⟨visit, isVisit, rfl⟩ := (isContent entry).mp isEntry
        exact ⟨visit, isVisit, .inr rfl⟩
      rintro (isBelow | isValue)
      · obtain ⟨node, found, nodeSound⟩ := isBelow.sound isStored
        by_cases isRoot : identifier = root
        · exact .inl isRoot
        right
        cases hasEntries : node.entries with
        | nil => exact ofValue (findable identifier node isBelow isRoot found hasEntries)
        | cons entry entries =>
          refine ⟨⟨entry, identifier⟩, ?_, .inl rfl⟩
          rw [isAll]
          apply mem_below_of_node isStored isBelow
          exact (mem_below found nodeSound).mpr (.inr ⟨rfl, by simp [hasEntries]⟩)
      · exact .inr (ofValue isValue)

def sparseLevel : NodeLevelCalculator :=
  fun key => if key = [20] then 2 else 0

/-- What `ToLevel` makes above a leaf: a node with one child and no entry. -/
def sparseParent : TreeNode :=
  ⟨1, [], [(0, byCode.identify ⟨0, [sampleEntry 30], [], sorted_childless⟩)],
    by decide⟩

def sparseRoot : TreeNode :=
  ⟨2, [sampleEntry 20], [(1, byCode.identify sparseParent)], by decide⟩

def sparseStore : NodeStore .byCode :=
  (((NodeStore.initial .byCode).add ⟨0, [sampleEntry 30], [], sorted_childless⟩).add sparseParent).add
    sparseRoot

def sparseTree : LeveledTree Entry :=
  ⟨3, .node (.step (.null 2) (sampleEntry 20) (.last (.node (.last (sampleLeaf [30])))))⟩

theorem sparse_wellFormed : WellFormed sparseLevel sparseStore.read
    (byCode.identify sparseRoot) sparseTree := by
  decide

theorem getObjectIdentifiers_iff_sample :
    ∃ result, (∃ bound, ∀ fuel ≥ bound, getObjectIdentifiers .byCode sparseStore.read fuel
        (byCode.identify sparseRoot) = .ok [(.ok, result)]) ∧
      ((∀ identifier, identifier ∈ result ↔
          NodeBelow sparseStore.read (byCode.identify sparseRoot) identifier ∨
            ∃ entry ∈ sparseTree.contents, entry.objectIdentifier = identifier) ↔ ∀ identifier node,
          NodeBelow sparseStore.read (byCode.identify sparseRoot) identifier →
          identifier ≠ byCode.identify sparseRoot →
          sparseStore.read identifier = some node → node.entries = [] →
            ∃ entry ∈ sparseTree.contents, entry.objectIdentifier = identifier) :=
  getObjectIdentifiers_iff sparse_wellFormed

/-- The node without entries is not found. -/
theorem not_getObjectIdentifiers :
    WellFormed sparseLevel sparseStore.read (byCode.identify sparseRoot)
        sparseTree ∧ NodeBelow sparseStore.read (byCode.identify sparseRoot)
        (byCode.identify sparseParent) ∧
      ∃ result, getObjectIdentifiers .byCode sparseStore.read 20
          (byCode.identify sparseRoot) = .ok [(.ok, result)] ∧
        byCode.identify sparseParent ∉ result := by
  have found : sparseStore.read (byCode.identify sparseRoot) = some sparseRoot := by
    decide
  refine ⟨sparse_wellFormed, .child .root found (mem_singleton_self _), _, rfl, ?_⟩
  decide

end Peridot
