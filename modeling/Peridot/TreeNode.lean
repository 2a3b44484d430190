import Peridot.StorageTypes
import Peridot.LeveledTreeRoot

/-!
# Tree nodes and the object store

`TreeNode` of `btree/tree_node.h`, the part of the page storage that reads and
writes such nodes, and what it means that a store holds a tree under a root
identifier.
-/

namespace Peridot

open Function KeyedList

/-- How a storage call can fail; `outOfFuel` marks an unfinished computation. -/
inductive Fault where
  | status (status : Status)
  | outOfFuel
deriving DecidableEq

abbrev Call := Except Fault

theorem Call.bind_eq_ok {α β : Type} {call : Call α} {next : α → Call β} {result : β} :
    call >>= next = .ok result ↔ ∃ value, call = .ok value ∧ next value = .ok result := by
  cases call <;> simp [bind, Except.bind]

/-- `TreeNode`; the children are the items of a `std::map` by position. -/
structure TreeNode where
  level : UInt8
  entries : List Entry
  children : List (Nat × ObjectIdentifier)
  childrenSorted : KeyedList.Sorted Prod.fst children
deriving DecidableEq

theorem sorted_childless : KeyedList.Sorted Prod.fst ([] : List (Nat × ObjectIdentifier)) :=
  sorted_nil

/-- `NodeLevelCalculator`: the level of every key. -/
abbrev NodeLevelCalculator := Key → UInt8

/-- `GetEntryOrChildIndex`: `std::lower_bound` on the keys of the entries. -/
def getEntryOrChildIndex (entries : List Entry) (key : Key) : Nat :=
  Spine.position (Spine.beforeKey Entry.key key) entries

abbrev NodeReader := ObjectIdentifier → Option TreeNode

def NodeReader.treeNodeFromIdentifier (read : NodeReader) (identifier : ObjectIdentifier) :
    Call TreeNode :=
  match read identifier with
  | some node => .ok node
  | none => .error (.status .notFound)

/-- The identifier that the storage derives from the encoding of a node. -/
structure NodeIdentifiers where
  identify : TreeNode → ObjectIdentifier
  injective : Function.Injective identify
  digest_ne_nil : ∀ node, (identify node).objectDigest ≠ []

/-- A storage whose nodes are found under their own identifiers. -/
structure NodeStore (ids : NodeIdentifiers) where
  read : NodeReader
  identified : ∀ {identifier node}, read identifier = some node →
    ids.identify node = identifier

namespace NodeStore

variable {ids : NodeIdentifiers}

/-- `TreeNode::FromEntries`: store a node under its identifier. -/
def add (store : NodeStore ids) (node : TreeNode) : NodeStore ids where
  read := Function.update store.read (ids.identify node) (some node)
  identified := by
    intro identifier found stored
    by_cases same : identifier = ids.identify node
    · subst same
      rw [Function.update_self] at stored
      rw [Option.some.inj stored]
    · rw [Function.update_of_ne same] at stored
      exact store.identified stored

/-- What the earlier store has is read from the later one. -/
def Extends (later earlier : NodeReader) : Prop :=
  ∀ identifier node, earlier identifier = some node → later identifier = some node

theorem Extends.refl (read : NodeReader) : Extends read read :=
  fun _ _ found => found

theorem Extends.trans {first second third : NodeReader} (later : Extends third second)
    (earlier : Extends second first) : Extends third first :=
  fun identifier node found => later identifier node (earlier identifier node found)

theorem add_extends (store : NodeStore ids) (node : TreeNode) :
    Extends (store.add node).read store.read := by
  intro identifier found stored
  by_cases same : identifier = ids.identify node
  · subst same
    rw [ids.injective (store.identified stored)]
    exact update_self ..
  · exact (update_of_ne same ..).trans stored

theorem add_read (store : NodeStore ids) (node : TreeNode) :
    (store.add node).read (ids.identify node) = some node :=
  update_self ..

end NodeStore

namespace TreeNode

/-- `children_.find(index)`. -/
def childAt (node : TreeNode) (index : Nat) : Option ObjectIdentifier :=
  (KeyedList.find Prod.fst node.children index).map Prod.snd

def spine (node : TreeNode) : Spine (Option ObjectIdentifier) Entry :=
  Spine.ofList node.childAt 0 node.entries

/-- All child positions are between `0` and the number of entries. -/
def InRange (node : TreeNode) : Prop :=
  ∀ child ∈ node.children, child.1 ≤ node.entries.length

instance (node : TreeNode) : Decidable node.InRange :=
  inferInstanceAs (Decidable (∀ child ∈ node.children, child.1 ≤ node.entries.length))

theorem entries_spine (node : TreeNode) : node.spine.entries = node.entries :=
  Spine.entries_ofList ..

theorem children_spine (node : TreeNode) :
    node.spine.children = (List.range (node.entries.length + 1)).map node.childAt := by
  rw [spine, Spine.children_ofList]
  simp [List.range_eq_range']

variable {node : TreeNode} {index : Nat}

theorem childAt_eq_some {identifier : ObjectIdentifier} :
    node.childAt index = some identifier ↔ (index, identifier) ∈ node.children := by
  rw [childAt, Option.map_eq_some_iff]
  constructor
  · rintro ⟨⟨index', identifier'⟩, found, rfl⟩
    obtain rfl : index' = index := key_of_find found
    exact mem_of_find found
  · intro member
    exact ⟨_, find_of_mem node.childrenSorted member, rfl⟩

theorem childAt_of_length_lt (inRange : node.InRange)
    (beyond : node.entries.length < index) : node.childAt index = none := by
  rw [Option.eq_none_iff_forall_not_mem]
  intro identifier found
  have := inRange _ (childAt_eq_some.mp found)
  omega

/-- A node is determined by its level, its entries and its children in order. -/
theorem eq_of_spine_eq {first second : TreeNode} (levels : first.level = second.level)
    (spines : first.spine = second.spine) (firstRange : first.InRange)
    (secondRange : second.InRange) : first = second := by
  have entriesEq : first.entries = second.entries := by rw [← entries_spine, spines, entries_spine]
  have childrenAt : ∀ index, first.childAt index = second.childAt index := by
    intro index
    by_cases beyond : first.entries.length < index
    · rw [childAt_of_length_lt firstRange beyond,
        childAt_of_length_lt secondRange (entriesEq ▸ beyond)]
    · have childrenEq := congrArg (fun spine => spine.children[index]?) spines
      simp only [children_spine, entriesEq] at childrenEq
      rw [List.getElem?_map, List.getElem?_map, List.getElem?_range (by rw [← entriesEq]; omega)]
        at childrenEq
      exact Option.some.inj childrenEq
  have childrenEq : first.children = second.children := by
    refine eq_of_mem_iff first.childrenSorted second.childrenSorted fun child => ?_
    rw [← childAt_eq_some, ← childAt_eq_some, childrenAt]
  obtain ⟨level, entries, children, childrenSorted⟩ := first
  obtain ⟨level', entries', children', childrenSorted'⟩ := second
  obtain rfl : level = level' := levels
  obtain rfl : entries = entries' := entriesEq
  obtain rfl : children = children' := childrenEq
  rfl

end TreeNode

/-- The storage holds a subtree under an identifier, or both are absent. -/
def Stored (read : NodeReader) : (n : Nat) → Option ObjectIdentifier → Slot Entry n → Prop
  | 0, identifier, _ => identifier = none
  | n + 1, none, slot => slot = .null (n + 1)
  | n + 1, some identifier, slot =>
    ∃ node spine, read identifier = some node ∧ slot = .node spine ∧
      node.level.toNat = n ∧ node.InRange ∧ node.spine.Rel (Stored read n) spine

instance Stored.decidable (read : NodeReader) : (n : Nat) →
    (identifier : Option ObjectIdentifier) → (slot : Slot Entry n) →
      Decidable (Stored read n identifier slot)
  | 0, identifier, _ => inferInstanceAs (Decidable (identifier = none))
  | _ + 1, none, none => .isTrue rfl
  | _ + 1, none, some _ => .isFalse nofun
  | _ + 1, some _, none => .isFalse fun ⟨_, _, _, nodeEq, _⟩ => nomatch nodeEq
  | n + 1, some identifier, some spine =>
    have := Stored.decidable read n
    match found : read identifier with
    | none => .isFalse fun ⟨_, _, stored, _⟩ => nomatch found.symm.trans stored
    | some node =>
      decidable_of_iff
        (node.level.toNat = n ∧ node.InRange ∧ node.spine.Rel (Stored read n) spine)
        ⟨fun holds => ⟨node, spine, found, rfl, holds⟩,
          fun ⟨_, _, stored, nodeEq, holds⟩ => by
            cases found.symm.trans stored
            cases nodeEq
            exact holds⟩

variable {root : ObjectIdentifier}

namespace Stored

variable {read : NodeReader} {n : Nat}

theorem null (n : Nat) : Stored read n none (.null n) := by
  cases n <;> rfl

variable {identifier : Option ObjectIdentifier} {slot : Slot Entry n} {ids : NodeIdentifiers}
    {store other : NodeStore ids}

theorem isNull (stored : Stored read n identifier slot) : slot.isNull n = identifier.isNone := by
  cases n with
  | zero =>
    rw [show identifier = none from stored]
    rfl
  | succ n =>
    cases identifier with
    | none => rw [show slot = .null (n + 1) from stored]; rfl
    | some identifier =>
      obtain ⟨node, spine, -, rfl, -⟩ := stored
      rfl

theorem mono {later : NodeReader} (larger : NodeStore.Extends later read)
    (stored : Stored read n identifier slot) : Stored later n identifier slot := by
  induction n generalizing identifier with
  | zero => exact stored
  | succ n ih =>
    cases identifier with
    | none => exact stored
    | some identifier =>
      obtain ⟨node, spine, found, slotEq, level, inRange, rel⟩ := stored
      exact ⟨node, spine, larger _ _ found, slotEq, level, inRange, rel.mono fun _ _ => ih⟩

/-- Identifiers are made from the content alone, so they agree between storages. -/
theorem identifier_unique {first second : Option ObjectIdentifier}
    (storedFirst : Stored store.read n first slot)
    (storedSecond : Stored other.read n second slot) : first = second := by
  induction n generalizing first second with
  | zero => exact Eq.trans storedFirst (Eq.symm storedSecond)
  | succ n ih =>
    have sameNone : first.isNone = second.isNone :=
      storedFirst.isNull.symm.trans storedSecond.isNull
    cases first with
    | none =>
      cases second with
      | none => rfl
      | some second => simp at sameNone
    | some first =>
      cases second with
      | none => simp at sameNone
      | some second =>
        obtain ⟨node, spine, found, slotEq, level, inRange, rel⟩ := storedFirst
        obtain ⟨node', spine', found', slotEq', level', inRange', rel'⟩ := storedSecond
        obtain rfl := Slot.node_injective (slotEq.symm.trans slotEq')
        have spines : node.spine = node'.spine := rel.left_unique rel' fun _ _ _ => ih
        have nodes : node = node' :=
          TreeNode.eq_of_spine_eq (UInt8.toNat_inj.mp (level.trans level'.symm)) spines
            inRange inRange'
        rw [← store.identified found, ← other.identified found', nodes]

theorem height_unique {first second : LeveledTree Entry}
    (storedFirst : Stored store.read first.height (some root) first.slot)
    (storedSecond : Stored other.read second.height (some root) second.slot) :
    first.height = second.height := by
  obtain ⟨height, slot⟩ := first
  obtain ⟨height', slot'⟩ := second
  cases height with
  | zero => exact absurd storedFirst (by simp [Stored])
  | succ n =>
    cases height' with
    | zero => exact absurd storedSecond (by simp [Stored])
    | succ n' =>
      obtain ⟨node, -, found, -, level, -⟩ := storedFirst
      obtain ⟨node', -, found', -, level', -⟩ := storedSecond
      have nodes : node = node' :=
        ids.injective ((store.identified found).trans (other.identified found').symm)
      simp only
      rw [← level, ← level', nodes]

theorem slot_agree {first second : Slot Entry n}
    (storedFirst : Stored store.read n identifier first)
    (storedSecond : Stored other.read n identifier second) : first = second := by
  induction n generalizing identifier with
  | zero => rfl
  | succ n ih =>
    cases identifier with
    | none => exact Eq.trans storedFirst (Eq.symm storedSecond)
    | some identifier =>
      obtain ⟨node, spine, found, rfl, -, -, rel⟩ := storedFirst
      obtain ⟨node', spine', found', rfl, -, -, rel'⟩ := storedSecond
      obtain rfl : node = node' :=
        ids.injective ((store.identified found).trans (other.identified found').symm)
      rw [rel.right_unique rel' fun _ _ _ => ih]

theorem tree_agree {first second : LeveledTree Entry}
    (storedFirst : Stored store.read first.height (some root) first.slot)
    (storedSecond : Stored other.read second.height (some root) second.slot) : first = second := by
  have heights := height_unique storedFirst storedSecond
  obtain ⟨height, slot⟩ := first
  obtain ⟨height', slot'⟩ := second
  obtain rfl : height = height' := heights
  have slots : slot = slot' := slot_agree storedFirst storedSecond
  rw [slots]

theorem digest_ne_nil {identifier : ObjectIdentifier}
    (stored : Stored store.read n (some identifier) slot) : identifier.objectDigest ≠ [] := by
  cases n with
  | zero => exact absurd stored (by simp [Stored])
  | succ n =>
    obtain ⟨node, -, found, -⟩ := stored
    rw [← store.identified found]
    exact ids.digest_ne_nil node

end Stored

def NodeLevelCalculator.entryLevel (level : NodeLevelCalculator) (entry : Entry) : Nat :=
  (level entry.key).toNat

/-- The storage holds the well-formed tree `tree` under the identifier `root`: the
keys increase in order, every entry is in a node of the level of its key, and every
child is one level below its parent and between its neighbouring entries. -/
structure WellFormed (level : NodeLevelCalculator) (read : NodeReader)
    (root : ObjectIdentifier) (tree : LeveledTree Entry) : Prop where
  stored : Stored read tree.height (some root) tree.slot
  sorted : KeyedList.Sorted Entry.key tree.contents
  leveled : tree.Shaped level.entryLevel .loose

theorem wellFormed_iff {level : NodeLevelCalculator} {read : NodeReader}
    {tree : LeveledTree Entry} : WellFormed level read root tree ↔
      Stored read tree.height (some root) tree.slot ∧
        KeyedList.Sorted Entry.key tree.contents ∧ tree.Shaped level.entryLevel .loose :=
  ⟨fun ⟨stored, sorted, leveled⟩ => ⟨stored, sorted, leveled⟩,
    fun ⟨stored, sorted, leveled⟩ => ⟨stored, sorted, leveled⟩⟩

instance (level : NodeLevelCalculator) (read : NodeReader) (root : ObjectIdentifier)
    (tree : LeveledTree Entry) : Decidable (WellFormed level read root tree) :=
  decidable_of_iff _ wellFormed_iff.symm

end Peridot
