import Mathlib.Algebra.Group.Nat.Defs
import Mathlib.Data.List.Perm.Subperm
import Peridot.NodeCode

/-!
# The encoding of tree nodes

`EncodeNode`, `DecodeNode` and `CheckValidTreeNodeSerialization` of `btree/encoding.cc`, over the
code that is generated from `tree_node.fbs`.  A child is stored with its index, for which there are
sixteen bits.
-/

namespace Peridot

open List KeyedList Function SelfDelimiting

structure ObjectIdentifierStorage where
  keyIndex : UInt32
  deletionScopeId : UInt32
  objectDigest : Bytes
deriving Inhabited

inductive KeyPriorityStorage where
  | eager
  | lazy
deriving Inhabited

structure EntryStorage where
  key : Bytes
  objectId : ObjectIdentifierStorage
  priority : KeyPriorityStorage
deriving Inhabited

structure ChildStorage where
  index : UInt16
  objectId : ObjectIdentifierStorage
deriving Inhabited

/-- `TreeNodeStorage`; the vectors may be absent from a buffer. -/
structure TreeNodeStorage where
  entries : Option (List EntryStorage)
  children : Option (List ChildStorage)
  level : UInt8
deriving Inhabited

/-- The generated code: a builder that is finished, the verifier and the root of a buffer. -/
structure TreeNodeFormat where
  finish : TreeNodeStorage → Bytes
  verifyTreeNodeStorageBuffer : Bytes → Bool
  getTreeNodeStorage : Bytes → TreeNodeStorage

/-- Every field is stored in its width, and what has been built is verified. -/
structure TreeNodeFormat.Faithful (format : TreeNodeFormat) : Prop where
  verify_finish : ∀ storage, format.verifyTreeNodeStorageBuffer (format.finish storage) = true
  get_finish : ∀ storage, format.getTreeNodeStorage (format.finish storage) = storage

def toKeyPriority : KeyPriorityStorage → KeyPriority
  | .eager => .eager
  | .lazy => .lazy

def toKeyPriorityStorage : KeyPriority → KeyPriorityStorage
  | .eager => .eager
  | .lazy => .lazy

def toObjectIdentifier (objectIdentifierStorage : ObjectIdentifierStorage) : ObjectIdentifier :=
  { keyIndex := objectIdentifierStorage.keyIndex
    deletionScopeId := objectIdentifierStorage.deletionScopeId
    objectDigest := objectIdentifierStorage.objectDigest }

def toObjectIdentifierStorage (objectIdentifier : ObjectIdentifier) : ObjectIdentifierStorage :=
  { keyIndex := objectIdentifier.keyIndex
    deletionScopeId := objectIdentifier.deletionScopeId
    objectDigest := objectIdentifier.objectDigest }

def toEntry (entryStorage : EntryStorage) : Entry :=
  { key := entryStorage.key
    objectIdentifier := toObjectIdentifier entryStorage.objectId
    priority := toKeyPriority entryStorage.priority }

/-- `CreateEntryStorage` on the parts of an entry. -/
def createEntryStorage (entry : Entry) : EntryStorage :=
  { key := entry.key
    objectId := toObjectIdentifierStorage entry.objectIdentifier
    priority := toKeyPriorityStorage entry.priority }

/-- `CreateChildStorage`: the `size_t` is passed as a `uint16_t`. -/
def createChildStorage (child : ℕ × ObjectIdentifier) : ChildStorage :=
  { index := UInt16.ofNat child.1
    objectId := toObjectIdentifierStorage child.2 }

def encodeNode (format : TreeNodeFormat) (level : UInt8) (entries : List Entry)
    (children : List (ℕ × ObjectIdentifier)) : Bytes :=
  format.finish
    { entries := some (entries.map createEntryStorage)
      children := some (children.map createChildStorage)
      level }

/-- `(*res_children)[index] = identifier`. -/
def insertChild (resChildren : List (ℕ × ObjectIdentifier)) (childStorage : ChildStorage) :
    List (ℕ × ObjectIdentifier) :=
  KeyedList.replaceAt Prod.fst childStorage.index.toNat
    [(childStorage.index.toNat, toObjectIdentifier childStorage.objectId)] resChildren

def decodeNode (format : TreeNodeFormat) (data : Bytes) :
    UInt8 × List Entry × List (ℕ × ObjectIdentifier) :=
  let treeNode := format.getTreeNodeStorage data
  (treeNode.level, (treeNode.entries.getD []).map toEntry,
    (treeNode.children.getD []).foldl insertChild [])

/-- The loop over the children: what the next index has to be at least, if the indexes increase. -/
def minNextIndex : ℕ → List ChildStorage → Option ℕ
  | expectedMinNextIndex, [] => some expectedMinNextIndex
  | expectedMinNextIndex, child :: children =>
    if child.index.toNat < expectedMinNextIndex then none
    else minNextIndex (child.index.toNat + 1) children

/-- `std::adjacent_find`: the part from the first two neighbours on, empty at the end. -/
def adjacentFind {α : Type} (holds : α → α → Bool) : List α → List α
  | first :: second :: rest =>
    if holds first second then first :: second :: rest
    else adjacentFind holds (second :: rest)
  | _ => []

def checkValidTreeNodeSerialization (format : TreeNodeFormat) (data : Bytes) : Bool :=
  if !format.verifyTreeNodeStorageBuffer data then false
  else
    let treeNode := format.getTreeNodeStorage data
    match treeNode.children, treeNode.entries with
    | some children, some entries =>
      if children.length > entries.length + 1 then false
      else
        match minNextIndex 0 children with
        | none => false
        | some expectedMinNextIndex =>
          if expectedMinNextIndex > entries.length + 1 then false
          else (adjacentFind (fun e1 e2 => decide (e1.key ≥ e2.key)) entries).isEmpty
    | _, _ => false

@[simp]
theorem toObjectIdentifier_storage (identifier : ObjectIdentifier) :
    toObjectIdentifier (toObjectIdentifierStorage identifier) = identifier :=
  rfl

@[simp]
theorem toKeyPriority_storage (priority : KeyPriority) :
    toKeyPriority (toKeyPriorityStorage priority) = priority := by
  cases priority <;> rfl

@[simp]
theorem toEntry_create (entry : Entry) : toEntry (createEntryStorage entry) = entry := by
  simp [toEntry, createEntryStorage]

theorem adjacentFind_eq_nil {α : Type} {holds : α → α → Bool} {elements : List α}
    (increasing : elements.Pairwise fun first second => holds first second = false) :
    adjacentFind holds elements = [] := by
  induction elements with
  | nil => rfl
  | cons first rest ih =>
    obtain ⟨ofFirst, ofRest⟩ := pairwise_cons.mp increasing
    cases rest with
    | nil => rfl
    | cons second rest =>
      have notHere := ofFirst second (mem_cons_self ..)
      rw [adjacentFind, notHere]
      exact ih ofRest

variable {entries : List Entry}

theorem entries_inOrder (sorted : Sorted Entry.key entries) :
    adjacentFind (fun e1 e2 => decide (e1.key ≥ e2.key)) (entries.map createEntryStorage) = [] := by
  apply adjacentFind_eq_nil
  rw [pairwise_map]
  apply sorted.imp
  intro first second less
  simpa [createEntryStorage] using less

theorem toNat_index_create (child : ℕ × ObjectIdentifier) :
    (createChildStorage child).index.toNat = child.1 % 2 ^ 16 := by
  simp [createChildStorage]

variable {resChildren : List (ℕ × ObjectIdentifier)}

/-- Whatever has been stored, the indexes that are read fit in sixteen bits. -/
theorem index_insertChildren_lt {childStorages : List ChildStorage}
    (fit : ∀ child ∈ resChildren, child.1 < 2 ^ 16) :
    ∀ child ∈ childStorages.foldl insertChild resChildren, child.1 < 2 ^ 16 := by
  induction childStorages generalizing resChildren with
  | nil => exact fit
  | cons childStorage childStorages ih =>
    apply ih
    intro child isChild
    rcases mem_replaceAt.mp isChild with isNew | ⟨isOld, -⟩
    · rw [mem_singleton.mp isNew]
      exact childStorage.index.toNat_lt
    · exact fit child isOld

variable {children : List (ℕ × ObjectIdentifier)}

theorem insertChildren_create (sorted : Sorted Prod.fst (resChildren ++ children))
    (fit : ∀ child ∈ children, child.1 < 2 ^ 16) :
    (children.map createChildStorage).foldl insertChild resChildren = resChildren ++ children := by
  induction children generalizing resChildren with
  | nil => simp
  | cons child children ih =>
    have isIndex : (createChildStorage child).index.toNat = child.1 := by
      rw [toNat_index_create]
      exact Nat.mod_eq_of_lt (fit child (mem_cons_self ..))
    have allBelow : ∀ other ∈ resChildren, other.1 < child.1 := fun other isOther =>
      (sorted_append.mp sorted).2.2 other isOther child (mem_cons_self ..)
    have inserted : insertChild resChildren (createChildStorage child) =
        resChildren ++ [child] := by
      rw [insertChild, isIndex, replaceAt, below_eq_self allBelow,
        above_eq_nil fun other isOther => (allBelow other isOther).le]
      simp [createChildStorage]
    rw [map_cons, foldl_cons, inserted, ih]
    · simp
    · simpa using sorted
    · intro other isOther
      exact fit other (mem_cons_of_mem _ isOther)

/-- The loop over the children accepts indexes that increase and are in range. -/
theorem minNextIndex_create {least bound : ℕ}
    (sorted : Sorted Prod.fst children) (fit : ∀ child ∈ children, child.1 < 2 ^ 16)
    (fromLeast : ∀ child ∈ children, least ≤ child.1) (isLeast : least ≤ bound + 1)
    (inRange : ∀ child ∈ children, child.1 ≤ bound) :
    ∃ next, minNextIndex least (children.map createChildStorage) = some next ∧ next ≤ bound + 1 := by
  induction children generalizing least with
  | nil => exact ⟨least, rfl, isLeast⟩
  | cons child children ih =>
    obtain ⟨ofChild, ofChildren⟩ := sorted_cons.mp sorted
    have isIndex : (createChildStorage child).index.toNat = child.1 := by
      rw [toNat_index_create]
      exact Nat.mod_eq_of_lt (fit child (mem_cons_self ..))
    have notLess := fromLeast child (mem_cons_self ..)
    have isBounded := inRange child (mem_cons_self ..)
    rw [map_cons, minNextIndex, isIndex, if_neg (by omega)]
    apply ih ofChildren
    · exact fun other isOther => fit other (mem_cons_of_mem _ isOther)
    · exact ofChild
    · omega
    · exact fun other isOther => inRange other (mem_cons_of_mem _ isOther)

theorem length_le_of_inRange {bound : ℕ}
    (sorted : Sorted Prod.fst children) (inRange : ∀ child ∈ children, child.1 ≤ bound) :
    children.length ≤ bound + 1 := by
  have nodup : (children.map Prod.fst).Nodup := by
    rw [List.Nodup, pairwise_map]
    exact sorted.imp fun less => less.ne
  have isSubset : children.map Prod.fst ⊆ range (bound + 1) := by
    intro index isIndex
    obtain ⟨child, isChild, rfl⟩ := mem_map.mp isIndex
    exact mem_range.mpr (Nat.lt_succ_of_le (inRange child isChild))
  have isShort := (subperm_of_subset nodup isSubset).length_le
  simpa using isShort

variable {format : TreeNodeFormat}

theorem decodeNode_encodeNode_eq (faithful : format.Faithful) (level : UInt8)
    (entries : List Entry) (children : List (ℕ × ObjectIdentifier)) :
    decodeNode format (encodeNode format level entries children) =
      (level, entries, (children.map createChildStorage).foldl insertChild []) := by
  simp [decodeNode, encodeNode, faithful.get_finish, comp_def]

theorem checkValid_encodeNode (faithful : format.Faithful) (level : UInt8)
    (sorted : Sorted Entry.key entries) (childrenSorted : Sorted Prod.fst children)
    (inRange : ∀ child ∈ children, child.1 ≤ entries.length)
    (fit : ∀ child ∈ children, child.1 < 2 ^ 16) :
    checkValidTreeNodeSerialization format (encodeNode format level entries children) = true := by
  have isShort := length_le_of_inRange childrenSorted inRange
  obtain ⟨next, isNext, isBounded⟩ := minNextIndex_create childrenSorted fit
    (fun _ _ => Nat.zero_le _) (Nat.zero_le _) inRange
  rw [checkValidTreeNodeSerialization, encodeNode, faithful.verify_finish, faithful.get_finish]
  simp only [Bool.not_true, Bool.false_eq_true, if_false, length_map, isNext,
    entries_inOrder sorted, isEmpty_nil]
  rw [if_neg (by omega), if_neg (by omega)]

/-- A node is read as it was written if and only if the indexes of its children fit. -/
theorem decodeNode_encodeNode_iff (faithful : format.Faithful) (level : UInt8)
    {entries : List Entry} (sorted : KeyedList.Sorted Entry.key entries)
    {children : List (ℕ × ObjectIdentifier)} (childrenSorted : KeyedList.Sorted Prod.fst children)
    (inRange : ∀ child ∈ children, child.1 ≤ entries.length) :
    (checkValidTreeNodeSerialization format (encodeNode format level entries children) = true ∧
      decodeNode format (encodeNode format level entries children) = (level, entries, children)) ↔
      ∀ child ∈ children, child.1 < 2 ^ 16 := by
  constructor
  · rintro ⟨-, isDecoded⟩
    rw [decodeNode_encodeNode_eq faithful] at isDecoded
    obtain ⟨-, -, sameChildren⟩ := by simpa only [Prod.mk.injEq] using isDecoded
    rw [← sameChildren]
    exact index_insertChildren_lt (by simp)
  · intro fit
    constructor
    · exact checkValid_encodeNode faithful level sorted childrenSorted inRange fit
    · have read : (children.map createChildStorage).foldl insertChild [] = [] ++ children :=
        insertChildren_create childrenSorted fit
      rw [decodeNode_encodeNode_eq faithful, read]
      rfl

def entryStorageCode (entryStorage : EntryStorage) : Bytes :=
  entryCode (toEntry entryStorage)

def childStorageCode (childStorage : ChildStorage) : Bytes :=
  natCode childStorage.index.toNat ++ identifierCode (toObjectIdentifier childStorage.objectId)

def treeNodeStorageCode (storage : TreeNodeStorage) : Bytes :=
  [storage.level] ++ (listCode (listCode entryStorageCode) storage.entries.toList ++
    listCode (listCode childStorageCode) storage.children.toList)

theorem option_toList_injective {α : Type} :
    Function.Injective (Option.toList : Option α → List α) := by
  intro first second same
  cases first <;> cases second <;> simp_all

theorem toObjectIdentifier_injective : Function.Injective toObjectIdentifier := by
  rintro ⟨_, _, _⟩ ⟨_, _, _⟩ same
  simpa [toObjectIdentifier] using same

theorem toEntry_injective : Function.Injective toEntry := by
  rintro ⟨key, objectId, priority⟩ ⟨otherKey, otherId, otherPriority⟩ same
  simp only [toEntry, Entry.mk.injEq] at same
  obtain ⟨rfl, sameId, samePriority⟩ := same
  obtain rfl := toObjectIdentifier_injective sameId
  cases priority <;> cases otherPriority <;> simp [toKeyPriority] at samePriority <;> rfl

theorem childStorageCode_selfDelimiting : SelfDelimiting childStorageCode := by
  apply comp (natCode_selfDelimiting.append identifierCode_selfDelimiting)
    (f := fun child : ChildStorage => (child.index.toNat, toObjectIdentifier child.objectId))
  rintro ⟨index, objectId⟩ ⟨otherIndex, otherId⟩ same
  simp only [Prod.mk.injEq, UInt16.toNat_inj] at same
  rw [same.1, toObjectIdentifier_injective same.2]

theorem treeNodeStorageCode_injective : Function.Injective treeNodeStorageCode := by
  apply injective
  apply comp (singleton.append
    ((entryCode_selfDelimiting.comp toEntry_injective).list.list.append
      childStorageCode_selfDelimiting.list.list))
    (f := fun storage : TreeNodeStorage =>
      (storage.level, storage.entries.toList, storage.children.toList))
  rintro ⟨entries, children, level⟩ ⟨otherEntries, otherChildren, otherLevel⟩ same
  simp only [Prod.mk.injEq] at same
  rw [same.1, option_toList_injective same.2.1, option_toList_injective same.2.2]

noncomputable def codeTreeNodes : TreeNodeFormat where
  finish := treeNodeStorageCode
  verifyTreeNodeStorageBuffer data := (Function.partialInv treeNodeStorageCode data).isSome
  getTreeNodeStorage data := (Function.partialInv treeNodeStorageCode data).getD default

theorem codeTreeNodes_faithful : codeTreeNodes.Faithful where
  verify_finish storage := by
    simp [codeTreeNodes, partialInv_left treeNodeStorageCode_injective]
  get_finish storage := by
    simp [codeTreeNodes, partialInv_left treeNodeStorageCode_injective]

/-- Entries whose keys have two bytes. -/
def manyEntries (count : ℕ) : List Entry :=
  (List.range count).map fun number =>
    ⟨[UInt8.ofNat (number / 256), UInt8.ofNat number], default, .eager⟩

theorem length_manyEntries (count : ℕ) : (manyEntries count).length = count := by simp [manyEntries]

theorem manyEntries_sorted {count : ℕ} (inRange : count ≤ 65536) :
    Sorted Entry.key (manyEntries count) := by
  rw [Sorted, manyEntries, pairwise_map]
  apply pairwise_lt_range.imp_of_mem
  intro first second _ isIn less
  rw [mem_range] at isIn
  simp only [cons_lt_cons_iff, UInt8.lt_iff_toNat_lt, ← UInt8.toNat_inj, UInt8.toNat_ofNat']
  omega

theorem decodeNode_encodeNode_iff_sample : (checkValidTreeNodeSerialization codeTreeNodes
      (encodeNode codeTreeNodes 1 (manyEntries 2) [(0, default), (2, default)]) = true ∧
    decodeNode codeTreeNodes
        (encodeNode codeTreeNodes 1 (manyEntries 2) [(0, default), (2, default)]) =
      (1, manyEntries 2, [(0, default), (2, default)])) ↔
    ∀ child ∈ ([(0, default), (2, default)] : List (ℕ × ObjectIdentifier)), child.1 < 2 ^ 16 :=
  decodeNode_encodeNode_iff codeTreeNodes_faithful 1 (manyEntries_sorted (by decide)) (by decide) (by decide)

/-- The child after 65536 entries comes back before them. -/
theorem not_decodeNode_encodeNode : KeyedList.Sorted Entry.key (manyEntries 65536) ∧
    (∀ child ∈ ([(65536, default)] : List (ℕ × ObjectIdentifier)),
      child.1 ≤ (manyEntries 65536).length) ∧ decodeNode codeTreeNodes
        (encodeNode codeTreeNodes 1 (manyEntries 65536) [(65536, default)]) =
      (1, manyEntries 65536, [(0, default)]) ∧ decodeNode codeTreeNodes
        (encodeNode codeTreeNodes 1 (manyEntries 65536) [(65536, default)]) ≠
      (1, manyEntries 65536, [(65536, default)]) := by
  have isDecoded : decodeNode codeTreeNodes
      (encodeNode codeTreeNodes 1 (manyEntries 65536) [(65536, default)]) =
        (1, manyEntries 65536, [(0, default)]) := by
    rw [decodeNode_encodeNode_eq codeTreeNodes_faithful]
    rfl
  refine ⟨manyEntries_sorted le_rfl, ?_, isDecoded, ?_⟩
  · intro child isChild
    rw [mem_singleton.mp isChild, length_manyEntries]
  · rw [isDecoded]
    simp

end Peridot
