import Peridot.TreeNode
import Mathlib.Data.Finset.Insert

/-!
# Applying changes to a stored tree

`NodeBuilder` of `btree/builder.cc`.  A builder is a tree node under
construction: an existing node whose content may not be loaded yet, a new node,
or no node at all.  `applyChanges` loads the root, applies all changes and then
stores the new nodes bottom-up, in rounds.
-/

namespace Peridot

inductive BuilderType where
  | existingNode
  | newNode
  | nullNode
deriving DecidableEq

structure NodeBuilder where
  type : BuilderType
  level : UInt8
  objectIdentifier : ObjectIdentifier
  entries : List Entry
  children : List NodeBuilder

namespace NodeBuilder

def null : NodeBuilder :=
  ⟨.nullNode, 0, default, [], []⟩

/-- The negation of `operator bool`. -/
def isNull (builder : NodeBuilder) : Bool :=
  builder.type == .nullNode

def isNew (builder : NodeBuilder) : Bool :=
  builder.type == .newNode

/-- `children_[index]`. -/
def child (builder : NodeBuilder) (index : Nat) : NodeBuilder :=
  builder.children.getD index null

/-- `entries_.empty() && !children_[0]`. -/
def isVoid (builder : NodeBuilder) : Bool :=
  builder.entries.isEmpty && (builder.child 0).isNull

def createExistingBuilder (level : UInt8) (objectIdentifier : ObjectIdentifier) : NodeBuilder :=
  ⟨.existingNode, level, objectIdentifier, [], []⟩

def createNewBuilder (level : UInt8) (entries : List Entry) (children : List NodeBuilder) :
    NodeBuilder :=
  let builder : NodeBuilder := ⟨.newNode, level, default, entries, children⟩
  if builder.isVoid then null else builder

/-- The children loop of `ExtractContent`: `nextIndex` is the next position to fill. -/
def extractChildren (level : UInt8) (size : Nat) :
    Nat → List (Nat × ObjectIdentifier) → List NodeBuilder
  | nextIndex, [] => List.replicate (size + 1 - nextIndex) null
  | nextIndex, child :: rest =>
    List.replicate (child.1 - nextIndex) null ++
      createExistingBuilder (level - 1) child.2 ::
        extractChildren level size (max nextIndex child.1 + 1) rest

/-- `ExtractContent`: load the content of `node` into the builder. -/
def extractContent (node : TreeNode) (builder : NodeBuilder) : NodeBuilder :=
  { builder with
    entries := node.entries
    children := extractChildren node.level node.entries.length 0 node.children }

def computeContent (read : NodeReader) (builder : NodeBuilder) : Call NodeBuilder :=
  if builder.children.isEmpty then do
    let node ← read.treeNodeFromIdentifier builder.objectIdentifier
    return builder.extractContent node
  else return builder

def fromIdentifier (read : NodeReader) (objectIdentifier : ObjectIdentifier) :
    Call NodeBuilder := do
  let node ← read.treeNodeFromIdentifier objectIdentifier
  return (createExistingBuilder node.level objectIdentifier).extractContent node

/-- One turn of the loop of `ToLevel`. -/
def addParent (builder : NodeBuilder) : NodeBuilder :=
  createNewBuilder (builder.level + 1) [] [builder]

/-- `ToLevel`: the loop runs once for every missing level. -/
def toLevel (targetLevel : UInt8) (builder : NodeBuilder) : NodeBuilder :=
  if builder.isNull then builder
  else addParent^[targetLevel.toNat - builder.level.toNat] builder

/-- `Split`: the left and the right tree.  `fuel` bounds the recursion depth. -/
def split (read : NodeReader) (key : Key) :
    Nat → NodeBuilder → Call (NodeBuilder × NodeBuilder)
  | 0, _ => .error .outOfFuel
  | fuel + 1, builder =>
    if builder.isNull then return (builder, null)
    else do
      let this ← builder.computeContent read
      let splitIndex := getEntryOrChildIndex this.entries key
      let childToSplit := this.child splitIndex
      if splitIndex = 0 ∧ childToSplit.isNull then return (null, this)
      else if splitIndex = this.entries.length ∧ childToSplit.isNull then
        return (this, null)
      else
        let (left, subRight) ← split read key fuel childToSplit
        let right := createNewBuilder this.level (this.entries.drop splitIndex)
          (subRight :: this.children.drop (splitIndex + 1))
        let rest : NodeBuilder :=
          { this with
            type := .newNode
            entries := this.entries.take splitIndex
            children := (this.children.set splitIndex left).take (splitIndex + 1) }
        return (if rest.isVoid then null else rest, right)

/-- `Merge`: everything in `other` is greater. -/
def merge (read : NodeReader) : Nat → NodeBuilder → NodeBuilder → Call NodeBuilder
  | 0, _, _ => .error .outOfFuel
  | fuel + 1, builder, other =>
    if other.isNull then return builder
    else if builder.isNull then return other
    else do
      let this ← builder.computeContent read
      let other ← other.computeContent read
      let middle ← merge read fuel (this.children.getLastD null) (other.child 0)
      return { this with
        type := .newNode
        entries := this.entries ++ other.entries
        children := this.children.dropLast ++ middle :: other.children.tail }

/-- `Delete`; `didMutate` is the caller's variable, left alone above this level. -/
def delete (read : NodeReader) (fuel : Nat) (keyLevel : UInt8) (key : Key) (didMutate : Bool)
    (builder : NodeBuilder) : Call (NodeBuilder × Bool) :=
  if keyLevel > builder.level then return (builder, didMutate)
  else do
    let this ← builder.computeContent read
    let index := getEntryOrChildIndex this.entries key
    if (this.entries[index]?).map Entry.key ≠ some key then return (this, false)
    else
      let merged ← merge read fuel (this.child index) (this.child (index + 1))
      let rest : NodeBuilder :=
        { this with
          type := .newNode
          entries := this.entries.eraseIdx index
          children := (this.children.set index merged).eraseIdx (index + 1) }
      return (if rest.isVoid then null else rest, true)

/-- The end of `Update`: split the child around the new key and put the entry
between the halves. -/
def insertEntry (read : NodeReader) (fuel : Nat) (entry : Entry) (this : NodeBuilder)
    (splitIndex : Nat) : Call (NodeBuilder × Bool) := do
  let (left, right) ← split read entry.key fuel (this.child splitIndex)
  return ({ this with
    type := .newNode
    entries := this.entries.insertIdx splitIndex entry
    children := (this.children.set splitIndex left).insertIdx (splitIndex + 1) right }, true)

def update (read : NodeReader) (fuel : Nat) (changeLevel : UInt8) (entry : Entry)
    (builder : NodeBuilder) : Call (NodeBuilder × Bool) :=
  if changeLevel > builder.level then do
    let (left, right) ← split read entry.key fuel builder
    return (createNewBuilder changeLevel [entry]
      [left.toLevel (changeLevel - 1), right.toLevel (changeLevel - 1)], true)
  else do
    let this ← builder.computeContent read
    let splitIndex := getEntryOrChildIndex this.entries entry.key
    match this.entries[splitIndex]? with
    | some old =>
      if old.key = entry.key then
        if old.objectIdentifier = entry.objectIdentifier ∧ old.priority = entry.priority then
          return (this, false)
        else
          return ({ this with
            type := .newNode
            entries := this.entries.set splitIndex
              { old with
                objectIdentifier := entry.objectIdentifier
                priority := entry.priority } }, true)
      else insertEntry read fuel entry this splitIndex
    | none => insertEntry read fuel entry this splitIndex

/-- `Apply`, with the value of `*did_mutate` before and after the call. -/
def apply (level : NodeLevelCalculator) (read : NodeReader) (change : EntryChange) :
    Nat → Bool → NodeBuilder → Call (NodeBuilder × Bool)
  | 0, _, _ => .error .outOfFuel
  | fuel + 1, didMutate, builder =>
    let changeLevel := level change.entry.key
    if builder.isNull then
      if change.deleted then return (builder, false)
      else return (createNewBuilder changeLevel [change.entry] [null, null], true)
    else if changeLevel < builder.level then do
      let this ← builder.computeContent read
      let index := getEntryOrChildIndex this.entries change.entry.key
      let (child, didMutate) ← apply level read change fuel didMutate (this.child index)
      let changed := { this with children := this.children.set index child }
      if !didMutate then return (changed, didMutate)
      else
        let changed := { changed with type := .newNode }
        if changed.isVoid then return (null, didMutate)
        else
          return ({ changed with
            children := changed.children.set index (child.toLevel (this.level - 1)) }, didMutate)
    else if change.deleted then
      delete read fuel changeLevel change.entry.key didMutate builder
    else update read fuel changeLevel change.entry builder

def childIdentifiers : Nat → List NodeBuilder → List (Nat × ObjectIdentifier)
  | _, [] => []
  | index, child :: rest =>
    if child.isNull then childIdentifiers (index + 1) rest
    else (index, child.objectIdentifier) :: childIdentifiers (index + 1) rest

theorem le_of_mem_childIdentifiers {index : Nat} {children : List NodeBuilder}
    {item : Nat × ObjectIdentifier} (member : item ∈ childIdentifiers index children) :
    index ≤ item.1 := by
  induction children generalizing index with
  | nil => simp [childIdentifiers] at member
  | cons child rest ih =>
    simp only [childIdentifiers] at member
    split at member
    · exact Nat.le_of_succ_le (ih member)
    · rcases List.mem_cons.mp member with same | inRest
      · rw [same]
      · exact Nat.le_of_succ_le (ih inRest)

theorem childIdentifiers_sorted (index : Nat) (children : List NodeBuilder) :
    KeyedList.Sorted Prod.fst (childIdentifiers index children) := by
  induction children generalizing index with
  | nil => exact KeyedList.sorted_nil
  | cons child rest ih =>
    simp only [childIdentifiers]
    split
    · exact ih _
    · exact KeyedList.sorted_cons.mpr ⟨fun item member => le_of_mem_childIdentifiers member, ih _⟩

/-- The node given to `TreeNode::FromEntries`. -/
def toTreeNode (builder : NodeBuilder) : TreeNode where
  level := builder.level
  entries := builder.entries
  children := childIdentifiers 0 builder.children
  childrenSorted := childIdentifiers_sorted 0 builder.children

/-- The node of `TreeNode::Empty`. -/
def emptyNode : TreeNode where
  level := 0
  entries := []
  children := []
  childrenSorted := sorted_childless

/-- The storage and the identifiers of the nodes stored so far. -/
structure BuildState (ids : NodeIdentifiers) where
  store : NodeStore ids
  newIdentifiers : Finset ObjectIdentifier

def BuildState.add {ids : NodeIdentifiers} (state : BuildState ids) (node : TreeNode) :
    BuildState ids where
  store := state.store.add node
  newIdentifiers := insert (ids.identify node) state.newIdentifiers

variable {ids : NodeIdentifiers}

mutual

/-- One round of `Build`: `CollectNodesToBuild` visits the new nodes in order and
collects those without a new child; exactly these are stored. -/
def buildRound : NodeBuilder → BuildState ids → NodeBuilder × BuildState ids
  | ⟨type, level, objectIdentifier, entries, children⟩, state =>
    let this : NodeBuilder := ⟨type, level, objectIdentifier, entries, children⟩
    if !this.isNew then (this, state)
    else if children.any isNew then
      let built := buildChildren children state
      ({ this with children := built.1 }, built.2)
    else
      ({ this with
        type := .existingNode
        objectIdentifier := ids.identify this.toTreeNode }, state.add this.toTreeNode)

def buildChildren : List NodeBuilder → BuildState ids → List NodeBuilder × BuildState ids
  | [], state => ([], state)
  | child :: rest, state =>
    let built := buildRound child state
    let others := buildChildren rest built.2
    (built.1 :: others.1, others.2)

end

def buildLoop : Nat → NodeBuilder → BuildState ids → Call (NodeBuilder × BuildState ids)
  | 0, _, _ => .error .outOfFuel
  | fuel + 1, builder, state =>
    if builder.isNew then
      let built := buildRound builder state
      buildLoop fuel built.1 built.2
    else return (builder, state)

def build (fuel : Nat) (builder : NodeBuilder) (state : BuildState ids) :
    Call (ObjectIdentifier × BuildState ids) :=
  if builder.isNull then return (ids.identify emptyNode, state.add emptyNode)
  else do
    let (built, state) ← buildLoop fuel builder state
    return (built.objectIdentifier, state)

end NodeBuilder

def NodeStore.initial (ids : NodeIdentifiers) : NodeStore ids :=
  NodeStore.add ⟨fun _ => none, by simp⟩ NodeBuilder.emptyNode

/-- `Iterator<const EntryChange>`: the changes it yields and its final status. -/
structure ChangeIterator where
  changes : List EntryChange
  status : Status

/-- What `ApplyChanges` hands to its callback, with the storage it leaves. -/
structure ApplyResult (ids : NodeIdentifiers) where
  root : ObjectIdentifier
  newIdentifiers : Finset ObjectIdentifier
  store : NodeStore ids

variable {ids : NodeIdentifiers}

/-- `ApplyChangesOnRoot`; `indeterminate` is the value of the uninitialised variable
`did_mutate` in each turn of the loop. -/
def applyChangesOnRoot (level : NodeLevelCalculator) (fuel : Nat) (indeterminate : Bool)
    (store : NodeStore ids) (root : NodeBuilder) (iterator : ChangeIterator) :
    Call (ObjectIdentifier × NodeBuilder.BuildState ids) := do
  let root ← iterator.changes.foldlM
    (fun builder change => do
      let (builder, _) ← NodeBuilder.apply level store.read change fuel indeterminate builder
      return builder) root
  if iterator.status ≠ .ok then .error (.status iterator.status)
  else root.build fuel ⟨store, ∅⟩

def applyChanges (level : NodeLevelCalculator) (fuel : Nat) (indeterminate : Bool)
    (store : NodeStore ids) (rootIdentifier : ObjectIdentifier) (iterator : ChangeIterator) :
    Call (ApplyResult ids) := do
  let root ← NodeBuilder.fromIdentifier store.read rootIdentifier
  let (objectIdentifier, state) ←
    applyChangesOnRoot level fuel indeterminate store root iterator
  if objectIdentifier.objectDigest ≠ [] then
    return ⟨objectIdentifier, state.newIdentifiers, state.store⟩
  else
    let empty := ids.identify NodeBuilder.emptyNode
    return ⟨empty, {empty}, state.store.add NodeBuilder.emptyNode⟩

end Peridot
