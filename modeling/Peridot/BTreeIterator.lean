import Peridot.TreeNode

/-!
# Iterating over a stored tree

`BTreeIterator` of `btree/iterator.cc`, and the sequence of its positions: every
position shows an entry, the next child and the level of the current node, and
each step of the iterator moves on by one position.
-/

namespace Peridot

structure BTreeIterator where
  stack : List (TreeNode × Nat)
  descending : Bool

namespace BTreeIterator

def finished (iterator : BTreeIterator) : Bool :=
  iterator.stack.isEmpty

/-- `CurrentEntry()`, when `HasValue()`. -/
def currentEntry? (iterator : BTreeIterator) : Option Entry :=
  match iterator.stack with
  | [] => none
  | (node, index) :: _ => if iterator.descending then none else node.entries[index]?

def hasValue (iterator : BTreeIterator) : Bool :=
  iterator.currentEntry?.isSome

def getNextChild (iterator : BTreeIterator) : Option ObjectIdentifier :=
  match iterator.stack with
  | [] => none
  | (node, index) :: _ => node.childAt (if iterator.descending then index else index + 1)

def getLevel (iterator : BTreeIterator) : UInt8 :=
  match iterator.stack with
  | [] => 0
  | (node, _) :: _ => node.level

def descend (read : NodeReader) (nodeIdentifier : ObjectIdentifier)
    (iterator : BTreeIterator) : Call BTreeIterator := do
  let node ← read.treeNodeFromIdentifier nodeIdentifier
  return { iterator with stack := (node, 0) :: iterator.stack }

def init (read : NodeReader) (nodeIdentifier : ObjectIdentifier) : Call BTreeIterator :=
  descend read nodeIdentifier ⟨[], true⟩

def advance (read : NodeReader) (iterator : BTreeIterator) : Call BTreeIterator :=
  if iterator.descending then
    match iterator.getNextChild with
    | none => return { iterator with descending := false }
    | some child => iterator.descend read child
  else
    match iterator.stack with
    | [] => return iterator
    | (node, index) :: outer =>
      if index + 1 ≤ node.entries.length then return ⟨(node, index + 1) :: outer, true⟩
      else return ⟨outer, false⟩

def skipNextSubTree (iterator : BTreeIterator) : BTreeIterator :=
  if iterator.descending then { iterator with descending := false }
  else
    match iterator.stack with
    | [] => iterator
    | (node, index) :: outer => { iterator with stack := (node, index + 1) :: outer }

/-- `SkipToIndex`: the returned flag and the iterator after the call. -/
def skipToIndex (key : Key) (iterator : BTreeIterator) : Bool × BTreeIterator :=
  match iterator.stack with
  | [] => (false, iterator)
  | (node, index) :: outer =>
    let skipCount := getEntryOrChildIndex node.entries key
    if skipCount < index then (true, iterator)
    else
      let stack := (node, skipCount) :: outer
      if (node.entries[skipCount]?).map Entry.key = some key then (true, ⟨stack, false⟩)
      else (false, { iterator with stack })

/-- The loop of `SkipTo`: the returned status and the iterator after the call. -/
def skipToLoop (read : NodeReader) (minKey : Key) :
    Nat → BTreeIterator → Call (Status × BTreeIterator)
  | 0, _ => .error .outOfFuel
  | fuel + 1, iterator =>
    let (found, iterator) := iterator.skipToIndex minKey
    if found then return (.ok, iterator)
    else
      match iterator.getNextChild with
      | none => return (.ok, iterator)
      | some child =>
        match iterator.descend read child with
        | .ok iterator => skipToLoop read minKey fuel iterator
        | .error (.status status) => return (status, iterator)
        | .error .outOfFuel => .error .outOfFuel

def skipTo (read : NodeReader) (fuel : Nat) (minKey : Key) (iterator : BTreeIterator) :
    Call (Status × BTreeIterator) :=
  skipToLoop read minKey fuel { iterator with descending := true }

end BTreeIterator

structure Position where
  entry : Option Entry
  next : Option ObjectIdentifier
  level : UInt8

namespace Position

/-- The positions of a node after its first child, given those inside the children. -/
def afterFirst (inner : Option ObjectIdentifier → List Position) (level : UInt8) :
    Spine (Option ObjectIdentifier) Entry → List Position
  | .last _ => [⟨none, none, level⟩]
  | .step _ entry rest =>
    ⟨some entry, rest.first, level⟩ :: ⟨none, rest.first, level⟩ ::
      (inner rest.first ++ afterFirst inner level rest)

def ofSpine (inner : Option ObjectIdentifier → List Position) (level : UInt8)
    (spine : Spine (Option ObjectIdentifier) Entry) : List Position :=
  ⟨none, spine.first, level⟩ :: (inner spine.first ++ afterFirst inner level spine)

/-- The positions inside the subtree of an identifier, of at most `n` levels. -/
def belowHeight (read : NodeReader) : Nat → Option ObjectIdentifier → List Position
  | 0, _ => []
  | _ + 1, none => []
  | n + 1, some identifier =>
    match read identifier with
    | none => []
    | some node => ofSpine (belowHeight read n) node.level node.spine

def below (read : NodeReader) : Option ObjectIdentifier → List Position
  | none => []
  | some identifier =>
    match read identifier with
    | none => []
    | some node => ofSpine (belowHeight read node.level.toNat) node.level node.spine

def entries (positions : List Position) : List Entry :=
  positions.filterMap Position.entry

end Position

end Peridot
