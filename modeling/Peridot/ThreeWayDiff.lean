import Peridot.BTreeDiff

/-!
# Comparing two stored trees with a common base

`ThreeWayIterator` and `ForEachThreeWayDiff` of `btree/diff.cc`.  Two iterator pairs
compare the base tree with the left and the right tree.  Each pair hands its
differences to a callback that keeps the latest one only.
-/

namespace Peridot

/-- The members of `ThreeWayIterator` for one side: the iterators from the base to that
side, and the latest difference that they have sent. -/
structure ThreeWaySide where
  iterators : IteratorPair
  advanced : Bool
  base : Option Entry
  entry : Option Entry

namespace ThreeWaySide

def onNext (side : ThreeWaySide) (difference : Difference) : ThreeWaySide × Bool :=
  ({ side with advanced := true, base := difference.1, entry := difference.2 }, true)

def finished (side : ThreeWaySide) : Bool :=
  side.iterators.finished && side.base.isNone && side.entry.isNone

/-- The loop of `AdvanceLeft` and `AdvanceRight`, and what comes after it. -/
def advanceLoop (read : NodeReader) : Nat → ThreeWaySide → Call ThreeWaySide
  | 0, _ => .error .outOfFuel
  | fuel + 1, side =>
    if !side.iterators.finished && !side.advanced then do
      let (side, continues) := side.iterators.sendDiff onNext side
      if !continues then return side
      else
        let iterators ← side.iterators.advance read fuel
        advanceLoop read fuel { side with iterators }
    else if !side.advanced && side.iterators.finished then
      return { side with base := none, entry := none }
    else return side

/-- `AdvanceLeft` and `AdvanceRight`. -/
def advance (read : NodeReader) (fuel : Nat) (side : ThreeWaySide) : Call ThreeWaySide :=
  advanceLoop read fuel { side with advanced := false }

/-- `GetLeftKey` and `GetRightKey`, which are only called on a pending difference. -/
def key (side : ThreeWaySide) : Key :=
  match side.base, side.entry with
  | some base, _ => base.key
  | none, some entry => entry.key
  | none, none => []

end ThreeWaySide

structure ThreeWayIterator where
  left : ThreeWaySide
  right : ThreeWaySide

namespace ThreeWayIterator

def finished (iterator : ThreeWayIterator) : Bool :=
  iterator.left.finished && iterator.right.finished

def advanceLeft (read : NodeReader) (fuel : Nat) (iterator : ThreeWayIterator) :
    Call ThreeWayIterator := do
  let left ← iterator.left.advance read fuel
  return { iterator with left }

def advanceRight (read : NodeReader) (fuel : Nat) (iterator : ThreeWayIterator) :
    Call ThreeWayIterator := do
  let right ← iterator.right.advance read fuel
  return { iterator with right }

def init (read : NodeReader) (fuel : Nat)
    (baseNodeIdentifier leftNodeIdentifier rightNodeIdentifier : ObjectIdentifier)
    (minKey : Key) : Call ThreeWayIterator := do
  let baseLeft ← IteratorPair.init read fuel baseNodeIdentifier leftNodeIdentifier minKey
  let baseRight ← IteratorPair.init read fuel baseNodeIdentifier rightNodeIdentifier minKey
  let iterator : ThreeWayIterator :=
    ⟨⟨baseLeft, false, none, none⟩, ⟨baseRight, false, none, none⟩⟩
  if !iterator.finished then
    let iterator ← iterator.advanceLeft read fuel
    iterator.advanceRight read fuel
  else return iterator

def advance (read : NodeReader) (fuel : Nat) (iterator : ThreeWayIterator) :
    Call ThreeWayIterator :=
  if iterator.left.finished then iterator.advanceRight read fuel
  else if iterator.right.finished then iterator.advanceLeft read fuel
  else if iterator.left.key < iterator.right.key then iterator.advanceLeft read fuel
  else if iterator.left.key > iterator.right.key then iterator.advanceRight read fuel
  else do
    let iterator ← iterator.advanceLeft read fuel
    iterator.advanceRight read fuel

def getBase (iterator : ThreeWayIterator) : Option Entry :=
  match iterator.left.base, iterator.right.base with
  | some baseLeft, some baseRight =>
    if baseLeft.key < baseRight.key then some baseLeft else some baseRight
  | some baseLeft, none =>
    match iterator.right.entry with
    | none => some baseLeft
    | some right => if baseLeft.key < right.key then some baseLeft else none
  | none, some baseRight =>
    match iterator.left.entry with
    | none => some baseRight
    | some left => if baseRight.key < left.key then some baseRight else none
  | none, none => none

def getEntry (base : Option Entry) (thisIterator : IteratorPair)
    (thisEntry otherEntry : Option Entry) : Option Entry :=
  match base, thisEntry with
  | some base, some entry =>
    if base.key = entry.key then some entry
    else if base.key < entry.key then some base
    else if thisIterator.finished then some base
    else none
  | some base, none => if thisIterator.finished then some base else none
  | none, none => none
  | none, some entry =>
    match otherEntry with
    | none => some entry
    | some other => if other.key < entry.key then none else some entry

def getCurrentDiff (iterator : ThreeWayIterator) : ThreeWayChange :=
  let base := iterator.getBase
  { base
    left := getEntry base iterator.left.iterators iterator.left.entry iterator.right.entry
    right := getEntry base iterator.right.iterators iterator.right.entry iterator.left.entry }

/-- The loop of `ForEachThreeWayDiffInternal`. -/
def sendAll {σ : Type} (read : NodeReader) (onNext : σ → ThreeWayChange → σ × Bool) :
    Nat → σ → ThreeWayIterator → Call σ
  | 0, _, _ => .error .outOfFuel
  | fuel + 1, state, iterator =>
    if iterator.finished then return state
    else do
      let (state, continues) := onNext state iterator.getCurrentDiff
      if !continues then return state
      else
        let iterator ← iterator.advance read fuel
        sendAll read onNext fuel state iterator

end ThreeWayIterator

/-- `ForEachThreeWayDiff`; the callback works on a state of its own. -/
def forEachThreeWayDiff {σ : Type} (read : NodeReader) (fuel : Nat)
    (baseNodeIdentifier leftNodeIdentifier rightNodeIdentifier : ObjectIdentifier)
    (minKey : Key) (onNext : σ → ThreeWayChange → σ × Bool) (state : σ) : Call σ :=
  if leftNodeIdentifier = rightNodeIdentifier then return state
  else do
    let iterator ← ThreeWayIterator.init read fuel baseNodeIdentifier leftNodeIdentifier
      rightNodeIdentifier minKey
    iterator.sendAll read onNext fuel state

end Peridot
