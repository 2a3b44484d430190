import Peridot.BTreeIterator

/-!
# Comparing two stored trees

`IteratorPair` and `ForEachDiff` of `btree/diff.cc`.  Two iterators walk through
two trees at the same time; subtrees with the same identifier are skipped.
-/

namespace Peridot

def runUntil {σ α : Type} (onNext : σ → α → σ × Bool) : σ → List α → σ × Bool
  | state, [] => (state, true)
  | state, item :: items =>
    let (state, continues) := onNext state item
    if continues then runUntil onNext state items else (state, false)

/-- The entries of the two trees at a key, as given to `on_next_`. -/
abbrev Difference := Option Entry × Option Entry

/-- `IteratorPair`, without its callback. -/
structure IteratorPair where
  left : BTreeIterator
  right : BTreeIterator
  diffFromLeftToRight : Bool

namespace IteratorPair

def finished (pair : IteratorPair) : Bool :=
  pair.right.finished

def swap (pair : IteratorPair) : IteratorPair :=
  ⟨pair.right, pair.left, !pair.diffFromLeftToRight⟩

def resetSwap (pair : IteratorPair) : IteratorPair :=
  if pair.diffFromLeftToRight then pair else pair.swap

def normalize (pair : IteratorPair) : IteratorPair :=
  if pair.left.finished then pair
  else if pair.right.finished then pair.swap
  else
    match pair.left.currentEntry?, pair.right.currentEntry? with
    | some leftEntry, some rightEntry =>
      if leftEntry.key < rightEntry.key then pair.swap
      else if leftEntry.key = rightEntry.key then pair.resetSwap
      else pair
    | some _, none => pair
    | none, some _ => pair.swap
    | none, none => if pair.left.getLevel > pair.right.getLevel then pair.swap else pair

def hasSameNextChild (pair : IteratorPair) : Bool :=
  !pair.left.finished &&
    match pair.right.getNextChild, pair.left.getNextChild with
    | some rightChild, some leftChild => rightChild == leftChild
    | _, _ => false

def hasDiff (pair : IteratorPair) : Bool :=
  (pair.right.hasValue && (pair.left.finished || pair.left.hasValue)) ||
    (pair.left.hasValue && pair.hasSameNextChild)

/-- `Send`: the arguments of `on_next_`. -/
def send (it1 it2 : BTreeIterator) (it1ToIt2 : Bool) : Difference :=
  let it2Entry := it2.currentEntry?.filter fun entry =>
    it1.currentEntry?.map Entry.key = some entry.key
  if it1ToIt2 then (it1.currentEntry?, it2Entry) else (it2Entry, it1.currentEntry?)

def sendRight (pair : IteratorPair) : Difference :=
  send pair.right pair.left !pair.diffFromLeftToRight

def sendLeft (pair : IteratorPair) : Difference :=
  send pair.left pair.right pair.diffFromLeftToRight

/-- The differences that one call of `SendDiff` hands to `on_next_`, in order. -/
def diffs (pair : IteratorPair) : List Difference :=
  if pair.left.hasValue && pair.right.hasValue &&
      pair.left.currentEntry? == pair.right.currentEntry? then []
  else if pair.hasSameNextChild then
    (if pair.right.hasValue then [pair.sendRight] else []) ++
      (if pair.left.hasValue && (!pair.right.hasValue ||
          pair.left.currentEntry?.map Entry.key != pair.right.currentEntry?.map Entry.key) then
        [pair.sendLeft]
      else [])
  else [pair.sendRight]

/-- `SendDiff`: a difference stops the iteration when `on_next_` returns `false`. -/
def sendDiff {σ : Type} (onNext : σ → Difference → σ × Bool) (state : σ)
    (pair : IteratorPair) : σ × Bool :=
  runUntil onNext state pair.diffs

def advanceOnce (read : NodeReader) (pair : IteratorPair) : Call IteratorPair :=
  if pair.hasSameNextChild then
    return normalize { pair with
      left := pair.left.skipNextSubTree
      right := pair.right.skipNextSubTree }
  else do
    let pair ←
      if pair.right.hasValue && pair.left.hasValue &&
          pair.right.currentEntry?.map Entry.key == pair.left.currentEntry?.map Entry.key then do
        let right ← pair.right.advance read
        pure (swap { pair with right })
      else pure pair
    let right ← pair.right.advance read
    return normalize { pair with right }

def advance (read : NodeReader) : Nat → IteratorPair → Call IteratorPair
  | 0, _ => .error .outOfFuel
  | fuel + 1, pair => do
      let pair ← pair.advanceOnce read
      if !pair.finished && !pair.hasDiff then advance read fuel pair else return pair

/-- `SkipIteratorsTo`, which ignores the status of `SkipTo`.  The source also compares
the two child pointers; they point into different nodes and are never equal. -/
def skipIteratorsTo (read : NodeReader) (minKey : Key) :
    Nat → IteratorPair → Call IteratorPair
  | 0, _ => .error .outOfFuel
  | fuel + 1, pair => do
      let (leftFound, left) := pair.left.skipToIndex minKey
      if leftFound then
        let (_, right) ← pair.right.skipTo read fuel minKey
        return { pair with left, right }
      else
        let (rightFound, right) := pair.right.skipToIndex minKey
        if rightFound then
          return { pair with left := (left.skipToIndex minKey).2, right }
        else if left.getNextChild = none then
          let (_, right) ← right.skipTo read fuel minKey
          return { pair with left, right }
        else if right.getNextChild = none then
          let (_, left) ← left.skipTo read fuel minKey
          return { pair with left, right }
        else
          let levelLeft := left.getLevel
          let levelRight := right.getLevel
          let left ← if levelLeft ≥ levelRight then left.advance read else pure left
          let right ← if levelRight ≥ levelLeft then right.advance read else pure right
          skipIteratorsTo read minKey fuel { pair with left, right }

def init (read : NodeReader) (fuel : Nat) (leftNodeIdentifier rightNodeIdentifier :
    ObjectIdentifier) (minKey : Key) : Call IteratorPair := do
  let left ← BTreeIterator.init read leftNodeIdentifier
  let right ← BTreeIterator.init read rightNodeIdentifier
  let pair : IteratorPair := ⟨left, right, true⟩
  let pair ← if minKey ≠ [] then skipIteratorsTo read minKey fuel pair else pure pair
  let pair := pair.normalize
  if !pair.finished && !pair.hasDiff then advance read fuel pair else return pair

/-- The loop of `ForEachDiffInternal`. -/
def sendAll {σ : Type} (read : NodeReader) (onNext : σ → Difference → σ × Bool) :
    Nat → σ → IteratorPair → Call σ
  | 0, _, _ => .error .outOfFuel
  | fuel + 1, state, pair =>
    if pair.finished then return state
    else do
      let (state, continues) := pair.sendDiff onNext state
      if !continues then return state
      else
        let pair ← pair.advance read fuel
        sendAll read onNext fuel state pair

end IteratorPair

/-- `wrapped_next`: the change that is reported for a difference. -/
def Difference.toChange (difference : Difference) : EntryChange :=
  match difference.2 with
  | some other => ⟨other, false⟩
  | none => ⟨difference.1.getD default, true⟩

/-- `ForEachDiff`; the callback works on a state of its own. -/
def forEachDiff {σ : Type} (read : NodeReader) (fuel : Nat)
    (baseRootIdentifier otherRootIdentifier : ObjectIdentifier) (minKey : Key)
    (onNext : σ → EntryChange → σ × Bool) (state : σ) : Call σ :=
  if baseRootIdentifier = otherRootIdentifier then return state
  else do
    let iterators ← IteratorPair.init read fuel baseRootIdentifier otherRootIdentifier minKey
    iterators.sendAll read (fun state difference => onNext state difference.toChange) fuel state

end Peridot
