import Peridot.CommitImpl
import Peridot.ForEachDiffMinKey

/-!
# Visiting the entries of a tree

`ForEachEntry` of `btree/iterator.cc` and `GetEntryFromCommit`.  The callback works on a state of
its own.  What an iterator has still to visit is the list of its entries, each with the identifier
of its node.
-/

namespace Peridot

open KeyedList List BTreeIterator Except TreeNode Bool Call Option

structure EntryAndNodeIdentifier where
  entry : Entry
  nodeIdentifier : ObjectIdentifier

/-- `RETURN_ON_ERROR`: go on with the value of a call, or return its status. -/
def Call.returnOnError {α β : Type} (call : Call α) (onError : Status → β) (next : α → Call β) :
    Call β :=
  match call with
  | .ok value => next value
  | .error (.status status) => .ok (onError status)
  | .error .outOfFuel => .error .outOfFuel

@[simp]
theorem Call.returnOnError_ok {α β : Type} (value : α) (onError : Status → β)
    (next : α → Call β) : Call.returnOnError (.ok value) onError next = next value :=
  rfl

namespace BTreeIterator

/-- `GetIdentifier`: a stored node is found under its own identifier. -/
def getIdentifier (ids : NodeIdentifiers) (iterator : BTreeIterator) : ObjectIdentifier :=
  match iterator.stack with
  | [] => default
  | (node, _) :: _ => ids.identify node

def advanceToValue (read : NodeReader) : Nat → BTreeIterator → Call BTreeIterator
  | 0, _ => .error .outOfFuel
  | fuel + 1, iterator =>
    if !iterator.finished && !iterator.hasValue then do
      let iterator ← iterator.advance read
      advanceToValue read fuel iterator
    else return iterator

/-- The loop of `ForEachEntryInternal`. -/
def forEachEntryLoop {σ : Type} (ids : NodeIdentifiers) (read : NodeReader)
    (onNext : σ → EntryAndNodeIdentifier → σ × Bool) : Nat → σ → BTreeIterator → Call (Status × σ)
  | 0, _, _ => .error .outOfFuel
  | fuel + 1, state, iterator =>
    if iterator.finished then return (.ok, state)
    else
      (iterator.advanceToValue read fuel).returnOnError (·, state) fun iterator =>
        match iterator.currentEntry? with
        | none => forEachEntryLoop ids read onNext fuel state iterator
        | some entry =>
          let (state, continues) := onNext state ⟨entry, iterator.getIdentifier ids⟩
          if !continues then return (.ok, state)
          else
            (iterator.advance read).returnOnError (·, state) fun iterator =>
              forEachEntryLoop ids read onNext fuel state iterator

end BTreeIterator

def forEachEntryInternal {σ : Type} (ids : NodeIdentifiers) (read : NodeReader) (fuel : Nat)
    (rootIdentifier : ObjectIdentifier) (minKey : Key)
    (onNext : σ → EntryAndNodeIdentifier → σ × Bool) (state : σ) : Call (Status × σ) :=
  (BTreeIterator.init read rootIdentifier).returnOnError (·, state) fun iterator =>
    (iterator.skipTo read fuel minKey).returnOnError (·, state) fun (status, iterator) =>
      if status ≠ .ok then return (status, state)
      else iterator.forEachEntryLoop ids read onNext fuel state

/-- `ForEachEntry`, with what the two callbacks do to their state. -/
def forEachEntry {σ : Type} (ids : NodeIdentifiers) (read : NodeReader) (fuel : Nat)
    (rootIdentifier : ObjectIdentifier) (minKey : Key)
    (onNext : σ → EntryAndNodeIdentifier → σ × Bool) (onDone : σ → Status → σ) (state : σ) :
    Call σ := do
  let (status, state) ← forEachEntryInternal ids read fuel rootIdentifier minKey onNext state
  return onDone state status

/-- `key_found` of `GetEntryFromCommit`, and the calls of its callback. -/
structure EntryRequest where
  keyFound : Bool
  calls : List (Status × Entry)

/-- `GetEntryFromCommit`: the calls of its callback. -/
def getEntryFromCommit (ids : NodeIdentifiers) (read : NodeReader) (fuel : Nat)
    (commit : CommitImpl) (key : Key) : Call (List (Status × Entry)) := do
  let onNext (request : EntryRequest) (next : EntryAndNodeIdentifier) : EntryRequest × Bool :=
    (if next.entry.key = key then ⟨true, request.calls ++ [(.ok, next.entry)]⟩ else request, false)
  let onDone (request : EntryRequest) (status : Status) : EntryRequest :=
    if request.keyFound then request
    else if status = .ok then { request with calls := request.calls ++ [(.notFound, default)] }
    else { request with calls := request.calls ++ [(status, default)] }
  let request ← forEachEntry ids read fuel commit.rootIdentifier key onNext onDone ⟨false, []⟩
  return request.calls

variable {identifier : ObjectIdentifier} {node : TreeNode}

namespace Visit

variable {ids : NodeIdentifiers} {read : NodeReader}

/-- The visits of a node after its first child, given those inside the children. -/
def afterFirst (inner : Option ObjectIdentifier → List EntryAndNodeIdentifier)
    (identifier : ObjectIdentifier) :
    Spine (Option ObjectIdentifier) Entry → List EntryAndNodeIdentifier
  | .last _ => []
  | .step _ entry rest =>
    ⟨entry, identifier⟩ :: (inner rest.first ++ afterFirst inner identifier rest)

def ofSpine (inner : Option ObjectIdentifier → List EntryAndNodeIdentifier)
    (identifier : ObjectIdentifier) (spine : Spine (Option ObjectIdentifier) Entry) :
    List EntryAndNodeIdentifier :=
  inner spine.first ++ afterFirst inner identifier spine

/-- The visits inside the subtree of an identifier, of at most `n` levels. -/
def belowHeight (ids : NodeIdentifiers) (read : NodeReader) :
    Nat → Option ObjectIdentifier → List EntryAndNodeIdentifier
  | 0, _ => []
  | _ + 1, none => []
  | n + 1, some identifier =>
    match read identifier with
    | none => []
    | some node => ofSpine (belowHeight ids read n) (ids.identify node) node.spine

def below (ids : NodeIdentifiers) (read : NodeReader) :
    Option ObjectIdentifier → List EntryAndNodeIdentifier
  | none => []
  | some identifier =>
    match read identifier with
    | none => []
    | some node =>
      ofSpine (belowHeight ids read node.level.toNat) (ids.identify node) node.spine

variable {inner : Option ObjectIdentifier → List EntryAndNodeIdentifier}

theorem afterFirst_congr {inner' : Option ObjectIdentifier → List EntryAndNodeIdentifier}
    {spine : Spine (Option ObjectIdentifier) Entry}
    (same : ∀ child ∈ spine.children, inner child = inner' child) :
    afterFirst inner identifier spine = afterFirst inner' identifier spine := by
  induction spine with
  | last child => rfl
  | step child entry rest ih =>
    rw [afterFirst, afterFirst, same rest.first (mem_cons_of_mem _ rest.first_mem),
      ih fun child member => same child (mem_cons_of_mem _ member)]

theorem belowHeight_of_stored {n : Nat} {identifier : Option ObjectIdentifier}
    {slot : Slot Entry n} (stored : Stored read n identifier slot) :
    belowHeight ids read n identifier = below ids read identifier := by
  cases n with
  | zero =>
    rw [show identifier = none from stored]
    rfl
  | succ n =>
    cases identifier with
    | none => rfl
    | some identifier =>
      obtain ⟨node, spine, found, -, level, -⟩ := stored
      simp [belowHeight, below, found, level]

theorem below_some (found : read identifier = some node) (sound : node.Sound read) :
    below ids read (some identifier) = ofSpine (below ids read) (ids.identify node) node.spine := by
  have children : ∀ child ∈ node.spine.children,
      belowHeight ids read node.level.toNat child = below ids read child := by
    intro child member
    obtain ⟨slot, stored⟩ := sound.stored_children child member
    exact belowHeight_of_stored stored
  simp only [below, found, ofSpine, children _ node.spine.first_mem, afterFirst_congr children]

section

variable {positions : Option ObjectIdentifier → List Position}
    (same : ∀ child, (inner child).map (·.entry) = Position.entries (positions child))
include same

variable (identifier : ObjectIdentifier)

theorem entries_afterFirst (level : UInt8) (spine : Spine (Option ObjectIdentifier) Entry) :
    (afterFirst inner identifier spine).map (·.entry) =
      Position.entries (Position.afterFirst positions level spine) := by
  induction spine with
  | last child => rfl
  | step child entry rest ih => simp [afterFirst, Position.afterFirst, same, ih]

theorem entries_ofSpine (level : UInt8) (spine : Spine (Option ObjectIdentifier) Entry) :
    (ofSpine inner identifier spine).map (·.entry) =
      Position.entries (Position.ofSpine positions level spine) := by
  simp [ofSpine, Position.ofSpine, same, entries_afterFirst same identifier level]

end

theorem entries_belowHeight (n : Nat) (identifier : Option ObjectIdentifier) :
    (belowHeight ids read n identifier).map (·.entry) =
      Position.entries (Position.belowHeight read n identifier) := by
  induction n generalizing identifier with
  | zero => rfl
  | succ n ih =>
    cases identifier with
    | none => rfl
    | some identifier =>
      rw [belowHeight, Position.belowHeight]
      cases read identifier with
      | none => rfl
      | some node => exact entries_ofSpine ih (ids.identify node) node.level node.spine

theorem entries_below (identifier : Option ObjectIdentifier) :
    (below ids read identifier).map (·.entry) =
      Position.entries (Position.below read identifier) := by
  cases identifier with
  | none => rfl
  | some identifier =>
    rw [below, Position.below]
    cases read identifier with
    | none => rfl
    | some node =>
      exact entries_ofSpine (entries_belowHeight node.level.toNat) (ids.identify node)
        node.level node.spine

end Visit

namespace BTreeIterator

variable {ids : NodeIdentifiers} {read : NodeReader} {iterator moved : BTreeIterator}

theorem currentEntry?_of_descending (descends : iterator.descending = true) :
    iterator.currentEntry? = none := by
  obtain ⟨stack, descending⟩ := iterator
  obtain rfl : descending = true := descends
  cases stack <;> rfl

def frameVisits (ids : NodeIdentifiers) (read : NodeReader) (frame : TreeNode × Nat) :
    List EntryAndNodeIdentifier :=
  Visit.afterFirst (Visit.below ids read) (ids.identify frame.1) (frame.1.suffix frame.2)

def visits (ids : NodeIdentifiers) (read : NodeReader) (iterator : BTreeIterator) :
    List EntryAndNodeIdentifier :=
  if iterator.descending && !iterator.finished then
    Visit.below ids read iterator.getNextChild ++ iterator.stack.flatMap (frameVisits ids read)
  else iterator.stack.flatMap (frameVisits ids read)

variable {index : Nat}

theorem frameVisits_of_getElem? {entry : Entry} (found : node.entries[index]? = some entry) :
    frameVisits ids read (node, index) =
      ⟨entry, ids.identify node⟩ :: (Visit.below ids read (node.childAt (index + 1)) ++
        frameVisits ids read (node, index + 1)) := by
  rw [frameVisits, suffix_of_getElem? found, Visit.afterFirst, suffix_first]
  rfl

theorem frameVisits_of_length_le (atEnd : node.entries.length ≤ index) :
    frameVisits ids read (node, index) = [] := by
  rw [frameVisits, suffix_of_length_le atEnd]
  rfl

theorem entries_frameVisits (frame : TreeNode × Nat) :
    (frameVisits ids read frame).map (·.entry) = Position.entries (framePositions read frame) :=
  Visit.entries_afterFirst Visit.entries_below _ _ _

variable (ids) in
/-- The entries to visit are those of the positions left. -/
theorem entries_visits : (iterator.visits ids read).map (·.entry) = iterator.rest read := by
  have ofStack : ∀ stack : List (TreeNode × Nat),
      (stack.flatMap (frameVisits ids read)).map (·.entry) =
        Position.entries (stack.flatMap (framePositions read)) := by
    intro stack
    induction stack with
    | nil => rfl
    | cons frame outer ih => simp [entries_frameVisits, ih]
  rw [visits, rest, positions]
  split
  case isTrue descends =>
    have noEntry : iterator.current.entry = none :=
      currentEntry?_of_descending (and_eq_true_iff.mp descends).1
    simp [ofStack, Visit.entries_below, noEntry]
  case isFalse => exact ofStack _

theorem visits_enter (found : read identifier = some node) (sound : node.Sound read)
    (outer : List (TreeNode × Nat)) : visits ids read ⟨(node, 0) :: outer, true⟩ =
      Visit.below ids read (some identifier) ++ outer.flatMap (frameVisits ids read) := by
  rw [Visit.below_some found sound, Visit.ofSpine, ← suffix_zero, suffix_first]
  simp [visits, finished, getNextChild, frameVisits]

variable (ids) in
theorem advance_visits (valid : iterator.Valid read)
    (advanceOk : iterator.advance read = .ok moved) : iterator.visits ids read =
      (iterator.currentEntry?.map (⟨·, iterator.getIdentifier ids⟩)).toList ++
        moved.visits ids read := by
  obtain ⟨stack, descending⟩ := iterator
  cases stack with
  | nil =>
    cases descending with
    | true | false =>
      obtain rfl : (⟨[], false⟩ : BTreeIterator) = moved := ok.inj advanceOk
      rfl
  | cons frame outer =>
    obtain ⟨node, index⟩ := frame
    have sound : node.Sound read := (valid (node, index) (mem_cons_self ..)).1
    cases descending with
    | true =>
      cases child : node.childAt index with
      | none =>
        simp only [advance, getNextChild, child, if_true] at advanceOk
        obtain rfl := ok.inj advanceOk
        simp [visits, finished, getNextChild, currentEntry?, child, Visit.below]
      | some identifier =>
        obtain ⟨childNode, found, childSound, -⟩ := sound.child child
        simp only [advance, getNextChild, child, if_true, descend,
          NodeReader.treeNodeFromIdentifier, found] at advanceOk
        obtain rfl := ok.inj advanceOk
        rw [visits_enter found childSound]
        simp [visits, finished, getNextChild, currentEntry?, child]
    | false =>
      cases entry : node.entries[index]? with
      | none =>
        have atEnd : node.entries.length ≤ index := getElem?_eq_none_iff.mp entry
        have outside : ¬index + 1 ≤ node.entries.length := by omega
        simp only [advance, false_eq_true, if_false, if_neg outside] at advanceOk
        obtain rfl := ok.inj advanceOk
        simp [visits, currentEntry?, entry, frameVisits_of_length_le atEnd]
      | some value =>
        have inside := (List.getElem?_eq_some_iff.mp entry).1
        simp only [advance, false_eq_true, if_false, if_pos (Nat.succ_le_of_lt inside)] at advanceOk
        obtain rfl := ok.inj advanceOk
        simp [visits, finished, currentEntry?, getNextChild, getIdentifier, entry,
          frameVisits_of_getElem? entry]

variable (ids) in
theorem gapVisits_suffix {target : Nat} (notBack : index ≤ target)
    (inBounds : target ≤ node.entries.length) :
    (Visit.below ids read (node.childAt target) ++ frameVisits ids read (node, target)) <:+
      (Visit.below ids read (node.childAt index) ++ frameVisits ids read (node, index)) := by
  induction target, notBack using Nat.le_induction with
  | base => exact suffix_rfl
  | succ target notBack ih =>
    have found := getElem?_eq_getElem (show target < node.entries.length by omega)
    apply IsSuffix.trans ?_ (ih (by omega))
    rw [frameVisits_of_getElem? found]
    exact (suffix_cons _ _).trans (suffix_append _ _)

variable (ids) in
theorem skipToIndex_visits (key : Key) (valid : iterator.Valid read)
    (isDescending : iterator.descending = true) : (iterator.skipToIndex key).2.Valid read ∧
      (iterator.skipToIndex key).2.visits ids read <:+ iterator.visits ids read ∧
        ((iterator.skipToIndex key).1 = false →
          (iterator.skipToIndex key).2.descending = true) := by
  obtain ⟨stack, descending⟩ := iterator
  obtain rfl : descending = true := isDescending
  cases stack with
  | nil => exact ⟨valid, suffix_rfl, fun _ => rfl⟩
  | cons frame outer =>
    obtain ⟨node, index⟩ := frame
    have inBounds := node.indexOf_le key
    simp only [skipToIndex]
    split
    case isTrue => exact ⟨valid, suffix_rfl, (by simp)⟩
    case isFalse notBack =>
      have moves : visits ids read ⟨(node, node.indexOf key) :: outer, true⟩ <:+
          visits ids read ⟨(node, index) :: outer, true⟩ := by
        simp only [visits, finished, getNextChild, isEmpty_cons, Bool.not_false,
          Bool.and_self, if_true, flatMap_cons]
        rw [← append_assoc, ← append_assoc]
        obtain ⟨passed, isGap⟩ := gapVisits_suffix ids (not_lt.mp notBack) inBounds
        exact ⟨passed, by rw [← isGap]; simp only [append_assoc]⟩
      split
      · refine ⟨valid.replace inBounds, IsSuffix.trans ?_ moves, (by simp)⟩
        simp only [visits, Bool.false_and, Bool.false_eq_true, if_false, finished,
          isEmpty_cons, Bool.not_false, Bool.and_self, if_true]
        exact suffix_append _ _
      · exact ⟨valid.replace inBounds, moves, fun _ => rfl⟩

variable {fuel : Nat}

variable (ids) in
theorem skipToLoop_visits {key : Key} {status : Status} (valid : iterator.Valid read)
    (isDescending : iterator.descending = true)
    (skipOk : skipToLoop read key fuel iterator = .ok (status, moved)) :
    moved.visits ids read <:+ iterator.visits ids read := by
  induction fuel generalizing iterator with
  | zero => simp [skipToLoop] at skipOk
  | succ fuel ih =>
    obtain ⟨validIndex, suffix, stillDescending⟩ := skipToIndex_visits ids key valid isDescending
    rcases isSkip : iterator.skipToIndex key with ⟨found, skipped⟩
    simp only [isSkip] at validIndex suffix stillDescending
    simp only [skipToLoop, isSkip] at skipOk
    cases found with
    | true =>
      obtain ⟨-, rfl⟩ := Prod.mk.inj (ok.inj skipOk)
      exact suffix
    | false =>
      have descends := stillDescending rfl
      cases next : skipped.getNextChild with
      | none =>
        simp only [next] at skipOk
        obtain ⟨-, rfl⟩ := Prod.mk.inj (ok.inj skipOk)
        exact suffix
      | some child =>
        have advances : skipped.advance read = skipped.descend read child := by
          rw [advance, if_pos descends, next]
        simp only [next, false_eq_true, if_false] at skipOk
        split at skipOk
        case h_1 entered descendOk =>
          have notFinished : skipped.finished = false := by
            obtain ⟨stack, descending⟩ := skipped
            cases stack with
            | nil => simp [getNextChild] at next
            | cons frame outer => rfl
          obtain ⟨advanced, advanceOk, validEntered, -⟩ := advance_spec validIndex notFinished
          obtain rfl : advanced = entered :=
            ok.inj (advanceOk.symm.trans (advances.trans descendOk))
          have sameVisits := advance_visits ids validIndex advanceOk
          rw [currentEntry?_of_descending descends, map_none, toList_none,
            nil_append] at sameVisits
          obtain ⟨node, -, isEntered⟩ := bind_eq_ok.mp descendOk
          obtain rfl := ok.inj isEntered
          exact (ih validEntered descends skipOk).trans (sameVisits ▸ suffix)
        case h_2 descendFails =>
          obtain ⟨-, rfl⟩ := Prod.mk.inj (ok.inj skipOk)
          exact suffix
        case h_3 => simp at skipOk

variable (ids) in
theorem advanceToValue_spec (valid : iterator.Valid read)
    (enough : (iterator.positions read).length < fuel) :
    ∃ moved, iterator.advanceToValue read fuel = .ok moved ∧ moved.Valid read ∧
      moved.visits ids read = iterator.visits ids read ∧
        (moved.positions read).length ≤ (iterator.positions read).length ∧
          (moved.finished = true ∨ moved.hasValue = true) := by
  induction fuel generalizing iterator with
  | zero => omega
  | succ fuel ih =>
    cases stops : iterator.finished || iterator.hasValue with
    | true =>
      refine ⟨iterator, ?_, valid, rfl, le_rfl, or_eq_true_iff.mp stops⟩
      rw [advanceToValue, ← Bool.not_or, stops]
      rfl
    | false =>
      obtain ⟨notFinished, noValue⟩ := or_eq_false_iff.mp stops
      obtain ⟨next, advanceOk, validNext, oneLess⟩ := advance_spec valid notFinished
      have sameVisits := advance_visits ids valid advanceOk
      have noEntry : iterator.currentEntry? = none := by simpa [hasValue] using noValue
      rw [noEntry, map_none, toList_none, nil_append] at sameVisits
      rw [oneLess, length_cons] at enough
      obtain ⟨moved, loopOk, validMoved, visitsEq, notMore, ends⟩ := ih validNext (by omega)
      refine ⟨moved, ?_, validMoved, visitsEq.trans sameVisits.symm, ?_, ends⟩
      · rw [advanceToValue, ← Bool.not_or, stops, advanceOk]
        exact loopOk
      · rw [oneLess, length_cons]
        omega

theorem visits_of_finished (isFinished : iterator.finished = true) :
    iterator.visits ids read = [] := by
  have noEntries : (iterator.visits ids read).map (·.entry) = _ := entries_visits ids
  rw [rest_of_finished isFinished] at noEntries
  exact map_eq_nil_iff.mp noEntries

theorem forEachEntryLoop_spec {σ : Type} (onNext : σ → EntryAndNodeIdentifier → σ × Bool)
    {state : σ} (valid : iterator.Valid read)
    (enough : (iterator.positions read).length + 1 < fuel) :
    iterator.forEachEntryLoop ids read onNext fuel state =
      .ok (.ok, (runUntil onNext state (iterator.visits ids read)).1) := by
  induction fuel generalizing iterator state with
  | zero => omega
  | succ fuel ih =>
    rw [forEachEntryLoop]
    split
    case isTrue isFinished =>
      rw [visits_of_finished isFinished]
      rfl
    case isFalse notFinished =>
      have somePosition : iterator.positions read ≠ [] := fun noPosition =>
        notFinished (positions_eq_nil.mp noPosition)
      have isPositive := length_pos_of_ne_nil somePosition
      obtain ⟨moved, loopOk, validMoved, visitsEq, notMore, ends⟩ :=
        advanceToValue_spec ids valid (show _ < fuel by omega)
      rw [loopOk, returnOnError_ok, ← visitsEq]
      cases isEntry : moved.currentEntry? with
      | none =>
        have isFinished : moved.finished = true := ends.resolve_right (by simp [hasValue, isEntry])
        apply ih validMoved
        rw [positions_eq_nil.mpr isFinished, length_nil]
        omega
      | some entry =>
        have goesOn : moved.finished = false := by
          rw [eq_false_iff]
          intro isFinished
          rw [currentEntry?_of_finished isFinished] at isEntry
          exact absurd (isEntry) (by simp)
        obtain ⟨next, advanceOk, validNext, oneLess⟩ := advance_spec validMoved goesOn
        have firstVisit := advance_visits ids validMoved advanceOk
        rw [isEntry, map_some, toList_some, singleton_append] at firstVisit
        rw [oneLess, length_cons] at notMore
        rw [firstVisit, runUntil]
        rcases isNext : onNext state ⟨entry, moved.getIdentifier ids⟩ with ⟨after, continues⟩
        simp only [isNext]
        cases continues with
        | false => rfl
        | true =>
          simp only [Bool.not_true, Bool.false_eq_true, if_false, if_true, advanceOk,
            returnOnError_ok]
          exact ih validNext (by omega)

end BTreeIterator

section ForEachEntry

variable {level : NodeLevelCalculator} {ids : NodeIdentifiers} {read : NodeReader}
  {root : ObjectIdentifier} {tree : LeveledTree Entry}

theorem searching_init (wellFormed : WellFormed level read root tree) (minKey : Key) :
    ∃ node, init read root = .ok ⟨[(node, 0)], true⟩ ∧ node.Sound read ∧ read root = some node ∧
      Searching level read minKey tree.contents [] node 0 [] := by
  obtain ⟨node, found, leveled, -⟩ := leveled_of_stored wellFormed.stored wellFormed.leveled
  obtain ⟨iterator, initOk, valid, positionsEq⟩ := init_spec wellFormed.stored
  have isRoot : init read root = .ok ⟨[(node, 0)], true⟩ := by
    simp [init, descend, NodeReader.treeNodeFromIdentifier, found]
  obtain rfl : iterator = ⟨[(node, 0)], true⟩ := ok.inj (initOk.symm.trans isRoot)
  refine ⟨node, isRoot, leveled.sound, found, valid, leveled, Nat.zero_le _, wellFormed.sorted,
    ?_, by simp, by simp, by simp⟩
  rw [nil_append, BTreeIterator.rest, positionsEq, Position.entries_below wellFormed.stored]
  rfl

variable (ids) in
theorem forEachEntryInternal_spec (wellFormed : WellFormed level read root tree) (minKey : Key) :
    ∃ visited, visited <:+ Visit.below ids read (some root) ∧
      visited.map (·.entry) = startingAt Entry.key minKey tree.contents ∧
      ∃ bound, ∀ fuel ≥ bound, ∀ (σ : Type) (onNext : σ → EntryAndNodeIdentifier → σ × Bool)
        (state : σ), forEachEntryInternal ids read fuel root minKey onNext state =
          .ok (.ok, (runUntil onNext state visited).1) := by
  obtain ⟨node, initOk, sound, found, searching⟩ := searching_init wellFormed minKey
  have start : BTreeIterator.visits ids read ⟨[(node, 0)], true⟩ =
      Visit.below ids read (some root) := by
    rw [visits_enter found sound, flatMap_nil, append_nil]
  have skips : ∀ fuel > node.level.toNat, ∃ moved,
      skipTo read fuel minKey ⟨[(node, 0)], true⟩ = .ok (.ok, moved) ∧
        moved.Valid read ∧ moved.visits ids read <:+ Visit.below ids read (some root) ∧
        (moved.visits ids read).map (·.entry) = startingAt Entry.key minKey tree.contents ∧
        (moved.positions read).length ≤
          (BTreeIterator.positions read ⟨[(node, 0)], true⟩).length := by
    intro fuel enough
    obtain ⟨moved, skipOk, valid, restEq, fewer⟩ := searching.skipTo_spec enough
    have suffix := skipToLoop_visits ids searching.valid rfl skipOk
    rw [start] at suffix
    exact ⟨moved, skipOk, valid, suffix, (entries_visits ids).trans restEq, fewer.length_le⟩
  obtain ⟨first, -, -, suffix, isFrom, -⟩ := skips _ (Nat.lt_succ_self _)
  refine ⟨first.visits ids read, suffix, isFrom, node.level.toNat +
    (BTreeIterator.positions read ⟨[(node, 0)], true⟩).length + 2, ?_⟩
  intro fuel enough σ onNext state
  obtain ⟨moved, skipOk, valid, otherSuffix, sameEntries, fewer⟩ := skips fuel (by omega)
  have sameLength : (moved.visits ids read).length = (first.visits ids read).length := by
    have lengths := congrArg length (sameEntries.trans isFrom.symm)
    simpa only [length_map] using lengths
  have sameVisits : moved.visits ids read = first.visits ids read :=
    (suffix_of_suffix_length_le otherSuffix suffix sameLength.le).eq_of_length sameLength
  rw [forEachEntryInternal, initOk, returnOnError_ok, skipOk, returnOnError_ok, ← sameVisits]
  exact forEachEntryLoop_spec onNext valid (by omega)

variable (ids) in
/-- The callback of `GetEntryFromCommit` is called once: with the entry of the key, if there is
one. -/
theorem getEntryFromCommit_eq (wellFormed : WellFormed level read root tree) (key : Key) :
    ∃ bound, ∀ fuel ≥ bound, ∀ commit : CommitImpl, commit.rootIdentifier = root →
      getEntryFromCommit ids read fuel commit key = .ok [match find Entry.key tree.contents key with
          | some entry => (.ok, entry)
          | none => (.notFound, default)] := by
  obtain ⟨visited, -, isFrom, bound, visits⟩ := forEachEntryInternal_spec ids wellFormed key
  use bound
  rintro fuel enough commit rfl
  rw [find_eq_head_startingAt wellFormed.sorted, ← isFrom]
  simp only [getEntryFromCommit, forEachEntry, visits fuel enough]
  cases visited with
  | nil => rfl
  | cons next later =>
    rw [map_cons, head?_cons, filter_some]
    by_cases isKey : next.entry.key = key
    · simp [runUntil, isKey]
    · simp [runUntil, isKey]

/-- `ForEachEntry` visits the entries from a key on, in order, until it is stopped, and
`GetEntryFromCommit` finds the keys of the tree. -/
theorem forEachEntry_visits (wellFormed : WellFormed level read root tree) (minKey : Key) :
    (∃ (visited : List EntryAndNodeIdentifier) (bound : ℕ),
      KeyedList.Sorted Entry.key (visited.map (·.entry)) ∧
      (∀ entry, entry ∈ visited.map (·.entry) ↔ entry ∈ tree.contents ∧ minKey ≤ entry.key) ∧
      ∀ fuel ≥ bound, ∀ (σ : Type) (onNext : σ → EntryAndNodeIdentifier → σ × Bool)
        (onDone : σ → Status → σ) (state : σ),
        forEachEntry ids read fuel root minKey onNext onDone state =
          .ok (onDone (runUntil onNext state visited).1 .ok)) ∧
    ∃ bound, ∀ fuel ≥ bound, ∀ commit : CommitImpl, commit.rootIdentifier = root →
      ∃ status entry, getEntryFromCommit ids read fuel commit minKey = .ok [(status, entry)] ∧
        (status = .ok → entry ∈ tree.contents ∧ entry.key = minKey) ∧
        (status = .ok ↔ ∃ other ∈ tree.contents, other.key = minKey) ∧
        (status = .ok ∨ status = .notFound) := by
  constructor
  · obtain ⟨visited, -, isFrom, bound, visits⟩ :=
      forEachEntryInternal_spec ids wellFormed minKey
    refine ⟨visited, bound, ?_, ?_, ?_⟩
    · rw [isFrom]
      exact sorted_filter wellFormed.sorted _
    · intro entry
      rw [isFrom, mem_startingAt]
    · intro fuel enough σ onNext onDone state
      rw [forEachEntry, visits fuel enough]
      rfl
  · obtain ⟨bound, isCalled⟩ := getEntryFromCommit_eq ids wellFormed minKey
    use bound
    intro fuel enough commit isRoot
    rw [isCalled fuel enough commit isRoot]
    cases isFound : find Entry.key tree.contents minKey with
    | none =>
      have isAbsent := find_eq_none_iff.mp isFound
      refine ⟨.notFound, default, rfl, nofun, ?_, .inr rfl⟩
      simpa using isAbsent
    | some entry =>
      have isMember := mem_of_find isFound
      have isKey := key_of_find isFound
      exact ⟨.ok, entry, rfl, fun _ => ⟨isMember, isKey⟩,
        ⟨fun _ => ⟨entry, isMember, isKey⟩, fun _ => rfl⟩, .inl rfl⟩

/-- A tree with an empty child in front of the key that is looked for. -/
theorem forEachEntry_visits_sample :
    let read : NodeReader := .ofNodes
      [(sampleIdentifier 1, ⟨0, [], [], by decide⟩),
        (sampleIdentifier 2, ⟨1, [sampleEntry 5, sampleEntry 7], [(1, sampleIdentifier 1)],
          by decide⟩)]
    (∃ (visited : List EntryAndNodeIdentifier) (bound : ℕ),
      Sorted Entry.key (visited.map (·.entry)) ∧
      (∀ entry, entry ∈ visited.map (·.entry) ↔
        entry ∈ [sampleEntry 5, sampleEntry 7] ∧ [6] ≤ entry.key) ∧
      ∀ fuel ≥ bound, ∀ (σ : Type) (onNext : σ → EntryAndNodeIdentifier → σ × Bool)
        (onDone : σ → Status → σ) (state : σ),
        forEachEntry .byCode read fuel (sampleIdentifier 2) [6] onNext onDone state =
          .ok (onDone (runUntil onNext state visited).1 .ok)) ∧
    ∃ bound, ∀ fuel ≥ bound, ∀ commit : CommitImpl, commit.rootIdentifier = sampleIdentifier 2 →
      ∃ status entry, getEntryFromCommit .byCode read fuel commit [6] = .ok [(status, entry)] ∧
        (status = .ok → entry ∈ [sampleEntry 5, sampleEntry 7] ∧ entry.key = [6]) ∧
        (status = .ok ↔ ∃ other ∈ [sampleEntry 5, sampleEntry 7], other.key = [6]) ∧
        (status = .ok ∨ status = .notFound) :=
  forEachEntry_visits (by decide : WellFormed sampleLevel _ _ ⟨2, .node (.step (.null 1)
    (sampleEntry 5) (.step (sampleLeaf []) (sampleEntry 7) (.last (.null 1))))⟩) [6]

end ForEachEntry

end Peridot
