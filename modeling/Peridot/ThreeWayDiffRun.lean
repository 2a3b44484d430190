import Peridot.BTreeDiffStops
import Peridot.ForEachDiff
import Peridot.ThreeWayDiff

/-!
# The run of a three-way comparison

Each side of a `ThreeWayIterator` works through the visible differences between the
base and its tree, one at a time.  The two sides are merged by key, so that a run
visits every key of a visible difference of one of the sides, once and in order.
-/

namespace Peridot

open List KeyedList Position ThreeWayIterator Call ThreeWaySide Option

variable {pair : IteratorPair} {fuel : Nat} {read : NodeReader}

section

variable {fuel more : Nat} (le : fuel ≤ more)
include le

theorem IteratorPair.advance_mono {moved : IteratorPair}
    (advanceOk : pair.advance read fuel = .ok moved) : pair.advance read more = .ok moved := by
  induction fuel generalizing pair more with
  | zero => simp [advance] at advanceOk
  | succ fuel ih =>
    obtain ⟨more, rfl⟩ : ∃ rest, more = rest + 1 := ⟨more - 1, by omega⟩
    rw [advance, bind_eq_ok] at advanceOk ⊢
    obtain ⟨next, nextOk, rest⟩ := advanceOk
    refine ⟨next, nextOk, ?_⟩
    split at rest
    · rename_i continues
      rw [if_pos continues]
      exact ih (by omega) rest
    · rename_i stops
      rwa [if_neg stops]

theorem IteratorPair.init_mono {baseRoot otherRoot : ObjectIdentifier}
    (initOk : init read fuel baseRoot otherRoot [] = .ok pair) :
    init read more baseRoot otherRoot [] = .ok pair := by
  simp only [init, ne_eq, not_true_eq_false, if_false, bind_eq_ok] at initOk ⊢
  obtain ⟨left, leftOk, right, rightOk, start, startOk, rest⟩ := initOk
  refine ⟨left, leftOk, right, rightOk, start, startOk, ?_⟩
  split at rest
  · rename_i continues
    rw [if_pos continues]
    exact advance_mono le rest
  · rename_i stops
    rwa [if_neg stops]

theorem ThreeWaySide.advanceLoop_mono {side moved : ThreeWaySide}
    (loopOk : advanceLoop read fuel side = .ok moved) : advanceLoop read more side = .ok moved := by
  induction fuel generalizing side more with
  | zero => simp [advanceLoop] at loopOk
  | succ fuel ih =>
    obtain ⟨more, rfl⟩ : ∃ rest, more = rest + 1 := ⟨more - 1, by omega⟩
    rw [advanceLoop] at loopOk ⊢
    split at loopOk
    · rename_i continues
      rw [if_pos continues]
      simp only at loopOk ⊢
      split at loopOk
      · rename_i stopped
        rwa [if_pos stopped]
      · rename_i goesOn
        rw [if_neg goesOn]
        rw [bind_eq_ok] at loopOk ⊢
        obtain ⟨iterators, advanceOk, rest⟩ := loopOk
        exact ⟨iterators, IteratorPair.advance_mono (by omega) advanceOk, ih (by omega) rest⟩
    · rename_i stops
      rwa [if_neg stops]

end

namespace ThreeWayIterator

variable {read : NodeReader} {fuel more : Nat} {iterator moved : ThreeWayIterator}
  (le : fuel ≤ more)
include le

theorem advanceLeft_mono (leftOk : iterator.advanceLeft read fuel = .ok moved) :
    iterator.advanceLeft read more = .ok moved := by
  rw [advanceLeft, bind_eq_ok] at leftOk ⊢
  obtain ⟨left, advanceOk, rest⟩ := leftOk
  exact ⟨left, advanceLoop_mono le advanceOk, rest⟩

theorem advanceRight_mono (rightOk : iterator.advanceRight read fuel = .ok moved) :
    iterator.advanceRight read more = .ok moved := by
  rw [advanceRight, bind_eq_ok] at rightOk ⊢
  obtain ⟨right, advanceOk, rest⟩ := rightOk
  exact ⟨right, advanceLoop_mono le advanceOk, rest⟩

theorem advance_mono (advanceOk : iterator.advance read fuel = .ok moved) :
    iterator.advance read more = .ok moved := by
  unfold advance at advanceOk ⊢
  split_ifs at advanceOk ⊢
  · exact advanceRight_mono le advanceOk
  · exact advanceLeft_mono le advanceOk
  · exact advanceLeft_mono le advanceOk
  · exact advanceRight_mono le advanceOk
  · rw [bind_eq_ok] at advanceOk ⊢
    obtain ⟨middle, leftOk, rightOk⟩ := advanceOk
    exact ⟨middle, advanceLeft_mono le leftOk, advanceRight_mono le rightOk⟩

theorem init_mono {baseRoot leftRoot rightRoot : ObjectIdentifier}
    (initOk : init read fuel baseRoot leftRoot rightRoot [] = .ok iterator) :
    init read more baseRoot leftRoot rightRoot [] = .ok iterator := by
  simp only [init, bind_eq_ok] at initOk ⊢
  obtain ⟨left, leftOk, right, rightOk, rest⟩ := initOk
  refine ⟨left, IteratorPair.init_mono le leftOk, right, IteratorPair.init_mono le rightOk, ?_⟩
  split at rest
  · rename_i starts
    rw [if_pos starts]
    rw [bind_eq_ok] at rest ⊢
    obtain ⟨middle, leftOk, rightOk⟩ := rest
    exact ⟨middle, advanceLeft_mono le leftOk, advanceRight_mono le rightOk⟩
  · rename_i finished
    rwa [if_neg finished]

theorem sendAll_mono {σ : Type} {onNext : σ → ThreeWayChange → σ × Bool} {state result : σ}
    (sendOk : iterator.sendAll read onNext fuel state = .ok result) :
    iterator.sendAll read onNext more state = .ok result := by
  induction fuel generalizing iterator state more with
  | zero => simp [sendAll] at sendOk
  | succ fuel ih =>
    obtain ⟨more, rfl⟩ : ∃ rest, more = rest + 1 := ⟨more - 1, by omega⟩
    rw [sendAll] at sendOk ⊢
    split at sendOk
    · rename_i finished
      rwa [if_pos finished]
    · rename_i unfinished
      rw [if_neg unfinished]
      simp only at sendOk ⊢
      split at sendOk
      · rename_i stopped
        rwa [if_pos stopped]
      · rename_i goesOn
        rw [if_neg goesOn]
        rw [bind_eq_ok] at sendOk ⊢
        obtain ⟨next, advanceOk, rest⟩ := sendOk
        exact ⟨next, advance_mono (by omega) advanceOk, ih (by omega) rest⟩

end ThreeWayIterator

theorem forEachThreeWayDiff_mono {σ : Type} {more : Nat}
    {baseRoot leftRoot rightRoot : ObjectIdentifier} {onNext : σ → ThreeWayChange → σ × Bool}
    {state result : σ} (le : fuel ≤ more)
    (diffOk : forEachThreeWayDiff read fuel baseRoot leftRoot rightRoot [] onNext state =
      .ok result) :
    forEachThreeWayDiff read more baseRoot leftRoot rightRoot [] onNext state = .ok result := by
  rw [forEachThreeWayDiff] at diffOk ⊢
  split at diffOk
  · rename_i same
    rwa [if_pos same]
  · rename_i different
    rw [if_neg different]
    rw [bind_eq_ok] at diffOk ⊢
    obtain ⟨iterator, initOk, rest⟩ := diffOk
    exact ⟨iterator, init_mono le initOk, sendAll_mono le rest⟩

variable {event : Difference}

namespace ThreeWaySide

variable {read : NodeReader} {base other : List Position} {events rest : List Difference}
  {side : ThreeWaySide}

structure AtStop (read : NodeReader) (base other : List Position) (pair : IteratorPair) :
    Prop where
  ready : pair.Ready read
  normalized : pair.Normalized
  stops : pair.finished = true ∨ pair.hasDiff = true
  midway : pair.Midway read base other

/-- The side has the differences `events` to consider, the first of them pending. -/
structure Tracks (read : NodeReader) (base other : List Position) (events : List Difference)
    (side : ThreeWaySide) : Prop where
  atStop : AtStop read base other side.iterators
  pending : (side.base, side.entry) = events.head?.getD (none, none)
  later : visible base other (side.iterators.remaining read) = events.tail
  done : events = [] → side.iterators.finished = true

theorem runUntil_onNext (side : ThreeWaySide) (differences : List Difference) :
    runUntil onNext side differences = ((differences.getLast?.map fun difference =>
        { side with advanced := true, base := difference.1, entry := difference.2 }).getD side,
        true) := by
  induction differences generalizing side with
  | nil => rfl
  | cons difference differences ih =>
    rw [runUntil]
    simp only [onNext, if_true]
    rw [ih]
    cases differences with
    | nil => rfl
    | cons next differences =>
      rw [getLast?_cons_cons, getLast?_eq_some_getLast (cons_ne_nil _ _)]
      rfl

theorem visible_append (first second : List Difference) :
    visible base other (first ++ second) = visible base other first ++ visible base other second :=
  filter_append ..

theorem advanceLoop_spec (side : ThreeWaySide) (listing : Listing read base)
    (listingOther : Listing read other) (atStop : AtStop read base other side.iterators)
    (notAdvanced : side.advanced = false) (enough : side.iterators.size read < fuel) :
    ∃ moved, advanceLoop read fuel side = .ok moved ∧
      Tracks read base other (visible base other (side.iterators.remaining read)) moved ∧
      moved.iterators.size read ≤ side.iterators.size read := by
  induction fuel generalizing side with
  | zero => omega
  | succ fuel ih =>
    cases finished : side.iterators.finished with
    | true =>
      refine ⟨{ side with base := none, entry := none }, ?_, ⟨atStop, ?_, ?_, ?_⟩, le_rfl⟩
      · simp [advanceLoop, finished, notAdvanced]
        rfl
      · rw [IteratorPair.remaining_of_finished atStop.normalized finished]
        rfl
      · rw [IteratorPair.remaining_of_finished atStop.normalized finished]
        rfl
      · exact fun _ => finished
    | false =>
      have hasDiff : side.iterators.hasDiff = true := by simpa [finished] using atStop.stops
      obtain ⟨iterators, advanceOk, turn, stops⟩ := IteratorPair.advance_spec atStop.ready
        atStop.normalized finished (by omega : side.iterators.size read ≤ fuel)
      have smaller := turn.smaller
      have nextStop : AtStop read base other iterators :=
        ⟨turn.ready, turn.normalized, stops, atStop.midway.moveOn turn.moves⟩
      have remaining : visible base other (side.iterators.remaining read) =
          side.iterators.diffs.getLast?.toList ++
            visible base other (iterators.remaining read) := by
        rw [turn.remaining, IteratorPair.sent_of_hasDiff hasDiff, visible_append,
          IteratorPair.visible_diffs listing listingOther atStop.ready atStop.normalized
            atStop.midway hasDiff]
      cases last : side.iterators.diffs.getLast? with
      | none =>
        rw [last, toList_none, nil_append] at remaining
        obtain ⟨moved, loopOk, tracks, size⟩ := ih { side with iterators }
          nextStop notAdvanced (by simp only; omega)
        refine ⟨moved, ?_, by rw [remaining]; exact tracks, size.trans smaller.le⟩
        simp only [advanceLoop, finished, notAdvanced, IteratorPair.sendDiff,
          runUntil_onNext, last, map_none, getD_none, advanceOk]
        rw [notAdvanced] at loopOk
        exact loopOk
      | some event =>
        rw [last, toList_some, singleton_append] at remaining
        obtain ⟨fuel, rfl⟩ : ∃ rest, fuel = rest + 1 := ⟨fuel - 1, by omega⟩
        refine ⟨⟨iterators, true, event.1, event.2⟩, ?_, ⟨nextStop, ?_, ?_, ?_⟩, smaller.le⟩
        · rw [advanceLoop]
          simp only [finished, notAdvanced, IteratorPair.sendDiff, runUntil_onNext, last,
            map_some, getD_some, advanceOk, bind, Except.bind]
          simp [advanceLoop]
          rfl
        · rw [remaining]
          rfl
        · rw [remaining]
          rfl
        · rw [remaining]
          simp

theorem Tracks.advance (listing : Listing read base)
    (listingOther : Listing read other) (tracks : Tracks read base other events side)
    (enough : side.iterators.size read < fuel) :
    ∃ moved, side.advance read fuel = .ok moved ∧ Tracks read base other events.tail moved ∧
      moved.iterators.size read ≤ side.iterators.size read := by
  have moves := advanceLoop_spec { side with advanced := false } listing listingOther
    tracks.atStop rfl enough
  rwa [tracks.later] at moves

/-- The differences of a side: in order, and none of them empty. -/
structure Orderly (events : List Difference) : Prop where
  sorted : KeyedList.Sorted Difference.key events
  proper : ∀ event ∈ events, event ≠ (none, none)

theorem Orderly.filter (orderly : Orderly events) (keep : Difference → Bool) :
    Orderly (events.filter keep) where
  sorted := sorted_filter orderly.sorted keep
  proper := fun event member => orderly.proper event (mem_of_mem_filter member)

theorem Tracks.key_eq (tracks : Tracks read base other (event :: rest) side) :
    side.key = event.key := by
  obtain ⟨iterators, advanced, sideBase, sideEntry⟩ := side
  obtain rfl : (sideBase, sideEntry) = event := tracks.pending
  cases sideBase <;> cases sideEntry <;> rfl

theorem Tracks.finished_nil (tracks : Tracks read base other [] side) : side.finished = true := by
  have pending := tracks.pending
  rw [head?_nil, getD_none, Prod.mk.injEq] at pending
  simp [finished, tracks.done rfl, pending.1, pending.2]

theorem Tracks.finished_cons (tracks : Tracks read base other (event :: rest) side)
    (proper : event ≠ (none, none)) : side.finished = false := by
  have pending : (side.base, side.entry) = event := tracks.pending
  by_contra finished
  simp only [Bool.not_eq_false, ThreeWaySide.finished, Bool.and_eq_true,
    isNone_iff_eq_none] at finished
  exact proper (pending.symm.trans (by rw [finished.1.2, finished.2]))

end ThreeWaySide

namespace ThreeWayIterator

open ThreeWaySide (Orderly)

variable {read : NodeReader} {base left right : List Position}
  {leftEvents rightEvents : List Difference} {iterator : ThreeWayIterator}

structure Tracks (read : NodeReader) (base left right : List Position)
    (leftEvents rightEvents : List Difference) (iterator : ThreeWayIterator) : Prop where
  left : iterator.left.Tracks read base left leftEvents
  right : iterator.right.Tracks read base right rightEvents

structure IsNext (leftEvents rightEvents : List Difference) (key : Key) : Prop where
  left : ∀ event ∈ leftEvents, key ≤ event.key
  right : ∀ event ∈ rightEvents, key ≤ event.key
  found : (∃ event ∈ leftEvents, event.key = key) ∨ ∃ event ∈ rightEvents, event.key = key

def size (read : NodeReader) (iterator : ThreeWayIterator) : Nat :=
  iterator.left.iterators.size read + iterator.right.iterators.size read

structure Listings (read : NodeReader) (base left right : List Position) : Prop where
  base : Position.Listing read base
  left : Position.Listing read left
  right : Position.Listing read right

section

variable (listings : Listings read base left right)
include listings

variable (tracks : Tracks read base left right leftEvents rightEvents iterator)
include tracks

theorem Tracks.advanceLeft (enough : iterator.size read < fuel) :
    ∃ moved, iterator.advanceLeft read fuel = .ok moved ∧
      Tracks read base left right leftEvents.tail rightEvents moved ∧
      moved.size read ≤ iterator.size read := by
  unfold size at enough
  obtain ⟨side, sideOk, sideTracks, smaller⟩ :=
    tracks.left.advance listings.base listings.left (by omega : _ < fuel)
  refine ⟨{ iterator with left := side }, ?_, ⟨sideTracks, tracks.right⟩,
    Nat.add_le_add_right smaller _⟩
  rw [ThreeWayIterator.advanceLeft, sideOk]
  rfl

theorem Tracks.advanceRight (enough : iterator.size read < fuel) :
    ∃ moved, iterator.advanceRight read fuel = .ok moved ∧
      Tracks read base left right leftEvents rightEvents.tail moved ∧
      moved.size read ≤ iterator.size read := by
  unfold size at enough
  obtain ⟨side, sideOk, sideTracks, smaller⟩ :=
    tracks.right.advance listings.base listings.right (by omega : _ < fuel)
  refine ⟨{ iterator with right := side }, ?_, ⟨tracks.left, sideTracks⟩,
    Nat.add_le_add_left smaller _⟩
  rw [ThreeWayIterator.advanceRight, sideOk]
  rfl

theorem Tracks.advance (leftOrderly : Orderly leftEvents) (rightOrderly : Orderly rightEvents)
    (unfinished : iterator.finished = false) (enough : iterator.size read < fuel) :
    ∃ key moved, IsNext leftEvents rightEvents key ∧ iterator.advance read fuel = .ok moved ∧
      Tracks read base left right (above Difference.key key leftEvents)
        (above Difference.key key rightEvents) moved ∧ moved.size read ≤ iterator.size read := by
  cases leftEvents with
  | nil =>
    have leftFinished := tracks.left.finished_nil
    cases rightEvents with
    | nil => simp [finished, leftFinished, tracks.right.finished_nil] at unfinished
    | cons event rest =>
      obtain ⟨moved, rightOk, movedTracks, smaller⟩ := tracks.advanceRight listings enough
      refine ⟨event.key, moved, ⟨by simp, head_le rightOrderly.sorted,
        .inr ⟨event, by simp, rfl⟩⟩, ?_, ?_, smaller⟩
      · rw [advance, if_pos leftFinished, rightOk]
      · rwa [above_head rightOrderly.sorted, above_nil]
  | cons leftEvent leftRest =>
    have leftUnfinished := tracks.left.finished_cons (leftOrderly.proper leftEvent (by simp))
    cases rightEvents with
    | nil =>
      obtain ⟨moved, leftOk, movedTracks, smaller⟩ := tracks.advanceLeft listings enough
      refine ⟨leftEvent.key, moved, ⟨head_le leftOrderly.sorted, by simp,
        .inl ⟨leftEvent, by simp, rfl⟩⟩, ?_, ?_, smaller⟩
      · rw [advance, if_neg (by simp [leftUnfinished]), if_pos tracks.right.finished_nil, leftOk]
      · rwa [above_head leftOrderly.sorted, above_nil]
    | cons rightEvent rightRest =>
      have rightUnfinished := tracks.right.finished_cons (rightOrderly.proper rightEvent (by simp))
      have leftLe := head_le leftOrderly.sorted
      have rightLe := head_le rightOrderly.sorted
      rw [advance, if_neg (by simp [leftUnfinished]),
        if_neg (by simp [rightUnfinished]), tracks.left.key_eq, tracks.right.key_eq]
      rcases lt_trichotomy leftEvent.key rightEvent.key with less | same | greater
      · obtain ⟨moved, leftOk, movedTracks, smaller⟩ := tracks.advanceLeft listings enough
        refine ⟨leftEvent.key, moved, ⟨leftLe, fun event member =>
          less.le.trans (rightLe event member), .inl ⟨leftEvent, by simp, rfl⟩⟩, ?_, ?_, smaller⟩
        · rw [if_pos less, leftOk]
        · rwa [above_head leftOrderly.sorted, above_eq_self]
          exact fun event member => less.trans_le (rightLe event member)
      · obtain ⟨middle, leftOk, middleTracks, middleSmaller⟩ :=
          tracks.advanceLeft listings enough
        obtain ⟨moved, rightOk, movedTracks, smaller⟩ :=
          middleTracks.advanceRight listings (middleSmaller.trans_lt enough)
        refine ⟨leftEvent.key, moved, ⟨leftLe, fun event member =>
          same.le.trans (rightLe event member), .inl ⟨leftEvent, by simp, rfl⟩⟩, ?_, ?_,
          smaller.trans middleSmaller⟩
        · rw [if_neg same.not_lt, if_neg same.not_gt, leftOk]
          exact rightOk
        · rw [above_head leftOrderly.sorted, same, above_head rightOrderly.sorted]
          exact movedTracks
      · obtain ⟨moved, rightOk, movedTracks, smaller⟩ :=
          tracks.advanceRight listings enough
        refine ⟨rightEvent.key, moved, ⟨fun event member =>
          greater.le.trans (leftLe event member), rightLe,
          .inr ⟨rightEvent, by simp, rfl⟩⟩, ?_, ?_, smaller⟩
        · rw [if_neg greater.asymm, if_pos greater, rightOk]
        · rwa [above_head rightOrderly.sorted, above_eq_self]
          exact fun event member => greater.trans_le (leftLe event member)

end

/-- The stops of a run: the key of each, and the iterator there. -/
structure Run (read : NodeReader) (base left right : List Position)
    (leftEvents rightEvents : List Difference) (stops : List (Key × ThreeWayIterator)) :
    Prop where
  sorted : (stops.map Prod.fst).Pairwise (· < ·)
  mem_iff : ∀ key, key ∈ stops.map Prod.fst ↔
    (∃ event ∈ leftEvents, event.key = key) ∨ ∃ event ∈ rightEvents, event.key = key
  tracks : ∀ stop ∈ stops, Tracks read base left right
    (KeyedList.startingAt Difference.key stop.1 leftEvents)
    (KeyedList.startingAt Difference.key stop.1 rightEvents) stop.2

theorem run_nil : Run read base left right [] [] [] where
  sorted := .nil
  mem_iff := by simp
  tracks := by simp

theorem run_cons {key : Key} {stops : List (Key × ThreeWayIterator)}
    (tracks : Tracks read base left right leftEvents rightEvents iterator)
    (next : IsNext leftEvents rightEvents key)
    (run : Run read base left right (above Difference.key key leftEvents)
      (above Difference.key key rightEvents) stops) :
    Run read base left right leftEvents rightEvents ((key, iterator) :: stops) := by
  have later : ∀ stop ∈ stops, key < stop.1 := by
    intro stop member
    rcases (run.mem_iff stop.1).mp (mem_map_of_mem member) with
      ⟨event, isLater, sameKey⟩ | ⟨event, isLater, sameKey⟩
    · exact sameKey ▸ (mem_above.mp isLater).2
    · exact sameKey ▸ (mem_above.mp isLater).2
  have split : ∀ {events : List Difference} {other : Key}, (∀ event ∈ events, key ≤ event.key) →
      ((∃ event ∈ events, event.key = other) ↔ (other = key ∧ ∃ event ∈ events, event.key = key) ∨
        ∃ event ∈ above Difference.key key events, event.key = other) := by
    intro events other notSmaller
    constructor
    · rintro ⟨event, member, rfl⟩
      rcases (notSmaller event member).eq_or_lt with same | less
      · exact .inl ⟨same.symm, event, member, same.symm⟩
      · exact .inr ⟨event, mem_above.mpr ⟨member, less⟩, rfl⟩
    · rintro (⟨rfl, found⟩ | ⟨event, member, sameKey⟩)
      · exact found
      · exact ⟨event, (mem_above.mp member).1, sameKey⟩
  refine ⟨?_, fun other => ?_, fun stop member => ?_⟩
  · rw [map_cons, pairwise_cons]
    refine ⟨fun other member => ?_, run.sorted⟩
    obtain ⟨stop, inStops, rfl⟩ := mem_map.mp member
    exact later stop inStops
  · rw [map_cons, mem_cons, run.mem_iff, split next.left, split next.right]
    constructor
    · rintro (rfl | inLeft | inRight)
      · rcases next.found with foundLeft | foundRight
        · exact .inl (.inl ⟨rfl, foundLeft⟩)
        · exact .inr (.inl ⟨rfl, foundRight⟩)
      · exact .inl (.inr inLeft)
      · exact .inr (.inr inRight)
    · rintro ((⟨same, -⟩ | inLeft) | (⟨same, -⟩ | inRight))
      · exact .inl same
      · exact .inr (.inl inLeft)
      · exact .inl same
      · exact .inr (.inr inRight)
  · rcases mem_cons.mp member with rfl | inStops
    · rwa [startingAt_eq_self next.left, startingAt_eq_self next.right]
    · have stopTracks := run.tracks stop inStops
      rwa [startingAt_above (later stop inStops),
        startingAt_above (later stop inStops)] at stopTracks

theorem length_above_lt {key : Key} {events : List Difference}
    (member : event ∈ events) (sameKey : event.key = key) :
    (above Difference.key key events).length < events.length :=
  length_filter_lt_length_iff_exists.mpr ⟨event, member, by simp [sameKey]⟩

theorem length_above_le (key : Key) (events : List Difference) :
    (above Difference.key key events).length ≤ events.length :=
  length_filter_le _ _

/-- The states of the loop of `ForEachThreeWayDiffInternal` that report a difference. -/
inductive Visits (read : NodeReader) : ThreeWayIterator → List ThreeWayIterator → Prop where
  | done {iterator : ThreeWayIterator} (finished : iterator.finished = true) :
      Visits read iterator []
  | next {iterator moved : ThreeWayIterator} {fuel : Nat} {states : List ThreeWayIterator}
      (unfinished : iterator.finished = false) (advanceOk : iterator.advance read fuel = .ok moved)
      (visits : Visits read moved states) : Visits read iterator (iterator :: states)

theorem sendAll_spec (listings : Listings read base left right)
    (tracks : Tracks read base left right leftEvents rightEvents iterator)
    (leftOrderly : Orderly leftEvents) (rightOrderly : Orderly rightEvents)
    (enough : iterator.size read + leftEvents.length + rightEvents.length + 1 < fuel) :
    ∃ stops, Run read base left right leftEvents rightEvents stops ∧
      Visits read iterator (stops.map Prod.snd) ∧
      ∀ (σ : Type) (onNext : σ → ThreeWayChange → σ × Bool) (state : σ),
        iterator.sendAll read onNext fuel state =
          .ok (runUntil onNext state (stops.map fun stop => stop.2.getCurrentDiff)).1 := by
  induction fuel generalizing iterator leftEvents rightEvents with
  | zero => omega
  | succ fuel ih =>
    cases finished : iterator.finished with
    | true =>
      have leftDone : leftEvents = [] := by
        cases leftEvents with
        | nil => rfl
        | cons event rest =>
          have open' := tracks.left.finished_cons (leftOrderly.proper event (by simp))
          simp [ThreeWayIterator.finished, open'] at finished
      have rightDone : rightEvents = [] := by
        cases rightEvents with
        | nil => rfl
        | cons event rest =>
          have open' := tracks.right.finished_cons (rightOrderly.proper event (by simp))
          simp [ThreeWayIterator.finished, open'] at finished
      subst leftDone rightDone
      refine ⟨[], run_nil, .done finished, fun σ onNext state => ?_⟩
      simp [sendAll, finished, runUntil]
      rfl
    | false =>
      obtain ⟨key, moved, next, advanceOk, movedTracks, smaller⟩ := tracks.advance
        listings leftOrderly rightOrderly finished (by omega : _ < fuel)
      have shorter : (above Difference.key key leftEvents).length +
          (above Difference.key key rightEvents).length <
            leftEvents.length + rightEvents.length := by
        rcases next.found with ⟨event, member, sameKey⟩ | ⟨event, member, sameKey⟩
        · have := length_above_lt member sameKey
          have := length_above_le key rightEvents
          omega
        · have := length_above_lt member sameKey
          have := length_above_le key leftEvents
          omega
      obtain ⟨stops, run, visits, reported⟩ := ih movedTracks (leftOrderly.filter _)
        (rightOrderly.filter _) (by omega)
      refine ⟨(key, iterator) :: stops, run_cons tracks next run,
        .next finished advanceOk visits, fun σ onNext state => ?_⟩
      rw [sendAll, if_neg (by simp [finished]), map_cons, runUntil]
      cases continues : (onNext state iterator.getCurrentDiff).2 with
      | true =>
        simp only [continues, advanceOk, bind, Except.bind, Bool.not_true,
          Bool.false_eq_true, if_false, if_true]
        exact reported σ onNext _
      | false =>
        simp only [continues, Bool.not_false, if_true, Bool.false_eq_true, if_false]
        rfl

end ThreeWayIterator

def visibleDiffs (base other : List Position) : List Difference :=
  visible base other
    (KeyedList.diff Entry.key (Position.entries base) (Position.entries other))

section VisibleDiffs

variable {read : NodeReader} {base other : List Position} {difference : Difference}

theorem proper_of_mem_diff (listing : Listing read base) (listingOther : Listing read other)
    (member : difference ∈ diff Entry.key (entries base)
      (entries other)) : difference ≠ (none, none) := by
  rintro rfl
  exact ((mem_diff listing.sorted listingOther.sorted).mp member).1 rfl

theorem diffKey_of_ne (proper : difference ≠ (none, none)) :
    diffKey Entry.key difference = some difference.key := by
  obtain ⟨base, other⟩ := difference
  cases base with
  | some entry => rfl
  | none =>
    cases other with
    | some entry => rfl
    | none => exact absurd rfl proper

theorem orderly_visibleDiffs (listing : Listing read base) (listingOther : Listing read other) :
    ThreeWaySide.Orderly (visibleDiffs base other) := by
  refine ThreeWaySide.Orderly.filter ⟨?_, fun difference => proper_of_mem_diff listing
    listingOther⟩ _
  refine (diff_sorted listing.sorted listingOther.sorted).imp_of_mem ?_
  intro first second inFirst inSecond less
  exact less _ (diffKey_of_ne (proper_of_mem_diff listing listingOther inFirst)) _
    (diffKey_of_ne (proper_of_mem_diff listing listingOther inSecond))

end VisibleDiffs

namespace ThreeWayIterator

variable {level : Entry → Nat} {read : NodeReader} {baseRoot leftRoot rightRoot : ObjectIdentifier}
  {base left right : LeveledTree Entry}

theorem advance_started {positions others : List Position}
    (listing : Listing read positions) (listingOther : Listing read others)
    (started : pair.Started read positions others) (enough : pair.size read < fuel) :
    ∃ side, ThreeWaySide.advance read fuel ⟨pair, false, none, none⟩ = .ok side ∧
      side.Tracks read positions others (visibleDiffs positions others) ∧
      side.iterators.size read ≤ pair.size read := by
  have moves := advanceLoop_spec ⟨pair, false, none, none⟩ listing
    listingOther ⟨started.ready, started.normalized, started.stops, started.midway⟩ rfl enough
  rwa [started.remaining] at moves

theorem tracks_of_finished {positions others : List Position}
    (started : pair.Started read positions others) (finished : pair.finished = true) :
    ThreeWaySide.Tracks read positions others (visibleDiffs positions others)
      ⟨pair, false, none, none⟩ := by
  have nothing : pair.remaining read = [] :=
    IteratorPair.remaining_of_finished started.normalized finished
  have noDiffs : visibleDiffs positions others = [] := by
    rw [visibleDiffs, ← started.remaining, nothing]
    rfl
  rw [noDiffs]
  exact ⟨⟨started.ready, started.normalized, started.stops, started.midway⟩, rfl,
    by rw [nothing]; rfl, fun _ => finished⟩

theorem init_spec (storedBase : Stored read base.height (some baseRoot) base.slot)
    (sortedBase : Sorted Entry.key base.contents) (trimmedBase : base.Shaped level .trimmed)
    (storedLeft : Stored read left.height (some leftRoot) left.slot)
    (sortedLeft : Sorted Entry.key left.contents) (trimmedLeft : left.Shaped level .trimmed)
    (storedRight : Stored read right.height (some rightRoot) right.slot)
    (sortedRight : Sorted Entry.key right.contents)
    (trimmedRight : right.Shaped level .trimmed) : ∃ bound, ∀ fuel ≥ bound, ∃ iterator,
      init read fuel baseRoot leftRoot rightRoot [] = .ok iterator ∧ iterator.size read ≤ bound ∧
      Tracks read (below read (some baseRoot)) (below read (some leftRoot))
        (below read (some rightRoot))
        (visibleDiffs (below read (some baseRoot)) (below read (some leftRoot)))
        (visibleDiffs (below read (some baseRoot)) (below read (some rightRoot))) iterator := by
  have listing := listing_below storedBase sortedBase trimmedBase
  have listingLeft := listing_below storedLeft sortedLeft trimmedLeft
  have listingRight := listing_below storedRight sortedRight trimmedRight
  obtain ⟨boundLeft, startsLeft⟩ := IteratorPair.init_spec storedBase sortedBase trimmedBase
    storedLeft sortedLeft trimmedLeft
  obtain ⟨boundRight, startsRight⟩ := IteratorPair.init_spec storedBase sortedBase trimmedBase
    storedRight sortedRight trimmedRight
  refine ⟨boundLeft + boundRight, fun fuel enough => ?_⟩
  obtain ⟨leftPair, leftOk, leftSmaller, leftStarted⟩ := startsLeft fuel (by omega)
  obtain ⟨rightPair, rightOk, rightSmaller, rightStarted⟩ := startsRight fuel (by omega)
  by_cases finished : leftPair.finished = true ∧ rightPair.finished = true
  · refine ⟨⟨⟨leftPair, false, none, none⟩, ⟨rightPair, false, none, none⟩⟩, ?_, ?_,
      tracks_of_finished leftStarted finished.1, tracks_of_finished rightStarted finished.2⟩
    · simp [init, leftOk, rightOk, bind, Except.bind, ThreeWayIterator.finished,
        ThreeWaySide.finished, finished, pure, Except.pure]
    · simp only [size]
      omega
  · obtain ⟨leftSide, leftAdvance, leftTracks, leftSize⟩ :=
      advance_started listing listingLeft leftStarted (by omega : _ < fuel)
    obtain ⟨rightSide, rightAdvance, rightTracks, rightSize⟩ :=
      advance_started listing listingRight rightStarted (by omega : _ < fuel)
    refine ⟨⟨leftSide, rightSide⟩, ?_, ?_, leftTracks, rightTracks⟩
    · have starts : (!ThreeWayIterator.finished ⟨⟨leftPair, false, none, none⟩,
          ⟨rightPair, false, none, none⟩⟩) = true := by
        rcases not_and_or.mp finished with leftOpen | rightOpen
        · simp [ThreeWayIterator.finished, ThreeWaySide.finished, leftOpen]
        · simp [ThreeWayIterator.finished, ThreeWaySide.finished, rightOpen]
      simp [init, leftOk, rightOk, bind, Except.bind, starts, advanceLeft, advanceRight,
          leftAdvance, rightAdvance, pure, Except.pure]
    · simp only [size]
      omega

end ThreeWayIterator

/-- With enough fuel, `ForEachThreeWayDiff` hands out the given changes, until it is
stopped. -/
def ReportsThreeWay (read : NodeReader) (baseRoot leftRoot rightRoot : ObjectIdentifier)
    (changes : List ThreeWayChange) : Prop :=
  ∀ (σ : Type) (onNext : σ → ThreeWayChange → σ × Bool) (state : σ), ∃ bound, ∀ fuel ≥ bound,
    forEachThreeWayDiff read fuel baseRoot leftRoot rightRoot [] onNext state =
      .ok (runUntil onNext state changes).1

section ForEachThreeWayDiff

variable {level : NodeLevelCalculator} {read : NodeReader}
  {baseRoot leftRoot rightRoot : ObjectIdentifier} {base left right : LeveledTree Entry}

/-- `ForEachThreeWayDiff` reports the differences of a run through the visible
differences of both sides. -/
theorem forEachThreeWayDiff_run (wellFormed : WellFormed level read baseRoot base)
    (wellFormedLeft : WellFormed level read leftRoot left)
    (wellFormedRight : WellFormed level read rightRoot right)
    (trimmed : base.Shaped level.entryLevel .trimmed)
    (trimmedLeft : left.Shaped level.entryLevel .trimmed)
    (trimmedRight : right.Shaped level.entryLevel .trimmed) (different : leftRoot ≠ rightRoot) :
    ∃ stops, Run read (below read (some baseRoot))
        (below read (some leftRoot)) (below read (some rightRoot))
        (visibleDiffs (below read (some baseRoot)) (below read (some leftRoot)))
        (visibleDiffs (below read (some baseRoot)) (below read (some rightRoot))) stops ∧
      (∃ fuel start, ThreeWayIterator.init read fuel baseRoot leftRoot rightRoot [] = .ok start ∧
        Visits read start (stops.map Prod.snd)) ∧ ReportsThreeWay read baseRoot leftRoot rightRoot
        (stops.map fun stop => stop.2.getCurrentDiff) := by
  have listing := listing_below wellFormed.stored wellFormed.sorted trimmed
  have listingLeft := listing_below wellFormedLeft.stored wellFormedLeft.sorted trimmedLeft
  have listingRight := listing_below wellFormedRight.stored wellFormedRight.sorted trimmedRight
  obtain ⟨bound, starts⟩ := init_spec wellFormed.stored wellFormed.sorted trimmed
    wellFormedLeft.stored wellFormedLeft.sorted trimmedLeft wellFormedRight.stored
    wellFormedRight.sorted trimmedRight
  let needed := bound + (visibleDiffs (below read (some baseRoot))
    (below read (some leftRoot))).length + (visibleDiffs
      (below read (some baseRoot)) (below read (some rightRoot))).length + 2
  obtain ⟨iterator, initOk, size, tracks⟩ := starts needed (by omega)
  obtain ⟨stops, run, visits, reported⟩ := sendAll_spec
    ⟨listing, listingLeft, listingRight⟩ tracks (orderly_visibleDiffs listing listingLeft)
    (orderly_visibleDiffs listing listingRight) (by omega : _ < needed)
  refine ⟨stops, run, ⟨needed, iterator, initOk, visits⟩,
    fun σ onNext state => ⟨needed, fun fuel enough => ?_⟩⟩
  refine forEachThreeWayDiff_mono enough ?_
  rw [forEachThreeWayDiff, if_neg different, initOk]
  exact reported σ onNext state

end ForEachThreeWayDiff

end Peridot
