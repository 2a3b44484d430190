import Peridot.ApplyHistory
import Peridot.BTreeDiffCorrect

/-!
# Reporting the changes between two trees

`ForEachDiff` from the first key on.  On two well-formed trees, in which no node
without entries and children is followed by an entry, it reports every key whose
entry differs, in order and once.  All trees that `ApplyChanges` makes are such
trees.
-/

namespace Peridot

open KeyedList Entry IteratorPair List Position

/-- `changes` lists the keys whose entries differ, in order, with the new entry of an
added or modified key and the old entry of a removed key. -/
structure IsDiff (base other : List Entry) (changes : List EntryChange) : Prop where
  sorted : KeyedList.Sorted (fun change : EntryChange => change.entry.key) changes
  mem_iff : ∀ change, change ∈ changes ↔
    if change.deleted then
      KeyedList.find Entry.key base change.entry.key = some change.entry ∧
        KeyedList.find Entry.key other change.entry.key = none
    else
      KeyedList.find Entry.key other change.entry.key = some change.entry ∧
        KeyedList.find Entry.key base change.entry.key ≠ some change.entry

/-- With enough fuel, `ForEachDiff` hands out the given changes, until it is stopped. -/
def Reports (read : NodeReader) (baseRoot otherRoot : ObjectIdentifier) (minKey : Key)
    (changes : List EntryChange) : Prop :=
  ∀ (σ : Type) (onNext : σ → EntryChange → σ × Bool) (state : σ), ∃ bound, ∀ fuel ≥ bound,
    forEachDiff read fuel baseRoot otherRoot minKey onNext state =
      .ok (runUntil onNext state changes).1

def record {α : Type} (items : List α) (item : α) : List α × Bool :=
  (items ++ [item], true)

theorem runUntil_record {α : Type} (recorded items : List α) :
    runUntil record recorded items = (recorded ++ items, true) := by
  induction items generalizing recorded with
  | nil => simp [runUntil]
  | cons item items ih => simp [runUntil, record, ih]

def changesBetween (base other : List Entry) : List EntryChange :=
  (KeyedList.diff Entry.key base other).map Difference.toChange

namespace Reports

variable {read : NodeReader} {baseRoot otherRoot : ObjectIdentifier} {minKey : Key}
  {changes others : List EntryChange} (reports : Reports read baseRoot otherRoot minKey changes)
include reports

theorem recorded : ∃ bound, ∀ fuel ≥ bound,
      forEachDiff read fuel baseRoot otherRoot minKey record [] = .ok changes := by
  obtain ⟨bound, reported⟩ := reports _ record []
  refine ⟨bound, fun fuel enough => ?_⟩
  rw [reported fuel enough, runUntil_record, nil_append]

theorem eq_of_recorded (needed : Nat)
    (recorded : ∀ fuel, forEachDiff read (fuel + needed) baseRoot otherRoot minKey record [] =
      .ok others) : others = changes := by
  obtain ⟨bound, reported⟩ := reports.recorded
  exact Except.ok.inj ((recorded bound).symm.trans (reported (bound + needed) (by omega)))

end Reports

section Changes

variable {base other : List Entry}

section

variable (sorted : Sorted key base)
include sorted

variable (sortedOther : Sorted key other)
include sortedOther

theorem toChange_of_mem {difference : Difference} (member : difference ∈ diff key base other) :
    difference.1 ≠ difference.2 ∧ find key base difference.toChange.entry.key = difference.1 ∧
      find key other difference.toChange.entry.key = difference.2 ∧
      diffKey key difference = some difference.toChange.entry.key := by
  obtain ⟨different, key, inBase, inOther⟩ := (mem_diff sorted sortedOther).mp member
  obtain ⟨first, second⟩ := difference
  simp only at different inBase inOther
  have keyEq : (Difference.toChange (first, second)).entry.key = key := by
    cases second with
    | some entry => exact key_of_find inOther
    | none =>
      cases first with
      | some entry => exact key_of_find inBase
      | none => exact absurd rfl different
  refine ⟨different, by rw [keyEq, inBase], by rw [keyEq, inOther], ?_⟩
  rw [keyEq, diffKey]
  cases first with
  | some entry => exact congrArg some (key_of_find inBase)
  | none =>
    cases second with
    | some entry => exact congrArg some (key_of_find inOther)
    | none => exact absurd rfl different

theorem isDiff_changesBetween : IsDiff base other (changesBetween base other) where
  sorted := by
    refine pairwise_map.mpr
      ((diff_sorted sorted sortedOther).imp_of_mem fun inFirst inSecond less => ?_)
    exact less _ (toChange_of_mem sorted sortedOther inFirst).2.2.2 _
      (toChange_of_mem sorted sortedOther inSecond).2.2.2
  mem_iff := by
    intro change
    rw [changesBetween, mem_map]
    constructor
    · rintro ⟨⟨first, second⟩, member, rfl⟩
      obtain ⟨different, inBase, inOther, -⟩ := toChange_of_mem sorted sortedOther member
      cases second with
      | some entry => exact ⟨inOther, fun same => different (inBase.symm.trans same)⟩
      | none =>
        cases first with
        | some entry => exact ⟨inBase, inOther⟩
        | none => exact absurd rfl different
    · intro holds
      obtain ⟨entry, deleted⟩ := change
      cases deleted with
      | true =>
        obtain ⟨inBase, inOther⟩ := holds
        exact ⟨(some entry, none), (mem_diff sorted sortedOther).mpr
          ⟨by simp, entry.key, inBase, inOther⟩, rfl⟩
      | false =>
        obtain ⟨inOther, notInBase⟩ := holds
        exact ⟨(find key base entry.key, some entry), (mem_diff sorted sortedOther).mpr
            ⟨notInBase, entry.key, rfl, inOther⟩, rfl⟩

theorem mem_of_mem_changesBetween {change : EntryChange}
    (member : change ∈ changesBetween base other) : change.entry ∈ base ∨ change.entry ∈ other := by
  have holds := ((isDiff_changesBetween sorted sortedOther).mem_iff change).mp member
  cases deleted : change.deleted with
  | true =>
    simp only [deleted, if_true] at holds
    exact .inl (mem_of_find holds.1)
  | false =>
    simp only [deleted, Bool.false_eq_true, if_false] at holds
    exact .inr (mem_of_find holds.1)

end

@[simp]
theorem changesBetween_self (items : List Entry) : changesBetween items items = [] := by
  have common : diff key (items ++ []) (items ++ []) =
      diff key [] [] := diff_append_common items [] []
  simp only [append_nil, diff_nil_left, map_nil] at common
  rw [changesBetween, common, map_nil]

end Changes

namespace IteratorPair

variable {read : NodeReader} {pair : IteratorPair}

theorem runUntil_map {σ α β : Type} (onNext : σ → β → σ × Bool) (f : α → β) (state : σ)
    (items : List α) : runUntil (fun state item => onNext state (f item)) state items =
      runUntil onNext state (items.map f) := by
  induction items generalizing state with
  | nil => rfl
  | cons item items ih => simp only [runUntil, map_cons, ih]

theorem settle_spec {fuel : Nat} (ready : pair.Ready read) (enough : pair.size read ≤ fuel) :
    ∃ moved, (if !pair.normalize.finished && !pair.normalize.hasDiff then
        advance read fuel pair.normalize else return pair.normalize) = .ok moved ∧
      moved.Ready read ∧ moved.Normalized ∧ (moved.finished = true ∨ moved.hasDiff = true) ∧
      moved.size read ≤ pair.size read ∧ pair.MovesOn read moved ∧
      moved.remaining read = pair.remaining read := by
  have normalReady := ready.normalize
  have normalized := pair.normalize_normalized
  have sameSize : pair.normalize.size read = pair.size read := pair.size_normalize
  have moves : pair.MovesOn read pair.normalize := (MovesOn.refl pair).normalize
  rw [← pair.remaining_normalize]
  by_cases stops : pair.normalize.finished = true ∨ pair.normalize.hasDiff = true
  · refine ⟨pair.normalize, if_neg ?_, normalReady, normalized, stops, sameSize.le, moves, rfl⟩
    rcases stops with finished | hasDiff
    · simp [finished]
    · simp [hasDiff]
  · push Not at stops
    simp only [ne_eq, Bool.not_eq_true] at stops
    obtain ⟨moved, movedOk, turn, movedStops⟩ :=
      advance_spec normalReady normalized stops.1 (by omega : _ ≤ fuel)
    have smaller := turn.smaller
    have nothing : pair.normalize.sent = [] := by simp [sent, stops.2]
    refine ⟨moved, ?_, turn.ready, turn.normalized, movedStops, by omega,
      moves.moveOn turn.moves, ?_⟩
    · simp [stops, movedOk]
    · rw [turn.remaining, nothing, nil_append]

/-- Where `Init` starts from the first key on. -/
structure Started (read : NodeReader) (base other : List Position) (pair : IteratorPair) :
    Prop where
  ready : pair.Ready read
  normalized : pair.Normalized
  stops : pair.finished = true ∨ pair.hasDiff = true
  remaining : pair.remaining read =
    KeyedList.diff Entry.key (Position.entries base) (Position.entries other)
  midway : Midway read base other pair

theorem init_spec {level : Entry → Nat} {baseRoot otherRoot : ObjectIdentifier}
    {base other : LeveledTree Entry} (stored : Stored read base.height (some baseRoot) base.slot)
    (sorted : Sorted key base.contents) (trimmed : base.Shaped level .trimmed)
    (storedOther : Stored read other.height (some otherRoot) other.slot)
    (sortedOther : Sorted key other.contents) (trimmedOther : other.Shaped level .trimmed) :
    ∃ bound, ∀ fuel ≥ bound, ∃ pair, init read fuel baseRoot otherRoot [] = .ok pair ∧
      pair.size read < bound ∧ Started read (Position.below read (some baseRoot))
        (Position.below read (some otherRoot)) pair := by
  obtain ⟨left, leftOk, leftReady, -, positions⟩ := ready_of_init stored sorted trimmed
  obtain ⟨right, rightOk, rightReady, -, positionsRight⟩ :=
    ready_of_init storedOther sortedOther trimmedOther
  refine ⟨size read ⟨left, right, true⟩ + 1, fun fuel enough => ?_⟩
  obtain ⟨pair, settleOk, ready, normalized, stops, smaller, moves, remaining⟩ :=
    settle_spec ⟨leftReady, rightReady⟩ (by omega : size read ⟨left, right, true⟩ ≤ fuel)
  refine ⟨pair, ?_, by omega, ready, normalized, stops, ?_, ?_⟩
  · rw [init, leftOk, rightOk]
    exact settleOk
  · rw [remaining, IteratorPair.remaining, BTreeIterator.rest, BTreeIterator.rest, positions,
      positionsRight]
    exact map_id' _
  · rw [← positions, ← positionsRight]
    exact moves

end IteratorPair

def NodeReader.ofNodes (nodes : List (ObjectIdentifier × TreeNode)) : NodeReader :=
  fun identifier => (nodes.find? fun stored => stored.1 = identifier).map Prod.snd

def sampleIdentifier (byte : UInt8) : ObjectIdentifier :=
  ⟨0, 0, [byte]⟩

def sampleEntry (byte : UInt8) : Entry :=
  ⟨[byte], default, .eager⟩

def sampleLeaf (bytes : List UInt8) : Slot Entry 1 :=
  .node (Spine.ofList (fun _ => .null 0) 0 (bytes.map sampleEntry))

def sampleTree (leaf : Slot Entry 1) (byte : UInt8) : LeveledTree Entry :=
  ⟨2, .node (.step leaf (sampleEntry byte) (.last (.null 1)))⟩

def sampleLevel : NodeLevelCalculator :=
  fun key => if key < [5] then 0 else 1

section ForEachDiff

variable {level : NodeLevelCalculator} {read : NodeReader} {baseRoot otherRoot : ObjectIdentifier}
  {base other : LeveledTree Entry}

theorem WellFormed.contents_unique (wellFormed : WellFormed level read baseRoot base)
    (wellFormedOther : WellFormed level read baseRoot other) : base.contents = other.contents := by
  rw [LeveledTree.contents, LeveledTree.contents,
    ← entries_below wellFormed.stored, entries_below wellFormedOther.stored]

theorem reports_changesBetween (wellFormed : WellFormed level read baseRoot base)
    (wellFormedOther : WellFormed level read otherRoot other)
    (trimmed : base.Shaped level.entryLevel .trimmed)
    (trimmedOther : other.Shaped level.entryLevel .trimmed) :
    Reports read baseRoot otherRoot [] (changesBetween base.contents other.contents) := by
  intro σ onNext state
  by_cases same : baseRoot = otherRoot
  · subst same
    refine ⟨0, fun fuel _ => ?_⟩
    rw [wellFormed.contents_unique wellFormedOther, changesBetween_self, forEachDiff, if_pos rfl]
    rfl
  · obtain ⟨bound, starts⟩ := init_spec wellFormed.stored wellFormed.sorted trimmed
      wellFormedOther.stored wellFormedOther.sorted trimmedOther
    refine ⟨bound, fun fuel enough => ?_⟩
    obtain ⟨pair, initOk, smaller, started⟩ := starts fuel enough
    rw [forEachDiff, if_neg same, initOk]
    refine (sendAll_spec _ _ started.ready started.normalized started.stops
      (smaller.trans_le enough)).trans ?_
    rw [started.remaining, entries_below wellFormed.stored,
      entries_below wellFormedOther.stored, runUntil_map]
    rfl

/-- `ForEachDiff` reports exactly the keys whose entries differ, once and in order. -/
theorem forEachDiff_reports (wellFormed : WellFormed level read baseRoot base)
    (wellFormedOther : WellFormed level read otherRoot other)
    (trimmed : base.Shaped level.entryLevel .trimmed)
    (trimmedOther : other.Shaped level.entryLevel .trimmed) :
    ∃ changes, IsDiff base.contents other.contents changes ∧
      Reports read baseRoot otherRoot [] changes :=
  ⟨_, isDiff_changesBetween wellFormed.sorted wellFormedOther.sorted,
    reports_changesBetween wellFormed wellFormedOther trimmed trimmedOther⟩

/-- Two trees with a common leaf. -/
theorem forEachDiff_reports_shared_leaf :
    let read : NodeReader := .ofNodes
      [(sampleIdentifier 1, ⟨0, [sampleEntry 3], [], by decide⟩),
        (sampleIdentifier 2, ⟨1, [sampleEntry 10], [(0, sampleIdentifier 1)], by decide⟩),
        (sampleIdentifier 3, ⟨1, [sampleEntry 20], [(0, sampleIdentifier 1)], by decide⟩)]
    ∃ changes, IsDiff [sampleEntry 3, sampleEntry 10] [sampleEntry 3, sampleEntry 20] changes ∧
      Reports read (sampleIdentifier 2) (sampleIdentifier 3) [] changes :=
  forEachDiff_reports (by decide : WellFormed sampleLevel _ _ (sampleTree (sampleLeaf [3]) 10))
    (by decide : WellFormed sampleLevel _ _ (sampleTree (sampleLeaf [3]) 20))
    (by decide) (by decide)

/-- An empty node between two entries is taken for a common part of the trees, also
where the trees go on with different keys. -/
theorem forEachDiff_not_sorted :
    ∃ (level : NodeLevelCalculator) (read : NodeReader) (baseRoot otherRoot : ObjectIdentifier)
      (base other : LeveledTree Entry),
      WellFormed level read baseRoot base ∧ WellFormed level read otherRoot other ∧
        ¬∃ changes, IsDiff base.contents other.contents changes ∧
          Reports read baseRoot otherRoot [] changes := by
  refine ⟨sampleLevel, .ofNodes
      [(sampleIdentifier 1, ⟨0, [], [], by decide⟩),
        (sampleIdentifier 2, ⟨1, [sampleEntry 10], [(1, sampleIdentifier 1)], by decide⟩),
        (sampleIdentifier 3, ⟨1, [sampleEntry 5, sampleEntry 7], [(1, sampleIdentifier 1)],
          by decide⟩)],
    sampleIdentifier 2, sampleIdentifier 3,
    ⟨2, .node (.step (.null 1) (sampleEntry 10) (.last (sampleLeaf [])))⟩,
    ⟨2, .node (.step (.null 1) (sampleEntry 5)
      (.step (sampleLeaf []) (sampleEntry 7) (.last (.null 1))))⟩,
    by decide, by decide, ?_⟩
  rintro ⟨changes, isDiff, reports⟩
  have outOfOrder : [⟨sampleEntry 5, false⟩, ⟨sampleEntry 10, true⟩, ⟨sampleEntry 7, false⟩] =
      changes := reports.eq_of_recorded 20 fun _ => rfl
  exact absurd (outOfOrder ▸ isDiff.sorted) (by decide)

end ForEachDiff

end Peridot
