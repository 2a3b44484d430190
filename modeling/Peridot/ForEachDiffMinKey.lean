import Peridot.BTreeSkip
import Peridot.ForEachDiff

/-!
# Reporting the changes from a key on

`ForEachDiff` with a smallest key.  Before the comparison, `SkipIteratorsTo` moves
both iterators down to that key.  When only the iterator of the other tree finds it,
the iterator of the base tree stays on its level, in front of everything that its
next child holds.
-/

namespace Peridot

open List KeyedList Entry BTreeIterator Option Bool TreeNode

def stopLevel (baseLevel otherLevel keyLevel : Nat) : Nat :=
  if keyLevel = otherLevel then baseLevel else min baseLevel keyLevel

/-- The other tree holds the key, and the predecessor of the key in the base tree is
below the level on which the base iterator stops without finding the key. -/
def Overshoots (level : NodeLevelCalculator) (minKey : Key) (base other : List Entry)
    (baseLevel otherLevel : Nat) : Prop :=
  (∃ entry ∈ other, entry.key = minKey) ∧
    (∃ predecessor, KeyedList.IsPredecessor Entry.key base minKey predecessor ∧
      level.entryLevel predecessor <
        stopLevel baseLevel otherLevel (level minKey).toNat) ∧
    ¬((∃ entry ∈ base, entry.key = minKey) ∧
      stopLevel baseLevel otherLevel (level minKey).toNat = (level minKey).toNat)

theorem stopLevel_le (baseLevel otherLevel keyLevel : Nat) :
    stopLevel baseLevel otherLevel keyLevel ≤ baseLevel := by
  unfold stopLevel
  split <;> omega

variable {otherLevel baseLevel : Nat}

theorem stopLevel_step {keyLevel : Nat} (above : keyLevel < otherLevel) :
    stopLevel (if otherLevel ≤ baseLevel then baseLevel - 1 else baseLevel)
        (if baseLevel ≤ otherLevel then otherLevel - 1 else otherLevel) keyLevel =
      stopLevel baseLevel otherLevel keyLevel := by
  unfold stopLevel
  split_ifs <;> omega

namespace IteratorPair

variable {level : NodeLevelCalculator} {read : NodeReader} {minKey : Key}
  {items others before beforeOther : List Entry} {node otherNode : TreeNode}
  {index otherIndex : Nat} {outer otherOuter : List (TreeNode × Nat)} {flag : Bool}

open BTreeIterator (Seeking)

/-- Where the iterators are after `SkipIteratorsTo`. -/
structure Skipped (read : NodeReader) (minKey : Key) (items others : List Entry)
    (overshoots : Prop) (pair moved : IteratorPair) : Prop where
  ready : moved.Ready read
  flag : moved.diffFromLeftToRight = pair.diffFromLeftToRight
  right : moved.right.rest read = KeyedList.startingAt Entry.key minKey others
  left : ∃ extra, moved.left.rest read = extra ++ KeyedList.startingAt Entry.key minKey items ∧
    (∀ entry ∈ extra, entry.key < minKey) ∧ (extra ≠ [] ↔ overshoots)
  size : moved.size read ≤ pair.size read

theorem exact_left {left : BTreeIterator} {overshoots : Prop}
    (rest : left.rest read = startingAt key minKey items) (exact : ¬overshoots) :
    ∃ extra, left.rest read = extra ++ startingAt key minKey items ∧
      (∀ entry ∈ extra, entry.key < minKey) ∧ (extra ≠ [] ↔ overshoots) :=
  ⟨[], rest, by simp, by simpa using exact⟩

section Overshoots

variable {level : NodeLevelCalculator} {read : NodeReader} {minKey : Key}
  {items others before beforeOther : List Entry} {node otherNode : TreeNode}
  {index otherIndex : Nat} {outer otherOuter : List (TreeNode × Nat)}

section

variable (seeking : Seeking level read minKey items before node index outer)
include seeking

/-- Nothing goes wrong when the base iterator finds the key. -/
theorem not_overshoots_of_found
    (found : (node.entries[node.indexOf minKey]?).map key = some minKey) :
    ¬Overshoots level minKey items others node.level.toNat otherLevel := by
  rintro ⟨-, -, elsewhere⟩
  obtain ⟨entry, entryAt, sameKey⟩ := map_eq_some_iff.mp found
  have atLevel := seeking.leveled.level_eq (mem_of_getElem? entryAt)
  rw [NodeLevelCalculator.entryLevel, sameKey] at atLevel
  refine elsewhere ⟨⟨entry, seeking.mem_items entryAt, sameKey⟩, ?_⟩
  unfold stopLevel
  split_ifs <;> omega

theorem overshoots_iff_of_other_found
    (seekingOther : Seeking level read minKey others beforeOther otherNode otherIndex otherOuter)
    (notFound : (node.entries[node.indexOf minKey]?).map key ≠ some minKey)
    (found : (otherNode.entries[otherNode.indexOf minKey]?).map key = some minKey) :
    Overshoots level minKey items others node.level.toNat otherNode.level.toNat ↔
      ∃ predecessor, IsPredecessor key items minKey predecessor ∧
        level.entryLevel predecessor < node.level.toNat := by
  obtain ⟨entry, entryAt, sameKey⟩ := map_eq_some_iff.mp found
  have member := seekingOther.mem_items entryAt
  have atLevel := (seekingOther.found_iff member sameKey).2.1.mp found
  have stops : stopLevel node.level.toNat otherNode.level.toNat (level minKey).toNat =
      node.level.toNat :=
    if_pos atLevel
  rw [Overshoots, stops]
  constructor
  · rintro ⟨-, predecessor, -⟩
    exact predecessor
  · intro predecessor
    refine ⟨⟨entry, member, sameKey⟩, predecessor, ?_⟩
    rintro ⟨⟨baseEntry, inBase, baseKey⟩, same⟩
    exact notFound ((seeking.found_iff inBase baseKey).2.1.mpr same.symm)

/-- Nothing goes wrong when the base tree has nothing where the key belongs. -/
theorem not_overshoots_of_no_child (atKey : index = node.indexOf minKey)
    (notFound : (node.entries[index]?).map key ≠ some minKey)
    (noChild : node.childAt index = none) :
    ¬Overshoots level minKey items others node.level.toNat otherLevel := by
  rintro ⟨-, ⟨predecessor, isPredecessor, low⟩, -⟩
  obtain ⟨entry, member, less⟩ := (seeking.exists_smaller_iff atKey notFound).mpr
    ⟨predecessor, isPredecessor, low.trans_le (stopLevel_le _ _ _)⟩
  rw [seeking.no_child atKey notFound noChild, mem_startingAt] at member
  exact absurd less (not_lt.mpr member.2)

end

variable
    (seekingOther : Seeking level read minKey others beforeOther otherNode otherIndex otherOuter)
include seekingOther

variable (notFound : (otherNode.entries[otherNode.indexOf minKey]?).map key ≠ some minKey)
include notFound

/-- Nothing goes wrong when the other tree has nothing where the key belongs. -/
theorem not_overshoots_of_no_other_child
    (noChild : otherNode.childAt (otherNode.indexOf minKey) = none) :
    ¬Overshoots level minKey items others baseLevel otherNode.level.toNat := by
  rintro ⟨⟨entry, member, sameKey⟩, -⟩
  obtain ⟨-, found, hasChild⟩ := seekingOther.found_iff member sameKey
  exact hasChild (fun same => notFound (found.mpr same)) noChild

theorem overshoots_step : Overshoots level minKey items others
        (if otherNode.level.toNat ≤ baseLevel then baseLevel - 1 else baseLevel)
        (if baseLevel ≤ otherNode.level.toNat then otherNode.level.toNat - 1
          else otherNode.level.toNat) ↔
      Overshoots level minKey items others baseLevel otherNode.level.toNat := by
  refine and_congr_right fun ⟨entry, member, sameKey⟩ => ?_
  obtain ⟨notAbove, found, -⟩ := seekingOther.found_iff member sameKey
  rw [stopLevel_step (lt_of_le_of_ne notAbove fun same => notFound (found.mpr same))]

end Overshoots

variable (seeking : Seeking level read minKey items before node index outer)
include seeking

theorem seeking_step (atKey : index = node.indexOf minKey)
    (notFound : (node.entries[index]?).map key ≠ some minKey)
    (hasChild : node.childAt index ≠ none) (down : Prop) [Decidable down] : ∃ node' index' outer',
      (if down then BTreeIterator.advance read ⟨(node, index) :: outer, true⟩
        else pure ⟨(node, index) :: outer, true⟩) = .ok ⟨(node', index') :: outer', true⟩ ∧
      Seeking level read minKey items before node' index' outer' ∧
      node'.level.toNat = (if down then node.level.toNat - 1 else node.level.toNat) ∧
      (down → 0 < node.level.toNat) ∧
      positions read ⟨(node', index') :: outer', true⟩ <:+
        positions read ⟨(node, index) :: outer, true⟩ := by
  by_cases goesDown : down
  · obtain ⟨identifier, next⟩ := ne_none_iff_exists'.mp hasChild
    obtain ⟨child, readOk, oneBelow, seekingChild, suffix⟩ := seeking.descend atKey notFound next
    refine ⟨child, 0, _, ?_, seekingChild, ?_, fun _ => by omega, suffix⟩
    · simp [goesDown, BTreeIterator.advance, getNextChild, next,
        descend, NodeReader.treeNodeFromIdentifier, readOk]
    · rw [if_pos goesDown]
      omega
  · exact ⟨node, index, outer, if_neg goesDown, seeking, (if_neg goesDown).symm,
      fun goes => absurd goes goesDown, suffix_rfl⟩

theorem skipIteratorsTo_spec {fuel : Nat}
    (seekingOther : Seeking level read minKey others beforeOther otherNode otherIndex otherOuter)
    (enough : node.level.toNat + otherNode.level.toNat + 1 < fuel) : ∃ moved,
      skipIteratorsTo read minKey fuel ⟨⟨(node, index) :: outer, true⟩,
        ⟨(otherNode, otherIndex) :: otherOuter, true⟩, flag⟩ = .ok moved ∧
      Skipped read minKey items others
        (Overshoots level minKey items others node.level.toNat otherNode.level.toNat)
        ⟨⟨(node, index) :: outer, true⟩, ⟨(otherNode, otherIndex) :: otherOuter, true⟩, flag⟩
        moved := by
  induction fuel generalizing before beforeOther node otherNode index otherIndex outer
    otherOuter with
  | zero => omega
  | succ fuel ih =>
    by_cases found : (node.entries[node.indexOf minKey]?).map key = some minKey
    · obtain ⟨ready, rest, suffix⟩ := seeking.found found
      obtain ⟨right, rightOk, rightReady, rightRest, rightSuffix⟩ :=
        skipTo_spec seekingOther (by omega : _ < fuel)
      refine ⟨⟨_, right, flag⟩, ?_, ⟨ready, rightReady⟩, rfl, rightRest,
        exact_left rest (not_overshoots_of_found seeking found),
        Nat.add_le_add suffix.length_le rightSuffix.length_le⟩
      simp only [skipIteratorsTo, seeking.skipToIndex_eq, if_pos found, if_true, rightOk,
        bind, Except.bind]
      rfl
    obtain ⟨suffix, before', moved⟩ := seeking.move
    obtain ⟨suffixOther, beforeOther', movedOther⟩ := seekingOther.move
    by_cases foundOther :
        (otherNode.entries[otherNode.indexOf minKey]?).map key = some minKey
    · obtain ⟨ready, rest, suffixFound⟩ := seekingOther.found foundOther
      refine ⟨⟨⟨(node, node.indexOf minKey) :: outer, true⟩, _, flag⟩, ?_,
        ⟨moved.ready, ready⟩, rfl, rest, ?_,
        Nat.add_le_add suffix.length_le suffixFound.length_le⟩
      · simp only [skipIteratorsTo, seeking.skipToIndex_eq, if_neg found,
          seekingOther.skipToIndex_eq, if_pos foundOther, moved.skipToIndex_eq,
          false_eq_true, if_false, if_true]
        rfl
      · rw [overshoots_iff_of_other_found seeking seekingOther found foundOther,
          ← moved.exists_smaller_iff rfl found]
        exact moved.extra_left
    · cases next : node.childAt (node.indexOf minKey) with
      | none =>
        obtain ⟨right, rightOk, rightReady, rightRest, rightSuffix⟩ :=
          skipTo_spec movedOther (by omega : _ < fuel)
        refine ⟨⟨_, right, flag⟩, ?_, ⟨moved.ready, rightReady⟩, rfl, rightRest,
          exact_left (moved.no_child rfl found next)
            (not_overshoots_of_no_child moved rfl found next),
          Nat.add_le_add suffix.length_le (rightSuffix.trans suffixOther).length_le⟩
        simp only [skipIteratorsTo, seeking.skipToIndex_eq, if_neg found,
          seekingOther.skipToIndex_eq, if_neg foundOther, false_eq_true, if_false,
          getNextChild, if_true, next, rightOk, bind, Except.bind]
        rfl
      | some child =>
        cases nextOther : otherNode.childAt (otherNode.indexOf minKey) with
        | none =>
          obtain ⟨left, leftOk, leftReady, leftRest, leftSuffix⟩ :=
            skipTo_spec moved (by omega : _ < fuel)
          refine ⟨⟨left, _, flag⟩, ?_, ⟨leftReady, movedOther.ready⟩, rfl,
            movedOther.no_child rfl foundOther nextOther,
            exact_left leftRest
              (not_overshoots_of_no_other_child seekingOther foundOther nextOther),
            Nat.add_le_add (leftSuffix.trans suffix).length_le suffixOther.length_le⟩
          simp only [skipIteratorsTo, seeking.skipToIndex_eq, if_neg found,
            seekingOther.skipToIndex_eq, if_neg foundOther, false_eq_true, if_false,
            getNextChild, if_true, next, nextOther, leftOk, bind,
            Except.bind, reduceCtorEq]
          rfl
        | some otherChild =>
          obtain ⟨node', index', outer', leftOk, seeking', level', positive, leftSuffix⟩ :=
            seeking_step moved rfl found (by simp [next])
              (node.level ≥ otherNode.level)
          obtain ⟨otherNode', otherIndex', otherOuter', rightOk, seekingOther', otherLevel',
              otherPositive, rightSuffix⟩ :=
            seeking_step movedOther rfl foundOther (by simp [nextOther])
              (otherNode.level ≥ node.level)
          simp only [ge_iff_le, UInt8.le_iff_toNat_le] at level' positive
          simp only [ge_iff_le, UInt8.le_iff_toNat_le] at otherLevel' otherPositive
          have smaller : node'.level.toNat + otherNode'.level.toNat + 1 < fuel := by
            rw [level', otherLevel']
            split_ifs <;> omega
          obtain ⟨final, finalOk, skipped⟩ := ih seeking' seekingOther' smaller
          refine ⟨final, ?_, skipped.ready, skipped.flag, skipped.right, ?_,
            skipped.size.trans (Nat.add_le_add (leftSuffix.trans suffix).length_le
              (rightSuffix.trans suffixOther).length_le)⟩
          · simp only [skipIteratorsTo, seeking.skipToIndex_eq, if_neg found,
              seekingOther.skipToIndex_eq, if_neg foundOther, false_eq_true, if_false,
              getNextChild, if_true, next, nextOther,
              getLevel, bind, Except.bind, reduceCtorEq]
            by_cases leftDown : node.level ≥ otherNode.level <;>
              by_cases rightDown : otherNode.level ≥ node.level <;>
              simp only [leftDown, rightDown, if_true, if_false] at leftOk rightOk ⊢ <;>
              simp only [leftOk, rightOk] <;>
              exact finalOk
          · rw [← overshoots_step seekingOther foundOther, ← level', ← otherLevel']
            exact skipped.left

end IteratorPair

section ForEachDiffMinKey

variable {level : NodeLevelCalculator} {read : NodeReader} {baseRoot otherRoot : ObjectIdentifier}
  {base other : LeveledTree Entry} {minKey : Key}

open BTreeIterator (Seeking)

theorem changesBetween_append {low high lowOther highOther : List Entry}
    (lowLess : ∀ entry ∈ low, entry.key < minKey)
    (lowOtherLess : ∀ entry ∈ lowOther, entry.key < minKey)
    (highNotLess : ∀ entry ∈ high, minKey ≤ entry.key)
    (highOtherNotLess : ∀ entry ∈ highOther, minKey ≤ entry.key) :
    changesBetween (low ++ high) (lowOther ++ highOther) =
      changesBetween low lowOther ++ changesBetween high highOther := by
  rw [changesBetween, KeyedList.diff_append, map_append]
  · rfl
  · exact fun item inLow otherItem inHigh =>
      (lowLess item inLow).trans_le (highOtherNotLess otherItem inHigh)
  · exact fun otherItem inLow item inHigh =>
      (lowOtherLess otherItem inLow).trans_le (highNotLess item inHigh)

theorem filter_changesBetween {items others : List Entry}
    (sorted : Sorted key items) (sortedOthers : Sorted key others) :
    (changesBetween items others).filter (fun change => minKey ≤ change.entry.key) =
      changesBetween (startingAt key minKey items) (startingAt key minKey others) := by
  have low : (changesBetween (below key minKey items)
      (below key minKey others)).filter (fun change => minKey ≤ change.entry.key) = [] := by
    rw [filter_eq_nil_iff]
    intro change member
    rcases mem_of_mem_changesBetween (sorted_filter sorted _)
      (sorted_filter sortedOthers _) member with inItems | inOthers
    · simpa using (mem_below.mp inItems).2
    · simpa using (mem_below.mp inOthers).2
  have high : (changesBetween (startingAt key minKey items)
      (startingAt key minKey others)).filter (fun change => minKey ≤ change.entry.key) =
      changesBetween (startingAt key minKey items) (startingAt key minKey others) := by
    rw [filter_eq_self]
    intro change member
    rcases mem_of_mem_changesBetween (sorted_filter sorted _)
      (sorted_filter sortedOthers _) member with inItems | inOthers
    · simpa using (mem_startingAt.mp inItems).2
    · simpa using (mem_startingAt.mp inOthers).2
  conv_lhs => rw [← below_append_startingAt (k := minKey) sorted,
    ← below_append_startingAt (k := minKey) sortedOthers]
  rw [changesBetween_append, filter_append, low, high, nil_append]
  · exact fun entry member => (mem_below.mp member).2
  · exact fun entry member => (mem_below.mp member).2
  · exact fun entry member => (mem_startingAt.mp member).2
  · exact fun entry member => (mem_startingAt.mp member).2

section

variable (wellFormed : WellFormed level read baseRoot base)
include wellFormed

theorem seeking_init (trimmed : base.Shaped level.entryLevel .trimmed) (minKey : Key) :
    ∃ node, init read baseRoot = .ok ⟨[(node, 0)], true⟩ ∧ base.height - 1 = node.level.toNat ∧
      Seeking level read minKey base.contents [] node 0 [] := by
  obtain ⟨node, found, leveled, height⟩ := leveled_of_stored wellFormed.stored wellFormed.leveled
  obtain ⟨iterator, initOk, ready, rest, -⟩ :=
    IteratorPair.ready_of_init wellFormed.stored wellFormed.sorted trimmed
  have isRoot : init read baseRoot = .ok ⟨[(node, 0)], true⟩ := by
    simp [init, descend, NodeReader.treeNodeFromIdentifier, found]
  obtain rfl : iterator = ⟨[(node, 0)], true⟩ := Except.ok.inj (initOk.symm.trans isRoot)
  exact ⟨node, isRoot, by omega, ⟨ready.valid, leveled, Nat.zero_le _, wellFormed.sorted,
    rest.symm, by simp, by simp, by simp⟩, ready⟩

/-- What `ForEachDiff` reports from a key on: the changes from that key on, after the
removal of some smaller keys if the base iterator overshoots. -/
theorem forEachDiff_minKey (wellFormedOther : WellFormed level read otherRoot other)
    (trimmed : base.Shaped level.entryLevel .trimmed)
    (trimmedOther : other.Shaped level.entryLevel .trimmed) (different : baseRoot ≠ otherRoot)
    (notEmpty : minKey ≠ []) :
    ∃ bound, ∀ fuel ≥ bound, ∃ extra : List Entry, (∀ entry ∈ extra, entry.key < minKey) ∧
      (extra ≠ [] ↔ Overshoots level minKey base.contents other.contents (base.height - 1)
        (other.height - 1)) ∧
      ∀ (σ : Type) (onNext : σ → EntryChange → σ × Bool) (state : σ),
        forEachDiff read fuel baseRoot otherRoot minKey onNext state =
          .ok (runUntil onNext state (changesBetween extra [] ++
            (changesBetween base.contents other.contents).filter
              fun change => minKey ≤ change.entry.key)).1 := by
  obtain ⟨node, initOk, baseLevel, seeking⟩ := seeking_init wellFormed trimmed minKey
  obtain ⟨otherNode, otherInitOk, otherLevel, seekingOther⟩ :=
    seeking_init wellFormedOther trimmedOther minKey
  rw [baseLevel, otherLevel]
  let start : IteratorPair := ⟨⟨[(node, 0)], true⟩, ⟨[(otherNode, 0)], true⟩, true⟩
  refine ⟨node.level.toNat + otherNode.level.toNat + start.size read + 2, fun fuel enough => ?_⟩
  obtain ⟨skipped, skipOk, ready, flag, right, ⟨extra, left, less, overshoots⟩, size⟩ :=
    IteratorPair.skipIteratorsTo_spec seeking seekingOther (by omega : _ < fuel)
  have size : skipped.size read ≤ start.size read := size
  obtain ⟨pair, settleOk, pairReady, normalized, stops, pairSize, -, remaining⟩ :=
    IteratorPair.settle_spec ready (by omega : _ ≤ fuel)
  have pairInit : IteratorPair.init read fuel baseRoot otherRoot minKey = .ok pair := by
    rw [IteratorPair.init, initOk, otherInitOk]
    simp only [notEmpty, ne_eq, not_false_eq_true, if_true, bind, Except.bind, skipOk]
    exact settleOk
  refine ⟨extra, less, overshoots, fun σ onNext state => ?_⟩
  rw [forEachDiff, if_neg different, pairInit]
  refine (IteratorPair.sendAll_spec _ _ pairReady normalized stops (by omega)).trans ?_
  have reported : (pair.remaining read).map Difference.toChange =
      changesBetween extra [] ++ (changesBetween base.contents other.contents).filter
        fun change => minKey ≤ change.entry.key := by
    rw [remaining, IteratorPair.remaining, left, right, flag, filter_changesBetween
      wellFormed.sorted wellFormedOther.sorted, ← changesBetween_append less (by simp),
      nil_append]
    · exact congrArg (map _) (map_id' _)
    · exact fun entry member => (mem_startingAt.mp member).2
    · exact fun entry member => (mem_startingAt.mp member).2
  rw [IteratorPair.runUntil_map, reported]

theorem not_overshoots_self (wellFormedOther : WellFormed level read baseRoot other) :
    ¬Overshoots level minKey base.contents other.contents (base.height - 1) (other.height - 1) := by
  obtain ⟨node, found, -, height⟩ := sound_of_stored wellFormed.stored
  obtain ⟨otherNode, otherFound, -, otherHeight⟩ := sound_of_stored wellFormedOther.stored
  obtain rfl : node = otherNode := some.inj (found.symm.trans otherFound)
  rw [← wellFormed.contents_unique wellFormedOther]
  rintro ⟨⟨entry, member, sameKey⟩, -, elsewhere⟩
  have inTree := wellFormed.leveled.level_lt member
  rw [NodeLevelCalculator.entryLevel, sameKey] at inTree
  refine elsewhere ⟨⟨entry, member, sameKey⟩, ?_⟩
  unfold stopLevel
  split_ifs <;> omega

end

/-- From a key on, `ForEachDiff` reports what it reports from the start, restricted to
the keys from that key on, exactly when the base iterator does not overshoot. -/
theorem forEachDiff_minKey_iff (wellFormed : WellFormed level read baseRoot base)
    (wellFormedOther : WellFormed level read otherRoot other)
    (trimmed : base.Shaped level.entryLevel .trimmed)
    (trimmedOther : other.Shaped level.entryLevel .trimmed) (minKey : Key) :
    ∃ changes, Reports read baseRoot otherRoot [] changes ∧
      (Reports read baseRoot otherRoot minKey
          (changes.filter fun change => minKey ≤ change.entry.key) ↔
        ¬Overshoots level minKey base.contents other.contents (base.height - 1)
          (other.height - 1)) := by
  have fromStart := reports_changesBetween wellFormed wellFormedOther trimmed trimmedOther
  refine ⟨_, fromStart, ?_⟩
  by_cases same : baseRoot = otherRoot
  · subst same
    refine iff_of_true ?_ (not_overshoots_self wellFormed wellFormedOther)
    intro σ onNext state
    refine ⟨0, fun fuel _ => ?_⟩
    rw [wellFormed.contents_unique wellFormedOther, changesBetween_self, forEachDiff, if_pos rfl]
    rfl
  by_cases empty : minKey = []
  · subst empty
    refine iff_of_true ?_ ?_
    · rwa [filter_eq_self.mpr fun change _ => decide_eq_true (not_lt.mp (not_lt_nil _))]
    · rintro ⟨-, ⟨predecessor, ⟨-, less, -⟩, -⟩, -⟩
      exact absurd less (by simp)
  obtain ⟨bound, actual⟩ :=
    forEachDiff_minKey wellFormed wellFormedOther trimmed trimmedOther same empty
  constructor
  · intro reports overshoots
    obtain ⟨bound', recorded⟩ := reports.recorded
    obtain ⟨extra, -, extraIff, reported⟩ := actual (bound + bound') (by omega)
    have both := (reported _ record []).symm.trans (recorded (bound + bound') (by omega))
    rw [runUntil_record, nil_append] at both
    have noExtra : changesBetween extra [] = [] :=
      append_left_eq_self.mp (Except.ok.inj both)
    refine extraIff.mpr overshoots ?_
    simpa [changesBetween] using noExtra
  · intro exact σ onNext state
    refine ⟨bound, fun fuel enough => ?_⟩
    obtain ⟨extra, -, extraIff, reported⟩ := actual fuel enough
    have noExtra : extra = [] := by
      by_contra some
      exact exact (extraIff.mp some)
    rw [reported, noExtra, changesBetween_self, nil_append]

theorem forEachDiff_minKey_iff_shared_leaf :
    let read : NodeReader := .ofNodes
      [(sampleIdentifier 1, ⟨0, [sampleEntry 3], [], by decide⟩),
        (sampleIdentifier 2, ⟨1, [sampleEntry 10], [(0, sampleIdentifier 1)], by decide⟩),
        (sampleIdentifier 3, ⟨1, [sampleEntry 20], [(0, sampleIdentifier 1)], by decide⟩)]
    ∃ changes, Reports read (sampleIdentifier 2) (sampleIdentifier 3) [] changes ∧
      (Reports read (sampleIdentifier 2) (sampleIdentifier 3) [10]
          (changes.filter fun change => [10] ≤ change.entry.key) ↔
        ¬Overshoots sampleLevel [10] [sampleEntry 3, sampleEntry 10]
          [sampleEntry 3, sampleEntry 20] 1 1) :=
  forEachDiff_minKey_iff (by decide : WellFormed sampleLevel _ _ (sampleTree (sampleLeaf [3]) 10))
    (by decide : WellFormed sampleLevel _ _ (sampleTree (sampleLeaf [3]) 20))
    (by decide) (by decide) [10]

/-- From the key 5 on, the removal of the key 3 is reported as well. -/
theorem forEachDiff_minKey_not_filter :
    ∃ (level : NodeLevelCalculator) (read : NodeReader) (baseRoot otherRoot : ObjectIdentifier)
      (base other : LeveledTree Entry) (minKey : Key) (changes : List EntryChange),
      WellFormed level read baseRoot base ∧ WellFormed level read otherRoot other ∧
        base.Shaped level.entryLevel .trimmed ∧ other.Shaped level.entryLevel .trimmed ∧
        Reports read baseRoot otherRoot [] changes ∧
        ¬Reports read baseRoot otherRoot minKey
          (changes.filter fun change => minKey ≤ change.entry.key) := by
  refine ⟨sampleLevel, .ofNodes
      [(sampleIdentifier 1, ⟨0, [sampleEntry 3], [], by decide⟩),
        (sampleIdentifier 2, ⟨1, [sampleEntry 10], [(0, sampleIdentifier 1)], by decide⟩),
        (sampleIdentifier 3, ⟨1, [sampleEntry 5], [], by decide⟩)],
    sampleIdentifier 2, sampleIdentifier 3,
    sampleTree (sampleLeaf [3]) 10, sampleTree (.null 1) 5, [5], _,
    by decide, by decide, by decide, by decide,
    reports_changesBetween (by decide : WellFormed sampleLevel _ _ (sampleTree (sampleLeaf [3]) 10))
      (by decide : WellFormed sampleLevel _ _ (sampleTree (.null 1) 5)) (by decide) (by decide), ?_⟩
  intro reports
  have actual : ([⟨sampleEntry 3, true⟩, ⟨sampleEntry 5, false⟩, ⟨sampleEntry 10, true⟩] :
      List EntryChange) = _ := reports.eq_of_recorded 20 fun _ => rfl
  have removed := actual ▸ mem_cons_self
  exact absurd (mem_filter.mp removed).2 (by decide)

end ForEachDiffMinKey

end Peridot
