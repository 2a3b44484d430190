import Peridot.BTreeDiffCorrect

/-!
# The stops of an iterator pair

An `IteratorPair` stops where there may be a difference, and `SendDiff` hands out
the differences of one stop together.  Two of them belong to one stop when the same
child follows both keys; then the smaller key is masked by the greater one for a
callback that keeps the latest difference only.
-/

namespace Peridot

open List KeyedList Position BTreeIterator Option

variable {entry item : Entry}

namespace Position

variable {read : NodeReader} {positions others : List Position}

/-- A key of `positions` that is followed by a child which follows a greater key in
`others`, where `others` has no key in between. -/
def Masked (positions others : List Position) (key : Key) : Prop :=
  ∃ position ∈ positions, ∃ entry ∈ position.entry, entry.key = key ∧ position.next ≠ none ∧
    ∃ other ∈ others, ∃ later ∈ other.entry, other.next = position.next ∧ key < later.key ∧
      ∀ item ∈ entries others, item.key < key ∨ later.key ≤ item.key
deriving Decidable

/-- Where a key is followed by a child, the entries of the child come next. -/
def Chained (read : NodeReader) (positions : List Position) : Prop :=
  ∀ position ∈ positions, ∀ entry ∈ position.entry, ∀ child ∈ position.next,
    ∃ passed rest, positions = passed ++ position :: rest ∧
      ∃ behind, entries rest = entries (below read (some child)) ++ behind ∧
        (entries (below read (some child)) = [] → behind = [])

theorem mem_entries :
    entry ∈ entries positions ↔ ∃ position ∈ positions, position.entry = some entry := by
  simp [entries]

/-- The entries of the child that follows a key come next, without the gap condition. -/
def Linked (read : NodeReader) (positions : List Position) : Prop :=
  ∀ position ∈ positions, ∀ entry ∈ position.entry, ∀ child ∈ position.next,
    ∃ passed rest behind, positions = passed ++ position :: rest ∧
      entries rest = entries (below read (some child)) ++ behind

theorem Linked.append (linked : Linked read positions) (linkedOthers : Linked read others) :
    Linked read (positions ++ others) := by
  intro position member entry shown child next
  rcases mem_append.mp member with inFirst | inSecond
  · obtain ⟨passed, rest, behind, rfl, restEq⟩ := linked position inFirst entry shown child next
    exact ⟨passed, rest ++ others, behind ++ entries others, by simp, by simp [restEq]⟩
  · obtain ⟨passed, rest, behind, rfl, restEq⟩ :=
      linkedOthers position inSecond entry shown child next
    exact ⟨positions ++ passed, rest, behind, by simp, restEq⟩

variable {position second first : Position} {identifier : Option ObjectIdentifier} {other : Entry}

theorem linked_singleton (noEntry : position.entry = none) : Linked read [position] := by
  intro other member entry shown
  rw [mem_singleton.mp member, noEntry] at shown
  exact absurd shown (by simp)

theorem linked_afterFirst {level : UInt8} {spine : Spine (Option ObjectIdentifier) Entry}
    (children : ∀ child ∈ spine.children, Linked read (below read child)) :
    Linked read (afterFirst (below read) level spine) := by
  induction spine with
  | last child => exact linked_singleton rfl
  | step child entry rest ih =>
    have later := ih fun child member => children child (mem_cons_of_mem _ member)
    have firstLinked := children rest.first (mem_cons_of_mem _ rest.first_mem)
    have tail : Linked read (⟨none, rest.first, level⟩ :: (below read rest.first ++
        afterFirst (below read) level rest)) :=
      (linked_singleton rfl).append (firstLinked.append later)
    intro position member shown isShown next isNext
    rcases mem_cons.mp member with rfl | inTail
    · refine ⟨[], _, entries (afterFirst (below read) level rest), rfl, ?_⟩
      simp only at isNext
      simp [show rest.first = some next from isNext]
    · obtain ⟨passed, rest', behind, tailEq, restEq⟩ :=
        tail position inTail shown isShown next isNext
      exact ⟨_ :: passed, rest', behind, by rw [afterFirst, tailEq]; rfl, restEq⟩

theorem linked_below {n : Nat} {slot : Slot Entry n}
    (stored : Stored read n identifier slot) : Linked read (below read identifier) := by
  induction n generalizing identifier with
  | zero =>
    rw [show identifier = none from stored]
    exact fun position member => absurd member not_mem_nil
  | succ n ih =>
    cases identifier with
    | none => exact fun position member => absurd member not_mem_nil
    | some identifier =>
      obtain ⟨node, found, sound, level⟩ := TreeNode.sound_of_stored stored
      obtain rfl : n = node.level.toNat := by omega
      have children : ∀ child ∈ node.spine.children, Linked read (below read child) := by
        intro child member
        obtain ⟨slot, storedChild⟩ := sound.stored_children child member
        exact ih storedChild
      rw [below_some found sound]
      exact (linked_singleton rfl).append
        ((children _ node.spine.first_mem).append (linked_afterFirst children))

/-- In a trimmed tree the entries of the child that follows a key come next. -/
theorem Linked.chained (linked : Linked read positions) (trim : Trim read positions) :
    Chained read positions := by
  intro position member entry shown child next
  obtain ⟨passed, rest, behind, rfl, restEq⟩ := linked position member entry shown child next
  refine ⟨passed, rest, rfl, behind, restEq, fun empty => ?_⟩
  have nothing := trim.of_append.1 child next empty
  rw [restEq, append_eq_nil_iff] at nothing
  exact nothing.2

theorem eq_of_key_eq (sorted : Sorted Entry.key (entries positions)) (inFirst : first ∈ positions)
    (inSecond : second ∈ positions) (shown : first.entry = some entry)
    (shownSecond : second.entry = some other) (sameKey : entry.key = other.key) :
    first = second := by
  obtain ⟨front, back, rfl⟩ := append_of_mem inFirst
  simp only [entries_append, entries_cons, shown, toList_some, singleton_append]
    at sorted
  obtain ⟨-, backSorted, across⟩ := sorted_append.mp sorted
  rcases mem_append.mp inSecond with inFront | inBack
  · have less := across other (mem_entries.mpr ⟨second, inFront, shownSecond⟩) entry (by simp)
    exact absurd sameKey less.ne'
  · rcases mem_cons.mp inBack with rfl | later
    · rfl
    · have less := (sorted_cons.mp backSorted).1 other
        (mem_entries.mpr ⟨second, later, shownSecond⟩)
      exact absurd sameKey less.ne

variable {child : ObjectIdentifier}

section

variable (chained : Chained read positions)
include chained

variable (sorted : Sorted Entry.key (entries positions))
include sorted

theorem Chained.lt_of_mem_below (member : position ∈ positions)
    (shown : position.entry = some entry)
    (next : position.next = some child) (inChild : item ∈ entries (below read (some child))) :
    entry.key < item.key := by
  obtain ⟨passed, rest, rfl, behind, restEq, -⟩ := chained position member entry shown child next
  simp only [entries_append, entries_cons, shown, restEq, toList_some, singleton_append] at sorted
  have fromEntry := (sorted_append.mp sorted).2.1
  exact (sorted_cons.mp fromEntry).1 item (by simp [inChild])

theorem Chained.exists_mem_below_le (member : position ∈ positions)
    (shown : position.entry = some entry)
    (next : position.next = some child) (inPositions : item ∈ entries positions)
    (greater : entry.key < item.key) :
    ∃ first ∈ entries (below read (some child)), first.key ≤ item.key := by
  obtain ⟨passed, rest, rfl, behind, restEq, gap⟩ := chained position member entry shown child next
  simp only [entries_append, entries_cons, shown, restEq, toList_some,
    singleton_append] at sorted inPositions
  obtain ⟨-, fromEntry, across⟩ := sorted_append.mp sorted
  rcases mem_append.mp inPositions with inPassed | later
  · exact absurd (across item inPassed entry (by simp)) greater.asymm
  rcases mem_cons.mp later with rfl | behindEntry
  · exact absurd greater (lt_irrefl _)
  rcases mem_append.mp behindEntry with inChild | inBehind
  · exact ⟨item, inChild, le_rfl⟩
  · obtain ⟨-, -, increasing⟩ :=
      sorted_append.mp (sorted_cons.mp fromEntry).2
    cases content : entries (below read (some child)) with
    | nil => simp [gap content] at inBehind
    | cons first content' =>
      exact ⟨first, by simp, (increasing first (by simp [content]) item inBehind).le⟩

theorem Chained.key_unique (inFirst : first ∈ positions) (inSecond : second ∈ positions)
    (shown : first.entry = some entry) (shownSecond : second.entry = some other)
    (next : first.next = some child) (nextSecond : second.next = some child) :
    ¬entry.key < other.key := by
  intro less
  obtain ⟨item, inChild, notGreater⟩ := chained.exists_mem_below_le sorted inFirst shown next
    (mem_entries.mpr ⟨second, inSecond, shownSecond⟩) less
  exact absurd (chained.lt_of_mem_below sorted inSecond shownSecond nextSecond inChild)
    (not_lt.mpr notGreater)

end

structure Listing (read : NodeReader) (positions : List Position) : Prop where
  sorted : KeyedList.Sorted Entry.key (entries positions)
  chained : Chained read positions

theorem listing_below {level : Entry → Nat} {n : Nat}
    {slot : Slot Entry n} (stored : Stored read n identifier slot)
    (sorted : Sorted Entry.key (slot.contents n))
    (trimmed : slot.Shaped level n .trimmed) : Listing read (below read identifier) where
  sorted := by rwa [entries_below stored]
  chained := (linked_below stored).chained (trim_below stored trimmed)

def Hidden (base other : List Position) (key : Key) : Prop :=
  Masked base other key ∨ Masked other base key
deriving Decidable

theorem Masked.mem {key : Key} (masked : Masked positions others key) :
    (∃ entry ∈ entries positions, entry.key = key) ∧ ∀ item ∈ entries others, item.key ≠ key := by
  obtain ⟨position, member, entry, shown, sameKey, -, other, -, later, -, -, less, apart⟩ := masked
  refine ⟨⟨entry, mem_entries.mpr ⟨position, member, shown⟩, sameKey⟩, ?_⟩
  rintro item inOthers rfl
  rcases apart item inOthers with smaller | notSmaller
  · exact lt_irrefl _ smaller
  · exact absurd less (not_lt.mpr notSmaller)

end Position

namespace BTreeIterator

variable {read : NodeReader} {positions others : List Position}
  {first second : BTreeIterator}

/-- Two iterators inside of two trees, which have passed smaller keys only. -/
def Inside (read : NodeReader) (positions others : List Position)
    (first second : BTreeIterator) : Prop :=
  ∃ dropped droppedOther, positions = dropped ++ first.positions read ∧
    others = droppedOther ++ second.positions read ∧
    ∀ item ∈ Position.entries dropped ++ Position.entries droppedOther,
      ∀ later ∈ first.rest read ++ second.rest read, item.key < later.key

theorem Inside.symm (inside : Inside read positions others first second) :
    Inside read others positions second first := by
  obtain ⟨dropped, droppedOther, positions, positionsOther, smaller⟩ := inside
  refine ⟨droppedOther, dropped, positionsOther, positions, ?_⟩
  intro item member later laterMember
  rw [mem_append] at member laterMember
  exact smaller item (mem_append.mpr member.symm) later (mem_append.mpr laterMember.symm)

theorem current_mem (valid : first.Valid read) (unfinished : first.finished = false) :
    first.current ∈ first.positions read := by
  obtain ⟨moved, -, -, positions⟩ := advance_spec valid unfinished
  rw [positions]
  exact mem_cons_self

variable {entry greater : Entry}

theorem value_mem_rest (ready : first.Ready read) (value : first.currentEntry? = some entry) :
    entry ∈ first.rest read :=
  mem_entries.mpr ⟨first.current, current_mem ready.valid (unfinished_of_value value), value⟩

section

variable (inside : Inside read positions others first second)
include inside

theorem Inside.current_mem (valid : first.Valid read) (unfinished : first.finished = false) :
    first.current ∈ positions := by
  obtain ⟨dropped, -, rfl, -⟩ := inside
  exact mem_append_right _ (current_mem valid unfinished)

theorem Inside.value_mem (ready : first.Ready read) (value : first.currentEntry? = some entry) :
    entry ∈ Position.entries positions :=
  mem_entries.mpr ⟨first.current, inside.current_mem ready.valid (unfinished_of_value value), value⟩

theorem Inside.mem_rest (inFirst : entry ∈ first.rest read)
    (inOthers : item ∈ Position.entries others)
    (notSmaller : entry.key ≤ item.key) : item ∈ second.rest read := by
  obtain ⟨dropped, droppedOther, -, rfl, smaller⟩ := inside
  rw [entries_append, mem_append] at inOthers
  rcases inOthers with passed | left
  · have less := smaller item (mem_append_right _ passed) entry (mem_append_left _ inFirst)
    exact absurd less (not_lt.mpr notSmaller)
  · exact left

variable (listing : Listing read positions)
include listing

theorem Inside.masked_at (ready : first.Ready read)
    (value : first.currentEntry? = some entry) (masked : Masked positions others entry.key) :
    ∃ child other later, first.getNextChild = some child ∧ other ∈ others ∧
      other.entry = some later ∧ other.next = some child ∧ entry.key < later.key ∧
      later ∈ second.rest read ∧
      ∀ item ∈ Position.entries others, item.key < entry.key ∨ later.key ≤ item.key := by
  obtain ⟨position, member, shown, isShown, sameKey, hasNext, other, inOthers, later, isLater,
    sameNext, less, apart⟩ := masked
  have isCurrent : position = first.current := eq_of_key_eq listing.sorted member
      (inside.current_mem ready.valid (unfinished_of_value value)) isShown value sameKey
  obtain ⟨child, next⟩ := ne_none_iff_exists'.mp hasNext
  refine ⟨child, other, later, ?_, inOthers, isLater, sameNext.trans next, less, ?_, apart⟩
  · rw [isCurrent] at next
    exact next
  · exact inside.mem_rest (value_mem_rest ready value)
      (mem_entries.mpr ⟨other, inOthers, isLater⟩) less.le

theorem Inside.not_masked_of_finished (ready : first.Ready read)
    (value : first.currentEntry? = some entry) (finished : second.finished = true) :
    ¬Masked positions others entry.key := by
  intro masked
  obtain ⟨-, -, later, -, -, -, -, -, left, -⟩ := inside.masked_at listing ready value masked
  rw [rest_of_finished finished] at left
  exact absurd left not_mem_nil

theorem Inside.not_masked_of_greater (listingOther : Listing read others)
    (ready : first.Ready read) (readySecond : second.Ready read)
    (value : first.currentEntry? = some entry) (valueSecond : second.currentEntry? = some greater)
    (less : entry.key < greater.key)
    (different : ∀ child, first.getNextChild = some child → second.getNextChild ≠ some child) :
    ¬Masked positions others entry.key := by
  intro masked
  obtain ⟨child, other, later, next, inOthers, isLater, otherNext, -, left, apart⟩ :=
    inside.masked_at listing ready value masked
  have unfinished := unfinished_of_value valueSecond
  have currentMem : second.current ∈ others := inside.symm.current_mem readySecond.valid unfinished
  have sameKey : greater.key = later.key := by
    refine le_antisymm (readySecond.head_le valueSecond later left) ?_
    rcases apart greater (mem_entries.mpr ⟨second.current, currentMem, valueSecond⟩) with
      smaller | notSmaller
    · exact absurd less smaller.asymm
    · exact notSmaller
  have isCurrent : second.current = other :=
    eq_of_key_eq listingOther.sorted currentMem inOthers valueSecond isLater sameKey
  rw [← isCurrent] at otherNext
  exact different child next otherNext

end

variable {child : ObjectIdentifier} (inside : Inside read positions others first second)
  (ready : first.Ready read) (readySecond : second.Ready read)
  (value : first.currentEntry? = some entry) (next : first.getNextChild = some child)
  (nextSecond : second.getNextChild = some child)
include inside ready readySecond value next nextSecond

/-- The greater of two values in front of a common child is not masked. -/
theorem Inside.not_masked_of_smaller (listing : Listing read positions)
    (listingOther : Listing read others) {smaller : Entry}
    (valueSecond : second.currentEntry? = some smaller) (less : smaller.key < entry.key) :
    ¬Masked positions others entry.key := by
  intro masked
  obtain ⟨child', other, later, next', inOthers, isLater, otherNext, greater, -, -⟩ :=
    inside.masked_at listing ready value masked
  obtain rfl : child = child' := some.inj (next.symm.trans next')
  have currentMem : second.current ∈ others :=
    inside.symm.current_mem readySecond.valid (unfinished_of_value valueSecond)
  exact listingOther.chained.key_unique listingOther.sorted currentMem inOthers valueSecond
    isLater nextSecond otherNext (less.trans greater)

/-- A value in front of a common child is not masked when the other side has no value. -/
theorem Inside.not_masked_of_no_value (listing : Listing read positions)
    (listingOther : Listing read others) (noValue : second.currentEntry? = none) :
    ¬Masked positions others entry.key := by
  intro masked
  obtain ⟨child', other, later, next', inOthers, isLater, otherNext, -, left, -⟩ :=
    inside.masked_at listing ready value masked
  obtain rfl : child = child' := some.inj (next.symm.trans next')
  obtain ⟨-, drops, gap⟩ := readySecond.skipNextSubTree nextSecond
  have below : ∀ item ∈ Position.entries (Position.below read (some child)),
      later.key < item.key := fun item inChild =>
    listingOther.chained.lt_of_mem_below listingOther.sorted inOthers isLater otherNext inChild
  have sorted := readySecond.sorted
  rw [drops.rest_eq, noValue, toList_none, nil_append] at sorted left
  rcases mem_append.mp left with inChild | behind
  · exact lt_irrefl _ (below later inChild)
  · cases content : Position.entries (Position.below read (some child)) with
    | nil => simp [gap content] at behind
    | cons item content' =>
      have increasing := (sorted_append.mp sorted).2.2 item (by simp [content]) later
        behind
      exact absurd (below item (by simp [content])) increasing.asymm

/-- The smaller of two values in front of a common child is masked. -/
theorem Inside.masked (valueSecond : second.currentEntry? = some greater)
    (less : entry.key < greater.key) : Masked positions others entry.key := by
  refine ⟨first.current, inside.current_mem ready.valid (unfinished_of_value value), entry, value,
    rfl, ?_, second.current,
    inside.symm.current_mem readySecond.valid (unfinished_of_value valueSecond), greater,
    valueSecond, nextSecond.trans next.symm, less, ?_⟩
  · rw [show first.current.next = some child from next]
    simp
  · intro item member
    rcases lt_or_ge item.key entry.key with smaller | notSmaller
    · exact .inl smaller
    · exact .inr (readySecond.head_le valueSecond item
        (inside.mem_rest (value_mem_rest ready value) member notSmaller))

end BTreeIterator

def Difference.key (difference : Difference) : Key :=
  ((difference.1.or difference.2).map Entry.key).getD []

def visible (base other : List Position) (differences : List Difference) : List Difference :=
  differences.filter fun difference => decide ¬Position.Hidden base other difference.key

namespace IteratorPair

variable {read : NodeReader} {pair : IteratorPair} {base other positions others : List Position}
    {otherEntry : Entry}

theorem Midway.sides (midway : Midway read base other pair)
    (listing : Listing read base) (listingOther : Listing read other) :
    ∃ positions others, Listing read positions ∧ Listing read others ∧
      Inside read positions others pair.left pair.right ∧
      ∀ key, Hidden base other key ↔ Hidden positions others key := by
  unfold Midway IteratorPair.base IteratorPair.other at midway
  cases flag : pair.diffFromLeftToRight with
  | true =>
    rw [flag] at midway
    exact ⟨base, other, listing, listingOther, midway, fun _ => Iff.rfl⟩
  | false =>
    rw [flag] at midway
    have inside : Inside read base other pair.right pair.left := midway
    exact ⟨other, base, listingOther, listing, inside.symm, fun _ => or_comm⟩

section

variable (member : entry ∈ Position.entries positions)
include member

theorem not_hidden (notMasked : ¬Masked positions others entry.key) :
    ¬Hidden positions others entry.key := by
  rintro (masked | masked)
  · exact notMasked masked
  · exact masked.mem.2 entry member rfl

theorem not_hidden_of_both (memberOther : otherEntry ∈ Position.entries others)
    (sameKey : entry.key = otherEntry.key) : ¬Hidden positions others entry.key :=
  not_hidden member fun masked => masked.mem.2 otherEntry memberOther sameKey.symm

end

theorem key_orient_left (flag : Bool) (entry : Entry) :
    Difference.key (orient flag (some entry, none)) = entry.key := by
  cases flag <;> rfl

theorem key_orient_right (flag : Bool) (entry : Entry) :
    Difference.key (orient flag (none, some entry)) = entry.key := by
  cases flag <;> rfl

theorem key_orient_changed (flag : Bool) (sameKey : entry.key = otherEntry.key) :
    Difference.key (orient flag (some entry, some otherEntry)) = entry.key := by
  cases flag
  · exact sameKey.symm
  · rfl

theorem visible_singleton {difference : Difference} (shown : ¬Hidden base other difference.key) :
    visible base other [difference] = [difference] := by
  simp [visible, shown]

/-- At a stop without a value on the right there is a value on the left and a common
child. -/
theorem stop_of_no_value (hasDiff : pair.hasDiff = true)
    (rightValue : pair.right.currentEntry? = none) :
    ∃ leftEntry, pair.left.currentEntry? = some leftEntry ∧ pair.hasSameNextChild = true := by
  simp only [IteratorPair.hasDiff, hasValue, rightValue, isSome_none,
    Bool.false_and, Bool.false_or, Bool.and_eq_true, isSome_iff_exists] at hasDiff
  obtain ⟨⟨leftEntry, leftValue⟩, same⟩ := hasDiff
  exact ⟨leftEntry, leftValue, same⟩

theorem visible_diffs (listing : Listing read base)
    (listingOther : Listing read other) (ready : pair.Ready read)
    (normalized : pair.Normalized) (midway : Midway read base other pair)
    (hasDiff : pair.hasDiff = true) :
    visible base other pair.diffs = pair.diffs.getLast?.toList := by
  obtain ⟨positions, others, listingLeft, listingRight, inside, hiddenIff⟩ :=
    midway.sides listing listingOther
  rw [← sent_of_hasDiff hasDiff]
  cases rightValue : pair.right.currentEntry? with
  | none =>
    obtain ⟨leftEntry, leftValue, same⟩ := stop_of_no_value hasDiff rightValue
    obtain ⟨child, leftNext, rightNext⟩ := hasSameNextChild_iff.mp same
    rw [sent_of_left same leftValue rightValue]
    refine visible_singleton ?_
    rw [key_orient_left, hiddenIff]
    exact not_hidden (inside.value_mem ready.left leftValue)
      (inside.not_masked_of_no_value ready.left ready.right leftValue leftNext rightNext listingLeft
        listingRight rightValue)
  | some rightEntry =>
    have rightMem := inside.symm.value_mem ready.right rightValue
    cases leftValue : pair.left.currentEntry? with
    | none =>
      have finished : pair.left.finished = true := by
        have leftDone := normalized.value (by simp [hasValue, rightValue])
        simpa [hasValue, leftValue] using leftDone
      have different : pair.hasSameNextChild = false := by simp [hasSameNextChild, finished]
      rw [sent_of_right normalized different rightValue (by simp [leftValue])]
      refine visible_singleton ?_
      rw [key_orient_right, hiddenIff]
      exact fun hidden => not_hidden rightMem (inside.symm.not_masked_of_finished listingRight
        ready.right rightValue finished) hidden.symm
    | some leftEntry =>
      have leftMem := inside.value_mem ready.left leftValue
      have ordered := normalized.order leftEntry leftValue rightEntry rightValue
      by_cases sameEntry : leftEntry = rightEntry
      · rw [sent_of_same_entry (leftValue.trans (congrArg some sameEntry)) rightValue]
        rfl
      by_cases sameKey : leftEntry.key = rightEntry.key
      · rw [sent_of_changed leftValue rightValue sameKey sameEntry]
        refine visible_singleton ?_
        rw [key_orient_changed _ sameKey, hiddenIff]
        exact not_hidden_of_both leftMem rightMem sameKey
      have less : rightEntry.key < leftEntry.key := lt_of_le_of_ne ordered (Ne.symm sameKey)
      cases same : pair.hasSameNextChild with
      | true =>
        obtain ⟨child, leftNext, rightNext⟩ := hasSameNextChild_iff.mp same
        have rightHidden : Hidden base other rightEntry.key :=
          (hiddenIff _).mpr (.inr (inside.symm.masked ready.right ready.left rightValue
            rightNext leftNext leftValue less))
        have leftShown : ¬Hidden base other leftEntry.key := by
          rw [hiddenIff]
          exact not_hidden leftMem (inside.not_masked_of_smaller ready.left ready.right
            leftValue leftNext rightNext listingLeft listingRight rightValue less)
        rw [sent_of_both same leftValue rightValue sameKey]
        simp [visible, key_orient_left, key_orient_right, rightHidden, leftShown]
      | false =>
        have notCommon : ∀ child, pair.right.getNextChild = some child →
            pair.left.getNextChild ≠ some child := by
          intro child rightNext leftNext
          rw [hasSameNextChild_iff.mpr ⟨child, leftNext, rightNext⟩] at same
          exact absurd same (by simp)
        rw [sent_of_right normalized same rightValue (by simpa [leftValue] using sameKey)]
        refine visible_singleton ?_
        rw [key_orient_right, hiddenIff]
        exact fun hidden => not_hidden rightMem (inside.symm.not_masked_of_greater
          listingRight listingLeft ready.right ready.left rightValue leftValue less
          notCommon) hidden.symm

end IteratorPair

end Peridot
