import Peridot.ThreeWayDiffRun

/-!
# Reporting the changes between three trees

What `ForEachThreeWayDiff` reports at a key.  The base entry is always right.  The
entry of a side is recovered from the difference that is pending on that side: it is
wrong for a hidden key, and it can be wrong when the pending difference is a deletion,
since a deletion has no entry that could be compared with the key.
-/

namespace Peridot

open List KeyedList Position ThreeWayIterator

def ThreeWayChange.key (change : ThreeWayChange) : Option Key :=
  ((change.base.or change.left).or change.right).map Entry.key

variable {entry : Entry} {positions : List Position} {later : Key}

namespace Position

variable {read : NodeReader} {base other : List Position} {key : Key}

def lookup (positions : List Position) (key : Key) : Option Entry :=
  KeyedList.find Entry.key (entries positions) key

theorem lookup_of_mem (listing : Listing read positions) (member : entry ∈ entries positions) :
    lookup positions entry.key = some entry :=
  find_of_mem listing.sorted member

theorem lookup_eq_none :
    lookup positions key = none ↔ ∀ entry ∈ entries positions, entry.key ≠ key :=
  find_eq_none_iff

/-- What masks a key: the next key of both trees, which is in the other tree only and is
not hidden itself. -/
theorem Masked.next (listing : Listing read base) (listingOther : Listing read other)
    (masked : Masked base other key) :
    ∃ later, lookup other later.key = some later ∧ lookup base later.key = none ∧
      ¬Hidden base other later.key ∧ key < later.key ∧
      ∀ item ∈ entries base ++ entries other, key < item.key → later.key ≤ item.key := by
  obtain ⟨position, member, entry, shown, rfl, hasNext, otherPosition, otherMember, later, isLater,
    sameNext, less, apart⟩ := masked
  obtain ⟨child, next⟩ := Option.ne_none_iff_exists'.mp hasNext
  rw [next] at sameNext
  have laterMem : later ∈ entries other := mem_entries.mpr ⟨otherPosition, otherMember, isLater⟩
  -- Between the masked key and the common child, the base tree has no key.
  have notBefore : ∀ item ∈ entries base, entry.key < item.key → later.key < item.key := by
    intro item inBase greater
    obtain ⟨first, inChild, notGreater⟩ := listing.chained.exists_mem_below_le listing.sorted
      member shown next inBase greater
    exact (listingOther.chained.lt_of_mem_below listingOther.sorted otherMember isLater sameNext
      inChild).trans_le notGreater
  have absent : ∀ item ∈ entries base, item.key ≠ later.key := by
    intro item inBase sameKey
    exact absurd sameKey (notBefore item inBase (sameKey ▸ less)).ne'
  refine ⟨later, lookup_of_mem listingOther laterMem, lookup_eq_none.mpr absent, ?_, less, ?_⟩
  · rintro (hidden | hidden)
    · obtain ⟨item, inBase, sameKey⟩ := hidden.mem.1
      exact absent item inBase sameKey
    · obtain ⟨again, againMem, same, isSame, sameKey, -, third, thirdMem, last, isLast, lastNext,
        greater, -⟩ := hidden
      obtain rfl : again = otherPosition := eq_of_key_eq listingOther.sorted againMem otherMember
        isSame isLater sameKey
      exact listing.chained.key_unique listing.sorted member thirdMem shown isLast next
        (lastNext.trans sameNext) (less.trans greater)
  · intro item inEither greater
    rcases mem_append.mp inEither with inBase | inOther
    · exact (notBefore item inBase greater).le
    · rcases apart item inOther with smaller | notSmaller
      · exact absurd greater smaller.asymm
      · exact notSmaller

theorem hidden_comm : Hidden base other key ↔ Hidden other base key :=
  or_comm

theorem Hidden.lookup_ne (hidden : Hidden base other key) : lookup base key ≠ lookup other key := by
  have apart : ∀ {positions others : List Position}, Masked positions others key →
      lookup positions key ≠ none ∧ lookup others key = none := by
    intro positions others masked
    obtain ⟨⟨entry, member, sameKey⟩, absent⟩ := masked.mem
    exact ⟨fun nothing => lookup_eq_none.mp nothing entry member sameKey, lookup_eq_none.mpr absent⟩
  rcases hidden with masked | masked
  · obtain ⟨found, absent⟩ := apart masked
    exact fun same => found (same.trans absent)
  · obtain ⟨found, absent⟩ := apart masked
    exact fun same => found (same.symm.trans absent)

end Position

section VisibleDiffs

variable {read : NodeReader} {base other : List Position} {key : Key}

theorem key_of_lookup (found : Position.lookup positions key = some entry) : entry.key = key :=
  key_of_find found

variable (listing : Position.Listing read base)
include listing

variable (listingOther : Listing read other)
include listingOther

/-- The entries of a difference are those of the trees at its key. -/
theorem mem_visibleDiffs {difference : Difference} : difference ∈ visibleDiffs base other ↔
      difference = (Position.lookup base difference.key, Position.lookup other difference.key) ∧
        difference.1 ≠ difference.2 ∧ ¬Hidden base other difference.key := by
  rw [visibleDiffs, visible, mem_filter, mem_diff listing.sorted listingOther.sorted,
    decide_eq_true_iff]
  constructor
  · rintro ⟨⟨different, key, inBase, inOther⟩, shown⟩
    refine ⟨?_, different, shown⟩
    have sameKey : difference.key = key := by
      obtain ⟨first, second⟩ := difference
      cases first with
      | some entry => exact key_of_lookup inBase
      | none =>
        cases second with
        | some entry => exact key_of_lookup inOther
        | none => exact absurd rfl different
    rw [sameKey]
    exact Prod.ext inBase.symm inOther.symm
  · rintro ⟨same, different, shown⟩
    exact ⟨⟨different, difference.key, (congrArg Prod.fst same).symm,
      (congrArg Prod.snd same).symm⟩, shown⟩

theorem visibleDiff_at (different : Position.lookup base key ≠ Position.lookup other key)
    (shown : ¬Hidden base other key) :
    (Position.lookup base key, Position.lookup other key) ∈ visibleDiffs base other ∧
      Difference.key (Position.lookup base key, Position.lookup other key) = key := by
  have sameKey : Difference.key (Position.lookup base key, Position.lookup other key) = key := by
    cases inBase : Position.lookup base key with
    | some entry => exact key_of_lookup inBase
    | none =>
      cases inOther : Position.lookup other key with
      | some entry => exact key_of_lookup inOther
      | none => exact absurd (inBase.trans inOther.symm) different
  refine ⟨(mem_visibleDiffs listing listingOther).mpr ⟨?_, different, ?_⟩, sameKey⟩
  · rw [sameKey]
  · rwa [sameKey]

theorem exists_visibleDiff : (∃ event ∈ visibleDiffs base other, event.key = key) ↔
      Position.lookup base key ≠ Position.lookup other key ∧ ¬Hidden base other key := by
  constructor
  · rintro ⟨event, member, rfl⟩
    obtain ⟨same, different, shown⟩ := (mem_visibleDiffs listing listingOther).mp member
    have first : event.1 = Position.lookup base event.key := congrArg Prod.fst same
    have second : event.2 = Position.lookup other event.key := congrArg Prod.snd same
    exact ⟨first ▸ second ▸ different, shown⟩
  · rintro ⟨different, shown⟩
    obtain ⟨member, sameKey⟩ := visibleDiff_at listing listingOther different shown
    exact ⟨_, member, sameKey⟩

theorem visibleDiff_smallest (hidden : Hidden base other key)
    (next : ∀ item ∈ entries base ++ entries other, key < item.key → later ≤ item.key) :
    ∀ event ∈ visibleDiffs base other, key ≤ event.key → later ≤ event.key := by
  intro event member notSmaller
  obtain ⟨same, different, shown⟩ := (mem_visibleDiffs listing listingOther).mp member
  have greater : key < event.key :=
    lt_of_le_of_ne notSmaller fun sameKey => shown (sameKey ▸ hidden)
  have isItem : ∃ item ∈ entries base ++ entries other, item.key = event.key := by
    cases inBase : Position.lookup base event.key with
    | some item => exact ⟨item, mem_append_left _ (mem_of_find inBase), key_of_lookup inBase⟩
    | none =>
      cases inOther : Position.lookup other event.key with
      | some item => exact ⟨item, mem_append_right _ (mem_of_find inOther), key_of_lookup inOther⟩
      | none =>
        rw [same, inBase, inOther] at different
        exact absurd rfl different
  obtain ⟨item, inEither, sameKey⟩ := isItem
  exact sameKey ▸ next item inEither (sameKey ▸ greater)

end VisibleDiffs

namespace ThreeWaySide

variable {read : NodeReader} {base other : List Position} {key : Key} {side : ThreeWaySide}

structure PendingAt (positions others : List Position) (key : Key) (side : ThreeWaySide) :
    Prop where
  base : side.base = Position.lookup positions key
  entry : side.entry = Position.lookup others key
  different : Position.lookup positions key ≠ Position.lookup others key

structure PendingLater (key : Key) (side : ThreeWaySide) : Prop where
  base : ∀ entry ∈ side.base, key < entry.key
  entry : ∀ entry ∈ side.entry, key < entry.key
  done : side.base = none → side.entry = none → side.iterators.finished = true

section

variable (listing : Listing read base)
include listing

variable (listingOther : Listing read other)
include listingOther

variable (tracks : Tracks read base other (startingAt Difference.key key (visibleDiffs base other)) side)
include tracks

theorem Tracks.pending_eq (different : Position.lookup base later ≠ Position.lookup other later)
    (shown : ¬Hidden base other later) (notSmaller : key ≤ later)
    (smallest : ∀ event ∈ visibleDiffs base other, key ≤ event.key → later ≤ event.key) :
    side.base = Position.lookup base later ∧ side.entry = Position.lookup other later := by
  obtain ⟨member, sameKey⟩ := visibleDiff_at listing listingOther different shown
  have inEvents := mem_startingAt.mpr ⟨member, notSmaller.trans sameKey.ge⟩
  have sorted := sorted_filter (orderly_visibleDiffs listing listingOther).sorted
    fun event => decide (key ≤ event.key)
  have pending := tracks.pending
  cases events : startingAt Difference.key key (visibleDiffs base other) with
  | nil =>
    rw [events] at inEvents
    exact absurd inEvents not_mem_nil
  | cons event rest =>
    have eventMem := mem_startingAt.mp (events ▸ mem_cons_self)
    rw [show filter _ _ = event :: rest from events] at sorted
    rw [events] at inEvents pending
    have eventKey : event.key = later := le_antisymm (sameKey ▸ head_le sorted _ inEvents)
        (smallest event eventMem.1 eventMem.2)
    have isEvent := ((mem_visibleDiffs listing listingOther).mp eventMem.1).1
    rw [eventKey] at isEvent
    have pending : (side.base, side.entry) = event := pending
    rwa [isEvent, Prod.mk.injEq] at pending

theorem Tracks.pendingAt (different : Position.lookup base key ≠ Position.lookup other key)
    (shown : ¬Hidden base other key) : PendingAt base other key side := by
  obtain ⟨isBase, isEntry⟩ :=
    tracks.pending_eq listing listingOther different shown le_rfl fun _ _ notSmaller => notSmaller
  exact ⟨isBase, isEntry, different⟩

theorem Tracks.pendingLater (notShown : ∀ event ∈ visibleDiffs base other, event.key ≠ key) :
    PendingLater key side := by
  have pending := tracks.pending
  cases events : startingAt Difference.key key (visibleDiffs base other) with
  | nil =>
    rw [events, head?_nil, Option.getD_none, Prod.mk.injEq] at pending
    exact ⟨by simp [pending.1], by simp [pending.2], fun _ _ => tracks.done events⟩
  | cons event rest =>
    rw [events] at pending
    have pending : (side.base, side.entry) = event := pending
    obtain ⟨member, notSmaller⟩ := mem_startingAt.mp (events ▸ mem_cons_self)
    obtain ⟨same, different, -⟩ := (mem_visibleDiffs listing listingOther).mp member
    have later : key < event.key := lt_of_le_of_ne notSmaller (Ne.symm (notShown event member))
    rw [← pending, Prod.mk.injEq, pending] at same
    refine ⟨fun entry inBase => ?_, fun entry inEntry => ?_, fun noBase noEntry => ?_⟩
    · rwa [key_of_lookup (same.1.symm.trans inBase)]
    · rwa [key_of_lookup (same.2.symm.trans inEntry)]
    · rw [← pending, noBase, noEntry] at different
      exact absurd rfl different

end

section

variable (pendingAt : PendingAt base other key side)
include pendingAt

theorem PendingAt.not_later : ¬PendingLater key side := by
  intro later
  cases inBase : Position.lookup base key with
  | some entry =>
    exact absurd (key_of_lookup inBase) (later.base entry (pendingAt.base.trans inBase)).ne'
  | none =>
    cases inOther : Position.lookup other key with
    | some entry =>
      exact absurd (key_of_lookup inOther) (later.entry entry (pendingAt.entry.trans inOther)).ne'
    | none => exact pendingAt.different (inBase.trans inOther.symm)

theorem PendingAt.exists_entry (notInBase : Position.lookup base key = none) :
    ∃ entry, side.entry = some entry ∧ entry.key = key := by
  cases inOther : Position.lookup other key with
  | some entry => exact ⟨entry, pendingAt.entry.trans inOther, key_of_lookup inOther⟩
  | none => exact absurd (notInBase.trans inOther.symm) pendingAt.different

theorem PendingAt.not_smaller : ∀ entry ∈ side.entry, key ≤ entry.key :=
  fun _ isEntry => (key_of_lookup (pendingAt.entry.symm.trans isEntry)).ge

end

section

variable (listing : Listing read base)
include listing

variable (listingOther : Listing read other)
include listingOther

variable (tracks : Tracks read base other (startingAt Difference.key key (visibleDiffs base other)) side)
include tracks

theorem Tracks.pending_cases : PendingAt base other key side ∨
      PendingLater key side ∧ ¬∃ event ∈ visibleDiffs base other, event.key = key := by
  by_cases found : ∃ event ∈ visibleDiffs base other, event.key = key
  · obtain ⟨different, shown⟩ := (exists_visibleDiff listing listingOther).mp found
    exact .inl (tracks.pendingAt listing listingOther different shown)
  · refine .inr ⟨tracks.pendingLater listing listingOther fun event member sameKey => ?_, found⟩
    exact found ⟨event, member, sameKey⟩

/-- Where a key of the base is hidden, an addition is pending instead. -/
theorem Tracks.entry_of_masked (masked : Masked base other key) :
    ∃ later, side.entry = some later ∧ key < later.key := by
  obtain ⟨later, inOther, notInBase, shown, less, next⟩ := masked.next listing listingOther
  have pending := tracks.pending_eq listing listingOther (by simp [inOther, notInBase]) shown less.le
    (visibleDiff_smallest listing listingOther (.inl masked) next)
  exact ⟨later, pending.2.trans inOther, less⟩

/-- Where a key of the other tree is hidden, a deletion is pending instead. -/
theorem Tracks.entry_of_masked_other (masked : Masked other base key) : side.entry = none := by
  obtain ⟨later, inBase, notInOther, shown, less, next⟩ := masked.next listingOther listing
  have pending := tracks.pending_eq listing listingOther (by simp [inBase, notInOther])
    (fun hidden => shown (hidden_comm.mp hidden)) less.le
    (visibleDiff_smallest listing listingOther (.inr masked) fun item member =>
      next item (mem_append.mpr (mem_append.mp member).symm))
  exact pending.2.trans notInOther

end

/-- A deletion is pending.  `GetEntry` takes it for a deletion at the current key unless
the iterators are finished, whatever its own key is. -/
def DeletionShown (key : Key) (inBase : Bool) (side : ThreeWaySide) : Prop :=
  ∀ deleted ∈ side.base, side.entry = none →
    if deleted.key = key then side.iterators.finished = false
    else inBase = true → side.iterators.finished = true

end ThreeWaySide

variable {stops : List (Key × ThreeWayIterator)}

namespace ThreeWayIterator

open ThreeWaySide (PendingAt PendingLater)

variable {read : NodeReader} {base left right positions others : List Position} {key : Key}
  {iterator : ThreeWayIterator} {side : ThreeWaySide} {otherEntry : Option Entry}
    {stop : Key × ThreeWayIterator}

inductive AtKey (base left right : List Position) (key : Key) (iterator : ThreeWayIterator) :
    Prop where
  | both (atLeft : PendingAt base left key iterator.left)
      (atRight : PendingAt base right key iterator.right)
  | left (atLeft : PendingAt base left key iterator.left)
      (laterRight : PendingLater key iterator.right)
  | right (laterLeft : PendingLater key iterator.left)
      (atRight : PendingAt base right key iterator.right)

theorem getBase_eq (atKey : AtKey base left right key iterator) :
    iterator.getBase = Position.lookup base key := by
  unfold getBase
  cases atKey with
  | both atLeft atRight =>
    rw [atLeft.base, atRight.base]
    cases Position.lookup base key <;> simp
  | left atLeft laterRight =>
    rw [atLeft.base]
    cases inBase : Position.lookup base key with
    | some entry =>
      have entryKey := key_of_lookup inBase
      cases rightBase : iterator.right.base with
      | some other => simp [entryKey, laterRight.base other rightBase]
      | none =>
        cases rightEntry : iterator.right.entry with
        | some other => simp [entryKey, laterRight.entry other rightEntry]
        | none => rfl
    | none =>
      cases rightBase : iterator.right.base with
      | none => rfl
      | some other =>
        cases leftEntry : iterator.left.entry with
        | none => exact absurd (inBase.trans (leftEntry.symm.trans atLeft.entry)) atLeft.different
        | some entry =>
          have entryKey := key_of_lookup (atLeft.entry.symm.trans leftEntry)
          simp [entryKey, (laterRight.base other rightBase).not_gt]
  | right laterLeft atRight =>
    rw [atRight.base]
    cases inBase : Position.lookup base key with
    | some entry =>
      have entryKey := key_of_lookup inBase
      cases leftBase : iterator.left.base with
      | some other => simp [entryKey, (laterLeft.base other leftBase).not_gt]
      | none =>
        cases leftEntry : iterator.left.entry with
        | some other => simp [entryKey, laterLeft.entry other leftEntry]
        | none => rfl
    | none =>
      cases leftBase : iterator.left.base with
      | none => rfl
      | some other =>
        cases rightEntry : iterator.right.entry with
        | none =>
          exact absurd (inBase.trans (rightEntry.symm.trans atRight.entry)) atRight.different
        | some entry =>
          have entryKey := key_of_lookup (atRight.entry.symm.trans rightEntry)
          simp [entryKey, (laterLeft.base other leftBase).not_gt]

theorem getEntry_at (pending : PendingAt positions others key side)
    (notSmaller : ∀ entry ∈ otherEntry, key ≤ entry.key) :
    (getEntry (Position.lookup positions key) side.iterators side.entry otherEntry =
        Position.lookup others key ↔
      side.DeletionShown key (Position.lookup positions key).isSome) := by
  rw [ThreeWaySide.DeletionShown, pending.base, pending.entry]
  cases inBase : Position.lookup positions key with
  | some entry =>
    have entryKey := key_of_lookup inBase
    cases inOther : Position.lookup others key with
    | some other =>
      have otherKey := key_of_lookup inOther
      simp [getEntry, entryKey, otherKey]
    | none => simp [getEntry, entryKey]
  | none =>
    cases inOther : Position.lookup others key with
    | none => exact absurd (inBase.trans inOther.symm) pending.different
    | some other =>
      have otherKey := key_of_lookup inOther
      cases otherEntry with
      | none => simp [getEntry]
      | some entry => simp [getEntry, otherKey, notSmaller entry rfl]

/-- `GetEntry` for a side with a later pending difference, on a key of the base. -/
theorem getEntry_later_some (pending : PendingLater key side) (entryKey : entry.key = key) :
    getEntry (some entry) side.iterators side.entry otherEntry = some entry ↔
      side.DeletionShown key true := by
  rw [ThreeWaySide.DeletionShown]
  cases sideEntry : side.entry with
  | some other =>
    have later := pending.entry other sideEntry
    simp [getEntry, entryKey, later, later.ne]
  | none =>
    cases sideBase : side.base with
    | none => simp [getEntry, pending.done sideBase sideEntry]
    | some deleted => simp [getEntry, (pending.base deleted sideBase).ne']

/-- `GetEntry` for a side with a later pending difference, on a key that the base does not
have. -/
theorem getEntry_later_none (pending : PendingLater key side) (entryKey : entry.key = key) :
    getEntry none side.iterators side.entry (some entry) = none := by
  cases sideEntry : side.entry with
  | none => rfl
  | some other => simp [getEntry, entryKey, pending.entry other sideEntry]

/-- `GetEntry` recovers the entry of a side unless the key is hidden or a deletion is
mistaken. -/
theorem getEntry_eq_iff (listing : Listing read positions) (listingOther : Listing read others)
    (tracks : side.Tracks read positions others
      (startingAt Difference.key key (visibleDiffs positions others)))
    (notSmaller : ∀ entry ∈ otherEntry, key ≤ entry.key)
    (onlyOther : Position.lookup positions key = none → PendingLater key side →
      ∃ entry, otherEntry = some entry ∧ entry.key = key) :
    getEntry (Position.lookup positions key) side.iterators side.entry otherEntry =
        Position.lookup others key ↔
      ¬Hidden positions others key ∧
        side.DeletionShown key (Position.lookup positions key).isSome := by
  by_cases hidden : Hidden positions others key
  · refine iff_of_false (fun same => ?_) (fun shown => shown.1 hidden)
    rcases hidden with masked | masked
    · obtain ⟨⟨entry, member, entryKey⟩, absent⟩ := masked.mem
      obtain ⟨later, isLater, less⟩ := tracks.entry_of_masked listing listingOther masked
      rw [lookup_eq_none.mpr absent, ← entryKey, lookup_of_mem listing member, isLater] at same
      simp [getEntry, entryKey, less, less.ne] at same
    · obtain ⟨⟨entry, member, entryKey⟩, absent⟩ := masked.mem
      rw [lookup_eq_none.mpr absent, ← entryKey, lookup_of_mem listingOther member,
        tracks.entry_of_masked_other listing listingOther masked] at same
      simp [getEntry] at same
  · rw [and_iff_right hidden]
    by_cases different : Position.lookup positions key = Position.lookup others key
    · have later := tracks.pendingLater listing listingOther fun event member sameKey =>
        ((exists_visibleDiff listing listingOther).mp ⟨event, member, sameKey⟩).1 different
      rw [← different]
      cases inBase : Position.lookup positions key with
      | some entry => exact getEntry_later_some later (key_of_lookup inBase)
      | none =>
        obtain ⟨entry, rfl, entryKey⟩ := onlyOther inBase later
        refine iff_of_true (getEntry_later_none later entryKey) ?_
        intro deleted isDeleted _
        rw [if_neg (later.base deleted isDeleted).ne']
        simp
    · exact getEntry_at (tracks.pendingAt listing listingOther different hidden) notSmaller

theorem getEntry_added {pair : IteratorPair}
    (notSmaller : ∀ other ∈ otherEntry, entry.key ≤ other.key) :
    getEntry none pair (some entry) otherEntry = some entry := by
  cases otherEntry with
  | none => rfl
  | some other => simp [getEntry, notSmaller other rfl]

theorem Run.atKey (listings : Listings read base left right)
    (run : Run read base left right (visibleDiffs base left) (visibleDiffs base right) stops)
    (member : stop ∈ stops) :
    AtKey base left right stop.1 stop.2 := by
  have tracks := run.tracks stop member
  have found := (run.mem_iff stop.1).mp (mem_map_of_mem member)
  rcases tracks.left.pending_cases listings.base listings.left with
    atLeft | ⟨laterLeft, notLeft⟩
  · rcases tracks.right.pending_cases listings.base listings.right with
      atRight | ⟨laterRight, -⟩
    · exact .both atLeft atRight
    · exact .left atLeft laterRight
  · rcases tracks.right.pending_cases listings.base listings.right with
      atRight | ⟨-, notRight⟩
    · exact .right laterLeft atRight
    · exact absurd found (not_or.mpr ⟨notLeft, notRight⟩)

namespace AtKey

variable (atKey : AtKey base left right key iterator)
include atKey

theorem not_smaller_left : ∀ entry ∈ iterator.left.entry, key ≤ entry.key := by
  cases atKey with
  | both atLeft | left atLeft => exact atLeft.not_smaller
  | right laterLeft => exact fun entry isEntry => (laterLeft.entry entry isEntry).le

theorem not_smaller_right : ∀ entry ∈ iterator.right.entry, key ≤ entry.key := by
  cases atKey with
  | both _ atRight | right _ atRight => exact atRight.not_smaller
  | left _ laterRight => exact fun entry isEntry => (laterRight.entry entry isEntry).le

theorem exists_right (notInBase : Position.lookup base key = none)
    (later : PendingLater key iterator.left) :
    ∃ entry, iterator.right.entry = some entry ∧ entry.key = key := by
  cases atKey with
  | both atLeft | left atLeft => exact absurd later atLeft.not_later
  | right _ atRight => exact atRight.exists_entry notInBase

theorem exists_left (notInBase : Position.lookup base key = none)
    (later : PendingLater key iterator.right) :
    ∃ entry, iterator.left.entry = some entry ∧ entry.key = key := by
  cases atKey with
  | both _ atRight | right _ atRight => exact absurd later atRight.not_later
  | left atLeft => exact atLeft.exists_entry notInBase

theorem key_eq : iterator.getCurrentDiff.key = some key := by
  have notSmaller := atKey.not_smaller_right
  rw [getCurrentDiff, getBase_eq atKey, ThreeWayChange.key]
  cases inBase : Position.lookup base key with
  | some entry => simp [key_of_lookup inBase]
  | none =>
    cases atKey with
    | both atLeft | left atLeft =>
      obtain ⟨entry, isEntry, rfl⟩ := atLeft.exists_entry inBase
      simp [isEntry, getEntry_added notSmaller]
    | right laterLeft atRight =>
      obtain ⟨entry, isEntry, rfl⟩ := atRight.exists_entry inBase
      have notSmallerLeft : ∀ other ∈ iterator.left.entry, entry.key ≤ other.key :=
        fun other isOther => (laterLeft.entry other isOther).le
      simp [isEntry, getEntry_later_none laterLeft rfl, getEntry_added notSmallerLeft]

end AtKey

/-- The entries of a reported change are right unless the key is hidden on a side or a
deletion is mistaken. -/
theorem Run.getCurrentDiff_iff (listings : Listings read base left right)
    (run : Run read base left right (visibleDiffs base left) (visibleDiffs base right) stops)
    (member : stop ∈ stops) :
    stop.2.getCurrentDiff = ⟨Position.lookup base stop.1, Position.lookup left stop.1,
        Position.lookup right stop.1⟩ ↔
      (¬Hidden base left stop.1 ∧
        stop.2.left.DeletionShown stop.1 (Position.lookup base stop.1).isSome) ∧
      (¬Hidden base right stop.1 ∧
        stop.2.right.DeletionShown stop.1 (Position.lookup base stop.1).isSome) := by
  have tracks := run.tracks stop member
  have atKey := run.atKey listings member
  rw [← getEntry_eq_iff listings.base listings.left tracks.left atKey.not_smaller_right
      atKey.exists_right,
    ← getEntry_eq_iff listings.base listings.right tracks.right atKey.not_smaller_left
      atKey.exists_left]
  simp [getCurrentDiff, getBase_eq atKey]

end ThreeWayIterator

/-- The changes are about the given keys, once each and in order. -/
structure ReportsKeys (changes : List ThreeWayChange) (isReported : Key → Prop) : Prop where
  named : ∀ change ∈ changes, change.key ≠ none
  sorted : (changes.filterMap ThreeWayChange.key).Pairwise (· < ·)
  mem_iff : ∀ key, key ∈ changes.filterMap ThreeWayChange.key ↔ isReported key

namespace ReportsThreeWay

variable {read : NodeReader} {baseRoot leftRoot rightRoot : ObjectIdentifier}
  {changes others : List ThreeWayChange}

theorem eq_of_recorded (reports : ReportsThreeWay read baseRoot leftRoot rightRoot changes)
    (needed : Nat)
    (recorded : ∀ fuel, forEachThreeWayDiff read (fuel + needed) baseRoot leftRoot rightRoot []
      record [] = .ok others) : others = changes := by
  obtain ⟨bound, reported⟩ := reports _ record []
  have same := (recorded bound).symm.trans (reported (bound + needed) (by omega))
  rw [runUntil_record, nil_append] at same
  exact Except.ok.inj same

end ReportsThreeWay

section ForEachThreeWayDiff

variable {level : NodeLevelCalculator} {read : NodeReader}
  {baseRoot leftRoot rightRoot : ObjectIdentifier} {base left right : LeveledTree Entry}

/-- The key is hidden by a child that the two trees share. -/
def HiddenBetween (read : NodeReader) (baseRoot otherRoot : ObjectIdentifier) (key : Key) : Prop :=
  Position.Hidden (Position.below read (some baseRoot)) (Position.below read (some otherRoot)) key

theorem lookup_below (wellFormed : WellFormed level read baseRoot base) (key : Key) :
    Position.lookup (below read (some baseRoot)) key =
      KeyedList.find Entry.key base.contents key := by
  rw [Position.lookup, entries_below wellFormed.stored]
  rfl

theorem listings_below (wellFormed : WellFormed level read baseRoot base)
    (wellFormedLeft : WellFormed level read leftRoot left)
    (wellFormedRight : WellFormed level read rightRoot right)
    (trimmed : base.Shaped level.entryLevel .trimmed)
    (trimmedLeft : left.Shaped level.entryLevel .trimmed)
    (trimmedRight : right.Shaped level.entryLevel .trimmed) :
    Listings read (below read (some baseRoot))
      (below read (some leftRoot)) (below read (some rightRoot)) where
  base := listing_below wellFormed.stored wellFormed.sorted trimmed
  left := listing_below wellFormedLeft.stored wellFormedLeft.sorted trimmedLeft
  right := listing_below wellFormedRight.stored wellFormedRight.sorted trimmedRight

theorem filterMap_key_stops {lefts rights : List Position}
    (listings : Listings read positions lefts rights)
    (run : Run read positions lefts rights (visibleDiffs positions lefts)
      (visibleDiffs positions rights) stops) :
    (stops.map fun stop => stop.2.getCurrentDiff).filterMap ThreeWayChange.key =
      stops.map Prod.fst := by
  rw [filterMap_map, ← filterMap_eq_map]
  exact filterMap_congr fun stop member => (run.atKey listings member).key_eq

/-- The keys on which the trees are not all equal are reported, once and in order, exactly
when every key that is hidden on one side is shown on the other one. -/
theorem forEachThreeWayDiff_keys_iff (wellFormed : WellFormed level read baseRoot base)
    (wellFormedLeft : WellFormed level read leftRoot left)
    (wellFormedRight : WellFormed level read rightRoot right)
    (trimmed : base.Shaped level.entryLevel .trimmed)
    (trimmedLeft : left.Shaped level.entryLevel .trimmed)
    (trimmedRight : right.Shaped level.entryLevel .trimmed) (different : leftRoot ≠ rightRoot) :
    ∃ changes, ReportsThreeWay read baseRoot leftRoot rightRoot changes ∧
      (ReportsKeys changes (fun key =>
          ¬(KeyedList.find Entry.key base.contents key = KeyedList.find Entry.key left.contents key ∧
            KeyedList.find Entry.key base.contents key =
              KeyedList.find Entry.key right.contents key)) ↔
        (∀ key, HiddenBetween read baseRoot leftRoot key →
          KeyedList.find Entry.key base.contents key ≠
              KeyedList.find Entry.key right.contents key ∧
            ¬HiddenBetween read baseRoot rightRoot key) ∧
        ∀ key, HiddenBetween read baseRoot rightRoot key →
          KeyedList.find Entry.key base.contents key ≠
              KeyedList.find Entry.key left.contents key ∧
            ¬HiddenBetween read baseRoot leftRoot key) := by
  have listings := listings_below wellFormed wellFormedLeft wellFormedRight trimmed trimmedLeft
    trimmedRight
  obtain ⟨stops, run, -, reports⟩ := forEachThreeWayDiff_run wellFormed wellFormedLeft
    wellFormedRight trimmed trimmedLeft trimmedRight different
  refine ⟨_, reports, ?_⟩
  have reportedIff : ∀ key, key ∈ stops.map Prod.fst ↔ _ := fun key => (run.mem_iff key).trans
    (or_congr (exists_visibleDiff listings.base listings.left)
      (exists_visibleDiff listings.base listings.right))
  simp only [lookup_below wellFormed, lookup_below wellFormedLeft, lookup_below wellFormedRight]
    at reportedIff
  have hiddenLeft : ∀ key, HiddenBetween read baseRoot leftRoot key →
      KeyedList.find Entry.key base.contents key ≠ KeyedList.find Entry.key left.contents key := by
    intro key hidden
    rw [← lookup_below wellFormed, ← lookup_below wellFormedLeft]
    exact hidden.lookup_ne
  have hiddenRight : ∀ key, HiddenBetween read baseRoot rightRoot key →
      KeyedList.find Entry.key base.contents key ≠ KeyedList.find Entry.key right.contents key := by
    intro key hidden
    rw [← lookup_below wellFormed, ← lookup_below wellFormedRight]
    exact hidden.lookup_ne
  constructor
  · intro keys
    have shown := fun key => filterMap_key_stops listings run ▸ keys.mem_iff key
    refine ⟨fun key hidden => ?_, fun key hidden => ?_⟩
    · have inStops := (shown key).mpr fun same => hiddenLeft key hidden same.1
      rcases (reportedIff key).mp inStops with ⟨-, notHidden⟩ | found
      · exact absurd hidden notHidden
      · exact found
    · have inStops := (shown key).mpr fun same => hiddenRight key hidden same.2
      rcases (reportedIff key).mp inStops with found | ⟨-, notHidden⟩
      · exact found
      · exact absurd hidden notHidden
  · rintro ⟨fromLeft, fromRight⟩
    refine ⟨?_, ?_, fun key => ?_⟩
    · intro change member
      obtain ⟨stop, inStops, rfl⟩ := mem_map.mp member
      simp [(run.atKey listings inStops).key_eq]
    · rw [filterMap_key_stops listings run]
      exact run.sorted
    · rw [filterMap_key_stops listings run, reportedIff]
      constructor
      · rintro (⟨differs, -⟩ | ⟨differs, -⟩) same
        · exact differs same.1
        · exact differs same.2
      · intro notSame
        rcases not_and_or.mp notSame with differs | differs
        · by_cases hidden : HiddenBetween read baseRoot leftRoot key
          · exact .inr (fromLeft key hidden)
          · exact .inl ⟨differs, hidden⟩
        · by_cases hidden : HiddenBetween read baseRoot rightRoot key
          · exact .inl (fromRight key hidden)
          · exact .inr ⟨differs, hidden⟩

theorem forEachThreeWayDiff_keys_iff_shared_leaf :
    let read : NodeReader := .ofNodes
      [(sampleIdentifier 1, ⟨0, [sampleEntry 3], [], by decide⟩),
        (sampleIdentifier 2, ⟨1, [sampleEntry 10], [(0, sampleIdentifier 1)], by decide⟩),
        (sampleIdentifier 3, ⟨1, [sampleEntry 20], [(0, sampleIdentifier 1)], by decide⟩)]
    ∃ changes,
      ReportsThreeWay read (sampleIdentifier 2) (sampleIdentifier 3) (sampleIdentifier 2) changes ∧
      (ReportsKeys changes (fun key =>
          ¬(KeyedList.find Entry.key [sampleEntry 3, sampleEntry 10] key =
              KeyedList.find Entry.key [sampleEntry 3, sampleEntry 20] key ∧
            KeyedList.find Entry.key [sampleEntry 3, sampleEntry 10] key =
              KeyedList.find Entry.key [sampleEntry 3, sampleEntry 10] key)) ↔
        (∀ key, HiddenBetween read (sampleIdentifier 2) (sampleIdentifier 3) key →
          KeyedList.find Entry.key [sampleEntry 3, sampleEntry 10] key ≠
              KeyedList.find Entry.key [sampleEntry 3, sampleEntry 10] key ∧
            ¬HiddenBetween read (sampleIdentifier 2) (sampleIdentifier 2) key) ∧
        ∀ key, HiddenBetween read (sampleIdentifier 2) (sampleIdentifier 2) key →
          KeyedList.find Entry.key [sampleEntry 3, sampleEntry 10] key ≠
              KeyedList.find Entry.key [sampleEntry 3, sampleEntry 20] key ∧
            ¬HiddenBetween read (sampleIdentifier 2) (sampleIdentifier 3) key) :=
  forEachThreeWayDiff_keys_iff
    (by decide : WellFormed sampleLevel _ _ (sampleTree (sampleLeaf [3]) 10))
    (by decide : WellFormed sampleLevel _ _ (sampleTree (sampleLeaf [3]) 20))
    (by decide : WellFormed sampleLevel _ _ (sampleTree (sampleLeaf [3]) 10))
    (by decide) (by decide) (by decide) (by decide)

/-- The left tree has the key 7 instead of 5, in front of the same leaf: the removal of 5
and the addition of 7 are sent at one stop and the removal is lost. -/
theorem forEachThreeWayDiff_key_lost :
    ∃ (level : NodeLevelCalculator) (read : NodeReader)
      (baseRoot leftRoot rightRoot : ObjectIdentifier) (base left right : LeveledTree Entry),
      WellFormed level read baseRoot base ∧ WellFormed level read leftRoot left ∧
        WellFormed level read rightRoot right ∧ base.Shaped level.entryLevel .trimmed ∧
        left.Shaped level.entryLevel .trimmed ∧ right.Shaped level.entryLevel .trimmed ∧
        leftRoot ≠ rightRoot ∧
        ¬∃ changes, ReportsThreeWay read baseRoot leftRoot rightRoot changes ∧
          ReportsKeys changes fun key =>
            ¬(KeyedList.find Entry.key base.contents key =
                KeyedList.find Entry.key left.contents key ∧
              KeyedList.find Entry.key base.contents key =
                KeyedList.find Entry.key right.contents key) := by
  refine ⟨fun key => if key < [9] then 1 else 0, .ofNodes
      [(sampleIdentifier 1, ⟨0, [sampleEntry 9], [], by decide⟩),
        (sampleIdentifier 2, ⟨1, [sampleEntry 5], [(1, sampleIdentifier 1)], by decide⟩),
        (sampleIdentifier 3, ⟨1, [sampleEntry 7], [(1, sampleIdentifier 1)], by decide⟩)],
    sampleIdentifier 2, sampleIdentifier 3, sampleIdentifier 2,
    ⟨2, .node (.step (.null 1) (sampleEntry 5) (.last (sampleLeaf [9])))⟩,
    ⟨2, .node (.step (.null 1) (sampleEntry 7) (.last (sampleLeaf [9])))⟩,
    ⟨2, .node (.step (.null 1) (sampleEntry 5) (.last (sampleLeaf [9])))⟩,
    by decide, by decide, by decide, by decide, by decide, by decide, by decide, ?_⟩
  rintro ⟨changes, reports, keys⟩
  have reported : [⟨none, some (sampleEntry 7), none⟩] = changes :=
    reports.eq_of_recorded 20 fun _ => rfl
  have lost := (keys.mem_iff [5]).mpr (by decide)
  rw [← reported] at lost
  exact absurd lost (by decide)

/-- The entries reported for a key are those of the three trees exactly when the key is
not hidden on a side and no deletion is mistaken for one at another key. -/
theorem forEachThreeWayDiff_entries_iff (wellFormed : WellFormed level read baseRoot base)
    (wellFormedLeft : WellFormed level read leftRoot left)
    (wellFormedRight : WellFormed level read rightRoot right)
    (trimmed : base.Shaped level.entryLevel .trimmed)
    (trimmedLeft : left.Shaped level.entryLevel .trimmed)
    (trimmedRight : right.Shaped level.entryLevel .trimmed) :
    ∃ states : List ThreeWayIterator,
      ReportsThreeWay read baseRoot leftRoot rightRoot (states.map (·.getCurrentDiff)) ∧
      (leftRoot = rightRoot ∧ states = [] ∨
        ∃ fuel start, ThreeWayIterator.init read fuel baseRoot leftRoot rightRoot [] = .ok start ∧
          ThreeWayIterator.Visits read start states) ∧
      ∀ state ∈ states, ∃ key, state.getCurrentDiff.key = some key ∧
        (state.getCurrentDiff = ⟨KeyedList.find Entry.key base.contents key,
            KeyedList.find Entry.key left.contents key,
            KeyedList.find Entry.key right.contents key⟩ ↔
          (¬HiddenBetween read baseRoot leftRoot key ∧ state.left.DeletionShown key
            (KeyedList.find Entry.key base.contents key).isSome) ∧
          (¬HiddenBetween read baseRoot rightRoot key ∧ state.right.DeletionShown key
            (KeyedList.find Entry.key base.contents key).isSome)) := by
  by_cases same : leftRoot = rightRoot
  · refine ⟨[], fun σ onNext state => ⟨0, fun fuel _ => ?_⟩, .inl ⟨same, rfl⟩, by simp⟩
    rw [forEachThreeWayDiff, if_pos same]
    rfl
  have listings := listings_below wellFormed wellFormedLeft wellFormedRight trimmed trimmedLeft
    trimmedRight
  obtain ⟨stops, run, visits, reports⟩ := forEachThreeWayDiff_run wellFormed wellFormedLeft
    wellFormedRight trimmed trimmedLeft trimmedRight same
  refine ⟨stops.map Prod.snd, ?_, .inr visits, fun state member => ?_⟩
  · rw [map_map]
    exact reports
  obtain ⟨stop, inStops, rfl⟩ := mem_map.mp member
  refine ⟨stop.1, (run.atKey listings inStops).key_eq, ?_⟩
  have entriesIff := run.getCurrentDiff_iff listings inStops
  simp only [lookup_below wellFormed, lookup_below wellFormedLeft, lookup_below wellFormedRight]
    at entriesIff
  exact entriesIff

theorem forEachThreeWayDiff_entries_iff_shared_leaf :
    let read : NodeReader := .ofNodes
      [(sampleIdentifier 1, ⟨0, [sampleEntry 3], [], by decide⟩),
        (sampleIdentifier 2, ⟨1, [sampleEntry 10], [(0, sampleIdentifier 1)], by decide⟩),
        (sampleIdentifier 3, ⟨1, [sampleEntry 20], [(0, sampleIdentifier 1)], by decide⟩)]
    ∃ states : List ThreeWayIterator,
      ReportsThreeWay read (sampleIdentifier 2) (sampleIdentifier 3) (sampleIdentifier 2)
        (states.map (·.getCurrentDiff)) ∧
      (sampleIdentifier 3 = sampleIdentifier 2 ∧ states = [] ∨
        ∃ fuel start, init read fuel (sampleIdentifier 2) (sampleIdentifier 3)
            (sampleIdentifier 2) [] = .ok start ∧ Visits read start states) ∧
      ∀ state ∈ states, ∃ key, state.getCurrentDiff.key = some key ∧
        (state.getCurrentDiff =
            ⟨KeyedList.find Entry.key [sampleEntry 3, sampleEntry 10] key,
              KeyedList.find Entry.key [sampleEntry 3, sampleEntry 20] key,
              KeyedList.find Entry.key [sampleEntry 3, sampleEntry 10] key⟩ ↔
          (¬HiddenBetween read (sampleIdentifier 2) (sampleIdentifier 3) key ∧
            state.left.DeletionShown key
              (KeyedList.find Entry.key [sampleEntry 3, sampleEntry 10] key).isSome) ∧
          (¬HiddenBetween read (sampleIdentifier 2) (sampleIdentifier 2) key ∧
            state.right.DeletionShown key
              (KeyedList.find Entry.key [sampleEntry 3, sampleEntry 10] key).isSome)) :=
  forEachThreeWayDiff_entries_iff
    (by decide : WellFormed sampleLevel _ _ (sampleTree (sampleLeaf [3]) 10))
    (by decide : WellFormed sampleLevel _ _ (sampleTree (sampleLeaf [3]) 20))
    (by decide : WellFormed sampleLevel _ _ (sampleTree (sampleLeaf [3]) 10))
    (by decide) (by decide) (by decide)

/-- The left tree has lost its only key, and its iterators are finished by then: the entry
of the base is reported as the left entry. -/
theorem forEachThreeWayDiff_deleted_entry :
    ∃ (level : NodeLevelCalculator) (read : NodeReader)
      (baseRoot leftRoot rightRoot : ObjectIdentifier) (base left right : LeveledTree Entry),
      WellFormed level read baseRoot base ∧ WellFormed level read leftRoot left ∧
        WellFormed level read rightRoot right ∧ base.Shaped level.entryLevel .trimmed ∧
        left.Shaped level.entryLevel .trimmed ∧ right.Shaped level.entryLevel .trimmed ∧
        ¬∃ changes, ReportsThreeWay read baseRoot leftRoot rightRoot changes ∧
          ∀ change ∈ changes, ∃ key, change.key = some key ∧
            change = ⟨KeyedList.find Entry.key base.contents key,
              KeyedList.find Entry.key left.contents key,
              KeyedList.find Entry.key right.contents key⟩ := by
  refine ⟨fun _ => 0, .ofNodes
      [(sampleIdentifier 1, ⟨0, [sampleEntry 9], [], by decide⟩),
        (sampleIdentifier 2, ⟨0, [], [], by decide⟩)],
    sampleIdentifier 1, sampleIdentifier 2, sampleIdentifier 1, ⟨1, sampleLeaf [9]⟩,
    ⟨1, sampleLeaf []⟩, ⟨1, sampleLeaf [9]⟩, by decide, by decide, by decide, by decide,
    by decide, by decide, ?_⟩
  rintro ⟨changes, reports, entries⟩
  have reported : [⟨some (sampleEntry 9), some (sampleEntry 9), some (sampleEntry 9)⟩] = changes :=
    reports.eq_of_recorded 20 fun _ => rfl
  obtain ⟨key, isKey, wrong⟩ := entries _ (reported ▸ mem_cons_self)
  obtain rfl : [9] = key := Option.some.inj isKey
  exact absurd wrong (by decide)

end ForEachThreeWayDiff

end Peridot
