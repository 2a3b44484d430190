import Mathlib.Data.List.GetD
import Mathlib.Data.List.ModifyLast
import Peridot.GreedyPages
import Peridot.PageChanges

/-!
# The messages of a page change

`PaginateChanges` walks over the entries and the deleted keys of a change with two indices.  Its
pages are those of the merged list.
-/

namespace Peridot

open List KeyedList GreedyPages PageChange EntryChange

namespace PageChange

def upserts (page : PageChange) : List EntryChange :=
  page.changes.map fun entry => ⟨entry, false⟩

def deletions (page : PageChange) : List EntryChange :=
  page.deletedKeys.map fun key => ⟨⟨key, default, .eager⟩, true⟩

def inOrder (page : PageChange) : List EntryChange :=
  List.merge page.upserts page.deletions fun entry deletion => entry.entry.key < deletion.entry.key

def size (limits : MessageLimits) (page : PageChange) : ℕ :=
  limits.pageChangeHeaderSize +
    (page.changes.map fun entry => limits.getEntrySize entry.key.length).sum +
    (page.deletedKeys.map fun key => limits.getByteArraySize key.length).sum

def handles (page : PageChange) : ℕ :=
  page.changes.length

def ofChanges (timestamp : Int64) (changes : List EntryChange) : PageChange :=
  changes.foldl add ⟨timestamp, [], []⟩

end PageChange

/-- The variables of the loop of `PaginateChanges`. -/
structure PaginationLoop where
  changes : List PageChange
  fidlSize : ℕ
  handleCount : ℕ
  i : ℕ
  j : ℕ

namespace PaginationLoop

/-- The variables before the loop; the sizes are `size_t` variables that are set to -1. -/
def start : PaginationLoop :=
  ⟨[], 2 ^ 64 - 1, 2 ^ 64 - 1, 0, 0⟩

def addEntry (entries : List Entry) (deletions : List Key) (loop : PaginationLoop) : Bool :=
  loop.i < entries.length ∧ (loop.j = deletions.length ∨
    (entries.getD loop.i default).key < deletions.getD loop.j default)

def nextChange (entries : List Entry) (deletions : List Key) (loop : PaginationLoop) :
    EntryChange :=
  if loop.addEntry entries deletions then ⟨entries.getD loop.i default, false⟩
  else ⟨⟨deletions.getD loop.j default, default, .eager⟩, true⟩

def makeRoom (limits : MessageLimits) (timestamp : Int64) (change : EntryChange)
    (loop : PaginationLoop) : PaginationLoop :=
  if loop.changes = [] ∨
      loop.fidlSize + change.entrySize limits > limits.maxInlineDataSize ∨
      loop.handleCount + change.entryHandleCount > limits.maxMessageHandles then
    { loop with
      changes := loop.changes ++ [⟨timestamp, [], []⟩]
      fidlSize := limits.pageChangeHeaderSize
      handleCount := 0 }
  else loop

def pushBack (limits : MessageLimits) (change : EntryChange) (loop : PaginationLoop) :
    PaginationLoop :=
  { loop with
    changes := loop.changes.modifyLast fun page => page.add change
    fidlSize := loop.fidlSize + change.entrySize limits
    handleCount := loop.handleCount + change.entryHandleCount }

def moveOn (isEntry : Bool) (loop : PaginationLoop) : PaginationLoop :=
  if isEntry then { loop with i := loop.i + 1 } else { loop with j := loop.j + 1 }

def turn (limits : MessageLimits) (timestamp : Int64) (entries : List Entry)
    (deletions : List Key) (loop : PaginationLoop) : PaginationLoop :=
  let change := loop.nextChange entries deletions
  ((loop.makeRoom limits timestamp change).pushBack limits change).moveOn
    (loop.addEntry entries deletions)

def run (limits : MessageLimits) (timestamp : Int64) (entries : List Entry)
    (deletions : List Key) : ℕ → PaginationLoop → Option (List PageChange)
  | 0, _ => none
  | turns + 1, loop =>
    if loop.i < entries.length ∨ loop.j < deletions.length then
      run limits timestamp entries deletions turns
        (loop.turn limits timestamp entries deletions)
    else some loop.changes

/-- `PaginateChanges`: each turn takes an entry or a deletion. The timestamp is kept in a
`size_t`. -/
def paginateChanges (limits : MessageLimits) (change : PageChange) : Option (List PageChange) :=
  run limits change.timestamp.toUInt64.toInt64 change.changes change.deletedKeys
    (change.changes.length + change.deletedKeys.length + 1) start

end PaginationLoop

def fitsMessage (limits : MessageLimits) (page : List EntryChange) (change : EntryChange) : Bool :=
  limits.pageChangeHeaderSize + (page.map (entrySize limits)).sum +
      change.entrySize limits ≤ limits.maxInlineDataSize ∧
    (page.map entryHandleCount).sum + change.entryHandleCount ≤
      limits.maxMessageHandles

namespace PageChange

variable {limits : MessageLimits} {timestamp : Int64} {changes : List EntryChange}
  {change : EntryChange}

theorem ofChanges_append (changes : List EntryChange) (change : EntryChange) :
    ofChanges timestamp (changes ++ [change]) = (ofChanges timestamp changes).add change := by
  simp [ofChanges]

theorem timestamp_ofChanges : (ofChanges timestamp changes).timestamp = timestamp := by
  induction changes using reverseRecOn with
  | nil => rfl
  | append_singleton changes change ih =>
    rw [ofChanges_append, add]
    split <;> exact ih

variable (timestamp changes) in
theorem upserts_ofChanges : (ofChanges timestamp changes).upserts =
    changes.filter fun change => !change.deleted := by
  induction changes using reverseRecOn with
  | nil => rfl
  | append_singleton changes change ih =>
    obtain ⟨entry, deleted⟩ := change
    rw [ofChanges_append, filter_append, ← ih]
    cases deleted <;> simp [add, upserts]

def IsSent (change : EntryChange) : Prop :=
  change.deleted = true → change = ⟨⟨change.entry.key, default, .eager⟩, true⟩

theorem deletions_ofChanges (areSent : ∀ change ∈ changes, IsSent change) :
    (ofChanges timestamp changes).deletions = changes.filter fun change => change.deleted := by
  induction changes using reverseRecOn with
  | nil => rfl
  | append_singleton changes change ih =>
    have isSent := areSent change (by simp)
    have isRest := ih fun other isOther => areSent other (by simp [isOther])
    obtain ⟨entry, deleted⟩ := change
    rw [ofChanges_append, filter_append, ← isRest]
    cases deleted with
    | false => simp [add, deletions]
    | true =>
      have isEntry : entry = ⟨entry.key, default, .eager⟩ := congrArg EntryChange.entry (isSent rfl)
      simp [add, deletions, ← isEntry]

theorem size_ofChanges : (ofChanges timestamp changes).size limits =
    limits.pageChangeHeaderSize + (changes.map (entrySize limits)).sum := by
  induction changes using reverseRecOn with
  | nil => rfl
  | append_singleton changes change ih =>
    obtain ⟨entry, deleted⟩ := change
    rw [ofChanges_append, map_append, sum_append, ← Nat.add_assoc, ← ih]
    cases deleted <;> simp [add, size, entrySize] <;> omega

theorem handles_ofChanges : (ofChanges timestamp changes).handles =
    (changes.map entryHandleCount).sum := by
  induction changes using reverseRecOn with
  | nil => rfl
  | append_singleton changes change ih =>
    obtain ⟨entry, deleted⟩ := change
    rw [ofChanges_append, map_append, sum_append, ← ih]
    cases deleted <;> simp [add, handles, entryHandleCount]

theorem merge_filter (sorted : Sorted (fun change : EntryChange => change.entry.key)
    changes) : merge (changes.filter fun change => !change.deleted)
        (changes.filter fun change => change.deleted)
        (fun entry deletion => entry.entry.key < deletion.entry.key) = changes := by
  induction changes with
  | nil => simp
  | cons change changes ih =>
    obtain ⟨isFirst, sortedRest⟩ := sorted_cons.mp sorted
    have merged := ih sortedRest
    cases isDeleted : change.deleted with
    | false =>
      simp only [filter_cons, isDeleted, Bool.not_false, if_true, Bool.false_eq_true, if_false]
      cases deletions : changes.filter fun change => change.deleted with
      | nil =>
        rw [deletions] at merged
        simpa using merged
      | cons deletion deletions' =>
        have inChanges : deletion ∈ changes := by
          have inFilter : deletion ∈ changes.filter fun change => change.deleted := by
            simp [deletions]
          exact (mem_filter.mp inFilter).1
        rw [deletions] at merged
        rw [cons_merge_cons_pos _ _ _ (by simpa using isFirst deletion inChanges), merged]
    | true =>
      simp only [filter_cons, isDeleted, Bool.not_true, if_true, Bool.false_eq_true, if_false]
      cases upserts : changes.filter fun change => !change.deleted with
      | nil =>
        rw [upserts] at merged
        simpa using merged
      | cons upsert upserts' =>
        have inChanges : upsert ∈ changes := by
          have inFilter : upsert ∈ changes.filter fun change => !change.deleted := by simp [upserts]
          exact (mem_filter.mp inFilter).1
        rw [upserts] at merged
        rw [cons_merge_cons_neg _ _ _ (by simpa using (isFirst upsert inChanges).le), merged]

theorem inOrder_ofChanges (areSent : ∀ change ∈ changes, IsSent change)
    (sorted : Sorted (fun change : EntryChange => change.entry.key) changes) :
    (ofChanges timestamp changes).inOrder = changes := by
  rw [inOrder, upserts_ofChanges, deletions_ofChanges areSent]
  exact merge_filter sorted

end PageChange

namespace PaginationLoop

variable {limits : MessageLimits} {timestamp : Int64} {entries : List Entry}
  {deletions : List Key} {loop : PaginationLoop}

section

variable (limits : MessageLimits) (timestamp : Int64)

theorem indices_makeRoom (change : EntryChange)
    (loop : PaginationLoop) : (loop.makeRoom limits timestamp change).i = loop.i ∧
      (loop.makeRoom limits timestamp change).j = loop.j := by
  unfold makeRoom
  split <;> exact ⟨rfl, rfl⟩

theorem turn_i (entries : List Entry) (deletions : List Key) (loop : PaginationLoop) :
    (loop.turn limits timestamp entries deletions).i =
      if loop.addEntry entries deletions then loop.i + 1 else loop.i := by
  have same := (indices_makeRoom limits timestamp (loop.nextChange entries deletions) loop).1
  simp only [turn, moveOn, pushBack]
  split <;> simp [same]

theorem turn_j (entries : List Entry) (deletions : List Key) (loop : PaginationLoop) :
    (loop.turn limits timestamp entries deletions).j =
      if loop.addEntry entries deletions then loop.j else loop.j + 1 := by
  have same := (indices_makeRoom limits timestamp (loop.nextChange entries deletions) loop).2
  simp only [turn, moveOn, pushBack]
  split <;> simp [same]

end

def rest (entries : List Entry) (deletions : List Key) (loop : PaginationLoop) :
    List EntryChange :=
  (⟨0, entries.drop loop.i, deletions.drop loop.j⟩ : PageChange).inOrder

variable (limits timestamp) in
theorem rest_eq (inRange : loop.j ≤ deletions.length)
    (goesOn : loop.i < entries.length ∨ loop.j < deletions.length) :
    loop.rest entries deletions = loop.nextChange entries deletions ::
      (loop.turn limits timestamp entries deletions).rest entries deletions := by
  rw [rest, rest, turn_i, turn_j, nextChange]
  cases isEntry : loop.addEntry entries deletions with
  | true =>
    obtain ⟨inEntries, isNext⟩ := of_decide_eq_true isEntry
    simp only [if_true, PageChange.inOrder, PageChange.upserts, PageChange.deletions]
    rw [drop_eq_getElem_cons inEntries, getD_eq_getElem _ _ inEntries, map_cons]
    rcases inRange.eq_or_lt with isEnd | inDeletions
    · simp [isEnd]
    · rw [drop_eq_getElem_cons inDeletions, map_cons]
      rw [getD_eq_getElem _ _ inEntries, getD_eq_getElem _ _ inDeletions] at isNext
      rw [cons_merge_cons_pos _ _ _ (decide_eq_true (isNext.resolve_left inDeletions.ne))]
  | false =>
    have notEntry := of_decide_eq_false isEntry
    rw [not_and] at notEntry
    have inDeletions : loop.j < deletions.length := by
      by_cases inEntries : loop.i < entries.length
      · have notEnd := fun isEnd => notEntry inEntries (.inl isEnd)
        omega
      · omega
    simp only [Bool.false_eq_true, if_false, PageChange.inOrder, PageChange.upserts,
      PageChange.deletions]
    rw [drop_eq_getElem_cons inDeletions, getD_eq_getElem _ _ inDeletions, map_cons]
    by_cases inEntries : loop.i < entries.length
    · have notLess := fun less => notEntry inEntries (.inr less)
      rw [getD_eq_getElem _ _ inEntries, getD_eq_getElem _ _ inDeletions] at notLess
      rw [drop_eq_getElem_cons inEntries, map_cons,
        cons_merge_cons_neg _ _ _ (by simpa using notLess)]
    · simp [drop_eq_nil_of_le (not_lt.mp inEntries)]

theorem rest_eq_nil (isOver : ¬(loop.i < entries.length ∨ loop.j < deletions.length)) :
    loop.rest entries deletions = [] := by
  have ends : entries.length ≤ loop.i ∧ deletions.length ≤ loop.j := by omega
  simp [rest, PageChange.inOrder, PageChange.upserts, PageChange.deletions,
    drop_eq_nil_of_le ends.1, drop_eq_nil_of_le ends.2]

variable (limits timestamp) in
theorem turn_j_le (inRange : loop.j ≤ deletions.length)
    (goesOn : loop.i < entries.length ∨ loop.j < deletions.length) :
    (loop.turn limits timestamp entries deletions).j ≤ deletions.length := by
  rw [turn_j]
  split
  · exact inRange
  · rename_i notEntry
    have isOver : ¬(loop.i < entries.length ∧ loop.j = deletions.length) := fun isEntry =>
      notEntry (decide_eq_true ⟨isEntry.1, .inl isEntry.2⟩)
    omega

/-- The last page has some changes, and the counters are its size and its handles. -/
structure OnPage (limits : MessageLimits) (timestamp : Int64) (done : List PageChange)
    (page : List EntryChange) (loop : PaginationLoop) : Prop where
  changes : loop.changes = done ++ [PageChange.ofChanges timestamp page]
  fidlSize : loop.fidlSize =
    limits.pageChangeHeaderSize + (page.map (entrySize limits)).sum
  handleCount : loop.handleCount = (page.map entryHandleCount).sum

variable {done : List PageChange} {page : List EntryChange}

theorem OnPage.pushBack (onPage : OnPage limits timestamp done page loop) (change : EntryChange)
    (isEntry : Bool) : OnPage limits timestamp done (page ++ [change])
      ((loop.pushBack limits change).moveOn isEntry) := by
  have pushed : OnPage limits timestamp done (page ++ [change]) (loop.pushBack limits change) := by
    refine ⟨?_, ?_, ?_⟩
    · simp only [PaginationLoop.pushBack, onPage.changes, modifyLast_concat, ofChanges_append]
    · simp [PaginationLoop.pushBack, onPage.fidlSize, Nat.add_assoc]
    · simp [PaginationLoop.pushBack, onPage.handleCount]
  cases isEntry
  · exact ⟨pushed.changes, pushed.fidlSize, pushed.handleCount⟩
  · exact ⟨pushed.changes, pushed.fidlSize, pushed.handleCount⟩

variable (loop) in
theorem onPage_makeRoom (change : EntryChange) (isFull : loop.changes = [] ∨
      loop.fidlSize + change.entrySize limits > limits.maxInlineDataSize ∨
      loop.handleCount + change.entryHandleCount > limits.maxMessageHandles) :
    OnPage limits timestamp loop.changes [] (loop.makeRoom limits timestamp change) := by
  rw [makeRoom, if_pos isFull]
  exact ⟨rfl, rfl, rfl⟩

section

variable (onPage : OnPage limits timestamp done page loop)
include onPage

theorem OnPage.fits_iff (change : EntryChange) :
    fitsMessage limits page change = true ↔ ¬(loop.changes = [] ∨
      loop.fidlSize + change.entrySize limits > limits.maxInlineDataSize ∨
      loop.handleCount + change.entryHandleCount > limits.maxMessageHandles) := by
  rw [onPage.fidlSize, onPage.handleCount, onPage.changes]
  simp [fitsMessage]

theorem OnPage.run {turns : ℕ} (inRange : loop.j ≤ deletions.length)
    (enough : (loop.rest entries deletions).length < turns) :
    run limits timestamp entries deletions turns loop =
      some (done ++ (pagesFrom (fitsMessage limits) page
        (loop.rest entries deletions)).map (ofChanges timestamp)) := by
  induction turns generalizing loop done page with
  | zero => exact absurd enough (Nat.not_lt_zero _)
  | succ turns ih =>
    rw [run]
    by_cases goesOn : loop.i < entries.length ∨ loop.j < deletions.length
    · have isRest := rest_eq limits timestamp inRange goesOn
      have inRangeNext := turn_j_le limits timestamp inRange goesOn
      rw [isRest, length_cons] at enough
      rw [if_pos goesOn, isRest, pagesFrom]
      have fits := onPage.fits_iff (loop.nextChange entries deletions)
      split
      · rename_i itFits
        have stays : loop.makeRoom limits timestamp (loop.nextChange entries deletions) = loop :=
          if_neg (fits.mp itFits)
        have next : OnPage limits timestamp done (page ++ [loop.nextChange entries deletions])
            (loop.turn limits timestamp entries deletions) := by
          simp only [turn, stays]
          exact onPage.pushBack _ _
        exact ih next inRangeNext (by omega)
      · rename_i notFits
        have next : OnPage limits timestamp loop.changes [loop.nextChange entries deletions]
            (loop.turn limits timestamp entries deletions) :=
          (onPage_makeRoom loop _ (not_not.mp (mt fits.mpr notFits))).pushBack _ _
        refine (ih next inRangeNext (by omega)).trans ?_
        rw [onPage.changes, map_cons, append_assoc, singleton_append]
    · rw [if_neg goesOn, rest_eq_nil goesOn, onPage.changes]
      rfl

end

theorem paginateChanges_eq (change : PageChange) : paginateChanges limits change =
    some ((pages (fitsMessage limits) change.inOrder).map (ofChanges change.timestamp)) := by
  have isRest : start.rest change.changes change.deletedKeys = change.inOrder := rfl
  have inRange : start.j ≤ change.deletedKeys.length := Nat.zero_le _
  rw [paginateChanges, Int64.toInt64_toUInt64, run]
  by_cases goesOn : start.i < change.changes.length ∨ start.j < change.deletedKeys.length
  · rw [if_pos goesOn, ← isRest, rest_eq limits change.timestamp inRange goesOn]
    have first : OnPage limits change.timestamp []
        [start.nextChange change.changes change.deletedKeys]
        (start.turn limits change.timestamp change.changes change.deletedKeys) :=
      (onPage_makeRoom start _ (.inl rfl)).pushBack _ _
    refine first.run (turn_j_le limits change.timestamp inRange goesOn) ?_
    have whole := congrArg length (rest_eq limits change.timestamp inRange goesOn)
    rw [isRest, PageChange.inOrder, length_merge, PageChange.upserts, PageChange.deletions,
      length_map, length_map, length_cons] at whole
    rw [whole]
    exact Nat.lt_succ_self _
  · rw [if_neg goesOn, ← isRest, rest_eq_nil goesOn]
    rfl

end PaginationLoop

variable {limits : MessageLimits} {timestamp : Int64}

theorem interleave_eq_merge (entries deletions : List EntryChange) :
    interleave entries deletions =
      List.merge entries deletions fun entry deletion => entry.entry.key < deletion.entry.key := by
  induction entries generalizing deletions with
  | nil => simp [interleave]
  | cons entry entries ih =>
    induction deletions with
    | nil => simp [interleave, ih]
    | cons deletion deletions ihDeletions =>
      by_cases less : entry.entry.key < deletion.entry.key
      · rw [cons_merge_cons_pos _ _ _ (decide_eq_true less), interleave, ih]
        simp [less]
      · rw [cons_merge_cons_neg _ _ _ (by simpa using less), ← ihDeletions, interleave, interleave,
          takeWhile_cons_of_pos (by simpa using less), dropWhile_cons_of_pos (by simpa using less)]
        rfl

theorem pages_foldl_addChange (items : List EntryChange) (finished : List PageChange)
    (page : List EntryChange) :
    (items.foldl (Pagination.addChange limits timestamp)
      ⟨finished, some (ofChanges timestamp page),
        limits.pageChangeHeaderSize + (page.map (entrySize limits)).sum,
        (page.map entryHandleCount).sum⟩).pages =
      finished ++ (pagesFrom (fitsMessage limits) page items).map (ofChanges timestamp) := by
  induction items generalizing finished page with
  | nil => rfl
  | cons item items ih =>
    rw [foldl_cons, pagesFrom]
    simp only [Pagination.addChange, gt_iff_lt, ← not_le, ← not_and_or]
    by_cases itFits : fitsMessage limits page item
    · rw [if_pos itFits, ← ih, if_neg (not_not.mpr (of_decide_eq_true itFits))]
      simp [ofChanges_append, Nat.add_assoc]
    · have later := ih (finished ++ [ofChanges timestamp page]) [item]
      rw [if_neg itFits, if_pos (mt decide_eq_true itFits)]
      simpa [ofChanges] using later

/-- The loop with two indices makes the pages of `paginateChanges`. -/
theorem PaginationLoop.paginateChanges_eq_some (change : PageChange) :
    PaginationLoop.paginateChanges limits change =
      some (Peridot.paginateChanges limits change) := by
  rw [PaginationLoop.paginateChanges_eq, Peridot.paginateChanges, interleave_eq_merge,
    ← upserts, ← PageChange.deletions, ← inOrder]
  cases change.inOrder with
  | nil => rfl
  | cons item items =>
    have first := @pages_foldl_addChange limits change.timestamp items [] [item]
    simp only [map_singleton, sum_singleton, nil_append] at first
    exact congrArg some first.symm

section Pages

variable {change : PageChange}

/-- The pages hold each change once, in the order of the keys, and none is empty or too large for a
message unless it has one change. -/
structure Paginates (limits : MessageLimits) (change : PageChange) (pages : List PageChange) :
    Prop where
  inOrder : pages.flatMap PageChange.inOrder = change.inOrder
  sorted : KeyedList.Sorted (fun change : EntryChange => change.entry.key) change.inOrder
  complete : change.inOrder.Perm change.entryChanges
  timestamp : ∀ page ∈ pages, page.timestamp = change.timestamp
  fits : ∀ page ∈ pages, page.inOrder.length = 1 ∨
    page.size limits ≤ limits.maxInlineDataSize ∧ page.handles ≤ limits.maxMessageHandles
  notEmpty : ∀ page ∈ pages, page.inOrder ≠ []

variable {item : EntryChange}

theorem mem_inOrder : item ∈ change.inOrder ↔ item ∈ change.upserts ∨ item ∈ change.deletions :=
  mem_merge

theorem isSent_of_mem (isItem : item ∈ change.inOrder) : IsSent item := by
  intro isDeleted
  rcases mem_inOrder.mp isItem with isUpsert | isDeletion
  · obtain ⟨entry, -, rfl⟩ := mem_map.mp isUpsert
    cases isDeleted
  · obtain ⟨key, -, rfl⟩ := mem_map.mp isDeletion
    rfl

theorem sorted_inOrder (sortedChanges : Sorted Entry.key change.changes)
    (sortedKeys : Sorted id change.deletedKeys)
    (disjoint : ∀ entry ∈ change.changes, entry.key ∉ change.deletedKeys) :
    Sorted (fun change : EntryChange => change.entry.key) change.inOrder := by
  have upserts : Sorted (fun change : EntryChange => change.entry.key)
      change.upserts := pairwise_map.mpr sortedChanges
  have deletions : Sorted (fun change : EntryChange => change.entry.key)
      change.deletions := pairwise_map.mpr sortedKeys
  have differ : ∀ upsert ∈ change.upserts, ∀ deletion ∈ change.deletions,
      upsert.entry.key ≠ deletion.entry.key := by
    intro upsert isUpsert deletion isDeletion sameKey
    obtain ⟨entry, inChanges, rfl⟩ := mem_map.mp isUpsert
    obtain ⟨key, inKeys, rfl⟩ := mem_map.mp isDeletion
    exact disjoint entry inChanges (sameKey ▸ inKeys)
  unfold PageChange.inOrder
  generalize change.upserts = entries at upserts differ
  generalize change.deletions = deleted at deletions differ
  induction entries generalizing deleted with
  | nil => simpa using deletions
  | cons entry entries ih =>
    induction deleted with
    | nil => simpa using upserts
    | cons deletion deleted ihDeleted =>
      obtain ⟨isFirst, sortedEntries⟩ := sorted_cons.mp upserts
      obtain ⟨isFirstDeletion, sortedDeleted⟩ := sorted_cons.mp deletions
      by_cases less : entry.entry.key < deletion.entry.key
      · rw [cons_merge_cons_pos _ _ _ (decide_eq_true less)]
        apply sorted_cons.mpr
        constructor
        · intro other isOther
          rcases mem_merge.mp isOther with inEntries | inDeleted
          · exact isFirst other inEntries
          · rcases mem_cons.mp inDeleted with rfl | isLater
            · exact less
            · exact less.trans (isFirstDeletion other isLater)
        · exact ih sortedEntries (deletion :: deleted) deletions fun upsert isUpsert =>
            differ upsert (mem_cons_of_mem entry isUpsert)
      · have greater : deletion.entry.key < entry.entry.key :=
          lt_of_le_of_ne (not_lt.mp less) (differ entry (by simp) deletion (by simp)).symm
        rw [cons_merge_cons_neg _ _ _ (by simpa using less)]
        apply sorted_cons.mpr
        constructor
        · intro other isOther
          rcases mem_merge.mp isOther with inEntries | inDeleted
          · rcases mem_cons.mp inEntries with rfl | isLater
            · exact greater
            · exact greater.trans (isFirst other isLater)
          · exact isFirstDeletion other inDeleted
        · exact ihDeleted sortedDeleted fun upsert isUpsert other isOther =>
            differ upsert isUpsert other (mem_cons_of_mem deletion isOther)

/-- `PaginateChanges` on a change whose entries and deleted keys are in order. -/
theorem paginateChanges_spec (sortedChanges : KeyedList.Sorted Entry.key change.changes)
    (sortedKeys : KeyedList.Sorted id change.deletedKeys)
    (disjoint : ∀ entry ∈ change.changes, entry.key ∉ change.deletedKeys) :
    ∃ pages, PaginationLoop.paginateChanges limits change = some pages ∧
      Paginates limits change pages ∧ (change.entryChanges ≠ [] → pages ≠ []) := by
  have sorted := sorted_inOrder sortedChanges sortedKeys disjoint
  refine ⟨_, PaginationLoop.paginateChanges_eq change, ?_, ?_⟩
  · have blocks : ∀ block ∈ pages (fitsMessage limits) change.inOrder,
        (ofChanges change.timestamp block).inOrder = block := by
      intro block isBlock
      have isPart : block.Sublist change.inOrder := by
        have inAll := sublist_flatten_of_mem isBlock
        rwa [flatten_pages] at inAll
      exact inOrder_ofChanges
        (fun item inBlock => isSent_of_mem (isPart.subset inBlock))
        (sorted.sublist isPart)
    refine ⟨?_, sorted, merge_perm_append _, ?_, ?_, ?_⟩
    · rw [flatMap_map, flatMap_congr blocks, flatMap_id']
      exact flatten_pages (fitsMessage limits) change.inOrder
    · rintro page isPage
      obtain ⟨block, -, rfl⟩ := mem_map.mp isPage
      exact timestamp_ofChanges
    · rintro page isPage
      obtain ⟨block, isBlock, rfl⟩ := mem_map.mp isPage
      rw [blocks block isBlock]
      have isPositive := length_pos_iff.mpr (ne_nil_of_mem_pages isBlock)
      rcases filled_of_mem_pages isBlock with isShort | ⟨front, item, rfl, itFits⟩
      · exact .inl (by omega)
      · right
        have inLimits := of_decide_eq_true itFits
        rw [size_ofChanges, handles_ofChanges]
        simpa [Nat.add_assoc] using inLimits
    · rintro page isPage
      obtain ⟨block, isBlock, rfl⟩ := mem_map.mp isPage
      rw [blocks block isBlock]
      exact ne_nil_of_mem_pages isBlock
  · intro notEmpty noPage
    have isNil := pages_eq_nil.mp (map_eq_nil_iff.mp noPage)
    have isPerm : change.inOrder.Perm change.entryChanges := merge_perm_append _
    rw [isNil] at isPerm
    exact notEmpty isPerm.nil_eq.symm

theorem paginateChanges_spec_sample : ∃ pages, PaginationLoop.paginateChanges ⟨60, 1, 8⟩
      ⟨7, [⟨[1], default, .eager⟩, ⟨[3], default, .lazy⟩], [[2]]⟩ = some pages ∧
    Paginates ⟨60, 1, 8⟩ ⟨7, [⟨[1], default, .eager⟩, ⟨[3], default, .lazy⟩], [[2]]⟩ pages ∧
      (PageChange.entryChanges
        ⟨7, [⟨[1], default, .eager⟩, ⟨[3], default, .lazy⟩], [[2]]⟩ ≠ [] → pages ≠ []) :=
  paginateChanges_spec (by decide) (by decide) (by decide)

end Pages

end Peridot
