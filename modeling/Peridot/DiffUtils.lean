import Peridot.PaginatedChanges
import Peridot.PrefixScan

/-!
# Diffs in pages

`ComputePageChange` and `ComputeThreeWayDiff` of `diff_utils.cc` answer with the changes that fit in
a message, and with a token to go on.
-/

namespace Peridot

open List KeyedList GreedyPages PageChange EntryChange MessageLimits PageChangeContext

namespace DiffUtils

inductive DiffType where
  | full
  | conflicting
deriving DecidableEq

/-- `Value`; its content is named by the identifier of the object. -/
structure Value where
  objectIdentifier : ObjectIdentifier
  priority : KeyPriority

structure DiffEntry where
  key : Key
  base : Option Value
  left : Option Value
  right : Option Value

def getKey (change : ThreeWayChange) : Key :=
  match change.base, change.left, change.right with
  | some base, _, _ => base.key
  | none, some left, _ => left.key
  | none, none, some right => right.key
  | none, none, none => []

def getValueFromEntry (entry : Option Entry) : Option Value :=
  entry.map fun entry => ⟨entry.objectIdentifier, entry.priority⟩

def isMergeable (change : ThreeWayChange) : Bool :=
  change.base = change.left ∨ change.base = change.right ∨ change.left = change.right

def numberOfValues (change : ThreeWayChange) : ℕ :=
  change.base.isSome.toNat + change.left.isSome.toNat + change.right.isSome.toNat

/-- `diffentry_size`: the key, and a handle and an enumeration for each value. -/
def diffEntrySize (limits : MessageLimits) (change : ThreeWayChange) : ℕ :=
  limits.getByteArraySize (getKey change).length + numberOfValues change * (4 + 4)

def toDiffEntry (change : ThreeWayChange) : DiffEntry :=
  ⟨getKey change, getValueFromEntry change.base, getValueFromEntry change.left,
    getValueFromEntry change.right⟩

/-- `Context` of `ComputeThreeWayDiff`. -/
structure ThreeWayContext where
  changes : List DiffEntry
  fidlSize : ℕ
  handlesCount : ℕ
  nextToken : Key

/-- `on_next` of `ComputeThreeWayDiff`. -/
def ThreeWayContext.onNext (limits : MessageLimits) (prefixKey : Key) (diffType : DiffType)
    (context : ThreeWayContext) (change : ThreeWayChange) : ThreeWayContext × Bool :=
  if ¬matchesPrefix (getKey change) prefixKey then (context, false)
  else if context.fidlSize + diffEntrySize limits change > limits.maxInlineDataSize ∨
      context.handlesCount + numberOfValues change > limits.maxMessageHandles then
    ({ context with nextToken := getKey change }, false)
  else if diffType = .conflicting ∧ isMergeable change then (context, true)
  else
    (⟨context.changes ++ [toDiffEntry change], context.fidlSize + diffEntrySize limits change,
      context.handlesCount + numberOfValues change, context.nextToken⟩, true)

/-- `ComputeThreeWayDiff` where the storage reports the changes from a key on, with the values
resolved: the entries, if there are some, and the next token. -/
def computeThreeWayDiff (limits : MessageLimits) (changes : List ThreeWayChange)
    (prefixKey : Key) (diffType : DiffType) (minKey : Key) : Option (List DiffEntry) × Key :=
  let minKey := if minKey < prefixKey then prefixKey else minKey
  let context := (runUntil (ThreeWayContext.onNext limits prefixKey diffType)
    ⟨[], limits.arrayHeaderSize, 0, []⟩ (KeyedList.startingAt getKey minKey changes)).1
  if context.changes = [] then (none, []) else (some context.changes, context.nextToken)

/-- `ComputePageChange` where the storage reports the changes from a key on. -/
def computePageChange (limits : MessageLimits) (timestamp : Int64) (changes : List EntryChange)
    (prefixKey : Key) (behavior : PaginationBehavior) (minKey : Key) : Option PageChange × Key :=
  let minKey := if minKey < prefixKey then prefixKey else minKey
  Peridot.computePageChange limits timestamp prefixKey behavior
    (KeyedList.startingAt (fun change => change.entry.key) minKey changes)

def goesOn {β : Type} (answer : β × Key) : β × Option Key :=
  (answer.1, if answer.2 = [] then none else some answer.2)

def listed (answer : Option PageChange) : List (Key × Option Entry) :=
  answer.toList.flatMap fun page => page.inOrder.map EntryChange.effect

def ListsPageChange (limits : MessageLimits) (timestamp : Int64) (changes : List EntryChange)
    (prefixKey minKey : Key) : Prop :=
  ∃ calls answers,
    follow (fun minKey => goesOn (computePageChange limits timestamp changes prefixKey .bySize
      minKey)) calls minKey = some answers ∧
    answers.flatMap listed =
      (under (fun change => change.entry.key) prefixKey minKey changes).map EntryChange.effect

/-- Following the tokens of `ComputeThreeWayDiff` lists the changes, or those that both sides have
changed differently. -/
def ListsThreeWayDiff (limits : MessageLimits) (changes : List ThreeWayChange) (prefixKey : Key)
    (diffType : DiffType) (minKey : Key) : Prop :=
  ∃ calls answers,
    follow (fun minKey => goesOn (computeThreeWayDiff limits changes prefixKey diffType minKey))
      calls minKey = some answers ∧
    answers.flatMap (fun answer => answer.toList.flatten) =
      ((under getKey prefixKey minKey changes).filter fun change => diffType = .full ∨
        change.base ≠ change.left ∧ change.base ≠ change.right ∧
          change.left ≠ change.right).map toDiffEntry

/-- Following the tokens lists each of the differences once, in pages that fit. -/
structure ListsDiffs (limits : MessageLimits) (timestamp : Int64) (changes : List EntryChange)
    (threeWayChanges : List ThreeWayChange) (prefixKey minKey : Key) : Prop where
  pageChange : ListsPageChange limits timestamp changes prefixKey minKey
  threeWayFull : ListsThreeWayDiff limits threeWayChanges prefixKey .full minKey
  threeWayConflicting : ListsThreeWayDiff limits threeWayChanges prefixKey .conflicting minKey

def kMaxKeySize : ℕ :=
  256

/-- A message has room for each change of a key of the maximal size. -/
structure Roomy (limits : MessageLimits) : Prop where
  size : limits.pageChangeHeaderSize + limits.getEntrySize kMaxKeySize ≤ limits.maxInlineDataSize
  handles : 3 ≤ limits.maxMessageHandles

/-- Where the changes under the prefix are cut into messages, each message that is full has an
entry. -/
def FullPagesHaveEntries (limits : MessageLimits) (changes : List EntryChange)
    (prefixKey minKey : Key) : Prop :=
  ∀ page ∈ (GreedyPages.pages (fitsMessage limits)
      (under (fun change => change.entry.key) prefixKey minKey changes)).dropLast,
    ∃ change ∈ page, change.deleted = false
deriving Decidable

end DiffUtils

namespace DiffUtils

/-- A diff is read from the larger one of the two keys on. -/
theorem startKey_eq {prefixKey minKey : Key} :
    (if minKey < prefixKey then prefixKey else minKey) = max prefixKey minKey := by
  split
  · rename_i below
    exact (max_eq_left below.le).symm
  · rename_i notBelow
    exact (max_eq_right (not_lt.mp notBelow)).symm

/-- A client stops where the reader stops, or where nothing is left: a key that is left out behind
another one is not empty. -/
theorem goesOn_next {α β : Type} (key : α → Key) (stops : List α → Bool) {items : List α}
    {answer : β} {fits : List α → α → Bool} (sorted : Sorted key items)
    (stopsEmpty : stops [] = true) : (goesOn (answer, if stops (firstPage fits items).1 then []
        else ((firstPage fits items).2.head?.map key).getD [])).2 =
      if stops (firstPage fits items).1 then none
      else (firstPage fits items).2.head?.map fun item => id (key item) := by
  have whole := firstPage_append fits items
  generalize firstPage fits items = pageAndRest at whole ⊢
  obtain ⟨page, rest⟩ := pageAndRest
  by_cases isStop : stops page = true
  · simp [goesOn, isStop]
  · cases rest with
    | nil => simp [goesOn, isStop]
    | cons item rest =>
      rw [← whole] at sorted
      have notFirst : key item ≠ [] := by
        apply key_ne_nil_of_left sorted
        rintro rfl
        exact isStop stopsEmpty
      simp [goesOn, isStop, notFirst]

section PageChanges

variable {limits : MessageLimits} {timestamp : Int64} {changes : List EntryChange}
  {prefixKey minKey : Key}

theorem reportChanges_eq {σ : Type} (onNext : σ → EntryChange → σ × Bool) (state : σ) :
    reportChanges onNext state changes = (runUntil onNext state changes).1 := by
  induction changes generalizing state with
  | nil => rfl
  | cons change changes ih =>
    rw [reportChanges, runUntil]
    cases goes : (onNext state change).2
    · simp [goes]
    · simpa [goes] using ih _

def pageContext (limits : MessageLimits) (timestamp : Int64) (page : List EntryChange) :
    PageChangeContext :=
  ⟨PageChange.ofChanges timestamp page,
    limits.pageChangeHeaderSize + (page.map (EntryChange.entrySize limits)).sum,
    (page.map EntryChange.entryHandleCount).sum, []⟩

variable (limits timestamp prefixKey minKey) in
theorem reportChanges_fill (sorted : Sorted (fun change => change.entry.key) changes) :
    reportChanges (onNext limits prefixKey .bySize)
        (pageContext limits timestamp [])
        (startingAt (fun change => change.entry.key) (max prefixKey minKey) changes) =
      filled (pageContext limits timestamp)
        (fun page change => { pageContext limits timestamp page with
          nextToken := change.entry.key })
        (fill (fitsMessage limits) []
          (under (fun change => change.entry.key) prefixKey minKey changes)) := by
  rw [reportChanges_eq, ← startingAt_max_filter, ← takeWhile_startingAt sorted (le_max_left _ _)]
  have fits : ∀ (page : List EntryChange) (change : EntryChange),
      fitsMessage limits page change = true ↔
        ¬((pageContext limits timestamp page).fidlSize + change.entrySize limits >
            limits.maxInlineDataSize ∨
          (pageContext limits timestamp page).handlesCount + change.entryHandleCount >
            limits.maxMessageHandles) := by
    simp [fitsMessage, pageContext]
  apply runUntil_fill
  · intro page change noMatch
    simp [onNext, noMatch]
  · intro page change isMatch itFits
    have inLimits := (fits page change).mp itFits
    rw [onNext, if_neg (by simp [isMatch]),
      if_neg fun isFull => inLimits isFull.2]
    simp [pageContext, ofChanges_append, Nat.add_assoc]
  · intro page change isMatch notFits
    have isFull := not_not.mp (mt (fits page change).mpr (by simp [notFits]))
    rw [onNext, if_neg (by simp [isMatch]), if_pos ⟨rfl, isFull⟩]

/-- The keys are as short as those of a page are. -/
def ShortKeys {α : Type} (key : α → Key) (changes : List α) : Prop :=
  ∀ change ∈ changes, (key change).length ≤ kMaxKeySize

theorem fitsMessage_alone (roomy : Roomy limits) {change : EntryChange}
    (short : change.entry.key.length ≤ kMaxKeySize) : fitsMessage limits [] change = true := by
  have hasRoom := roomy.size
  have hasHandles := roomy.handles
  simp only [fitsMessage, entrySize, entryHandleCount,
    getByteArraySize, getEntrySize, map_nil, sum_nil,
    decide_eq_true_eq] at hasRoom ⊢
  constructor <;> split <;> omega

variable {page : List EntryChange}

theorem changes_ofChanges_eq_nil :
    (ofChanges timestamp page).changes = [] ↔ page.all deleted = true := by
  have isUpserts := upserts_ofChanges timestamp page
  rw [← List.map_eq_nil_iff (f := fun entry => (⟨entry, false⟩ : EntryChange))]
  change (ofChanges timestamp page).upserts = [] ↔ _
  rw [isUpserts]
  simp [filter_eq_nil_iff]

theorem deletedKeys_ofChanges : (ofChanges timestamp page).deletedKeys =
    (page.filter deleted).map fun change => change.entry.key := by
  induction page using reverseRecOn with
  | nil => rfl
  | append_singleton changes change ih =>
    obtain ⟨entry, deleted⟩ := change
    rw [ofChanges_append, filter_append, map_append, ← ih]
    cases deleted <;> simp [add]

def pageAnswer (timestamp : Int64) (page : List EntryChange) : Option PageChange :=
  if page = [] then none else some (PageChange.ofChanges timestamp page)

theorem computePageChange_eq (sorted : Sorted (fun change => change.entry.key) changes) :
    computePageChange limits timestamp changes prefixKey .bySize minKey =
      let parts := fill (fitsMessage limits) []
        (under (fun change => change.entry.key) prefixKey minKey changes)
      (pageAnswer timestamp parts.1, if parts.1.all deleted then []
        else (parts.2.head?.map fun change => change.entry.key).getD []) := by
  have isFilled := reportChanges_fill limits timestamp prefixKey minKey sorted
  have isEmpty : pageContext limits timestamp [] =
    ⟨⟨timestamp, [], []⟩, limits.pageChangeHeaderSize, 0, []⟩ := rfl
  rw [isEmpty] at isFilled
  simp only [computePageChange, Peridot.computePageChange, startKey_eq, isFilled]
  generalize fill (fitsMessage limits) [] _ = parts
  obtain ⟨page, rest⟩ := parts
  have isPage : ∀ context : PageChangeContext, context.pageChange = ofChanges timestamp page →
      (if context.pageChange.changes = [] then
          if context.pageChange.deletedKeys = [] then (none, [])
          else (some context.pageChange, [])
        else (some context.pageChange, context.nextToken)) =
      ((pageAnswer timestamp page, if page.all deleted then [] else
        context.nextToken) : Option PageChange × Key) := by
    intro context isContext
    rw [isContext]
    by_cases allDeleted : page.all deleted = true
    · rw [if_pos (changes_ofChanges_eq_nil.mpr allDeleted), if_pos allDeleted,
        deletedKeys_ofChanges, filter_eq_self.mpr (by simpa using allDeleted), pageAnswer]
      simp only [List.map_eq_nil_iff]
      split <;> rfl
    · have notEmpty : page ≠ [] := by
        rintro rfl
        exact allDeleted rfl
      rw [if_neg (mt changes_ofChanges_eq_nil.mp allDeleted), if_neg allDeleted, pageAnswer,
        if_neg notEmpty]
  cases rest with
  | nil => exact isPage (pageContext limits timestamp page) rfl
  | cons change rest => exact isPage { pageContext limits timestamp page with
      nextToken := change.entry.key } rfl

variable (timestamp prefixKey) in
/-- `ComputePageChange` is a reader of pages that stops at a page without an entry. -/
theorem reads_pageChange (roomy : Roomy limits)
    (sorted : Sorted (fun change => change.entry.key) changes)
    (short : ShortKeys (fun change => change.entry.key) changes) :
    Reads (fitsMessage limits) (fun change : EntryChange => change.entry.key)
      (changes.filter fun change => matchesPrefix change.entry.key prefixKey)
      (max prefixKey) id (pageAnswer timestamp) (fun page => page.all deleted)
      (fun minKey => goesOn (computePageChange limits timestamp changes prefixKey .bySize
        minKey)) := by
  have parts : ∀ minKey, fill (fitsMessage limits) []
      (under (fun change => change.entry.key) prefixKey minKey changes) =
      firstPage (fitsMessage limits)
        (startingAt (fun change => change.entry.key) (max prefixKey minKey)
          (changes.filter fun change => matchesPrefix change.entry.key prefixKey)) := by
    intro minKey
    rw [startingAt_max_filter]
    exact fill_nil_eq_firstPage fun change isChange =>
      fitsMessage_alone roomy (short change (under_subset isChange))
  constructor
  · exact sorted_filter sorted _
  · intro change isChange
    exact max_eq_right_of_matchesPrefix (mem_filter.mp isChange).2
  · intro minKey
    rw [goesOn, computePageChange_eq sorted, parts]
  · intro minKey
    rw [computePageChange_eq sorted, parts]
    apply goesOn_next (fun change : EntryChange => change.entry.key)
      fun page => page.all deleted
    · exact sorted_filter (sorted_filter sorted _) _
    · rfl

def sent (change : EntryChange) : EntryChange :=
  if change.deleted then ⟨⟨change.entry.key, default, .eager⟩, true⟩ else change

theorem key_sent (change : EntryChange) : (sent change).entry.key = change.entry.key := by
  unfold sent
  split <;> rfl

theorem effect_sent (change : EntryChange) : (sent change).effect = change.effect := by
  obtain ⟨entry, deleted⟩ := change
  cases deleted <;> rfl

theorem ofChanges_map_sent (page : List EntryChange) :
    ofChanges timestamp (page.map sent) = ofChanges timestamp page := by
  induction page using reverseRecOn with
  | nil => rfl
  | append_singleton page change ih =>
    obtain ⟨entry, deleted⟩ := change
    rw [map_append, map_cons, map_nil, ofChanges_append, ofChanges_append, ih]
    cases deleted <;> rfl

theorem listed_pageAnswer (sorted : Sorted (fun change => change.entry.key) page) :
    listed (pageAnswer timestamp page) = page.map effect := by
  unfold pageAnswer
  split
  · simp_all [listed]
  · have areSent : ∀ change ∈ page.map sent, IsSent change := by
      intro change isChange isDeleted
      obtain ⟨before, -, rfl⟩ := mem_map.mp isChange
      obtain ⟨entry, deleted⟩ := before
      cases deleted with
      | false => cases isDeleted
      | true => rfl
    have sortedSent : Sorted (fun change : EntryChange => change.entry.key)
        (page.map sent) := by
      apply pairwise_map.mpr
      exact List.Pairwise.imp (fun less => by simpa only [key_sent] using less) sorted
    rw [listed, Option.toList_some, flatMap_singleton, ← ofChanges_map_sent,
      inOrder_ofChanges areSent sortedSent, map_map]
    exact map_congr_left fun change _ => effect_sent change

variable (timestamp) in
theorem listsPageChange_iff (roomy : Roomy limits)
    (sorted : Sorted (fun change => change.entry.key) changes)
    (short : ShortKeys (fun change => change.entry.key) changes) :
    ListsPageChange limits timestamp changes prefixKey minKey ↔
      FullPagesHaveEntries limits changes prefixKey minKey := by
  obtain ⟨calls, followed⟩ :=
    (reads_pageChange timestamp prefixKey roomy sorted short).follow minKey
  rw [startingAt_max_filter] at followed
  have sortedUnder : Sorted (fun change : EntryChange => change.entry.key)
      (under (fun change => change.entry.key) prefixKey minKey changes) := sorted_under _ _ sorted
  unfold FullPagesHaveEntries ListsPageChange
  generalize under (fun change : EntryChange => change.entry.key) prefixKey minKey changes =
    visible at followed sortedUnder
  have isListed : ∀ pages : List (List EntryChange), pages.flatten.Sublist visible →
      (pages.map (pageAnswer timestamp)).flatMap listed = pages.flatten.map effect := by
    intro pages isPart
    rw [flatMap_map, map_flatten, flatMap_def]
    refine congrArg flatten (map_congr_left fun page isPage => ?_)
    exact listed_pageAnswer (sortedUnder.sublist ((sublist_flatten_of_mem isPage).trans isPart))
  have goesOnIff : ∀ page : List EntryChange, page.all deleted = false ↔
      ∃ change ∈ page, change.deleted = false := by
    simp
  simp only [← goesOnIff]
  by_cases nothing : visible = []
  · subst nothing
    refine iff_of_true ⟨calls, _, followed, ?_⟩ (by simp [pages])
    simp [readPages, upTo, pageAnswer, listed]
  · rw [readPages, if_neg nothing] at followed
    have isPart : (upTo (fun page => page.all deleted)
        (pages (fitsMessage limits) visible)).flatten.Sublist visible := by
      obtain ⟨rest, isWhole⟩ := upTo_isPrefix
        (fun page : List EntryChange => page.all deleted)
        (pages (fitsMessage limits) visible)
      have whole := congrArg flatten isWhole
      rw [flatten_append, flatten_pages] at whole
      exact List.IsPrefix.sublist ⟨rest.flatten, whole⟩
    rw [← length_flatten_upTo_eq_iff fun page => ne_nil_of_mem_pages, flatten_pages]
    constructor
    · rintro ⟨others, answers, isFollowed, isAll⟩
      obtain rfl := follow_unique isFollowed followed
      rw [isListed _ isPart] at isAll
      have sameLength := congrArg length isAll
      rwa [length_map, length_map] at sameLength
    · intro sameLength
      refine ⟨calls, _, followed, ?_⟩
      rw [isListed _ isPart, isPart.eq_of_length sameLength]

end PageChanges

section ThreeWay

variable {limits : MessageLimits} {changes : List ThreeWayChange} {prefixKey minKey : Key}
  {diffType : DiffType}

def isWanted (diffType : DiffType) (change : ThreeWayChange) : Bool :=
  diffType = .full || !isMergeable change

variable {change : ThreeWayChange}

theorem isWanted_iff : isWanted diffType change = true ↔ diffType = .full ∨
    change.base ≠ change.left ∧ change.base ≠ change.right ∧ change.left ≠ change.right := by
  simp [isWanted, isMergeable]

theorem isWanted_eq_false :
    isWanted diffType change = false ↔ diffType = .conflicting ∧ isMergeable change = true := by
  cases diffType <;> simp [isWanted]

def fitsThreeWay (limits : MessageLimits) (diffType : DiffType) (page : List ThreeWayChange)
    (change : ThreeWayChange) : Bool :=
  limits.arrayHeaderSize +
      ((page.filter (isWanted diffType)).map (diffEntrySize limits)).sum +
      diffEntrySize limits change ≤ limits.maxInlineDataSize ∧
    ((page.filter (isWanted diffType)).map numberOfValues).sum + numberOfValues change ≤
      limits.maxMessageHandles

def threeWayContext (limits : MessageLimits) (diffType : DiffType) (page : List ThreeWayChange) :
    ThreeWayContext :=
  ⟨(page.filter (isWanted diffType)).map toDiffEntry, limits.arrayHeaderSize +
      ((page.filter (isWanted diffType)).map (diffEntrySize limits)).sum,
    ((page.filter (isWanted diffType)).map numberOfValues).sum, []⟩

def sendsNothing (diffType : DiffType) (page : List ThreeWayChange) : Bool :=
  (page.filter (isWanted diffType)).isEmpty

def threeWayAnswer (diffType : DiffType) (page : List ThreeWayChange) : Option (List DiffEntry) :=
  if page.filter (isWanted diffType) = [] then none
  else some ((page.filter (isWanted diffType)).map toDiffEntry)

theorem toList_threeWayAnswer (page : List ThreeWayChange) :
    (threeWayAnswer diffType page).toList.flatten =
      (page.filter (isWanted diffType)).map toDiffEntry := by
  unfold threeWayAnswer
  split
  · simp_all
  · simp

theorem fitsThreeWay_alone (roomy : Roomy limits) {page : List ThreeWayChange}
    (nothing : page.filter (isWanted diffType) = [])
    (short : (getKey change).length ≤ kMaxKeySize) :
    fitsThreeWay limits diffType page change = true := by
  have hasRoom := roomy.size
  have hasHandles := roomy.handles
  have fewValues : numberOfValues change ≤ 3 := by
    have toNatLe : ∀ value : Bool, value.toNat ≤ 1 := by decide
    have inBase := toNatLe change.base.isSome
    have inLeft := toNatLe change.left.isSome
    have inRight := toNatLe change.right.isSome
    rw [numberOfValues]
    omega
  simp only [pageChangeHeaderSize, getEntrySize] at hasRoom
  simp only [fitsThreeWay, diffEntrySize, getByteArraySize, nothing, map_nil,
    sum_nil, decide_eq_true_eq]
  omega

variable (limits prefixKey minKey diffType) in
theorem runUntil_threeWay (sorted : Sorted getKey changes) :
    (runUntil (ThreeWayContext.onNext limits prefixKey diffType)
        (threeWayContext limits diffType []) (startingAt getKey (max prefixKey minKey) changes)).1 =
      filled (threeWayContext limits diffType)
        (fun page change => { threeWayContext limits diffType page with
          nextToken := getKey change })
        (fill (fitsThreeWay limits diffType) [] (under getKey prefixKey minKey changes)) := by
  rw [← startingAt_max_filter, ← takeWhile_startingAt sorted (le_max_left _ _)]
  have fits : ∀ (page : List ThreeWayChange) (change : ThreeWayChange),
      fitsThreeWay limits diffType page change = true ↔
        ¬((threeWayContext limits diffType page).fidlSize + diffEntrySize limits change >
            limits.maxInlineDataSize ∨
          (threeWayContext limits diffType page).handlesCount + numberOfValues change >
            limits.maxMessageHandles) := by
    simp [fitsThreeWay, threeWayContext]
  apply runUntil_fill
  · intro page change noMatch
    simp [ThreeWayContext.onNext, noMatch]
  · intro page change isMatch itFits
    rw [ThreeWayContext.onNext, if_neg (by simp [isMatch]), if_neg ((fits page change).mp itFits)]
    cases wanted : isWanted diffType change with
    | false =>
      rw [if_pos (isWanted_eq_false.mp wanted)]
      simp [threeWayContext, wanted]
    | true =>
      rw [if_neg fun notSent => by simp [isWanted_eq_false.mpr notSent] at wanted]
      simp [threeWayContext, wanted, Nat.add_assoc]
  · intro page change isMatch notFits
    have isFull := not_not.mp (mt (fits page change).mpr (by simp [notFits]))
    rw [ThreeWayContext.onNext, if_neg (by simp [isMatch]), if_pos isFull]

theorem computeThreeWayDiff_eq (sorted : Sorted getKey changes) :
    computeThreeWayDiff limits changes prefixKey diffType minKey =
      let parts := fill (fitsThreeWay limits diffType) [] (under getKey prefixKey minKey changes)
      (threeWayAnswer diffType parts.1, if sendsNothing diffType parts.1 then []
        else (parts.2.head?.map getKey).getD []) := by
  have isFilled := runUntil_threeWay limits prefixKey minKey diffType sorted
  have isEmpty : threeWayContext limits diffType [] = ⟨[], limits.arrayHeaderSize, 0, []⟩ := rfl
  rw [isEmpty] at isFilled
  simp only [computeThreeWayDiff, startKey_eq, isFilled]
  generalize fill (fitsThreeWay limits diffType) [] _ = parts
  obtain ⟨page, rest⟩ := parts
  have isPage : ∀ token : Key,
      (if (page.filter (isWanted diffType)).map toDiffEntry = [] then (none, [])
        else (some ((page.filter (isWanted diffType)).map toDiffEntry), token)) =
      (threeWayAnswer diffType page, if sendsNothing diffType page then [] else token) := by
    intro token
    simp only [threeWayAnswer, List.map_eq_nil_iff, sendsNothing, List.isEmpty_iff]
    split <;> rfl
  cases rest with
  | nil => exact isPage []
  | cons change rest => exact isPage (getKey change)

variable (prefixKey diffType) in
/-- `ComputeThreeWayDiff` is a reader of pages that stops at a page of which nothing is sent. -/
theorem reads_threeWayDiff (roomy : Roomy limits) (sorted : Sorted getKey changes)
    (short : ShortKeys getKey changes) : Reads (fitsThreeWay limits diffType) getKey
      (changes.filter fun change => matchesPrefix (getKey change) prefixKey)
      (max prefixKey) id (threeWayAnswer diffType) (sendsNothing diffType)
      (fun minKey => goesOn (computeThreeWayDiff limits changes prefixKey diffType minKey)) := by
  have parts : ∀ minKey, fill (fitsThreeWay limits diffType) []
      (under getKey prefixKey minKey changes) =
      firstPage (fitsThreeWay limits diffType)
        (startingAt getKey (max prefixKey minKey)
          (changes.filter fun change => matchesPrefix (getKey change) prefixKey)) := by
    intro minKey
    rw [startingAt_max_filter]
    exact fill_nil_eq_firstPage fun change isChange =>
      fitsThreeWay_alone roomy rfl (short change (under_subset isChange))
  constructor
  · exact sorted_filter sorted _
  · intro change isChange
    exact max_eq_right_of_matchesPrefix (mem_filter.mp isChange).2
  · intro minKey
    rw [goesOn, computeThreeWayDiff_eq sorted, parts]
  · intro minKey
    rw [computeThreeWayDiff_eq sorted, parts]
    apply goesOn_next
    · exact sorted_filter (sorted_filter sorted _) _
    · rfl

/-- The pages of a three-way diff list the changes that are wanted: where one does not fit, another
one is sent. -/
theorem listsThreeWayDiff (roomy : Roomy limits) (sorted : Sorted getKey changes)
    (short : ShortKeys getKey changes) :
    ListsThreeWayDiff limits changes prefixKey diffType minKey := by
  obtain ⟨calls, followed⟩ :=
    (reads_threeWayDiff prefixKey diffType roomy sorted short).follow minKey
  rw [startingAt_max_filter] at followed
  have shortUnder : ∀ change ∈ under getKey prefixKey minKey changes,
      (getKey change).length ≤ kMaxKeySize :=
    fun change isChange => short change (under_subset isChange)
  unfold ListsThreeWayDiff
  generalize under getKey prefixKey minKey changes = visible at followed shortUnder
  refine ⟨calls, _, followed, ?_⟩
  have goesOnAll : ∀ page ∈ (readPages (fitsThreeWay limits diffType)
      visible).dropLast, sendsNothing diffType page = false := by
    intro page isPage
    unfold readPages at isPage
    split at isPage
    · simp at isPage
    · obtain ⟨change, isChange, notFits⟩ := not_fits_of_mem_dropLast isPage
      by_contra nothing
      rw [fitsThreeWay_alone roomy _ (shortUnder change isChange)] at notFits
      · cases notFits
      · simpa [sendsNothing] using nothing
  rw [upTo_eq_self goesOnAll, flatMap_map]
  simp only [toList_threeWayAnswer, ← isWanted_iff, Bool.decide_eq_true]
  conv_rhs => rw [← flatten_readPages (fitsThreeWay limits diffType) visible]
  rw [filter_flatten, map_flatten, map_map, flatMap_def]
  rfl

end ThreeWay

/-- Following the tokens lists the diffs if and only if each full message of the page change has an
entry: at one with deletions only the token is dropped. -/
theorem listsDiffs_iff {limits : MessageLimits} {timestamp : Int64} {changes : List EntryChange}
    {threeWayChanges : List ThreeWayChange} {prefixKey minKey : Key} (roomy : Roomy limits)
    (sorted : KeyedList.Sorted (fun change => change.entry.key) changes)
    (short : ShortKeys (fun change => change.entry.key) changes)
    (sortedThreeWay : KeyedList.Sorted getKey threeWayChanges)
    (shortThreeWay : ShortKeys getKey threeWayChanges) :
    ListsDiffs limits timestamp changes threeWayChanges prefixKey minKey ↔
      FullPagesHaveEntries limits changes prefixKey minKey := by
  rw [← listsPageChange_iff timestamp roomy sorted short]
  constructor
  · exact ListsDiffs.pageChange
  · intro listsPageChange
    exact ⟨listsPageChange, listsThreeWayDiff roomy sortedThreeWay shortThreeWay,
      listsThreeWayDiff roomy sortedThreeWay shortThreeWay⟩

/-- Two messages: there are too many values for one. -/
theorem listsDiffs_iff_sample :
    ListsDiffs ⟨1000, 3, 8⟩ 7 [⟨⟨[1], default, .lazy⟩, false⟩, ⟨⟨[2], default, .eager⟩, true⟩,
        ⟨⟨[3], default, .lazy⟩, false⟩, ⟨⟨[4], default, .lazy⟩, false⟩,
        ⟨⟨[5], default, .lazy⟩, false⟩, ⟨⟨[6], default, .eager⟩, true⟩]
      [⟨none, some ⟨[1], default, .lazy⟩, none⟩] [] [] := by
  apply (listsDiffs_iff ⟨by decide, by decide⟩ (by decide) _ (by decide) _).mpr
  · decide
  · simp [ShortKeys, kMaxKeySize]
  · simp [ShortKeys, getKey, kMaxKeySize]

/-- Deletions that need more than one message are not all listed. -/
theorem not_fullPagesHaveEntries {limits : MessageLimits} {changes : List EntryChange}
    {prefixKey minKey : Key} (areDeleted : ∀ change ∈ changes, change.deleted = true)
    (isMore : 1 < (under (fun change => change.entry.key) prefixKey minKey changes).length)
    (tooLarge : limits.maxInlineDataSize < limits.pageChangeHeaderSize +
      ((under (fun change => change.entry.key) prefixKey minKey changes).map
        (entrySize limits)).sum) : ¬FullPagesHaveEntries limits changes prefixKey minKey := by
  intro haveEntries
  unfold FullPagesHaveEntries at haveEntries
  have visibleDeleted : ∀ change ∈ under (fun change : EntryChange => change.entry.key) prefixKey
      minKey changes, change.deleted = true :=
    fun change isChange => areDeleted change (under_subset isChange)
  generalize under (fun change : EntryChange => change.entry.key) prefixKey minKey changes =
    visible at haveEntries isMore tooLarge visibleDeleted
  have isWhole := flatten_pages (fitsMessage limits) visible
  have isFilled : ∀ page ∈ pages (fitsMessage limits) visible, _ :=
    fun page isPage => filled_of_mem_pages isPage
  generalize pages (fitsMessage limits) visible = pages
    at haveEntries isWhole isFilled
  match pages with
  | [] =>
    rw [← isWhole] at isMore
    simp at isMore
  | [page] =>
    rw [flatten_singleton] at isWhole
    subst isWhole
    rcases isFilled page (by simp) with isOne | ⟨front, change, rfl, itFits⟩
    · omega
    · simp only [fitsMessage, decide_eq_true_eq] at itFits
      rw [map_append, sum_append, map_singleton, sum_singleton] at tooLarge
      omega
  | page :: second :: pages =>
    obtain ⟨change, isChange, notDeleted⟩ := haveEntries page (by simp)
    have isDeleted := visibleDeleted change (by
      rw [← isWhole]
      simp [isChange])
    exact absurd (notDeleted.symm.trans isDeleted) (by simp)

def longDeletion (first : Fin 256) : EntryChange :=
  ⟨⟨UInt8.ofFin first :: List.replicate 255 0, default, .eager⟩, true⟩

theorem length_longDeletion (first : Fin 256) : (longDeletion first).entry.key.length = 256 := by
  rw [longDeletion, length_cons, length_replicate]

/-- Deletions of as many keys of the maximal size are lost behind the first message. -/
theorem not_listsDiffs :
    ¬ListsDiffs ⟨58982, 64, 8⟩ 0 ((List.finRange 256).map longDeletion) [] [] [] := by
  intro lists
  have isSize : ∀ change ∈ (finRange 256).map longDeletion,
      change.entry.key.length = 256 ∧ change.deleted = true := by
    intro change isChange
    obtain ⟨first, -, rfl⟩ := mem_map.mp isChange
    exact ⟨length_longDeletion first, rfl⟩
  have isSorted : Sorted (fun change : EntryChange => change.entry.key)
      ((finRange 256).map longDeletion) := by
    apply pairwise_map.mpr
    apply List.Pairwise.imp _ (pairwise_lt_finRange 256)
    intro first second less
    exact cons_lt_cons_iff.mpr (.inl less)
  have isAll : under (fun change : EntryChange => change.entry.key) [] []
      ((finRange 256).map longDeletion) = (finRange 256).map longDeletion := by
    apply filter_eq_self.mpr
    intro change _
    have isAbove : ([] : Key) ≤ change.entry.key := not_lt.mp (not_lt_nil _)
    simp [matchesPrefix, isAbove]
  have sizes : ((finRange 256).map longDeletion).map (entrySize ⟨58982, 64, 8⟩) =
      replicate 256 264 := by
    apply eq_replicate_iff.mpr
    constructor
    · simp
    · intro size isEntrySize
      obtain ⟨change, isChange, rfl⟩ := mem_map.mp isEntrySize
      obtain ⟨isLength, isDeleted⟩ := isSize change isChange
      rw [entrySize, if_pos isDeleted, isLength]
      rfl
  apply not_fullPagesHaveEntries (fun change isChange => (isSize change isChange).2) _ _
    ((listsPageChange_iff _ ⟨by decide, by decide⟩ isSorted
      fun change isChange => (isSize change isChange).1.le).mp lists.pageChange)
  · rw [isAll, length_map, length_finRange]
    omega
  · rw [isAll, sizes, sum_replicate_nat]
    decide

end DiffUtils

end Peridot
