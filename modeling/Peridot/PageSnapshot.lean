import Mathlib.Algebra.Order.BigOperators.Group.List
import Mathlib.Algebra.Order.Ring.Nat
import Peridot.LedgerManager
import Peridot.PrefixScan

/-!
# Reading a snapshot in pages

`FillEntries` and `GetKeys` of `page_snapshot_impl.cc`.  The entries of a response are first chosen
by an estimate, and cut once more when their values are there.
-/

namespace Peridot

open List KeyedList Entry GreedyPages MessageLimits

/-- `GetInlinedEntrySize`: a pointer, the key, the value and an enumeration. -/
def MessageLimits.getInlinedEntrySize (limits : MessageLimits) (keyLength valueLength : ℕ) : ℕ :=
  8 + (keyLength + limits.arrayHeaderSize) + (valueLength + limits.arrayHeaderSize) + 4

namespace PageSnapshot

/-- `EntryType`: what `FillEntries` is specialised to. -/
inductive EntryType where
  | entry
  | inlinedEntry

/-- An `Entry` or `InlinedEntry` of a response; a value that is not there is null. -/
structure FilledEntry where
  key : Key
  value : Option Bytes
  priority : KeyPriority

def handleUsed : EntryType → ℕ
  | .entry => 1
  | .inlinedEntry => 0

def computeEntrySize (limits : MessageLimits) : EntryType → FilledEntry → ℕ
  | .entry, entry => limits.getEntrySize entry.key.length
  | .inlinedEntry, entry =>
    limits.getInlinedEntrySize entry.key.length (entry.value.getD []).length

structure Response (α : Type) where
  status : LedgerStatus
  entries : Option (List α)
  nextToken : Option Key

/-- `Context` of `FillEntries`. -/
structure FillContext where
  entries : List Entry
  size : ℕ
  handleCount : ℕ
  nextToken : Key

/-- `on_next` of `FillEntries`. -/
def FillContext.onNext (limits : MessageLimits) (type : EntryType) (keyPrefix : Key)
    (context : FillContext) (entry : Entry) : FillContext × Bool :=
  if ¬matchesPrefix entry.key keyPrefix then (context, false)
  else
    let size := context.size + limits.getEntrySize entry.key.length
    let handleCount := context.handleCount + handleUsed type
    if (size > limits.maxInlineDataSize ∨ handleCount > limits.maxMessageHandles) ∧
        context.entries ≠ [] then
      (⟨context.entries, size, handleCount, entry.key⟩, false)
    else (⟨context.entries ++ [entry], size, handleCount, context.nextToken⟩, true)

/-- What `GetObject` gives for an entry: a lazy value need not be there. -/
def fillSingleEntry (objects : ObjectIdentifier → Option Bytes) (entry : Entry) :
    Option FilledEntry :=
  match objects entry.objectIdentifier with
  | some value => some ⟨entry.key, some value, entry.priority⟩
  | none => if entry.priority = .lazy then some ⟨entry.key, none, .lazy⟩ else none

def cut (limits : MessageLimits) (type : EntryType) (realSize : ℕ) :
    List FilledEntry → List FilledEntry × List FilledEntry
  | [] => ([], [])
  | entry :: entries =>
    let entrySize := computeEntrySize limits type entry
    if realSize + entrySize > limits.maxInlineDataSize then ([], entry :: entries)
    else
      let (sent, left) := cut limits type (realSize + entrySize) entries
      (entry :: sent, left)

/-- The end of `FillEntries` and of `GetKeys`. -/
def answer {α : Type} (entries : List α) (nextToken : Key) : Response α :=
  if nextToken ≠ [] then ⟨.partialResult, some entries, some nextToken⟩
  else ⟨.ok, some entries, none⟩

def readStart (keyPrefix : Key) (keyStart token : Option Key) : Key :=
  match token with
  | some token => token
  | none => max keyPrefix (keyStart.getD [])

/-- `FillEntries` for the contents of the commit and the objects that are stored locally. -/
def fillEntries (limits : MessageLimits) (type : EntryType)
    (objects : ObjectIdentifier → Option Bytes) (contents : List Entry) (keyPrefix : Key)
    (keyStart token : Option Key) : Response FilledEntry :=
  let start := readStart keyPrefix keyStart token
  let context := (runUntil (FillContext.onNext limits type keyPrefix)
    ⟨[], limits.arrayHeaderSize, 0, []⟩ (KeyedList.startingAt Entry.key start contents)).1
  match context.entries.mapM (fillSingleEntry objects) with
  | none => ⟨.ioError, none, none⟩
  | some entries =>
    match cut limits type 0 entries with
    | (sent, []) => answer sent context.nextToken
    | ([], _ :: _) => ⟨.valueTooLarge, none, none⟩
    | (sent, next :: _) => answer sent next.key

def getEntries (limits : MessageLimits) (objects : ObjectIdentifier → Option Bytes)
    (contents : List Entry) (keyPrefix : Key) (keyStart token : Option Key) :
    Response FilledEntry :=
  fillEntries limits .entry objects contents keyPrefix keyStart token

def getEntriesInline (limits : MessageLimits) (objects : ObjectIdentifier → Option Bytes)
    (contents : List Entry) (keyPrefix : Key) (keyStart token : Option Key) :
    Response FilledEntry :=
  fillEntries limits .inlinedEntry objects contents keyPrefix keyStart token

/-- `Context` of `GetKeys`. -/
structure KeysContext where
  keys : List Key
  size : ℕ
  nextToken : Key

/-- `on_next` of `GetKeys`. -/
def KeysContext.onNext (limits : MessageLimits) (keyPrefix : Key) (context : KeysContext)
    (entry : Entry) : KeysContext × Bool :=
  if ¬matchesPrefix entry.key keyPrefix then (context, false)
  else
    let size := context.size + limits.getByteArraySize entry.key.length
    if size > limits.maxInlineDataSize then (⟨context.keys, size, entry.key⟩, false)
    else (⟨context.keys ++ [entry.key], size, context.nextToken⟩, true)

def getKeys (limits : MessageLimits) (contents : List Entry) (keyPrefix : Key)
    (keyStart token : Option Key) : Response Key :=
  let start := readStart keyPrefix keyStart token
  let context := (runUntil (KeysContext.onNext limits keyPrefix)
    ⟨[], limits.arrayHeaderSize, []⟩ (KeyedList.startingAt Entry.key start contents)).1
  answer context.keys context.nextToken

/-- A client calls with the token it was given, until the status is `OK`. -/
def readAll {α : Type} (read : Option Key → Response α) : ℕ → Option Key → Option (List (List α))
  | 0, _ => none
  | calls + 1, token =>
    match read token with
    | ⟨.ok, some entries, _⟩ => some [entries]
    | ⟨.partialResult, some entries, some next⟩ =>
      (readAll read calls (some next)).map (entries :: ·)
    | _ => none

def ReadsAll {α : Type} (read : Option Key → Response α) (entries : List α)
    (withinLimits : List α → Prop) : Prop :=
  ∃ calls pages, readAll read calls none = some pages ∧ pages.flatten = entries ∧
    ∀ page ∈ pages, withinLimits page

def responseSize (limits : MessageLimits) (type : EntryType) (entries : List FilledEntry) : ℕ :=
  limits.arrayHeaderSize + (entries.map (computeEntrySize limits type)).sum

def filledEntry (objects : ObjectIdentifier → Option Bytes) (entry : Entry) : FilledEntry :=
  ⟨entry.key, objects entry.objectIdentifier, entry.priority⟩

/-- The entries and keys from `key_start` on are read in their order, in responses within the
limits. -/
structure TokenLaw (limits : MessageLimits) (objects : ObjectIdentifier → Option Bytes)
    (contents : List Entry) (keyPrefix : Key) (keyStart : Option Key) : Prop where
  inOrder : KeyedList.Sorted Entry.key (under Entry.key keyPrefix (keyStart.getD []) contents)
  getEntries : ReadsAll (getEntries limits objects contents keyPrefix keyStart)
    ((under Entry.key keyPrefix (keyStart.getD []) contents).map (filledEntry objects))
    fun entries => responseSize limits .entry entries ≤ limits.maxInlineDataSize ∧
      (entries.filter fun entry => entry.value.isSome).length ≤ limits.maxMessageHandles
  getEntriesInline : ReadsAll (getEntriesInline limits objects contents keyPrefix keyStart)
    ((under Entry.key keyPrefix (keyStart.getD []) contents).map (filledEntry objects))
    fun entries => responseSize limits .inlinedEntry entries ≤ limits.maxInlineDataSize
  getKeys : ReadsAll (getKeys limits contents keyPrefix keyStart)
    ((under Entry.key keyPrefix (keyStart.getD []) contents).map Entry.key)
    fun keys => limits.arrayHeaderSize +
      (keys.map fun key => limits.getByteArraySize key.length).sum ≤ limits.maxInlineDataSize

def realSize (limits : MessageLimits) (type : EntryType)
    (objects : ObjectIdentifier → Option Bytes) (entry : Entry) : ℕ :=
  computeEntrySize limits type (filledEntry objects entry)

/-- Whether an entry fits behind others by the estimate; the first one always does. -/
def fitsEstimate (limits : MessageLimits) (type : EntryType) (page : List Entry) (entry : Entry) :
    Bool :=
  (limits.arrayHeaderSize + (page.map fun entry => limits.getEntrySize entry.key.length).sum +
        limits.getEntrySize entry.key.length ≤ limits.maxInlineDataSize ∧
      page.length * handleUsed type + handleUsed type ≤ limits.maxMessageHandles) ∨
    page = []

def fitsReal (limits : MessageLimits) (type : EntryType)
    (objects : ObjectIdentifier → Option Bytes) (page : List Entry) (entry : Entry) : Bool :=
  (page.map (realSize limits type objects)).sum + realSize limits type objects entry ≤
    limits.maxInlineDataSize

def fits (limits : MessageLimits) (type : EntryType) (objects : ObjectIdentifier → Option Bytes)
    (page : List Entry) (entry : Entry) : Bool :=
  fitsEstimate limits type page entry && fitsReal limits type objects page entry

/-- Where the entries are cut into responses, none ends so close to the limit that only the array
header is too much. -/
def RoomForHeader (limits : MessageLimits) (objects : ObjectIdentifier → Option Bytes)
    (contents : List Entry) (keyPrefix : Key) (keyStart : Option Key) : Prop :=
  ∀ page ∈ GreedyPages.pages (fits limits .inlinedEntry objects)
      (under Entry.key keyPrefix (keyStart.getD []) contents),
    (page.map (realSize limits .inlinedEntry objects)).sum + limits.arrayHeaderSize ≤
      limits.maxInlineDataSize
deriving Decidable

variable {token : Option Key}

section Reading

variable {α : Type} {read : Option Key → Response α}

theorem readAll_unique {calls others : ℕ} {pages otherPages : List (List α)}
    (isRead : readAll read calls token = some pages)
    (isReadToo : readAll read others token = some otherPages) : pages = otherPages := by
  induction calls generalizing others token pages otherPages with
  | zero => cases isRead
  | succ calls ih =>
    cases others with
    | zero => cases isReadToo
    | succ others =>
      rw [readAll] at isRead isReadToo
      split at isRead
      · rename_i isResponse
        rw [isResponse] at isReadToo
        exact Option.some.inj (isRead.symm.trans isReadToo)
      · rename_i isResponse
        rw [isResponse] at isReadToo
        obtain ⟨later, isLater, rfl⟩ := Option.map_eq_some_iff.mp isRead
        obtain ⟨laterToo, isLaterToo, rfl⟩ := Option.map_eq_some_iff.mp isReadToo
        rw [ih isLater isLaterToo]
      · cases isRead

def pageResponse (content : Entry → α) : List Entry × List Entry → Response α
  | (page, []) => ⟨.ok, some (page.map content), none⟩
  | (page, entry :: _) => ⟨.partialResult, some (page.map content), some entry.key⟩

/-- A response for a page is one that goes on as long as entries are left. -/
theorem answer_eq {page rest : List Entry} {content : Entry → α}
    (sorted : Sorted key (page ++ rest)) (notEmpty : rest ≠ [] → page ≠ []) :
    answer (page.map content) ((rest.head?.map key).getD []) =
      pageResponse content (page, rest) := by
  cases rest with
  | nil => rfl
  | cons entry rest =>
    have isKey := key_ne_nil_of_left sorted (notEmpty (by simp))
    rw [head?_cons, Option.map_some, Option.getD_some, answer, if_pos isKey]
    rfl

variable {fits : List Entry → Entry → Bool} {content : Entry → α} {contents : List Entry}
  {keyPrefix : Key} {keyStart : Option Key}

variable (sorted : Sorted key contents)
  (isPage : ∀ token : Option Key, (∀ key ∈ token, keyPrefix ≤ key) →
    read token = pageResponse content (firstPage fits
      (under key keyPrefix (token.getD (keyStart.getD [])) contents)))
include sorted isPage

theorem readAll_pages :
    ∃ calls, readAll read calls none = some ((readPages fits
      (under key keyPrefix (keyStart.getD []) contents)).map (map content)) := by
  let parts := fun token : Option Key => firstPage fits
    (under key keyPrefix (token.getD (keyStart.getD [])) contents)
  let reader := fun token : Option Key =>
    ((parts token).1.map content, (parts token).2.head?.map fun entry => some entry.key)
  have reads : Reads fits key
      (contents.filter fun entry => matchesPrefix entry.key keyPrefix)
      (fun token : Option Key => max keyPrefix (token.getD (keyStart.getD []))) some
      (map content) (fun _ => false) reader := by
    constructor
    · exact sorted_filter sorted _
    · intro entry isEntry
      exact max_eq_right_of_matchesPrefix (mem_filter.mp isEntry).2
    · intro token
      rw [startingAt_max_filter]
    · intro token
      rw [startingAt_max_filter, if_neg Bool.false_ne_true]
  have isFollowed : ∀ (calls : ℕ) (token : Option Key) (pages : List (List α)),
      (∀ key ∈ token, keyPrefix ≤ key) → follow reader calls token = some pages →
      readAll read calls token = some pages := by
    intro calls
    induction calls with
    | zero => exact fun _ _ _ followed => followed
    | succ calls ih =>
      intro token pages isValid followed
      have whole := firstPage_append fits
        (under key keyPrefix (token.getD (keyStart.getD [])) contents)
      rw [follow] at followed
      rw [readAll, isPage token isValid]
      simp only [reader, parts] at followed
      generalize firstPage fits _ = pageAndRest at followed whole ⊢
      obtain ⟨page, rest⟩ := pageAndRest
      cases rest with
      | nil => exact followed
      | cons entry rest =>
        obtain ⟨later, isLater, rfl⟩ := Option.map_eq_some_iff.mp followed
        have isUnder : entry ∈ under key keyPrefix (token.getD (keyStart.getD []))
            contents := by
          rw [← whole]
          simp
        have starts : matchesPrefix entry.key keyPrefix = true := by
          simp only [under, mem_filter, decide_eq_true_eq] at isUnder
          exact isUnder.2.2
        have isValidNext : ∀ key ∈ some entry.key, keyPrefix ≤ key := by
          rintro key isKey
          rw [← Option.some.inj isKey]
          exact not_lt.mp (OrderedStore.not_lt_of_isPrefix (matchesPrefix_iff.mp starts))
        simp [pageResponse, ih _ _ isValidNext isLater]
  obtain ⟨calls, followed⟩ := reads.follow none
  rw [startingAt_max_filter] at followed
  rw [upTo_eq_self fun _ _ => rfl] at followed
  exact ⟨calls, isFollowed calls none _ (by simp) followed⟩

theorem readsAll_iff {withinLimits : List α → Prop} (emptyWithin : withinLimits []) :
    ReadsAll read ((under key keyPrefix (keyStart.getD []) contents).map content) withinLimits ↔
      ∀ page ∈ pages fits (under key keyPrefix (keyStart.getD []) contents),
        withinLimits (page.map content) := by
  obtain ⟨calls, isRead⟩ := readAll_pages sorted isPage
  have isFlat := flatten_readPages fits (under key keyPrefix (keyStart.getD []) contents)
  have same : (∀ page ∈ (readPages fits
        (under key keyPrefix (keyStart.getD []) contents)).map (map content), withinLimits page) ↔
      ∀ page ∈ pages fits (under key keyPrefix (keyStart.getD []) contents),
        withinLimits (page.map content) := by
    rw [forall_mem_map, readPages]
    split
    · rename_i nothing
      simp [nothing, pages, emptyWithin]
    · rfl
  rw [← same]
  constructor
  · rintro ⟨others, pages, isReadToo, -, areWithin⟩
    rwa [readAll_unique isRead isReadToo]
  · intro areWithin
    refine ⟨calls, _, isRead, ?_, areWithin⟩
    rw [← map_flatten, isFlat]

end Reading

section Pages

variable {limits : MessageLimits} {type : EntryType} {objects : ObjectIdentifier → Option Bytes}
  {contents : List Entry} {keyPrefix : Key} {keyStart : Option Key}

/-- What the code relies on: values of eager entries are stored locally. -/
def EagerStored (objects : ObjectIdentifier → Option Bytes) (contents : List Entry) : Prop :=
  ∀ entry ∈ contents, entry.priority = .eager → (objects entry.objectIdentifier).isSome

theorem mapM_fillSingleEntry (eagerStored : EagerStored objects contents) :
    contents.mapM (fillSingleEntry objects) = some (contents.map (filledEntry objects)) := by
  induction contents with
  | nil => rfl
  | cons entry contents ih =>
    have filled : fillSingleEntry objects entry = some (filledEntry objects entry) := by
      have isStored := eagerStored entry (by simp)
      unfold fillSingleEntry filledEntry
      cases isObject : objects entry.objectIdentifier with
      | some value => rfl
      | none =>
        cases isPriority : entry.priority with
        | eager => simp [isObject, isPriority] at isStored
        | lazy => rfl
    rw [mapM_cons, filled, ih fun other isOther =>
      eagerStored other (mem_cons_of_mem entry isOther)]
    rfl

theorem readStart_eq (isValid : ∀ key ∈ token, keyPrefix ≤ key) :
    readStart keyPrefix keyStart token = max keyPrefix (token.getD (keyStart.getD [])) := by
  cases token with
  | none => rfl
  | some token => exact (max_eq_right (isValid token rfl)).symm

def fillContext (limits : MessageLimits) (type : EntryType) (page : List Entry) : FillContext :=
  ⟨page, limits.arrayHeaderSize + (page.map fun entry => limits.getEntrySize entry.key.length).sum,
    page.length * handleUsed type, []⟩

variable {start : Key}

variable (limits type) in
theorem runUntil_fillContext (sorted : Sorted key contents) (atLeast : keyPrefix ≤ start) :
    (runUntil (FillContext.onNext limits type keyPrefix) (fillContext limits type [])
        (startingAt key start contents)).1 = filled (fillContext limits type)
        (fun page entry => ⟨page,
          (fillContext limits type page).size + limits.getEntrySize entry.key.length,
          (fillContext limits type page).handleCount + handleUsed type, entry.key⟩)
        (fill (fitsEstimate limits type) [] (under key keyPrefix start contents)) := by
  rw [← startingAt_max_filter, max_eq_right atLeast, ← takeWhile_startingAt sorted atLeast]
  have fits : ∀ (page : List Entry) (entry : Entry), fitsEstimate limits type page entry = true ↔
      ¬(((fillContext limits type page).size + limits.getEntrySize entry.key.length >
            limits.maxInlineDataSize ∨
          (fillContext limits type page).handleCount + handleUsed type >
            limits.maxMessageHandles) ∧ page ≠ []) := by
    intro page entry
    simp only [fitsEstimate, fillContext, decide_eq_true_eq, gt_iff_lt, not_and_or, not_or, not_lt,
      ne_eq, not_not]
  apply runUntil_fill
  · intro page entry noMatch
    simp [FillContext.onNext, noMatch]
  · intro page entry isMatch itFits
    rw [FillContext.onNext, if_neg (by simp [isMatch])]
    refine (if_neg ((fits page entry).mp itFits)).trans ?_
    simp [fillContext, Nat.add_assoc, Nat.add_mul]
  · intro page entry isMatch notFits
    have isFull := not_not.mp (mt (fits page entry).mpr (by simp [notFits]))
    rw [FillContext.onNext, if_neg (by simp [isMatch])]
    exact if_pos isFull

variable (limits type objects) in
/-- The loop over the results cuts where an entry does not fit with its value. -/
theorem cut_eq (page entries : List Entry) :
    ∃ sent left, fill (fitsReal limits type objects) page entries =
        (page ++ sent, left) ∧ cut limits type (page.map (realSize limits type objects)).sum
          (entries.map (filledEntry objects)) =
        (sent.map (filledEntry objects), left.map (filledEntry objects)) := by
  induction entries generalizing page with
  | nil => exact ⟨[], [], by simp [fill], rfl⟩
  | cons entry entries ih =>
    rw [fill, map_cons, cut]
    cases itFits : fitsReal limits type objects page entry with
    | false =>
      refine ⟨[], entry :: entries, by simp, ?_⟩
      have tooLarge := of_decide_eq_false itFits
      exact if_pos (not_le.mp tooLarge)
    | true =>
      have inLimit := of_decide_eq_true itFits
      obtain ⟨sent, left, isFill, isCut⟩ := ih (page ++ [entry])
      refine ⟨entry :: sent, left, by simpa using isFill, ?_⟩
      rw [map_append, sum_append, map_singleton, sum_singleton] at isCut
      refine (if_neg (not_lt.mpr inLimit)).trans ?_
      rw [realSize] at isCut
      rw [isCut]
      rfl

theorem fillEntries_eq (sorted : Sorted key contents) (eagerStored : EagerStored objects contents)
    (fitsAlone : ∀ entry ∈ contents, realSize limits type objects entry ≤ limits.maxInlineDataSize)
    (token : Option Key) (isValid : ∀ key ∈ token, keyPrefix ≤ key) :
    fillEntries limits type objects contents keyPrefix keyStart token =
      pageResponse (filledEntry objects) (firstPage (fits limits type objects)
        (under key keyPrefix (token.getD (keyStart.getD [])) contents)) := by
  have isContext := runUntil_fillContext limits type sorted
    (le_max_left keyPrefix (token.getD (keyStart.getD [])))
  rw [under_max] at isContext
  have isEmpty : fillContext limits type [] = ⟨[], limits.arrayHeaderSize, 0, []⟩ := by
    simp [fillContext]
  rw [isEmpty] at isContext
  unfold fillEntries
  rw [readStart_eq isValid]
  simp only [isContext]
  have sortedUnder := sorted_under keyPrefix (token.getD (keyStart.getD [])) sorted
  have isPart : under key keyPrefix (token.getD (keyStart.getD [])) contents ⊆ contents :=
    under_subset
  generalize under key keyPrefix (token.getD (keyStart.getD [])) contents = visible
    at sortedUnder isPart ⊢
  -- The page that is sent, after both cuts.
  have chosenPart := fill_append (fitsEstimate limits type) [] visible
  have bothCuts := fill_fill (fitsEstimate limits type)
    (fitsReal limits type objects)
    (nil_append (fill (fitsEstimate limits type) [] visible).1).symm
  have isFirst : fill (fits limits type objects) [] visible =
      firstPage (fits limits type objects) visible :=
    fill_nil_eq_firstPage fun entry isEntry => by
      simpa [fits, fitsEstimate, fitsReal] using fitsAlone entry (isPart isEntry)
  have whole := firstPage_append (fits limits type objects) visible
  have notEmpty : visible ≠ [] → (firstPage (fits limits type objects) visible).1 ≠ [] :=
    firstPage_ne_nil (fits limits type objects)
  have isFits : (fun page item => fitsEstimate limits type page item &&
    fitsReal limits type objects page item) = fits limits type objects := rfl
  rw [isFits, isFirst] at bothCuts
  generalize fill (fitsEstimate limits type) [] visible = parts
    at chosenPart bothCuts ⊢
  obtain ⟨chosen, unchosen⟩ := parts
  obtain ⟨sent, left, isFill, isCut⟩ := cut_eq limits type objects [] chosen
  rw [nil_append] at isFill
  simp only [isFill] at bothCuts
  rw [bothCuts] at whole notEmpty ⊢
  rw [← whole] at sortedUnder notEmpty
  rw [← answer_eq sortedUnder fun someLeft => notEmpty (by simp [someLeft])]
  have chosenStored : EagerStored objects chosen := fun entry isEntry => by
    apply eagerStored entry (isPart _)
    rw [nil_append] at chosenPart
    rw [← chosenPart]
    exact mem_append_left _ isEntry
  have isChosen : ∀ context : FillContext, context.entries = chosen →
      context.nextToken = (unchosen.head?.map key).getD [] →
      (match context.entries.mapM (fillSingleEntry objects) with
        | none => ⟨.ioError, none, none⟩
        | some entries =>
          match cut limits type 0 entries with
          | (sent, []) => answer sent context.nextToken
          | ([], _ :: _) => ⟨.valueTooLarge, none, none⟩
          | (sent, next :: _) => answer sent next.key) =
        answer (sent.map (filledEntry objects)) (((left ++ unchosen).head?.map key).getD []) := by
    intro context isEntries isToken
    rw [isEntries, mapM_fillSingleEntry chosenStored, isToken]
    simp only [map_nil, sum_nil] at isCut
    simp only [isCut]
    cases left with
    | nil => rfl
    | cons next left =>
      obtain ⟨first, sent, rfl⟩ := exists_cons_of_ne_nil (notEmpty (by simp))
      rfl
  cases unchosen with
  | nil => exact isChosen (fillContext limits type chosen) rfl rfl
  | cons entry unchosen => exact isChosen ⟨chosen, _, _, entry.key⟩ rfl rfl

def fitsKeys (limits : MessageLimits) (page : List Entry) (entry : Entry) : Bool :=
  limits.arrayHeaderSize + (page.map fun entry => limits.getByteArraySize entry.key.length).sum +
    limits.getByteArraySize entry.key.length ≤ limits.maxInlineDataSize

def keysContext (limits : MessageLimits) (page : List Entry) : KeysContext :=
  ⟨page.map Entry.key,
    limits.arrayHeaderSize + (page.map fun entry => limits.getByteArraySize entry.key.length).sum,
    []⟩

variable (limits) in
theorem runUntil_keysContext (sorted : Sorted key contents) (atLeast : keyPrefix ≤ start) :
    (runUntil (KeysContext.onNext limits keyPrefix) (keysContext limits [])
        (startingAt key start contents)).1 = filled (keysContext limits)
        (fun page entry => ⟨page.map key,
          (keysContext limits page).size + limits.getByteArraySize entry.key.length, entry.key⟩)
        (fill (fitsKeys limits) [] (under key keyPrefix start contents)) := by
  rw [← startingAt_max_filter, max_eq_right atLeast, ← takeWhile_startingAt sorted atLeast]
  have fits : ∀ (page : List Entry) (entry : Entry), fitsKeys limits page entry = true ↔
      ¬(keysContext limits page).size + limits.getByteArraySize entry.key.length >
        limits.maxInlineDataSize := by
    simp [fitsKeys, keysContext]
  apply runUntil_fill
  · intro page entry noMatch
    simp [KeysContext.onNext, noMatch]
  · intro page entry isMatch itFits
    rw [KeysContext.onNext, if_neg (by simp [isMatch])]
    refine (if_neg ((fits page entry).mp itFits)).trans ?_
    simp [keysContext, Nat.add_assoc]
  · intro page entry isMatch notFits
    have isFull := not_not.mp (mt (fits page entry).mpr (by simp [notFits]))
    rw [KeysContext.onNext, if_neg (by simp [isMatch])]
    exact if_pos isFull

theorem getKeys_eq (sorted : Sorted key contents)
    (fitsAlone : ∀ entry ∈ contents, fitsKeys limits [] entry = true)
    (token : Option Key) (isValid : ∀ key ∈ token, keyPrefix ≤ key) :
    getKeys limits contents keyPrefix keyStart token = pageResponse key (firstPage (fitsKeys limits)
        (under key keyPrefix (token.getD (keyStart.getD [])) contents)) := by
  have isContext := runUntil_keysContext limits sorted
    (le_max_left keyPrefix (token.getD (keyStart.getD [])))
  have isEmpty : keysContext limits [] = ⟨[], limits.arrayHeaderSize, []⟩ := rfl
  have isFirst : fill (fitsKeys limits) []
      (under key keyPrefix (token.getD (keyStart.getD [])) contents) =
      firstPage (fitsKeys limits) (under key keyPrefix (token.getD (keyStart.getD [])) contents) :=
    fill_nil_eq_firstPage fun entry isEntry => fitsAlone entry (under_subset isEntry)
  have whole := firstPage_append (fitsKeys limits)
    (under key keyPrefix (token.getD (keyStart.getD [])) contents)
  have sortedUnder := sorted_under keyPrefix (token.getD (keyStart.getD [])) sorted
  rw [under_max, isFirst, isEmpty] at isContext
  rw [← whole] at sortedUnder
  unfold getKeys
  rw [readStart_eq isValid]
  simp only [isContext]
  have notEmpty : (firstPage (fitsKeys limits)
      (under key keyPrefix (token.getD (keyStart.getD [])) contents)).2 ≠ [] →
      (firstPage (fitsKeys limits)
        (under key keyPrefix (token.getD (keyStart.getD [])) contents)).1 ≠ [] := by
    intro someLeft
    apply firstPage_ne_nil
    intro nothing
    rw [nothing] at someLeft
    exact someLeft rfl
  generalize firstPage (fitsKeys limits) _ = parts at sortedUnder notEmpty ⊢
  obtain ⟨page, rest⟩ := parts
  rw [← answer_eq sortedUnder notEmpty]
  cases rest <;> rfl

/-- What the code relies on: an array header is not smaller than a handle, and a message has room
for an array header and a handle. -/
structure Sizes (limits : MessageLimits) : Prop where
  header : 4 ≤ limits.arrayHeaderSize
  inline : limits.arrayHeaderSize ≤ limits.maxInlineDataSize
  handles : 1 ≤ limits.maxMessageHandles

variable (objects) in
/-- An entry with a handle is not larger than one with its value. -/
theorem getEntrySize_le (sizes : Sizes limits) (entry : Entry) :
    limits.getEntrySize entry.key.length ≤ realSize limits .inlinedEntry objects entry := by
  have header := sizes.header
  simp only [realSize, computeEntrySize, filledEntry, getEntrySize,
    getInlinedEntrySize]
  omega

theorem fitsKeys_alone {entry : Entry}
    (inLimit : realSize limits .inlinedEntry objects entry ≤ limits.maxInlineDataSize) :
    fitsKeys limits [] entry = true := by
  simp only [realSize, computeEntrySize, filledEntry, getInlinedEntrySize] at inLimit
  simp only [fitsKeys, getByteArraySize, map_nil, sum_nil, decide_eq_true_eq]
  omega

variable {visible : List Entry}

theorem keys_within (fitsAlone : ∀ entry ∈ visible, fitsKeys limits [] entry = true) :
    ∀ page ∈ pages (fitsKeys limits) visible,
      limits.arrayHeaderSize + ((page.map key).map fun key =>
        limits.getByteArraySize key.length).sum ≤ limits.maxInlineDataSize := by
  apply forall_mem_pages
  · intro entry isEntry
    simpa [fitsKeys] using fitsAlone entry isEntry
  · intro front entry _ itFits
    simpa [fitsKeys, Function.comp_def, Nat.add_assoc] using itFits

/-- The values of a page of entries are within the limits if there is room for the header. -/
theorem entries_within (sizes : Sizes limits) (room : ∀ entry ∈ visible,
      limits.arrayHeaderSize + limits.getEntrySize entry.key.length ≤ limits.maxInlineDataSize) :
    ∀ page ∈ pages (fits limits .entry objects) visible,
      responseSize limits .entry (page.map (filledEntry objects)) ≤ limits.maxInlineDataSize ∧
        ((page.map (filledEntry objects)).filter fun entry => entry.value.isSome).length ≤
          limits.maxMessageHandles := by
  have responseSize_eq : ∀ page : List Entry,
      responseSize limits .entry (page.map (filledEntry objects)) = limits.arrayHeaderSize +
        (page.map fun entry => limits.getEntrySize entry.key.length).sum := by
    intro page
    rw [responseSize, map_map]
    rfl
  have fewHandles : ∀ page : List Entry,
      ((page.map (filledEntry objects)).filter fun entry => entry.value.isSome).length ≤
        page.length := by
    intro page
    exact (length_filter_le _ _).trans_eq (length_map _)
  have within : ∀ page ∈ pages (fits limits .entry objects) visible, limits.arrayHeaderSize +
          (page.map fun entry => limits.getEntrySize entry.key.length).sum ≤
        limits.maxInlineDataSize ∧ page.length ≤ limits.maxMessageHandles := by
    have single : ∀ entry ∈ visible, limits.arrayHeaderSize +
        ([entry].map fun entry => limits.getEntrySize entry.key.length).sum ≤
          limits.maxInlineDataSize ∧ [entry].length ≤ limits.maxMessageHandles := by
      intro entry isEntry
      rw [map_singleton, sum_singleton]
      exact ⟨room entry isEntry, sizes.handles⟩
    apply forall_mem_pages
    · exact single
    · intro front entry isEntry itFits
      rw [fits, Bool.and_eq_true] at itFits
      rcases of_decide_eq_true itFits.1 with ⟨inLimit, inHandles⟩ | rfl
      · rw [handleUsed] at inHandles
        rw [map_append, sum_append, map_singleton, sum_singleton, length_append, length_singleton]
        omega
      · exact single entry isEntry
  intro page isPage
  rw [responseSize_eq]
  obtain ⟨inLimit, inHandles⟩ := within page isPage
  exact ⟨inLimit, (fewHandles page).trans inHandles⟩

variable (keyPrefix keyStart) in
/-- The responses of `GetEntriesInline` are within the limits if and only if the array header, which
the second cut does not count, has room in each of them. -/
theorem readsInline_iff (sizes : Sizes limits) (sorted : Sorted key contents)
    (eagerStored : EagerStored objects contents) (fitsAlone : ∀ entry ∈ contents,
      realSize limits .inlinedEntry objects entry ≤ limits.maxInlineDataSize) :
    ReadsAll (getEntriesInline limits objects contents keyPrefix keyStart)
        ((under key keyPrefix (keyStart.getD []) contents).map (filledEntry objects))
        (fun entries => responseSize limits .inlinedEntry entries ≤ limits.maxInlineDataSize) ↔
      RoomForHeader limits objects contents keyPrefix keyStart := by
  apply (readsAll_iff sorted (fillEntries_eq sorted eagerStored fitsAlone) sizes.inline).trans
  simp only [RoomForHeader, responseSize, map_map, Nat.add_comm limits.arrayHeaderSize]
  rfl

/-- The responses obey the token law if and only if there is room for the array header in those of
`GetEntriesInline`. -/
theorem tokenLaw_iff (sizes : Sizes limits) (sorted : KeyedList.Sorted Entry.key contents)
    (eagerStored : EagerStored objects contents) (fitsAlone : ∀ entry ∈ contents,
      realSize limits .inlinedEntry objects entry ≤ limits.maxInlineDataSize) :
    TokenLaw limits objects contents keyPrefix keyStart ↔
      RoomForHeader limits objects contents keyPrefix keyStart := by
  have inlineIff := readsInline_iff keyPrefix keyStart sizes sorted eagerStored fitsAlone
  rw [← inlineIff]
  constructor
  · exact TokenLaw.getEntriesInline
  · intro readsInline
    have isPart : under key keyPrefix (keyStart.getD []) contents ⊆ contents := under_subset
    have room : ∀ entry ∈ under key keyPrefix (keyStart.getD []) contents,
        limits.arrayHeaderSize + limits.getEntrySize entry.key.length ≤
          limits.maxInlineDataSize := by
      intro entry isEntry
      have hasRoom := inlineIff.mp readsInline
      rw [← flatten_pages (fits limits .inlinedEntry objects)
        (under key keyPrefix (keyStart.getD []) contents)] at isEntry
      obtain ⟨page, isPage, inPage⟩ := mem_flatten.mp isEntry
      have onPage := hasRoom page isPage
      have inSum := single_le_sum (by simp) _
        (mem_map_of_mem (f := realSize limits .inlinedEntry objects) inPage)
      have notLarger := getEntrySize_le objects sizes entry
      omega
    constructor
    · exact sorted_under keyPrefix (keyStart.getD []) sorted
    · have entriesAlone : ∀ entry ∈ contents,
          realSize limits .entry objects entry ≤ limits.maxInlineDataSize :=
        fun entry isEntry => (getEntrySize_le objects sizes entry).trans (fitsAlone entry isEntry)
      apply (readsAll_iff sorted (fillEntries_eq sorted eagerStored entriesAlone) _).mpr
        (entries_within sizes room)
      exact ⟨sizes.inline, Nat.zero_le _⟩
    · exact readsInline
    · have keysAlone := fun entry isEntry => fitsKeys_alone (fitsAlone entry isEntry)
      exact (readsAll_iff sorted (getKeys_eq sorted keysAlone) sizes.inline).mpr
        (keys_within fun entry isEntry => keysAlone entry (isPart isEntry))

end Pages

/-- Three pages of keys, and of entries: there is room for the header in each. -/
theorem tokenLaw_iff_sample :
    TokenLaw ⟨90, 2, 8⟩ (fun object => if object.keyIndex = 0 then some [5, 6] else none)
      [⟨[1], default, .eager⟩, ⟨[2], ⟨1, 0, []⟩, .lazy⟩, ⟨[2, 3], default, .lazy⟩,
        ⟨[2, 4], default, .eager⟩, ⟨[2, 5], default, .eager⟩, ⟨[3], default, .eager⟩] [2] none := by
  apply (tokenLaw_iff ⟨by decide, by decide, by decide⟩ (by decide) _ (by decide)).mpr
  · decide
  · unfold EagerStored
    decide

def wideEntries : List Entry :=
  [⟨[1], default, .eager⟩, ⟨[2], default, .eager⟩]

/-- Two entries that are as large as a message are sent in one response, with the header. -/
theorem not_tokenLaw :
    ¬TokenLaw ⟨58982, 64, 8⟩ (fun _ => some (List.replicate 29462 0)) wideEntries [] none := by
  intro law
  have isSize : ∀ entry ∈ wideEntries, realSize ⟨58982, 64, 8⟩ .inlinedEntry
      (fun _ => some (replicate 29462 0)) entry = 29491 := by
    intro entry isEntry
    have isLength : entry.key.length = 1 := by
      revert entry
      decide
    rw [realSize, computeEntrySize, filledEntry, Option.getD_some, length_replicate, isLength]
    rfl
  have hasRoom := (readsInline_iff [] none ⟨by decide, by decide, by decide⟩ (by decide)
    (fun _ _ _ => rfl) fun entry isEntry => by
      rw [isSize entry isEntry]
      decide).mp law.getEntriesInline
  have isUnder : under key [] [] wideEntries = wideEntries := by decide
  have itFits : fits ⟨58982, 64, 8⟩ .inlinedEntry (fun _ => some (replicate 29462 0))
      [⟨[1], default, .eager⟩] ⟨[2], default, .eager⟩ = true := by
    rw [fits, fitsReal, map_singleton, sum_singleton, isSize _ (by decide), isSize _ (by decide)]
    decide
  have inOnePage := hasRoom wideEntries (by
    simp only [Option.getD_none, isUnder]
    rw [wideEntries, pages, pagesFrom, if_pos itFits]
    exact mem_singleton_self _)
  rw [map_congr_left isSize] at inOnePage
  exact absurd inOnePage (by decide)

end PageSnapshot

end Peridot
