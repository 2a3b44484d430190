import Peridot.MergeContents

/-!
# Merges by the client

`ConflictResolverClient`: the client of a page resolves a conflict by sending the values of
the merge, in any number of calls.  The journal of the merge starts from the left head.
-/

namespace Peridot

open List

inductive ValueSource where
  | right
  | new
  | delete
deriving DecidableEq

/-- `BytesOrReference`; a reference is a number that the page manager has given out. -/
inductive BytesOrReference where
  | bytes (value : Bytes)
  | reference (value : Nat)

structure MergedValue where
  key : Key
  source : ValueSource
  newValue : BytesOrReference
  priority : KeyPriority

/-- The journal of a merge is an explicit one: it refuses everything after an operation that
failed. -/
structure MergeJournal where
  /-- The contents that the journal makes of the left head. -/
  pending : Contents
  failedOperation : Bool

namespace MergeJournal

/-- `JournalImpl::Put` and `JournalImpl::Delete`, with the answer of the storage. -/
def write (journal : MergeJournal) (change : EntryChange) (answer : Status) :
    MergeJournal × Status :=
  if journal.failedOperation then (journal, .illegalState)
  else if answer = .ok then ({ journal with pending := applyToMap journal.pending change }, .ok)
  else ({ journal with failedOperation := true }, answer)

def writeAll (answers : Nat → Status) :
    MergeJournal → List EntryChange → MergeJournal × Status
  | journal, [] => (journal, .ok)
  | journal, change :: changes =>
    let written := journal.write change (answers changes.length)
    let rest := written.1.writeAll answers changes
    (rest.1, if written.2 = .ok then rest.2 else written.2)

theorem writeAll_ok {answers : Nat → Status} {journal : MergeJournal}
    {changes : List EntryChange} (accepted : (journal.writeAll answers changes).2 = .ok) :
    (journal.writeAll answers changes).1 =
      { journal with pending := changes.foldl applyToMap journal.pending } := by
  induction changes generalizing journal with
  | nil => rfl
  | cons change changes ih =>
    have isWritten : (journal.write change (answers changes.length)).2 = .ok := by
      by_contra refused
      simp only [writeAll, if_neg refused] at accepted
      exact refused accepted
    have isNext : journal.write change (answers changes.length) =
        ({ journal with pending := applyToMap journal.pending change }, .ok) := by
      unfold write at isWritten ⊢
      split
      case isTrue failed => simp [failed] at isWritten
      case isFalse running =>
        rw [if_neg running] at isWritten
        split
        case isTrue => rfl
        case isFalse refused =>
          rw [if_neg refused] at isWritten
          exact absurd isWritten refused
    simp only [writeAll, isNext, if_pos] at accepted ⊢
    exact ih accepted

end MergeJournal

/-- The answers of the storage and of the page manager to one call of the client. -/
structure ResolverReplies where
  getEntryFromCommit : Key → Except Status Entry
  addObjectFromLocal : Bytes → Except Status ObjectIdentifier
  resolveReference : Nat → Option ObjectIdentifier
  deletion : Nat → Status
  put : Nat → Status

/-- The members of `ConflictResolverClient` that decide about the merge. -/
structure ConflictResolverClient where
  journal : MergeJournal
  hasMergedValues : Bool

def MergedValue.deletion (value : MergedValue) : EntryChange :=
  ⟨⟨value.key, default, .eager⟩, true⟩

def MergedValue.put (value : MergedValue) (objectIdentifier : ObjectIdentifier) : EntryChange :=
  ⟨⟨value.key, objectIdentifier, value.priority⟩, false⟩

/-- `OnNextMergeResult`; the write of a deletion is among `deletions`. -/
def onNextMergeResult (replies : ResolverReplies) (value : MergedValue) :
    Except Status ObjectIdentifier :=
  match value.source with
  | .right => (replies.getEntryFromCommit value.key).map Entry.objectIdentifier
  | .new =>
    match value.newValue with
    | .bytes bytes => replies.addObjectFromLocal bytes
    | .reference reference =>
      match replies.resolveReference reference with
      | none => .error .notFound
      | some objectIdentifier => .ok objectIdentifier
  | .delete => .ok default

/-- What the first pass of `Merge` writes: the deletions. -/
def deletions (values : List MergedValue) : List EntryChange :=
  (values.filter fun value => value.source = .delete).map MergedValue.deletion

/-- What the second pass of `Merge` writes: what has no digest is left out. -/
def puts (values : List MergedValue) (objectIdentifiers : List ObjectIdentifier) :
    List EntryChange :=
  ((values.zip objectIdentifiers).filter fun pair => pair.2.objectDigest ≠ []).map fun pair =>
    pair.1.put pair.2

/-- A call of `Merge`, with what it is answered. -/
structure MergeCall where
  values : List MergedValue
  replies : ResolverReplies

namespace ConflictResolverClient

def new (left : Contents) : ConflictResolverClient :=
  ⟨⟨left, false⟩, false⟩

/-- `Merge`: the answer, and the client unless it is finalized. -/
def merge (client : ConflictResolverClient) (call : MergeCall) :
    Status × Option ConflictResolverClient :=
  let deleted := client.journal.writeAll call.replies.deletion (deletions call.values)
  if deleted.2 ≠ .ok then (deleted.2, none)
  else
    match call.values.mapM (onNextMergeResult call.replies) with
    | .error status => (status, none)
    | .ok objectIdentifiers =>
      let written := deleted.1.writeAll call.replies.put (puts call.values objectIdentifiers)
      (written.2, some ⟨written.1, true⟩)

/-- `MergeNonConflictingEntries` at a key that was changed. -/
def nonConflictingChange (hasMergedValues : Bool) (change : ThreeWayChange) :
    Option EntryChange :=
  if change.base = change.left then
    match change.right with
    | some entry => some ⟨entry, false⟩
    | none => change.base.map fun entry => ⟨entry, true⟩
  else if change.base = change.right ∧ hasMergedValues then
    match change.left with
    | some entry => some ⟨entry, false⟩
    | none => change.base.map fun entry => ⟨entry, true⟩
  else none

/-- `MergeNonConflictingEntries`: the answer, and the client afterwards.  `changes` and
`diffStatus` are what the storage reports of the three commits. -/
def mergeNonConflictingEntries (client : ConflictResolverClient) (answers : Nat → Status)
    (changes : List ThreeWayChange) (diffStatus : Status) : Status × ConflictResolverClient :=
  let written := client.journal.writeAll answers
    (changes.filterMap (nonConflictingChange client.hasMergedValues))
  (if diffStatus ≠ .ok then diffStatus else written.2, { client with journal := written.1 })

/-- `Done`: the contents of the merge commit. -/
def done (client : ConflictResolverClient) (commitJournal : Status) : Except Status Contents :=
  if client.journal.failedOperation then .error .illegalState
  else if commitJournal = .ok then .ok client.journal.pending
  else .error commitJournal

/-- Calls of `Merge` that are all answered with `OK`. -/
def mergeAll (client : ConflictResolverClient) (calls : List MergeCall) :
    Option ConflictResolverClient :=
  calls.foldlM (fun client call => if (client.merge call).1 = .ok then (client.merge call).2
    else none) client

/-- Calls of `Merge`, whatever they are answered, as long as the client is not finalized. -/
def mergeAny (client : ConflictResolverClient) (calls : List MergeCall) :
    Option ConflictResolverClient :=
  calls.foldlM (fun client call => (client.merge call).2) client

end ConflictResolverClient

namespace MergeCall

variable (call : MergeCall) {value : MergedValue} {key : Key}

def identifier (value : MergedValue) : ObjectIdentifier :=
  match onNextMergeResult call.replies value with
  | .ok objectIdentifier => objectIdentifier
  | .error _ => default

def isStored (value : MergedValue) : Bool :=
  (call.identifier value).objectDigest ≠ []

def isEmpty (value : MergedValue) : Bool :=
  value.source ≠ .delete ∧ (call.identifier value).objectDigest = []

def mentions (key : Key) : Bool :=
  call.values.any fun value => value.key = key

def lastValue (key : Key) : Option MergedValue :=
  (call.values.filter fun value => value.key = key).getLast?

def lastStored (key : Key) : Option MergedValue :=
  (call.values.filter fun value => value.key = key ∧ call.isStored value).getLast?

def deletes (key : Key) : Bool :=
  call.values.any fun value => value.key = key ∧ value.source = .delete

def resultAt (pending : Contents) (key : Key) : Option Entry :=
  match call.lastStored key with
  | some value => some ⟨value.key, call.identifier value, value.priority⟩
  | none => if call.deletes key then none else pending key

def merged (right : Contents) (value : MergedValue) : Option Entry :=
  match value.source with
  | .right => right value.key
  | .new => some ⟨value.key, call.identifier value, value.priority⟩
  | .delete => none

theorem isStored_of_not_isEmpty (notDelete : value.source ≠ .delete)
    (notEmpty : call.isEmpty value = false) : call.isStored value = true := by
  simpa [isEmpty, isStored, notDelete] using notEmpty

theorem not_isStored_of_isEmpty (isEmpty : call.isEmpty value = true) :
    call.isStored value = false := by
  simp only [MergeCall.isEmpty, decide_eq_true_eq] at isEmpty
  simp [isStored, isEmpty.2]

theorem mem_of_lastValue (isLast : call.lastValue key = some value) :
    value ∈ call.values ∧ value.key = key := by
  simpa using mem_filter.mp (mem_of_getLast? isLast)

theorem mem_of_lastStored (isLast : call.lastStored key = some value) :
    value ∈ call.values ∧ value.key = key ∧ call.isStored value = true := by
  simpa using mem_filter.mp (mem_of_getLast? isLast)

theorem lastStored_eq_none : call.lastStored key = none ↔
    ∀ value ∈ call.values, value.key = key → call.isStored value = false := by
  simp [lastStored]

theorem deletes_iff : call.deletes key = true ↔
    ∃ value ∈ call.values, value.key = key ∧ value.source = .delete := by
  simp [deletes]

theorem lastStored_of_lastValue (isLast : call.lastValue key = some value)
    (isStored : call.isStored value = true) : call.lastStored key = some value := by
  obtain ⟨earlier, isSplit⟩ := getLast?_eq_some_iff.mp isLast
  have isFilter : (call.values.filter fun value => value.key = key ∧ call.isStored value) =
      (call.values.filter fun value => value.key = key).filter call.isStored := by
    rw [filter_filter]
    exact filter_congr fun value _ => by simp [Bool.and_comm]
  rw [lastStored, isFilter, isSplit, filter_append, filter_cons_of_pos isStored]
  simp

theorem lastValue_of_mentions (mentioned : call.mentions key = true) :
    ∃ value, call.lastValue key = some value := by
  refine Option.isSome_iff_exists.mp ?_
  simpa [lastValue, mentions, getLast?_isSome, filter_eq_nil_iff] using mentioned

theorem resultAt_of_not_mentions (pending : Contents) (unmentioned : call.mentions key = false) :
    call.resultAt pending key = pending key := by
  have isOther : ∀ value ∈ call.values, value.key ≠ key := by simpa [mentions] using unmentioned
  have notStored : call.lastStored key = none :=
    call.lastStored_eq_none.mpr fun value inValues isKey => absurd isKey (isOther value inValues)
  have notDeleted : ¬call.deletes key = true := by
    rw [deletes_iff]
    rintro ⟨value, inValues, isKey, -⟩
    exact isOther value inValues isKey
  rw [resultAt, notStored, if_neg notDeleted]

end MergeCall

variable {call : MergeCall}

theorem mapM_onNextMergeResult {values : List MergedValue}
    {identifiers : List ObjectIdentifier}
    (resolved : values.mapM (onNextMergeResult call.replies) = .ok identifiers) :
    identifiers = values.map call.identifier ∧
      ∀ value ∈ values, onNextMergeResult call.replies value = .ok (call.identifier value) := by
  induction values generalizing identifiers with
  | nil =>
    rw [mapM_nil] at resolved
    cases resolved
    simp
  | cons value values ih =>
    rw [mapM_cons] at resolved
    cases isFirst : onNextMergeResult call.replies value with
    | error status => simp [isFirst, bind, Except.bind] at resolved
    | ok first =>
      cases isRest : values.mapM (onNextMergeResult call.replies) with
      | error status => simp [isFirst, isRest, bind, Except.bind] at resolved
      | ok rest =>
        simp only [isFirst, isRest, bind, Except.bind, pure, Except.pure,
          Except.ok.injEq] at resolved
        have isIdentifier : call.identifier value = first := by
          simp only [MergeCall.identifier, isFirst]
        obtain ⟨rfl, each⟩ := ih isRest
        refine ⟨?_, ?_⟩
        · rw [← resolved, map_cons, isIdentifier]
        · rw [forall_mem_cons, isFirst, isIdentifier]
          exact ⟨rfl, each⟩

theorem puts_eq (call : MergeCall) (values : List MergedValue) :
    puts values (values.map call.identifier) =
      (values.filter call.isStored).map fun value => value.put (call.identifier value) := by
  induction values with
  | nil => rfl
  | cons value values ih =>
    simp only [puts, map_cons, zip_cons_cons, filter_cons] at ih ⊢
    by_cases isStored : call.isStored value = true
    · have hasDigest : (call.identifier value).objectDigest ≠ [] := by
        simpa [MergeCall.isStored] using isStored
      simp only [isStored, hasDigest, decide_true, ne_eq, not_false_eq_true, if_true, map_cons, ih]
    · have noDigest : (call.identifier value).objectDigest = [] := by
        simpa [MergeCall.isStored] using isStored
      simp only [isStored, noDigest, ne_eq, not_true_eq_false, decide_false,
        Bool.false_eq_true, if_false, ih]

theorem lastChange_puts (call : MergeCall) (key : Key) :
    lastChange (puts call.values (call.values.map call.identifier)) key =
      (call.lastStored key).map fun value => value.put (call.identifier value) := by
  rw [puts_eq, lastChange, filter_map, getLast?_map, MergeCall.lastStored, filter_filter]
  refine congrArg (fun values => Option.map _ (getLast? values)) ?_
  exact filter_congr fun value _ => by simp [MergedValue.put]

theorem foldl_deletions (call : MergeCall) (pending : Contents) (key : Key) :
    (deletions call.values).foldl applyToMap pending key =
      if call.deletes key then none else pending key := by
  rw [foldl_applyToMap]
  cases isLast : lastChange (deletions call.values) key with
  | none =>
    have notDeleted : ¬call.deletes key = true := by
      rw [call.deletes_iff]
      rintro ⟨value, inValues, isKey, isDelete⟩
      have inDeletions : value.deletion ∈ deletions call.values :=
        mem_map_of_mem (mem_filter.mpr ⟨inValues, by simpa using isDelete⟩)
      subst isKey
      exact lastChange_ne_none inDeletions isLast
    rw [if_neg notDeleted]
    rfl
  | some change =>
    obtain ⟨inDeletions, isKey⟩ := mem_of_lastChange isLast
    obtain ⟨value, inFilter, rfl⟩ := mem_map.mp inDeletions
    obtain ⟨inValues, isDelete⟩ := mem_filter.mp inFilter
    have isDeleted : call.deletes key = true :=
      call.deletes_iff.mpr ⟨value, inValues, isKey, by simpa using isDelete⟩
    rw [if_pos isDeleted]
    rfl

namespace ConflictResolverClient

theorem merge_ok {client next : ConflictResolverClient}
    (answered : (client.merge call).1 = .ok) (isNext : (client.merge call).2 = some next) :
    (∀ value ∈ call.values, onNextMergeResult call.replies value = .ok (call.identifier value)) ∧
    next.journal.failedOperation = client.journal.failedOperation ∧
    ∀ key, next.journal.pending key = call.resultAt client.journal.pending key := by
  unfold merge at answered isNext
  by_cases isDeleted :
    (client.journal.writeAll call.replies.deletion (deletions call.values)).2 = .ok
  case neg => simp [isDeleted] at answered
  cases resolved : call.values.mapM (onNextMergeResult call.replies) with
  | error status => simp [isDeleted, resolved] at isNext
  | ok identifiers =>
    obtain ⟨rfl, each⟩ := mapM_onNextMergeResult resolved
    simp only [isDeleted, ne_eq, not_true_eq_false, if_false, resolved] at answered isNext
    cases isNext
    have isWritten := MergeJournal.writeAll_ok answered
    rw [MergeJournal.writeAll_ok isDeleted] at isWritten
    refine ⟨each, ?_, ?_⟩
    · rw [MergeJournal.writeAll_ok isDeleted, isWritten]
    · intro key
      rw [MergeJournal.writeAll_ok isDeleted, isWritten]
      simp only []
      rw [foldl_applyToMap, lastChange_puts, foldl_deletions, MergeCall.resultAt]
      cases call.lastStored key with
      | none => rfl
      | some value => rfl

end ConflictResolverClient

end Peridot
