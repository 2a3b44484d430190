import Peridot.ConflictResolver
import Peridot.LedgerManager

/-!
# Resolving the conflicts of a page

`LedgerClient` resolves a conflict of a page: it reads the conflicting diff, asks the clients of the
page what to keep, and sends what differs from the left side.
-/

namespace Peridot

/-- What is read of the `Value` of one side. -/
inductive SideValue where
  | value (bytes : Bytes)
  | unreadable

structure DiffEntry where
  key : Bytes
  left : Option SideValue
  right : Option SideValue

inductive ConflictResolution where
  | left
  | right
  | merge

/-- `PageClient::Conflict`, without what `OnPageConflict` computes. -/
structure PageConflict where
  key : Bytes
  hasLeft : Bool
  left : Bytes
  leftIsDeleted : Bool
  hasRight : Bool
  right : Bytes
  rightIsDeleted : Bool

/-- What `OnPageConflict` computes. -/
structure ConflictChoice where
  resolution : ConflictResolution
  merged : Bytes
  mergedIsDeleted : Bool

structure PageClient where
  keyPrefix : Bytes
  onPageConflict : PageConflict → ConflictChoice

/-- The right side of `ToConflict`. -/
def toConflictRight (conflict : PageConflict) : Option SideValue → PageConflict
  | some (.value bytes) => { conflict with hasRight := true, right := bytes }
  | some .unreadable => { conflict with hasRight := true }
  | none => { conflict with rightIsDeleted := true }

def toConflict (entry : DiffEntry) : PageConflict :=
  match entry.left with
  | some (.value bytes) =>
    toConflictRight ⟨entry.key, true, bytes, false, false, [], false⟩ entry.right
  | some .unreadable => ⟨entry.key, true, [], false, false, [], false⟩
  | none => toConflictRight ⟨entry.key, false, [], true, false, [], false⟩ entry.right

def firstClient (clients : List PageClient) (key : Bytes) : Option PageClient :=
  clients.find? fun client => client.keyPrefix.isPrefixOf key

def mergedValue (key : Bytes) (choice : ConflictChoice) : List MergedValue :=
  match choice.resolution with
  | .left => []
  | .right => [⟨key, .right, .bytes [], .eager⟩]
  | .merge =>
    if choice.mergedIsDeleted then [⟨key, .delete, .bytes [], .eager⟩]
    else [⟨key, .new, .bytes choice.merged, .eager⟩]

/-- The `merge_changes` of a conflict. -/
def mergeChanges (clients : List PageClient) (conflict : PageConflict) : List MergedValue :=
  if conflict.hasLeft ∧ conflict.hasRight then
    match firstClient clients conflict.key with
    | some client => mergedValue conflict.key (client.onPageConflict conflict)
    | none => []
  else []

/-- `LedgerClient::ConflictResolverImpl::ResolveCall`. `merges` are the calls of `Merge`, and
`awaited` are those that are not answered. -/
structure ConflictResolveCall where
  hasDiff : Bool
  mergedNonConflict : Bool
  conflicts : List PageConflict
  mergeCount : ℤ
  merges : List (List MergedValue)
  awaited : List ℕ
  doneCalls : ℕ

/-- The answers of the calls of `GetConflictingDiff`, `MergeNonConflictingEntries` and `Merge`. -/
inductive ResolveEvent where
  | diff (status : LedgerStatus) (changeDelta : List DiffEntry)
  | nonConflicting (status : LedgerStatus)
  | merged (index : ℕ) (status : LedgerStatus)

namespace ConflictResolveCall

def start : ConflictResolveCall :=
  ⟨false, false, [], 1, [], [], 0⟩

/-- An entry of the diff is put into `conflicts_`. -/
def addConflict (conflicts : List PageConflict) (entry : DiffEntry) : List PageConflict :=
  KeyedList.replaceAt PageConflict.key entry.key [toConflict entry] conflicts

def mergeDone (call : ConflictResolveCall) : ConflictResolveCall :=
  if call.mergeCount - 1 = 0 then
    { call with
      mergeCount := call.mergeCount - 1
      doneCalls := call.doneCalls + 1 }
  else { call with mergeCount := call.mergeCount - 1 }

/-- `Merge` is called for a conflict, unless there is nothing to send. -/
def mergeConflict (clients : List PageClient) (call : ConflictResolveCall)
    (conflict : PageConflict) : ConflictResolveCall :=
  if mergeChanges clients conflict = [] then call
  else
    { call with
      mergeCount := call.mergeCount + 1
      merges := call.merges ++ [mergeChanges clients conflict]
      awaited := call.awaited ++ [call.merges.length] }

def cont (clients : List PageClient) (call : ConflictResolveCall) : ConflictResolveCall :=
  if call.hasDiff ∧ call.mergedNonConflict then
    (call.conflicts.foldl (mergeConflict clients) call).mergeDone
  else call

def step (clients : List PageClient) (call : ConflictResolveCall) :
    ResolveEvent → Option ConflictResolveCall
  | .diff status changeDelta =>
    if call.hasDiff then none
    else if status ≠ .ok ∧ status ≠ .partialResult then
      some ({ call with hasDiff := true }.cont clients)
    else if status = .ok then
      some ({ call with
        conflicts := changeDelta.foldl addConflict call.conflicts
        hasDiff := true }.cont clients)
    else some { call with conflicts := changeDelta.foldl addConflict call.conflicts }
  | .nonConflicting _ =>
    if call.mergedNonConflict then none
    else some ({ call with mergedNonConflict := true }.cont clients)
  | .merged index _ =>
    if index ∈ call.awaited then
      some { call with awaited := call.awaited.erase index }.mergeDone
    else none

end ConflictResolveCall

/-- What a merge has at a key: what one side has there, another value, or none. -/
inductive MergedState where
  | left
  | right
  | value (newValue : BytesOrReference)
  | deleted

def MergedValue.state (value : MergedValue) : MergedState :=
  match value.source with
  | .right => .right
  | .new => .value value.newValue
  | .delete => .deleted

/-- What calls of `Merge` leave at a key: the left value, where no merged value has been set. -/
def mergedState (merges : List (List MergedValue)) (key : Bytes) : MergedState :=
  match (merges.flatten.filter fun value => value.key = key).getLast? with
  | some value => value.state
  | none => .left

def ConflictChoice.state (choice : ConflictChoice) : MergedState :=
  match choice.resolution with
  | .left => .left
  | .right => .right
  | .merge => if choice.mergedIsDeleted then .deleted else .value (.bytes choice.merged)

def SideValue.bytes : SideValue → Bytes
  | .value bytes => bytes
  | .unreadable => []

/-- What the first client whose prefix matches chooses where both sides have a value, and the left
side otherwise. -/
def chosenState (clients : List PageClient) (entry : DiffEntry) : MergedState :=
  match entry.left, entry.right, firstClient clients entry.key with
  | some left, some right, some client =>
    (client.onPageConflict ⟨entry.key, true, left.bytes, false, true, right.bytes, false⟩).state
  | _, _, _ => .left

def diffEntries (events : List ResolveEvent) : List DiffEntry :=
  events.flatMap fun event => match event with
    | .diff .ok changeDelta | .diff .partialResult changeDelta => changeDelta
    | _ => []

def lastEntry (entries : List DiffEntry) (key : Bytes) : Option DiffEntry :=
  (entries.filter fun entry => entry.key = key).getLast?

/-- The status that an answer has is none of the errors. -/
def ResolveEvent.Succeeds : ResolveEvent → Prop
  | .diff status _ => status = .ok ∨ status = .partialResult
  | .nonConflicting status => status = .ok
  | .merged _ _ => True

/-- The client that chooses is asked: the left side can be read, or there is nothing else to
choose. -/
def IsAsked (clients : List PageClient) (entry : DiffEntry) : Prop :=
  entry.left = some .unreadable → chosenState clients entry = .left

/-- The differences have come, and both merges have been answered. -/
def ConflictResolveCall.Settled (call : ConflictResolveCall) : Prop :=
  call.hasDiff = true ∧ call.mergedNonConflict = true ∧ call.awaited = []

/-- `Done` is called at most once, after all answers of `Merge`, after the whole diff was read and
the other entries were merged; it is called if all calls succeed; and then each conflicting key has
what was chosen. -/
structure ResolvesConflict (clients : List PageClient) (events : List ResolveEvent)
    (call : ConflictResolveCall) : Prop where
  once : call.doneCalls ≤ 1
  answered : call.doneCalls = 1 → call.awaited = []
  read : call.doneCalls = 1 → ∃ changeDelta, .diff .ok changeDelta ∈ events
  merged : call.doneCalls = 1 → .nonConflicting .ok ∈ events
  done : call.Settled → (∀ event ∈ events, event.Succeeds) → call.doneCalls = 1
  contents : call.doneCalls = 1 → ∀ key entry, lastEntry (diffEntries events) key = some entry →
    mergedState call.merges key = chosenState clients entry

end Peridot
