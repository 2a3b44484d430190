import Mathlib.Data.List.Perm.Basic
import Peridot.CallList
import Peridot.Registry
import Peridot.StepRun
import Peridot.StorageTypes

/-!
# The pages of a ledger

`LedgerManager` keeps a container for each page that is in use.  A container is registered before
the storage of its page is there, and the answers of the storage find it by its address.
-/

namespace Peridot

open List Function

inductive LedgerStatus where
  | ok
  | partialResult
  | invalidToken
  | invalidArgument
  | pageNotFound
  | keyNotFound
  | referenceNotFound
  | needsFetch
  | ioError
  | networkError
  | transactionAlreadyInProgress
  | noTransactionInProgress
  | internalError
  | keyTooLarge
  | valueTooLarge
  | unknownError
deriving DecidableEq

/-- `PageUtils::ConvertStatus`, where a release build does not check the status. -/
def convertStatus : Status → LedgerStatus → LedgerStatus
  | .ok, _ => .ok
  | .ioError, _ => .ioError
  | .notFound, notFoundStatus => notFoundStatus
  | .notConnectedError, _ => .networkError
  | _, _ => .internalError

/-- `PageManager`, with the callbacks of the pages whose `Init` waits for the storage, and the
numbers of pages that are bound and of those that could not be. -/
structure PageManager where
  syncBacklogDownloaded : Bool
  pageRequests : List ℕ
  initializing : List ℕ
  boundPages : ℕ
  failedPages : ℕ

/-- `PageManagerContainer`; `id` stands for its address. -/
structure PageManagerContainer where
  id : ℕ
  status : LedgerStatus
  requests : List ℕ
  pageManager : Option PageManager

/-- A call of the storage that is not answered, with the address that its callback has. -/
structure StorageCall where
  creates : Bool
  pageId : Bytes
  container : ℕ

/-- `LedgerManager`. `step` numbers the callbacks of the calls of `GetPage`, and `answers` are the
statuses that callbacks were called with. `foundFreed` is whether an answer of the storage met a
container that is not there any more. -/
structure LedgerManager where
  hasSync : Bool
  pageManagers : List (Bytes × PageManagerContainer)
  storageCalls : List StorageCall
  issued : ℕ
  answers : List (ℕ × LedgerStatus)
  deletions : List LedgerStatus
  foundFreed : Bool
  checkFailed : Bool

/-- What the clients, the storage, the synchronization and the pages do. -/
inductive LedgerManagerEvent where
  | getPage (pageId : Bytes)
  | deletePage (pageId : Bytes) (isDeleted : Bool)
  | storageReply (index : ℕ) (status : Status) (hasStorage : Bool)
  | syncBacklogDownloaded (pageId : Bytes)
  | pageInitialized (pageId : Bytes) (index : ℕ) (status : Status)
  | pageClosed (pageId : Bytes)
  | pageManagerEmpty (pageId : Bytes)

namespace PageManager

/-- The constructor. It waits for the cloud if there is one and the storage is new. -/
def new (hasSync isNew : Bool) : PageManager :=
  ⟨!(hasSync && isNew), [], [], 0, 0⟩

def bindPage (manager : PageManager) (callback : ℕ) : PageManager :=
  if manager.syncBacklogDownloaded then
    { manager with initializing := manager.initializing ++ [callback] }
  else { manager with pageRequests := manager.pageRequests ++ [callback] }

def onSyncBacklogDownloaded (manager : PageManager) : PageManager :=
  { manager.pageRequests.foldl bindPage { manager with syncBacklogDownloaded := true } with
    pageRequests := [] }

/-- The storage has answered `Init` of a page. -/
def pageInitialized (manager : PageManager) (index : ℕ) (status : LedgerStatus) : PageManager :=
  if status = .ok then
    { manager with
      initializing := manager.initializing.eraseIdx index
      boundPages := manager.boundPages + 1 }
  else
    { manager with
      initializing := manager.initializing.eraseIdx index
      failedPages := manager.failedPages + 1 }

def hasNoPages (manager : PageManager) : Bool :=
  manager.pageRequests.isEmpty && manager.initializing.isEmpty && manager.boundPages = 0 &&
    manager.failedPages = 0

end PageManager

namespace PageManagerContainer

/-- `BindPage`, with the callbacks that it calls. -/
def bindPage (container : PageManagerContainer) (callback : ℕ) :
    PageManagerContainer × List (ℕ × LedgerStatus) :=
  if container.status ≠ .ok then (container, [(callback, container.status)])
  else
    match container.pageManager with
    | some manager => ({ container with pageManager := some (manager.bindPage callback) }, [])
    | none => ({ container with requests := container.requests ++ [callback] }, [])

def setPageManager (container : PageManagerContainer) (manager : PageManager) :
    PageManagerContainer :=
  { container with
    status := .ok
    requests := []
    pageManager := some (container.requests.foldl PageManager.bindPage manager) }

/-- The callbacks that the destructors of the container and of its manager call. -/
def destroyed (container : PageManagerContainer) : List (ℕ × LedgerStatus) :=
  (container.requests ++ (container.pageManager.map PageManager.pageRequests).getD []).map
    fun callback => (callback, .internalError)

end PageManagerContainer

namespace LedgerManager

open Registry

def start (hasSync : Bool) : LedgerManager :=
  ⟨hasSync, [], [], 0, [], [], false, false⟩

def updateManager (ledger : LedgerManager) (pageId : Bytes) (change : PageManager → PageManager) :
    LedgerManager :=
  { ledger with
    pageManagers := update ledger.pageManagers pageId fun container =>
      { container with pageManager := container.pageManager.map change } }

def getPage (ledger : LedgerManager) (pageId : Bytes) (callback : ℕ) : LedgerManager :=
  match find ledger.pageManagers pageId with
  | some container =>
    { ledger with
      pageManagers := update ledger.pageManagers pageId fun container =>
        (container.bindPage callback).1
      answers := ledger.answers ++ (container.bindPage callback).2 }
  | none =>
    { ledger with
      pageManagers := ledger.pageManagers ++ [(pageId, ⟨callback, .ok, [callback], none⟩)]
      storageCalls := ledger.storageCalls ++ [⟨false, pageId, callback⟩] }

def deletePage (ledger : LedgerManager) (pageId : Bytes) (isDeleted : Bool) : LedgerManager :=
  { ledger with
    pageManagers := erase ledger.pageManagers pageId
    answers := ledger.answers ++
      ((find ledger.pageManagers pageId).map PageManagerContainer.destroyed).getD []
    deletions := ledger.deletions ++ [if isDeleted then .ok else .pageNotFound] }

def failContainer (ledger : LedgerManager) (pageId : Bytes) (container : PageManagerContainer)
    (status : LedgerStatus) : LedgerManager :=
  { ledger with
    checkFailed := container.pageManager.isSome
    pageManagers := erase ledger.pageManagers pageId
    answers := ledger.answers ++ container.requests.map fun callback => (callback, status) }

def completeContainer (ledger : LedgerManager) (pageId : Bytes)
    (container : PageManagerContainer) (isNew : Bool) : LedgerManager :=
  { ledger with
    checkFailed := container.pageManager.isSome
    pageManagers := update ledger.pageManagers pageId fun container =>
      container.setPageManager (.new ledger.hasSync isNew) }

/-- The callbacks of `GetPageStorage` and of `CreatePageStorage`, for a container that is there. -/
def onStorageReply (ledger : LedgerManager) (call : StorageCall)
    (container : PageManagerContainer) (status : Status) (hasStorage : Bool) : LedgerManager :=
  if call.creates then
    if status ≠ .ok then ledger.failContainer call.pageId container .internalError
    else ledger.completeContainer call.pageId container true
  else if convertStatus status .ok ≠ .ok then
    ledger.failContainer call.pageId container (convertStatus status .ok)
  else if hasStorage then ledger.completeContainer call.pageId container false
  else
    { ledger with
      storageCalls := ledger.storageCalls ++ [⟨true, call.pageId, call.container⟩] }

def containerOf (ledger : LedgerManager) (call : StorageCall) : Option PageManagerContainer :=
  (find ledger.pageManagers call.pageId).filter fun container => container.id = call.container

def reply (ledger : LedgerManager) (call : StorageCall) (status : Status) (hasStorage : Bool) :
    LedgerManager :=
  match ledger.containerOf call with
  | some container => ledger.onStorageReply call container status hasStorage
  | none => { ledger with foundFreed := true }

def answerInit (ledger : LedgerManager) (pageId : Bytes) (index callback : ℕ)
    (status : LedgerStatus) : LedgerManager :=
  { ledger.updateManager pageId fun manager => manager.pageInitialized index status with
    answers := ledger.answers ++ [(callback, status)] }

def managerOf (ledger : LedgerManager) (pageId : Bytes) : Option PageManager :=
  (find ledger.pageManagers pageId).bind PageManagerContainer.pageManager

def step (ledger : LedgerManager) (event : LedgerManagerEvent) : Option LedgerManager :=
  if ledger.foundFreed || ledger.checkFailed then none
  else match event with
    | .getPage pageId =>
      some { ledger.getPage pageId ledger.issued with issued := ledger.issued + 1 }
    | .deletePage pageId isDeleted => some (ledger.deletePage pageId isDeleted)
    | .storageReply index status hasStorage =>
      ledger.storageCalls[index]?.map fun call =>
        { ledger with storageCalls := ledger.storageCalls.eraseIdx index }.reply call status
          hasStorage
    | .syncBacklogDownloaded pageId =>
      (ledger.managerOf pageId).map fun _ =>
        ledger.updateManager pageId PageManager.onSyncBacklogDownloaded
    | .pageInitialized pageId index status =>
      ((ledger.managerOf pageId).bind fun manager => manager.initializing[index]?).map
        fun callback => ledger.answerInit pageId index callback
          (convertStatus status .internalError)
    | .pageClosed pageId =>
      ((ledger.managerOf pageId).filter fun manager => manager.boundPages ≠ 0).map fun _ =>
        ledger.updateManager pageId fun manager =>
          { manager with boundPages := manager.boundPages - 1 }
    | .pageManagerEmpty pageId =>
      ((ledger.managerOf pageId).filter PageManager.hasNoPages).map fun _ =>
        { ledger with pageManagers := erase ledger.pageManagers pageId }

end LedgerManager

def PageManager.waiting (manager : PageManager) : List ℕ :=
  manager.pageRequests ++ manager.initializing

def PageManagerContainer.waiting (container : PageManagerContainer) : List ℕ :=
  container.requests ++ (container.pageManager.map PageManager.waiting).getD []

/-- Each callback has been called once, or waits for something that is still to come; each page has
one container; and the container of each call of the storage is there. -/
structure ServesPages (ledger : LedgerManager) : Prop where
  notFreed : ledger.foundFreed = false
  checks : ledger.checkFailed = false
  onePerPage : (ledger.pageManagers.map Prod.fst).Nodup
  registered : ∀ call ∈ ledger.storageCalls, ∃ container,
    (call.pageId, container) ∈ ledger.pageManagers ∧ container.id = call.container
  calledOnce : (ledger.answers.map Prod.fst ++
    ledger.pageManagers.flatMap fun entry => entry.2.waiting).Perm (List.range ledger.issued)
  awaited : ∀ entry ∈ ledger.pageManagers, match entry.2.pageManager with
    | none => ∃ call ∈ ledger.storageCalls, call.container = entry.2.id
    | some manager => entry.2.requests = [] ∧
        (manager.syncBacklogDownloaded = true → manager.pageRequests = [])

/-- A page is deleted only while its storage is there and none of its pages waits for `Init`. -/
def CanDelete (ledger : LedgerManager) : LedgerManagerEvent → Prop
  | .deletePage pageId _ => ∀ container, Registry.find ledger.pageManagers pageId = some container →
      ∃ manager, container.pageManager = some manager ∧ manager.initializing = []
  | _ => True

namespace PageManager

variable {manager : PageManager}

theorem waiting_bindPage (manager : PageManager) (callback : ℕ) :
    (manager.bindPage callback).waiting.Perm (manager.waiting ++ [callback]) := by
  unfold bindPage
  split
  · simp [waiting]
  · simp only [waiting, append_assoc]
    exact perm_append_comm.append_left manager.pageRequests

theorem waiting_foldl_bindPage (manager : PageManager) (callbacks : List ℕ) :
    (callbacks.foldl bindPage manager).waiting.Perm (manager.waiting ++ callbacks) := by
  induction callbacks generalizing manager with
  | nil => simp
  | cons callback callbacks ih =>
    have moved := (manager.waiting_bindPage callback).append_right callbacks
    rw [append_assoc, singleton_append] at moved
    exact (ih _).trans moved

def Downloaded (manager : PageManager) : Prop :=
  manager.syncBacklogDownloaded = true → manager.pageRequests = []

theorem Downloaded.bindPage (downloaded : manager.Downloaded) (callback : ℕ) :
    (manager.bindPage callback).Downloaded := by
  unfold PageManager.bindPage
  split
  · exact downloaded
  · rename_i notYet
    exact fun isDownloaded => absurd isDownloaded notYet

theorem Downloaded.foldl_bindPage (downloaded : manager.Downloaded) (callbacks : List ℕ) :
    (callbacks.foldl PageManager.bindPage manager).Downloaded := by
  induction callbacks generalizing manager with
  | nil => exact downloaded
  | cons callback callbacks ih => exact ih (downloaded.bindPage callback)

theorem downloaded_new (hasSync isNew : Bool) : (new hasSync isNew).Downloaded :=
  fun _ => rfl

theorem onSyncBacklogDownloaded_eq (manager : PageManager) : manager.onSyncBacklogDownloaded =
      { manager with
        syncBacklogDownloaded := true
        initializing := manager.initializing ++ manager.pageRequests
        pageRequests := [] } := by
  have bound : ∀ (callbacks : List ℕ) (other : PageManager),
      other.syncBacklogDownloaded = true → callbacks.foldl bindPage other =
        { other with initializing := other.initializing ++ callbacks } := by
    intro callbacks
    induction callbacks with
    | nil => exact fun other _ => by rw [append_nil]; rfl
    | cons callback callbacks ih =>
      intro other isDownloaded
      have isBound : other.bindPage callback =
          { other with initializing := other.initializing ++ [callback] } := by
        rw [bindPage, if_pos isDownloaded]
      rw [foldl_cons, isBound]
      refine (ih { other with initializing := other.initializing ++ [callback] }
        isDownloaded).trans ?_
      rw [append_assoc, singleton_append]
  rw [onSyncBacklogDownloaded, bound _ _ rfl]

end PageManager

namespace LedgerManager

/-- What else holds of a ledger: addresses are distinct, and the storage is asked for a container
until the container has its manager. -/
structure Tracked (ledger : LedgerManager) : Prop extends ServesPages ledger where
  distinct : (ledger.pageManagers.map fun entry => entry.2.id).Nodup
  fresh : ∀ entry ∈ ledger.pageManagers, entry.2.id < ledger.issued
  calls : (ledger.storageCalls.map StorageCall.container).Nodup
  unmanaged : ∀ call ∈ ledger.storageCalls, ∀ entry ∈ ledger.pageManagers,
    entry.2.id = call.container → entry.2.pageManager = none
  statuses : ∀ entry ∈ ledger.pageManagers, entry.2.status = .ok

variable {ledger next : LedgerManager} {before after : List (Bytes × PageManagerContainer)}
  {pageId : Bytes} {container changed : PageManagerContainer} {entry : Bytes × PageManagerContainer}
    {manager : PageManager} {event : LedgerManagerEvent} {calls : List StorageCall} {index : ℕ}
    {call : StorageCall}

/-- The callbacks that are accounted for, where one container is set apart. -/
theorem waiting_split (changed : Option PageManagerContainer) {answers : List (ℕ × LedgerStatus)} :
    (answers.map Prod.fst ++ (before ++ ((changed.map (Prod.mk pageId)).toList ++ after)).flatMap
        fun entry => entry.2.waiting).Perm (answers.map Prod.fst ++
        (changed.map PageManagerContainer.waiting).getD [] ++
        (before ++ after).flatMap fun entry => entry.2.waiting) := by
  rw [append_assoc]
  refine List.Perm.append_left _ ?_
  cases changed with
  | none => exact .refl _
  | some container =>
    simp only [flatMap_append, Option.map_some, Option.toList_some, Option.getD_some,
      flatMap_singleton]
    rw [← append_assoc, ← append_assoc]
    exact perm_append_comm.append_right _

theorem Tracked.others (tracked : Tracked ledger)
    (isSplit : ledger.pageManagers = before ++ (pageId, container) :: after)
    (inOthers : entry ∈ before ++ after) :
    entry ∈ ledger.pageManagers ∧ entry.1 ≠ pageId ∧ entry.2.id ≠ container.id := by
  have keys := tracked.onePerPage
  have ids := tracked.distinct
  rw [isSplit, map_append, map_cons, nodup_middle, nodup_cons, ← map_append] at keys ids
  refine ⟨?_, fun same => keys.1 (mem_map.mpr ⟨entry, inOthers, same⟩),
    fun same => ids.1 (mem_map.mpr ⟨entry, inOthers, same⟩)⟩
  rw [isSplit]
  rcases mem_append.mp inOthers with inBefore | inAfter
  · exact mem_append_left _ inBefore
  · exact mem_append_right _ (mem_cons_of_mem _ inAfter)

theorem mem_split : entry ∈ before ++ (pageId, container) :: after ↔
      entry = (pageId, container) ∨ entry ∈ before ++ after := by
  simp only [mem_append, mem_cons]
  tauto

section

variable (tracked : Tracked ledger)
include tracked

theorem Tracked.called_iff (isEntry : (pageId, container) ∈ ledger.pageManagers) :
    container.pageManager = none ↔ ∃ call ∈ ledger.storageCalls, call.container = container.id := by
  constructor
  · intro noManager
    have awaited := tracked.awaited _ isEntry
    simp only [noManager] at awaited
    exact awaited
  · rintro ⟨call, inCalls, isCall⟩
    exact tracked.unmanaged call inCalls _ isEntry isCall.symm

/-- A container that waits for the storage still does if its call is still there. -/
theorem Tracked.awaited_of_calls (isEntry : entry ∈ ledger.pageManagers)
    (kept : ∀ call ∈ ledger.storageCalls, call.container = entry.2.id → call ∈ calls) :
    match entry.2.pageManager with
    | none => ∃ call ∈ calls, call.container = entry.2.id
    | some manager => entry.2.requests = [] ∧
        (manager.syncBacklogDownloaded = true → manager.pageRequests = []) := by
  have awaited := tracked.awaited entry isEntry
  cases isManager : entry.2.pageManager with
  | none =>
    simp only [isManager] at awaited
    obtain ⟨call, inCalls, isCall⟩ := awaited
    exact ⟨call, kept call inCalls isCall, isCall⟩
  | some manager =>
    simp only [isManager] at awaited
    exact awaited

theorem Tracked.set (changed : Option PageManagerContainer)
    (isSplit : ledger.pageManagers = before ++ (pageId, container) :: after)
    (managers : next.pageManagers = before ++ ((changed.map (Prod.mk pageId)).toList ++ after))
    (notFreed : next.foundFreed = false) (checks : next.checkFailed = false)
    (same : ∀ new ∈ changed, new.id = container.id ∧ new.status = .ok ∧
      ∀ manager ∈ new.pageManager, new.requests = [] ∧ manager.Downloaded)
    (calls : (next.storageCalls.map StorageCall.container).Nodup)
    (kept : ∀ call ∈ next.storageCalls, call ∈ ledger.storageCalls ∨
      call.pageId = pageId ∧ call.container = container.id)
    (others : ∀ call ∈ ledger.storageCalls, call.container ≠ container.id →
      call ∈ next.storageCalls)
    (called : (∃ new ∈ changed, new.pageManager = none) ↔
      ∃ call ∈ next.storageCalls, call.container = container.id)
    {new : List ℕ} (issued : range next.issued = range ledger.issued ++ new)
    (account : (next.answers.map Prod.fst ++ (changed.map PageManagerContainer.waiting).getD []).Perm
      (ledger.answers.map Prod.fst ++ container.waiting ++ new)) : Tracked next := by
  have isEntry : (pageId, container) ∈ ledger.pageManagers := by simp [isSplit]
  have more : ledger.issued ≤ next.issued := by
    have length := congrArg length issued
    rw [length_append, length_range, length_range] at length
    omega
  have inNext (entry : Bytes × PageManagerContainer) : entry ∈ next.pageManagers ↔
      (∃ new ∈ changed, (pageId, new) = entry) ∨ entry ∈ before ++ after := by
    simp only [managers, mem_append, Option.mem_toList, Option.mem_def, Option.map_eq_some_iff]
    exact or_left_comm
  have keys : (next.pageManagers.map Prod.fst).Sublist (ledger.pageManagers.map Prod.fst) := by
    rw [managers, isSplit]
    cases changed <;> simp
  have ids : (next.pageManagers.map fun entry => entry.2.id).Sublist
      (ledger.pageManagers.map fun entry => entry.2.id) := by
    rw [managers, isSplit]
    cases changed with
    | none => simp
    | some new => simp [(same new rfl).1]
  refine
    { notFreed
      checks
      onePerPage := tracked.onePerPage.sublist keys
      registered := fun call inCalls => ?_
      calledOnce := ?_
      awaited := fun entry inEntries => ?_
      distinct := tracked.distinct.sublist ids
      fresh := fun entry inEntries => ?_
      calls
      unmanaged := fun call inCalls entry inEntries isCall => ?_
      statuses := fun entry inEntries => ?_ }
  · have own (samePage : call.pageId = pageId) (isOwn : call.container = container.id) :
        ∃ container, (call.pageId, container) ∈ next.pageManagers ∧
          container.id = call.container := by
      obtain ⟨new, isNew, -⟩ := called.mpr ⟨call, inCalls, isOwn⟩
      exact ⟨new, (inNext _).mpr (.inl ⟨new, isNew, by rw [samePage]⟩),
        (same new isNew).1.trans isOwn.symm⟩
    rcases kept call inCalls with inOld | ⟨samePage, isOwn⟩
    · obtain ⟨other, isOther, isCall⟩ := tracked.registered call inOld
      rw [isSplit, mem_split] at isOther
      rcases isOther with isSame | inOthers
      · obtain ⟨samePage, rfl⟩ := Prod.mk.inj isSame
        exact own samePage isCall.symm
      · exact ⟨other, (inNext _).mpr (.inr inOthers), isCall⟩
    · exact own samePage isOwn
  · rw [managers, issued]
    refine (waiting_split changed).trans ((account.append_right _).trans ?_)
    have before := tracked.calledOnce
    rw [isSplit] at before
    refine List.Perm.trans ?_ (before.append_right new)
    refine List.Perm.trans ?_ ((waiting_split (some container)).symm.append_right new)
    rw [append_assoc _ new, append_assoc _ _ new]
    exact perm_append_comm.append_left _
  · rcases (inNext entry).mp inEntries with ⟨new, isNew, rfl⟩ | inOthers
    · cases isManager : new.pageManager with
      | none =>
        obtain ⟨call, inCalls, isCall⟩ := called.mp ⟨new, isNew, isManager⟩
        exact ⟨call, inCalls, isCall.trans (same new isNew).1.symm⟩
      | some manager => exact (same new isNew).2.2 manager isManager
    · obtain ⟨inOld, -, otherId⟩ := tracked.others isSplit inOthers
      exact tracked.awaited_of_calls inOld fun call inCalls isCall =>
        others call inCalls (isCall ▸ otherId)
  · rcases (inNext entry).mp inEntries with ⟨new, isNew, rfl⟩ | inOthers
    · change new.id < next.issued
      rw [(same new isNew).1]
      exact (tracked.fresh _ isEntry).trans_le more
    · exact (tracked.fresh entry (tracked.others isSplit inOthers).1).trans_le more
  · rcases (inNext entry).mp inEntries with ⟨new, isNew, rfl⟩ | inOthers
    · obtain ⟨other, isOther, noManager⟩ :=
        called.mpr ⟨call, inCalls, isCall.symm.trans (same new isNew).1⟩
      rwa [Option.mem_unique isNew isOther]
    · obtain ⟨inOld, -, otherId⟩ := tracked.others isSplit inOthers
      rcases kept call inCalls with inOldCalls | ⟨-, isOwn⟩
      · exact tracked.unmanaged call inOldCalls entry inOld isCall
      · exact absurd (isCall.trans isOwn) otherId
  · rcases (inNext entry).mp inEntries with ⟨new, isNew, rfl⟩ | inOthers
    · exact (same new isNew).2.1
    · exact tracked.statuses entry (tracked.others isSplit inOthers).1

end

theorem exists_calls (isCall : calls[index]? = some call) :
    ∃ first rest, calls = first ++ call :: rest ∧ calls.eraseIdx index = first ++ rest := by
  obtain ⟨inCalls, rfl⟩ := List.getElem?_eq_some_iff.mp isCall
  refine ⟨calls.take index, calls.drop (index + 1), ?_, eraseIdx_eq_take_drop_succ ..⟩
  rw [getElem_cons_drop, take_append_drop]

theorem Tracked.getPage (tracked : Tracked ledger) (pageId : Bytes) :
    Tracked { ledger.getPage pageId ledger.issued with issued := ledger.issued + 1 } := by
  unfold LedgerManager.getPage
  split
  · rename_i container found
    have isEntry := Registry.mem_of_find found
    obtain ⟨before, after, split⟩ := Registry.exists_split tracked.onePerPage isEntry
    have isOk : container.status = .ok := tracked.statuses _ isEntry
    have called := tracked.called_iff isEntry
    have awaited := tracked.awaited _ isEntry
    have isRange : range (ledger.issued + 1) = range ledger.issued ++ [ledger.issued] := range_succ
    cases isManager : container.pageManager with
    | none =>
      have isBound : container.bindPage ledger.issued =
          ({ container with requests := container.requests ++ [ledger.issued] }, []) := by
        simp [PageManagerContainer.bindPage, isOk, isManager]
      have managers : Registry.update ledger.pageManagers pageId
          (fun container => (container.bindPage ledger.issued).1) =
            before ++ (pageId, { container with
              requests := container.requests ++ [ledger.issued] }) :: after := by
        rw [split.update_eq, isBound]
      refine tracked.set (some _) split.isSplit managers tracked.notFreed tracked.checks
        (by simp [isOk, isManager]) tracked.calls (fun _ => .inl) (fun _ inCalls _ => inCalls)
        (by simpa using called) isRange ?_
      · rw [isBound]
        simp [PageManagerContainer.waiting, isManager]
    | some manager =>
      have isBound : container.bindPage ledger.issued =
          ({ container with pageManager := some (manager.bindPage ledger.issued) }, []) := by
        simp [PageManagerContainer.bindPage, isOk, isManager]
      simp only [isManager] at awaited
      have managers : Registry.update ledger.pageManagers pageId
          (fun container => (container.bindPage ledger.issued).1) =
            before ++ (pageId, { container with
              pageManager := some (manager.bindPage ledger.issued) }) :: after := by
        rw [split.update_eq, isBound]
      refine tracked.set (some _) split.isSplit managers tracked.notFreed tracked.checks ?_
        tracked.calls (fun _ => .inl) (fun _ inCalls _ => inCalls) ?_ isRange ?_
      · rintro _ ⟨⟩
        refine ⟨rfl, isOk, ?_⟩
        rintro _ ⟨⟩
        exact ⟨awaited.1, PageManager.Downloaded.bindPage awaited.2 _⟩
      · rw [← called, isManager]
        simp
      · rw [isBound]
        simp only [PageManagerContainer.waiting, isManager, Option.map_some, Option.getD_some,
          awaited.1, nil_append, append_nil, append_assoc]
        exact (manager.waiting_bindPage _).append_left _
  · rename_i notFound
    have notKey := Registry.find_eq_none_iff.mp notFound
    have notCalled : ∀ call ∈ ledger.storageCalls, call.container ≠ ledger.issued := by
      intro call inCalls isNew
      obtain ⟨container, isEntry, isCall⟩ := tracked.registered call inCalls
      have fresh : container.id < ledger.issued := tracked.fresh _ isEntry
      omega
    exact
      { notFreed := tracked.notFreed
        checks := tracked.checks
        onePerPage := by
          rw [map_append, map_singleton]
          exact tracked.onePerPage.append (nodup_singleton _) (by simpa using notKey)
        registered := forall_mem_concat.mpr ⟨fun call inCalls => by
          obtain ⟨container, isEntry, isCall⟩ := tracked.registered call inCalls
          exact ⟨container, mem_append_left _ isEntry, isCall⟩,
          _, mem_concat_self, rfl⟩
        calledOnce := by
          rw [flatMap_append, range_succ, ← append_assoc]
          exact tracked.calledOnce.append_right _
        awaited := forall_mem_concat.mpr ⟨fun entry isEntry =>
          tracked.awaited_of_calls isEntry fun call inCalls _ => mem_append_left _ inCalls,
          _, mem_concat_self, rfl⟩
        distinct := by
          rw [map_append, map_singleton]
          refine tracked.distinct.append (nodup_singleton _) ?_
          rw [disjoint_singleton]
          intro isOld
          obtain ⟨entry, inEntries, isId⟩ := mem_map.mp isOld
          exact absurd isId (tracked.fresh entry inEntries).ne
        fresh := forall_mem_concat.mpr ⟨fun entry inEntries =>
          (tracked.fresh entry inEntries).trans (Nat.lt_succ_self _), Nat.lt_succ_self _⟩
        calls := by
          rw [map_append, map_singleton]
          refine tracked.calls.append (nodup_singleton _) ?_
          rw [disjoint_singleton]
          intro isOld
          obtain ⟨call, inCalls, isCall⟩ := mem_map.mp isOld
          exact notCalled call inCalls isCall
        unmanaged := by
          refine forall_mem_concat.mpr ⟨fun call inCalls => ?_, ?_⟩
          · exact forall_mem_concat.mpr ⟨tracked.unmanaged call inCalls, fun _ => rfl⟩
          · exact forall_mem_concat.mpr ⟨fun entry inEntries isCall =>
              absurd isCall (tracked.fresh entry inEntries).ne, fun _ => rfl⟩
        statuses := forall_mem_concat.mpr ⟨tracked.statuses, rfl⟩ }

/-- What the destructors leave: the callbacks of pages that wait for `Init`. -/
theorem waiting_destroyed (container : PageManagerContainer) : (container.destroyed.map Prod.fst ++
    (container.pageManager.map PageManager.initializing).getD []) = container.waiting := by
  cases isManager : container.pageManager with
  | none => simp [PageManagerContainer.destroyed, PageManagerContainer.waiting, isManager, comp_def]
  | some manager => simp [PageManagerContainer.destroyed, PageManagerContainer.waiting, isManager,
      PageManager.waiting, comp_def]

theorem Tracked.deletePage (tracked : Tracked ledger) {isDeleted : Bool}
    (canDelete : CanDelete ledger (.deletePage pageId isDeleted)) :
    Tracked (ledger.deletePage pageId isDeleted) := by
  cases found : Registry.find ledger.pageManagers pageId with
  | none =>
    have same := Registry.erase_of_notMem (Registry.find_eq_none_iff.mp found)
    have isNext : ledger.deletePage pageId isDeleted = { ledger with
          deletions := ledger.deletions ++ [if isDeleted then .ok else .pageNotFound] } := by
      simp [LedgerManager.deletePage, same, found]
    rw [isNext]
    exact { tracked with
      __ := tracked
      awaited := tracked.awaited }
  | some container =>
    obtain ⟨manager, isManager, noneInitializing⟩ := canDelete container found
    have isEntry := Registry.mem_of_find found
    obtain ⟨before, after, split⟩ := Registry.exists_split tracked.onePerPage isEntry
    have notCalled : ¬∃ call ∈ ledger.storageCalls, call.container = container.id := by
      rintro ⟨call, inCalls, isCall⟩
      have noManager := tracked.unmanaged call inCalls _ isEntry isCall.symm
      simp [isManager] at noManager
    refine tracked.set none split.isSplit split.erase_eq tracked.notFreed tracked.checks
      (by simp) tracked.calls (fun _ => .inl) (fun _ inCalls _ => inCalls)
      (iff_of_false (by simp) notCalled)
      (append_nil _).symm ?_
    have waiting := waiting_destroyed container
    rw [isManager, Option.map_some, Option.getD_some, noneInitializing, append_nil]
      at waiting
    change ((ledger.answers ++ ((Registry.find ledger.pageManagers pageId).map
      PageManagerContainer.destroyed).getD []).map Prod.fst ++ []).Perm _
    rw [append_nil, append_nil, found, Option.map_some, Option.getD_some, map_append, waiting]

theorem setPageManager_waiting (container : PageManagerContainer) (hasSync isNew : Bool) :
    (container.setPageManager (.new hasSync isNew)).waiting.Perm container.requests :=
  PageManager.waiting_foldl_bindPage _ _

theorem Tracked.storageReply (tracked : Tracked ledger)
    (isCall : ledger.storageCalls[index]? = some call) (status : Status) (hasStorage : Bool) :
    Tracked ({ ledger with storageCalls := ledger.storageCalls.eraseIdx index }.reply call status
      hasStorage) := by
  obtain ⟨first, rest, isSplit, isErased⟩ := exists_calls isCall
  have inCalls : call ∈ ledger.storageCalls := by simp [isSplit]
  obtain ⟨container, isEntry, isContainer⟩ := tracked.registered call inCalls
  have noManager : container.pageManager = none :=
    tracked.unmanaged call inCalls _ isEntry isContainer
  have found := Registry.find_of_mem tracked.onePerPage isEntry
  obtain ⟨before, after, split⟩ := Registry.exists_split tracked.onePerPage isEntry
  have otherCalls := tracked.calls
  rw [isSplit, map_append, map_cons, nodup_middle, nodup_cons, ← map_append] at otherCalls
  have notAsked : ¬∃ other ∈ first ++ rest, other.container = container.id := by
    rintro ⟨other, inOthers, isOwn⟩
    exact otherCalls.1 (mem_map.mpr ⟨other, inOthers, isOwn.trans isContainer⟩)
  have inOld : ∀ other ∈ first ++ rest, other ∈ ledger.storageCalls := by
    intro other inOthers
    rw [isSplit]
    rcases mem_append.mp inOthers with inFirst | inRest
    · exact mem_append_left _ inFirst
    · exact mem_append_right _ (mem_cons_of_mem _ inRest)
  have stays : ∀ other ∈ ledger.storageCalls, other.container ≠ container.id →
      other ∈ first ++ rest := by
    intro other inCalls notOwnCall
    rw [isSplit, mem_append, mem_cons] at inCalls
    rcases inCalls with inFirst | rfl | inRest
    · exact mem_append_left _ inFirst
    · exact absurd isContainer.symm notOwnCall
    · exact mem_append_right _ inRest
  have waiting : container.waiting = container.requests := by
    simp [PageManagerContainer.waiting, noManager]
  have unmanaged : container.pageManager.isSome = false := by simp [noManager]
  have failed : ∀ failure, Tracked ({ ledger with
      storageCalls := ledger.storageCalls.eraseIdx index }.failContainer call.pageId container
        failure) := by
    intro failure
    rw [isErased]
    refine tracked.set none split.isSplit split.erase_eq tracked.notFreed unmanaged (by simp)
      otherCalls.2 (fun other inOthers => .inl (inOld other inOthers)) stays
      (iff_of_false (by simp) notAsked) (append_nil _).symm ?_
    change ((ledger.answers ++ container.requests.map fun callback =>
      (callback, failure)).map Prod.fst ++ []).Perm _
    rw [map_append, map_map, waiting]
    simp [comp_def]
  have completed : ∀ isNew, Tracked ({ ledger with
      storageCalls := ledger.storageCalls.eraseIdx index }.completeContainer call.pageId container
        isNew) := by
    intro isNew
    rw [isErased]
    refine tracked.set (some _) split.isSplit
      (split.update_eq fun container => container.setPageManager (.new ledger.hasSync isNew))
      tracked.notFreed unmanaged ?_ otherCalls.2
      (fun other inOthers => .inl (inOld other inOthers)) stays
      (iff_of_false (by simp [PageManagerContainer.setPageManager]) notAsked)
      (append_nil _).symm ?_
    · rintro _ ⟨⟩
      refine ⟨rfl, rfl, ?_⟩
      rintro _ ⟨⟩
      exact ⟨rfl, (PageManager.downloaded_new _ _).foldl_bindPage _⟩
    · rw [append_nil, waiting]
      exact (setPageManager_waiting container ledger.hasSync isNew).append_left _
  have isContainerOf : { ledger with
      storageCalls := ledger.storageCalls.eraseIdx index }.containerOf call = some container := by
    simp [containerOf, found, isContainer]
  rw [reply, isContainerOf]
  change Tracked (onStorageReply _ call container status hasStorage)
  unfold onStorageReply
  split
  · split
    · exact failed .internalError
    · exact completed true
  · split
    · exact failed _
    · split
      · exact completed false
      · rw [isErased]
        refine tracked.set (some _) split.isSplit split.isSplit tracked.notFreed tracked.checks
          (by simpa [noManager] using tracked.statuses _ isEntry) ?_ (fun other inOthers => ?_)
          (fun other inOthers notOwnCall => ?_) ?_ (append_nil _).symm ?_
        · rw [map_append, map_singleton]
          refine otherCalls.2.append (nodup_singleton _) ?_
          rw [disjoint_singleton]
          exact otherCalls.1
        · rcases mem_append.mp inOthers with inOther | isNew
          · exact .inl (inOld other inOther)
          · obtain rfl := mem_singleton.mp isNew
            exact .inr ⟨rfl, isContainer.symm⟩
        · exact mem_append_left _ (stays other inOthers notOwnCall)
        · refine iff_of_true ⟨_, rfl, noManager⟩ ⟨_, mem_append_right _ (mem_singleton_self _), ?_⟩
          exact isContainer.symm
        · rw [append_nil]
          exact .refl _

theorem managerOf_eq_some (isManager : ledger.managerOf pageId = some manager) :
    ∃ container, Registry.find ledger.pageManagers pageId = some container ∧
      container.pageManager = some manager :=
  Option.bind_eq_some_iff.mp isManager

theorem Tracked.updateManager (tracked : Tracked ledger)
    (isManager : ledger.managerOf pageId = some manager) (change : PageManager → PageManager)
    (downloaded : manager.Downloaded → (change manager).Downloaded)
    (called : List (ℕ × LedgerStatus))
    (account : (called.map Prod.fst ++ (change manager).waiting).Perm manager.waiting) :
    Tracked { ledger.updateManager pageId change with answers := ledger.answers ++ called } := by
  obtain ⟨container, found, isManager⟩ := managerOf_eq_some isManager
  have isEntry := Registry.mem_of_find found
  obtain ⟨before, after, split⟩ := Registry.exists_split tracked.onePerPage isEntry
  have isAsked := tracked.called_iff isEntry
  have awaited := tracked.awaited _ isEntry
  simp only [isManager] at awaited
  have managers : (ledger.updateManager pageId change).pageManagers =
      before ++ (pageId, { container with pageManager := some (change manager) }) :: after := by
    rw [LedgerManager.updateManager, split.update_eq, isManager, Option.map_some]
  refine tracked.set (some _) split.isSplit managers tracked.notFreed tracked.checks ?_
    tracked.calls (fun _ => .inl) (fun _ inCalls _ => inCalls) ?_ (append_nil _).symm ?_
  · rintro _ ⟨⟩
    refine ⟨rfl, tracked.statuses _ isEntry, ?_⟩
    rintro _ ⟨⟩
    exact ⟨awaited.1, downloaded awaited.2⟩
  · refine iff_of_false (by simp) fun isCalled => ?_
    exact nomatch isManager.symm.trans (isAsked.mpr isCalled)
  · simp only [PageManagerContainer.waiting, isManager, Option.map_some, Option.getD_some,
      awaited.1, nil_append, map_append, append_nil, append_assoc]
    exact account.append_left _

theorem waiting_pageInitialized {callback : ℕ}
    (isCallback : manager.initializing[index]? = some callback) (status : LedgerStatus) :
    (callback :: (manager.pageInitialized index status).waiting).Perm manager.waiting := by
  obtain ⟨inInitializing, rfl⟩ := List.getElem?_eq_some_iff.mp isCallback
  have same : (manager.pageInitialized index status).waiting =
      manager.pageRequests ++ manager.initializing.eraseIdx index := by
    unfold PageManager.pageInitialized
    split <;> rfl
  rw [same, PageManager.waiting]
  refine perm_middle.symm.trans (List.Perm.append_left _ ?_)
  exact getElem_cons_eraseIdx_perm inInitializing

theorem Tracked.step (tracked : Tracked ledger)
    (canDelete : CanDelete ledger event) (isStep : ledger.step event = some next) :
    Tracked next := by
  have running : ¬(ledger.foundFreed || ledger.checkFailed) = true := by
    simp [tracked.notFreed, tracked.checks]
  simp only [LedgerManager.step, if_neg running] at isStep
  cases event with
  | getPage pageId =>
    cases isStep
    exact tracked.getPage pageId
  | deletePage pageId isDeleted =>
    cases isStep
    exact tracked.deletePage canDelete
  | storageReply index status hasStorage =>
    obtain ⟨call, isCall, rfl⟩ := Option.map_eq_some_iff.mp isStep
    exact tracked.storageReply isCall status hasStorage
  | syncBacklogDownloaded pageId =>
    obtain ⟨manager, isManager, rfl⟩ := Option.map_eq_some_iff.mp isStep
    have downloaded : manager.onSyncBacklogDownloaded.Downloaded := by
      rw [PageManager.onSyncBacklogDownloaded_eq]
      exact fun _ => rfl
    have waiting : manager.onSyncBacklogDownloaded.waiting.Perm manager.waiting := by
      rw [PageManager.onSyncBacklogDownloaded_eq]
      change (manager.initializing ++ manager.pageRequests).Perm
        (manager.pageRequests ++ manager.initializing)
      exact perm_append_comm
    have isNext := tracked.updateManager isManager PageManager.onSyncBacklogDownloaded
      (fun _ => downloaded) [] waiting
    rwa [append_nil] at isNext
  | pageInitialized pageId index status =>
    obtain ⟨callback, isCallback, rfl⟩ := Option.map_eq_some_iff.mp isStep
    obtain ⟨manager, isManager, isCallback⟩ := Option.bind_eq_some_iff.mp isCallback
    refine tracked.updateManager isManager _ (fun downloaded => ?_) [_]
      (waiting_pageInitialized isCallback _)
    unfold PageManager.pageInitialized
    split <;> exact downloaded
  | pageClosed pageId =>
    obtain ⟨manager, isManager, rfl⟩ := Option.map_eq_some_iff.mp isStep
    have isNext := tracked.updateManager (Option.eq_some_of_filter_eq_some isManager)
      (fun manager => { manager with boundPages := manager.boundPages - 1 }) id [] (.refl _)
    rwa [append_nil] at isNext
  | pageManagerEmpty pageId =>
    obtain ⟨manager, isManager, rfl⟩ := Option.map_eq_some_iff.mp isStep
    obtain ⟨isManager, noPages⟩ := Option.filter_eq_some_iff.mp isManager
    obtain ⟨container, found, isManager⟩ := managerOf_eq_some isManager
    have isEntry := Registry.mem_of_find found
    obtain ⟨before, after, split⟩ := Registry.exists_split tracked.onePerPage isEntry
    have awaited := tracked.awaited _ isEntry
    simp only [isManager] at awaited
    have notCalled : ¬∃ call ∈ ledger.storageCalls, call.container = container.id := by
      rintro ⟨call, inCalls, isCall⟩
      have noManager := tracked.unmanaged call inCalls _ isEntry isCall.symm
      simp [isManager] at noManager
    simp only [PageManager.hasNoPages, Bool.and_eq_true, List.isEmpty_iff] at noPages
    refine tracked.set none split.isSplit split.erase_eq tracked.notFreed tracked.checks
      (by simp) tracked.calls (fun _ => .inl) (fun _ inCalls _ => inCalls)
      (iff_of_false (by simp) notCalled)
      (append_nil _).symm ?_
    simp [PageManagerContainer.waiting, PageManager.waiting, isManager, awaited.1,
      noPages.1.1.1, noPages.1.1.2]

theorem tracked_start (hasSync : Bool) : Tracked (start hasSync) where
  notFreed := rfl
  checks := rfl
  onePerPage := .nil
  registered _ inNil := absurd inNil not_mem_nil
  calledOnce := .refl _
  awaited _ inNil := absurd inNil not_mem_nil
  distinct := .nil
  fresh _ inNil := absurd inNil not_mem_nil
  calls := .nil
  unmanaged _ inNil := absurd inNil not_mem_nil
  statuses _ inNil := absurd inNil not_mem_nil

/-- A page that is deleted too early leaves an answer without its container, or callbacks that are
never called. -/
theorem Tracked.canDelete (tracked : Tracked ledger)
    (isStep : ledger.step event = some next) (serves : ServesPages next) :
    CanDelete ledger event := by
  have running : ¬(ledger.foundFreed || ledger.checkFailed) = true := by
    simp [tracked.notFreed, tracked.checks]
  simp only [LedgerManager.step, if_neg running] at isStep
  cases event with
  | deletePage pageId isDeleted =>
    cases isStep
    intro container found
    have isEntry := Registry.mem_of_find found
    obtain ⟨before, after, split⟩ := Registry.exists_split tracked.onePerPage isEntry
    have managers : (ledger.deletePage pageId isDeleted).pageManagers = before ++ after :=
      split.erase_eq
    cases isManager : container.pageManager with
    | none =>
      obtain ⟨call, inCalls, isCall⟩ := (tracked.called_iff isEntry).mp isManager
      obtain ⟨other, isOther, isOtherCall⟩ := serves.registered call inCalls
      rw [managers] at isOther
      exact absurd (isOtherCall.trans isCall) (tracked.others split.isSplit isOther).2.2
    | some manager =>
      refine ⟨manager, rfl, eq_nil_of_length_eq_zero ?_⟩
      have answers : (ledger.deletePage pageId isDeleted).answers =
          ledger.answers ++ container.destroyed := by
        simp [LedgerManager.deletePage, found]
      have callsNow := serves.calledOnce.length_eq
      have callsBefore := tracked.calledOnce.length_eq
      have waiting := congrArg length (waiting_destroyed container)
      rw [split.isSplit] at callsBefore
      have callsBefore := (waiting_split (some container)).length_eq.symm.trans callsBefore
      rw [managers, answers] at callsNow
      have sameIssued : (ledger.deletePage pageId isDeleted).issued = ledger.issued := rfl
      simp only [isManager, Option.map_some, Option.getD_some, sameIssued, length_append,
        length_map, length_range] at callsNow callsBefore waiting
      omega
  | getPage _ | storageReply _ _ _ | syncBacklogDownloaded _ | pageInitialized _ _ _
  | pageClosed _ | pageManagerEmpty _ => trivial

end LedgerManager

/-- A ledger serves its pages in every state of exactly the runs in which pages are deleted only
when they can be. -/
theorem servesPages_run (hasSync : Bool) (events : List LedgerManagerEvent) {final : LedgerManager}
    (isRun : runSteps LedgerManager.step (LedgerManager.start hasSync) events = some final) :
    EachStep LedgerManager.step (fun ledger event => ∀ next ∈ ledger.step event, ServesPages next)
        (LedgerManager.start hasSync) events ↔
      EachStep LedgerManager.step CanDelete (LedgerManager.start hasSync) events :=
  eachStep_next_iff LedgerManager.Tracked (fun tracked => tracked.step) ServesPages
    LedgerManager.Tracked.toServesPages (fun tracked => tracked.canDelete)
    (LedgerManager.tracked_start hasSync) isRun

def sampleLedgerEvents : List LedgerManagerEvent :=
  [.getPage [1], .storageReply 0 .notFound false, .getPage [1], .storageReply 0 .ok true,
    .syncBacklogDownloaded [1], .pageInitialized [1] 1 .ok, .pageInitialized [1] 0 .ioError,
    .deletePage [1] true]

theorem servesPages_run_sample : EachStep LedgerManager.step
      (fun ledger event => ∀ next ∈ ledger.step event, ServesPages next)
      (LedgerManager.start true) sampleLedgerEvents ↔
    EachStep LedgerManager.step CanDelete (LedgerManager.start true) sampleLedgerEvents :=
  servesPages_run true sampleLedgerEvents rfl

/-- A page is deleted before its storage is there; the answer of the storage finds its container
freed. -/
theorem not_servesPages_run : ∃ final, runSteps LedgerManager.step (LedgerManager.start false)
      [.getPage [1], .deletePage [1] false, .storageReply 0 .notFound false] = some final ∧
    ¬ServesPages final := by
  refine ⟨_, rfl, fun serves => ?_⟩
  exact absurd serves.notFreed (by decide)

end Peridot
