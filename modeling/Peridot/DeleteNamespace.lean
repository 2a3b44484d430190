import Peridot.MessageQueuePage

/-!
# Deleting the queues of a namespace

`DeleteMessageQueue` deletes the rows of a queue and clears what the manager keeps of it.
`DeleteNamespace` deletes the same rows for all queues of a namespace, and keeps the maps of the
manager as they are.
-/

namespace Peridot

open MessageQueuePage List MessageQueueInfo OrderedStore

def ErasedIf {V : Type*} (condition : Prop) (before after : Option V) : Prop :=
  (condition → after = none) ∧ (¬condition → after = before)

namespace ErasedIf

variable {V : Type*} {first second : Prop} {before middle after other : Option V}

theorem refl (value : Option V) : ErasedIf False value value :=
  ⟨False.elim, fun _ => rfl⟩

theorem trans (isFirst : ErasedIf first before middle) (isSecond : ErasedIf second middle after) :
    ErasedIf (first ∨ second) before after := by
  by_cases erased : second
  · exact ⟨fun _ => isSecond.1 erased, fun kept => (kept (.inr erased)).elim⟩
  · refine ⟨fun either => ?_, fun kept => ?_⟩
    · rw [isSecond.2 erased, isFirst.1 (either.resolve_right erased)]
    · rw [isSecond.2 erased, isFirst.2 fun isErased => kept (.inl isErased)]

theorem congr (erased : ErasedIf first before after) (same : first ↔ second) :
    ErasedIf second before after :=
  propext same ▸ erased

theorem unique (isFirst : ErasedIf first before after) (isOther : ErasedIf first before other) :
    after = other := by
  by_cases erased : first
  · rw [isFirst.1 erased, isOther.1 erased]
  · rw [isFirst.2 erased, isOther.2 erased]

theorem eq_of_none (erased : ErasedIf first before after) (isNone : first → before = none) :
    after = before := by
  by_cases isErased : first
  · rw [erased.1 isErased, isNone isErased]
  · exact erased.2 isErased

end ErasedIf

theorem erasedIf_delete {α V : Type} [LinearOrder α] (store : OrderedStore α V) (key other : List α) :
    ErasedIf (other = key) (store.get other) ((store.delete key).get other) := by
  rw [get_delete]
  exact ⟨fun same => if_pos same, fun differs => if_neg differs⟩

@[ext]
structure QueueState where
  page : MessageQueuePage
  manager : MessageQueueManager

namespace QueueState

/-- `DeleteMessageQueueCall::Run`, with the names of a queue. -/
def deleteMessageQueue (state : QueueState) (info : MessageQueueInfo) : QueueState :=
  match state.page.getQueueToken info with
  | none => state
  | some queueToken =>
    let found : MessageQueueInfo := { info with queueToken }
    ⟨state.page.deleteQueue found, state.manager.clearMessageQueueStorage found⟩

def keysToDelete : Bytes × QueueRow → List Bytes
  | (key, .token queueToken) => [key, makeMessageQueueKey queueToken]
  | (key, .info _) => [key]

/-- `DeleteNamespaceCall::Run`. -/
def deleteNamespace (state : QueueState) (componentNamespace : Bytes) : QueueState :=
  { state with
    page := ((state.page.scan (makeMessageQueuesPrefix componentNamespace)).flatMap
      keysToDelete).foldl OrderedStore.delete state.page }

/-- `DeleteMessageQueue` for one queue after the other. -/
def deleteMessageQueues (state : QueueState) (queues : List MessageQueueInfo) : QueueState :=
  queues.foldl deleteMessageQueue state

/-- The rows and what the manager keeps of some queues, given by their names and tokens, are
deleted. -/
structure Deletes (erased : List Bytes → Bytes → Prop) (before after : QueueState) : Prop where
  row : ∀ key, ErasedIf (∃ (info : MessageQueueInfo) (token : Bytes), erased info.names token ∧
    (key = info.tokenKey ∨ key = makeMessageQueueKey token)) (before.page.get key)
      (after.page.get key)
  storage : ∀ token, ErasedIf (∃ names, erased names token)
    (before.manager.messageQueues.get token) (after.manager.messageQueues.get token)
  token : ∀ names, ErasedIf (∃ token, erased names token)
    (before.manager.messageQueueTokens.get names) (after.manager.messageQueueTokens.get names)
  pending : ∀ names, ErasedIf (∃ token, erased names token)
    (before.manager.pendingWatcherCallbacks.get names)
    (after.manager.pendingWatcherCallbacks.get names)

variable {before middle after : QueueState} {first second : List Bytes → Bytes → Prop}

theorem Deletes.trans (isFirst : Deletes first before middle)
    (isSecond : Deletes second middle after) :
    Deletes (fun names token => first names token ∨ second names token) before after where
  row key := ((isFirst.row key).trans (isSecond.row key)).congr (by
    simp only [or_and_right, exists_or])
  storage token := ((isFirst.storage token).trans (isSecond.storage token)).congr (by
    simp only [exists_or])
  token names := ((isFirst.token names).trans (isSecond.token names)).congr (by
    simp only [exists_or])
  pending names := ((isFirst.pending names).trans (isSecond.pending names)).congr (by
    simp only [exists_or])

theorem Deletes.congr (deletes : Deletes first before after)
    (same : ∀ names token, first names token ↔ second names token) :
    Deletes second before after := by
  obtain rfl : first = second := funext fun names => funext fun token => propext (same names token)
  exact deletes

theorem deletes_deleteMessageQueue (state : QueueState) (info : MessageQueueInfo) :
    Deletes (fun names token => info.names = names ∧ state.page.getQueueToken info = some token)
      state (state.deleteMessageQueue info) := by
  unfold deleteMessageQueue
  cases isToken : state.page.getQueueToken info with
  | none => constructor <;> exact fun _ => (ErasedIf.refl _).congr (by simp)
  | some queueToken =>
    constructor
    · intro key
      have twoRows := (erasedIf_delete state.page (makeMessageQueueKey queueToken) key).trans
        (erasedIf_delete _ info.tokenKey key)
      refine twoRows.congr ?_
      constructor
      · rintro (isKey | isTokenKey)
        · exact ⟨info, queueToken, ⟨rfl, rfl⟩, .inr isKey⟩
        · exact ⟨info, queueToken, ⟨rfl, rfl⟩, .inl isTokenKey⟩
      · rintro ⟨other, token, ⟨sameNames, sameToken⟩, isTokenKey | isKey⟩
        · exact .inr (isTokenKey.trans (tokenKey_eq_iff.mpr sameNames.symm))
        · exact .inl (isKey.trans (congrArg _ (Option.some.inj sameToken).symm))
    · intro token
      refine (erasedIf_delete state.manager.messageQueues queueToken token).congr ?_
      simp [eq_comm]
    · intro names
      refine (erasedIf_delete state.manager.messageQueueTokens info.names names).congr ?_
      simp [eq_comm]
    · intro names
      refine (erasedIf_delete state.manager.pendingWatcherCallbacks info.names names).congr ?_
      simp [eq_comm]

def Recorded (page : MessageQueuePage) (queues : List MessageQueueInfo) (names : List Bytes)
    (token : Bytes) : Prop :=
  ∃ info ∈ queues, info.names = names ∧ page.getQueueToken info = some token

theorem getQueueToken_deleteMessageQueue (state : QueueState) (info other : MessageQueueInfo) :
    (state.deleteMessageQueue info).page.getQueueToken other =
      if other.names = info.names then none else state.page.getQueueToken other := by
  unfold deleteMessageQueue
  cases isToken : state.page.getQueueToken info with
  | none =>
    simp only
    split
    · rename_i same
      exact (getQueueToken_congr _ same).trans isToken
    · rfl
  | some queueToken => exact getQueueToken_deleteQueue ..

theorem deletes_deleteMessageQueues (state : QueueState) (queues : List MessageQueueInfo) :
    Deletes (Recorded state.page queues) state (state.deleteMessageQueues queues) := by
  induction queues generalizing state with
  | nil => constructor <;> exact fun _ => (ErasedIf.refl _).congr (by simp [Recorded])
  | cons info queues ih =>
    refine ((deletes_deleteMessageQueue state info).trans
      (ih (state.deleteMessageQueue info))).congr fun names token => ?_
    constructor
    · rintro (⟨isInfo, isToken⟩ | ⟨other, isOther, isNamed, isToken⟩)
      · exact ⟨info, mem_cons_self, isInfo, isToken⟩
      · rw [getQueueToken_deleteMessageQueue] at isToken
        split at isToken
        · cases isToken
        · exact ⟨other, mem_cons_of_mem _ isOther, isNamed, isToken⟩
    · rintro ⟨other, isOther, isNamed, isToken⟩
      by_cases same : other.names = info.names
      · exact .inl ⟨same.symm.trans isNamed, (getQueueToken_congr _ same).symm.trans isToken⟩
      · have inQueues : other ∈ queues := (mem_cons.mp isOther).resolve_left fun isInfo =>
          same (congrArg _ isInfo)
        refine .inr ⟨other, inQueues, isNamed, ?_⟩
        rw [getQueueToken_deleteMessageQueue, if_neg same, isToken]

end QueueState

theorem erasedIf_foldl_delete {α V : Type} [LinearOrder α] (keys : List (List α))
    (store : OrderedStore α V) (key : List α) :
    ErasedIf (key ∈ keys) (store.get key) ((keys.foldl OrderedStore.delete store).get key) := by
  induction keys generalizing store with
  | nil => exact (ErasedIf.refl _).congr (by simp)
  | cons first keys ih => exact ((erasedIf_delete store first key).trans (ih _)).congr mem_cons.symm

/-- A page whose queues are recorded as `ObtainMessageQueue` records them: each token row is that
of some names, and no two queues have the same token. -/
structure QueueLedger where
  page : MessageQueuePage
  named : ∀ key row, page.get key = some row → kMessageQueueTokenKeyPrefix <+: key →
    ∃ info : MessageQueueInfo, key = info.tokenKey ∧ row = .token info.queueToken
  distinct : ∀ first second token, page.getQueueToken first = some token →
    page.getQueueToken second = some token → first.names = second.names

namespace QueueLedger

def empty : QueueLedger :=
  ⟨.empty, nofun, nofun⟩

/-- The transaction of `ObtainMessageQueue`, with a token that no other queue has. -/
def put (ledger : QueueLedger) (info : MessageQueueInfo)
    (isNew : ∀ other, ledger.page.getQueueToken other = some info.queueToken →
      other.names = info.names) : QueueLedger where
  page := ledger.page.putQueue info
  named key row isRow isToken := by
    simp only [MessageQueuePage.putQueue, OrderedStore.get_put] at isRow
    split at isRow
    · rename_i isKey
      subst isKey
      exact absurd isToken (not_isPrefix_makeMessageQueueKey _)
    split at isRow
    · rename_i isKey
      exact ⟨info, isKey, (Option.some.inj isRow).symm⟩
    · exact ledger.named key row isRow isToken
  distinct first second token isFirst isSecond := by
    rw [MessageQueuePage.getQueueToken_putQueue] at isFirst isSecond
    split at isFirst <;> split at isSecond
    · exact ‹first.names = _›.trans ‹second.names = _›.symm
    · rw [← isFirst] at isSecond
      exact ‹first.names = _›.trans (isNew second isSecond).symm
    · rw [← isSecond] at isFirst
      exact (isNew first isFirst).trans ‹second.names = _›.symm
    · exact ledger.distinct first second token isFirst isSecond

/-- The queues of a namespace that the ledger records, in any order. -/
structure Enumerates (ledger : QueueLedger) (componentNamespace : Bytes)
    (queues : List MessageQueueInfo) : Prop where
  sound : ∀ info ∈ queues, info.componentNamespace = componentNamespace
  complete : ∀ info, info.componentNamespace = componentNamespace →
    (ledger.page.getQueueToken info).isSome → ∃ queue ∈ queues, queue.names = info.names

/-- The manager has no storage, token or waiting watcher of a queue of the namespace. -/
def NotInMemory (ledger : QueueLedger) (manager : MessageQueueManager)
    (componentNamespace : Bytes) : Prop :=
  ∀ info token, info.componentNamespace = componentNamespace →
    ledger.page.getQueueToken info = some token →
      manager.messageQueues.get token = none ∧
        manager.messageQueueTokens.get info.names = none ∧
          manager.pendingWatcherCallbacks.get info.names = none

variable {ledger : QueueLedger} {componentNamespace : Bytes} {queues : List MessageQueueInfo}

section

variable (enumerates : ledger.Enumerates componentNamespace queues)
include enumerates

theorem mem_keysToDelete_iff {key : Bytes} :
    key ∈ (ledger.page.scan (makeMessageQueuesPrefix componentNamespace)).flatMap
        QueueState.keysToDelete ↔ ∃ (info : MessageQueueInfo) (token : Bytes),
        QueueState.Recorded ledger.page queues info.names token ∧
          (key = info.tokenKey ∨ key = makeMessageQueueKey token) := by
  rw [mem_flatMap]
  constructor
  · rintro ⟨⟨rowKey, row⟩, isScanned, isKey⟩
    obtain ⟨starts, isRow⟩ := mem_scan.mp isScanned
    have isToken : kMessageQueueTokenKeyPrefix <+: rowKey := by
      refine List.IsPrefix.trans ?_ starts
      rw [makeMessageQueuesPrefix, append_assoc]
      exact prefix_append ..
    obtain ⟨info, rfl, rfl⟩ := ledger.named rowKey row isRow isToken
    have isFound : ledger.page.getQueueToken info = some info.queueToken := by
      rw [getQueueToken, isRow]
    obtain ⟨queue, isQueue, sameNames⟩ := enumerates.complete info
      (makeMessageQueuesPrefix_isPrefix_iff.mp starts).symm (by rw [isFound]; rfl)
    refine ⟨info, info.queueToken, ⟨queue, isQueue, sameNames,
      (getQueueToken_congr _ sameNames).trans isFound⟩, ?_⟩
    simpa [QueueState.keysToDelete] using isKey
  · rintro ⟨info, token, ⟨queue, isQueue, sameNames, isToken⟩, isKey⟩
    have isRow := get_of_getQueueToken isToken
    refine ⟨(queue.tokenKey, .token token), mem_scan.mpr ⟨?_, isRow⟩, ?_⟩
    · exact makeMessageQueuesPrefix_isPrefix_iff.mpr (enumerates.sound queue isQueue).symm
    · rw [tokenKey_eq_iff.mpr sameNames]
      simpa [QueueState.keysToDelete] using isKey

/-- `DeleteNamespace` leaves the rows that the single deletions leave. -/
theorem page_deleteNamespace (manager : MessageQueueManager) :
    (QueueState.deleteNamespace ⟨ledger.page, manager⟩ componentNamespace).page =
      (QueueState.deleteMessageQueues ⟨ledger.page, manager⟩ queues).page := by
  refine ext_get fun key => ?_
  have deleted := (erasedIf_foldl_delete _ ledger.page key).congr (mem_keysToDelete_iff enumerates)
  exact deleted.unique
    ((QueueState.deletes_deleteMessageQueues ⟨ledger.page, manager⟩ queues).row key)

end

/-- What the two ways leave of the queues of the other namespaces. -/
structure OthersKept (ledger : QueueLedger) (manager : MessageQueueManager)
    (componentNamespace : Bytes) (after : QueueState) : Prop where
  tokenRow : ∀ info : MessageQueueInfo, info.componentNamespace ≠ componentNamespace →
    after.page.get info.tokenKey = ledger.page.get info.tokenKey
  infoRow : ∀ info token, info.componentNamespace ≠ componentNamespace →
    ledger.page.getQueueToken info = some token →
      after.page.get (makeMessageQueueKey token) = ledger.page.get (makeMessageQueueKey token)
  manager : after.manager = manager

theorem othersKept_deleteNamespace (enumerates : ledger.Enumerates componentNamespace queues)
    (manager : MessageQueueManager) : ledger.OthersKept manager componentNamespace
      (QueueState.deleteNamespace ⟨ledger.page, manager⟩ componentNamespace) where
  tokenRow info isOther := by
    refine (erasedIf_foldl_delete _ ledger.page info.tokenKey).2 fun isDeleted => ?_
    obtain ⟨deleted, token, ⟨queue, isQueue, sameNames, -⟩, isKey | isKey⟩ :=
      (mem_keysToDelete_iff enumerates).mp isDeleted
    · have isNames := sameNames.trans (tokenKey_eq_iff.mp isKey).symm
      exact isOther ((List.cons.inj isNames).1.symm.trans (enumerates.sound queue isQueue))
    · exact makeMessageQueueKey_ne _ _ _ _ isKey.symm
  infoRow info token isOther isToken := by
    refine (erasedIf_foldl_delete _ ledger.page _).2 fun isDeleted => ?_
    obtain ⟨deleted, token', ⟨queue, isQueue, sameNames, isToken'⟩, isKey | isKey⟩ :=
      (mem_keysToDelete_iff enumerates).mp isDeleted
    · exact makeMessageQueueKey_ne _ _ _ _ isKey
    · obtain rfl := makeMessageQueueKey_injective isKey
      have isNames := ledger.distinct queue info token isToken' isToken
      exact isOther ((List.cons.inj isNames).1.symm.trans (enumerates.sound queue isQueue))
  manager := rfl

/-- `DeleteNamespace` does what `DeleteMessageQueue` does for all queues of the namespace exactly
when the manager keeps nothing of these queues. -/
theorem deleteNamespace_eq_iff (ledger : QueueLedger) (manager : MessageQueueManager)
    {componentNamespace : Bytes} {queues : List MessageQueueInfo}
    (enumerates : ledger.Enumerates componentNamespace queues) :
    QueueState.deleteNamespace ⟨ledger.page, manager⟩ componentNamespace =
        QueueState.deleteMessageQueues ⟨ledger.page, manager⟩ queues ∧
      ledger.OthersKept manager componentNamespace
        (QueueState.deleteNamespace ⟨ledger.page, manager⟩ componentNamespace) ↔
      ledger.NotInMemory manager componentNamespace := by
  have deletes := QueueState.deletes_deleteMessageQueues ⟨ledger.page, manager⟩ queues
  constructor
  · rintro ⟨same, -⟩ info token isNamespace isToken
    obtain ⟨queue, isQueue, sameNames⟩ := enumerates.complete info isNamespace (by
      rw [isToken]
      rfl)
    have recorded : QueueState.Recorded ledger.page queues info.names token :=
      ⟨queue, isQueue, sameNames, (getQueueToken_congr _ sameNames).trans isToken⟩
    have sameManager : manager =
        (QueueState.deleteMessageQueues ⟨ledger.page, manager⟩ queues).manager :=
      congrArg QueueState.manager same
    rw [sameManager]
    exact ⟨(deletes.storage token).1 ⟨_, recorded⟩, (deletes.token info.names).1 ⟨_, recorded⟩,
      (deletes.pending info.names).1 ⟨_, recorded⟩⟩
  · intro notInMemory
    refine ⟨?_, othersKept_deleteNamespace enumerates manager⟩
    have nothing : ∀ names token, QueueState.Recorded ledger.page queues names token →
        manager.messageQueues.get token = none ∧ manager.messageQueueTokens.get names = none ∧
          manager.pendingWatcherCallbacks.get names = none := by
      rintro names token ⟨queue, isQueue, rfl, isToken⟩
      exact notInMemory queue token (enumerates.sound queue isQueue) isToken
    have sameManager : manager =
        (QueueState.deleteMessageQueues ⟨ledger.page, manager⟩ queues).manager := by
      refine MessageQueueManager.ext_get (fun token => ?_) (fun names => ?_) fun names => ?_
      · exact ((deletes.storage token).eq_of_none fun ⟨names, recorded⟩ =>
          (nothing names token recorded).1).symm
      · exact ((deletes.token names).eq_of_none fun ⟨token, recorded⟩ =>
          (nothing names token recorded).2.1).symm
      · exact ((deletes.pending names).eq_of_none fun ⟨token, recorded⟩ =>
          (nothing names token recorded).2.2).symm
    exact QueueState.ext (page_deleteNamespace enumerates manager) sameManager

/-- A queue that the ledger records, in the namespace `n`. -/
def oneQueue : MessageQueueInfo :=
  ⟨ascii ['n'], ascii ['i'], ascii ['q'], ascii ['t']⟩

def oneQueueLedger : QueueLedger :=
  empty.put oneQueue nofun

theorem names_oneQueueLedger {info : MessageQueueInfo} {token : Bytes}
    (isToken : oneQueueLedger.page.getQueueToken info = some token) :
    info.names = oneQueue.names ∧ token = oneQueue.queueToken := by
  rw [oneQueueLedger, put, getQueueToken_putQueue] at isToken
  split at isToken
  · exact ⟨‹_›, (Option.some.inj isToken).symm⟩
  · cases isToken

/-- A queue of the namespace `m`. -/
def otherQueue : MessageQueueInfo :=
  ⟨ascii ['m'], ascii ['i'], ascii ['q'], ascii ['u']⟩

def twoQueueLedger : QueueLedger :=
  oneQueueLedger.put otherQueue fun _ isToken =>
    absurd (names_oneQueueLedger isToken).2 (by decide)

theorem names_twoQueueLedger {info : MessageQueueInfo} {token : Bytes}
    (inNamespace : info.componentNamespace = oneQueue.componentNamespace)
    (isToken : twoQueueLedger.page.getQueueToken info = some token) :
    info.names = oneQueue.names ∧ token = oneQueue.queueToken := by
  have notOther : info.names ≠ otherQueue.names := fun same =>
    absurd (inNamespace.symm.trans (List.cons.inj same).1) (by decide)
  rw [twoQueueLedger, put, getQueueToken_putQueue, if_neg notOther] at isToken
  exact names_oneQueueLedger isToken

theorem enumerates_oneQueue : twoQueueLedger.Enumerates oneQueue.componentNamespace [oneQueue] where
  sound info isQueue := by rw [mem_singleton.mp isQueue]
  complete info inNamespace isRecorded := by
    obtain ⟨token, isToken⟩ := Option.isSome_iff_exists.mp isRecorded
    exact ⟨oneQueue, mem_singleton_self _, (names_twoQueueLedger inNamespace isToken).1.symm⟩

/-- Nobody has connected to the queue, and the manager has the queue of another namespace. -/
theorem deleteNamespace_eq_iff_oneQueue :
    let manager := MessageQueueManager.empty.getMessageQueueStorage otherQueue none
    QueueState.deleteNamespace ⟨twoQueueLedger.page, manager⟩ oneQueue.componentNamespace =
        QueueState.deleteMessageQueues ⟨twoQueueLedger.page, manager⟩ [oneQueue] ∧
      twoQueueLedger.OthersKept manager oneQueue.componentNamespace
        (QueueState.deleteNamespace ⟨twoQueueLedger.page, manager⟩ oneQueue.componentNamespace) :=
  (deleteNamespace_eq_iff twoQueueLedger _ enumerates_oneQueue).mpr
    fun info _ inNamespace isToken => by
      obtain ⟨names, rfl⟩ := names_twoQueueLedger inNamespace isToken
      rw [names]
      decide

/-- The storage of the queue exists: it still does when the namespace has been deleted. -/
theorem deleteNamespace_ne :
    let manager := MessageQueueManager.empty.getMessageQueueStorage oneQueue none
    QueueState.deleteNamespace ⟨oneQueueLedger.page, manager⟩ oneQueue.componentNamespace ≠
      QueueState.deleteMessageQueues ⟨oneQueueLedger.page, manager⟩ [oneQueue] := by
  intro manager same
  have sameStorage := congrArg
    (fun state : QueueState => (state.manager.messageQueues.get oneQueue.queueToken).isSome) same
  exact absurd sameStorage (by decide)

end QueueLedger

end Peridot
