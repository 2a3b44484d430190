import Peridot.DeleteNamespace

/-!
# The message queues of a session

The rows that earlier sessions have left, and what `MessageQueueManager` keeps in this one.  Only
the queues of agents have watchers, which are left out.
-/

namespace Peridot

open List OrderedStore QueueState

/-- No queue of a namespace is recorded. -/
def NoQueues (page : MessageQueuePage) (componentNamespace : Bytes) : Prop :=
  page.scan (makeMessageQueuesPrefix componentNamespace) = []
deriving Decidable

theorem noQueues_iff {page : MessageQueuePage} {componentNamespace : Bytes} :
    NoQueues page componentNamespace ↔
      ∀ key, makeMessageQueuesPrefix componentNamespace <+: key → page.get key = none := by
  rw [NoQueues, eq_nil_iff_forall_not_mem]
  constructor
  · intro noRow key starts
    by_contra notNone
    obtain ⟨row, isRow⟩ := Option.ne_none_iff_exists'.mp notNone
    exact noRow (key, row) (mem_scan.mpr ⟨starts, isRow⟩)
  · rintro noRow ⟨key, row⟩ isScanned
    obtain ⟨starts, isRow⟩ := mem_scan.mp isScanned
    exact absurd isRow (by simp [noRow key starts])

theorem noQueues_deleteNamespace (state : QueueState) (componentNamespace : Bytes) :
    NoQueues (state.deleteNamespace componentNamespace).page componentNamespace := by
  apply noQueues_iff.mpr
  intro key starts
  have erased := erasedIf_foldl_delete
    ((state.page.scan (makeMessageQueuesPrefix componentNamespace)).flatMap keysToDelete)
    state.page key
  cases isRow : state.page.get key with
  | none => exact (erased.eq_of_none fun _ => isRow).trans isRow
  | some row =>
    refine erased.1 (mem_flatMap.mpr ⟨(key, row), mem_scan.mpr ⟨starts, isRow⟩, ?_⟩)
    cases row <;> exact mem_cons_self

/-- The page and the manager, with the queues that have a storage: a storage does not know its
namespace. -/
structure SessionQueues where
  state : QueueState
  opened : List MessageQueueInfo
  storage : ∀ token, (state.manager.messageQueues.get token).isSome ↔
    ∃ info ∈ opened, info.queueToken = token
  token : ∀ names, (state.manager.messageQueueTokens.get names).isSome →
    ∃ info ∈ opened, info.names = names
  watcher : ∀ names, state.manager.pendingWatcherCallbacks.get names = none

namespace SessionQueues

def start (page : MessageQueuePage) : SessionQueues where
  state := ⟨page, .empty⟩
  opened := []
  storage token := by simp [MessageQueueManager.empty]
  token names isSome := absurd isSome (by simp [MessageQueueManager.empty])
  watcher _ := rfl

variable (queues : SessionQueues)

/-- `GetMessageQueueStorage`, with the file of the token. -/
def getMessageQueueStorage (info : MessageQueueInfo) (file : Option QueueDocument) :
    SessionQueues :=
  if isNew : queues.state.manager.messageQueues.get info.queueToken = none then
    have created : queues.state.manager.getMessageQueueStorage info file =
        { queues.state.manager with
          messageQueues := queues.state.manager.messageQueues.put info.queueToken
            (.new info.queueName info.queueToken file 0)
          messageQueueTokens :=
            queues.state.manager.messageQueueTokens.put info.names info.queueToken } := by
      simp [MessageQueueManager.getMessageQueueStorage, isNew, MessageQueueManager.createStorage,
        MessageQueueManager.findQueueName, queues.watcher]
    { state.page := queues.state.page
      state.manager := queues.state.manager.getMessageQueueStorage info file
      opened := info :: queues.opened
      storage token := by
        rw [created, get_put]
        by_cases same : token = info.queueToken
        · simp [same]
        · rw [if_neg same, queues.storage]
          simp [Ne.symm same]
      token names isSome := by
        rw [created, get_put] at isSome
        split at isSome
        case isTrue same => exact ⟨info, mem_cons_self, same.symm⟩
        case isFalse =>
          obtain ⟨found, isFound, isNamed⟩ := queues.token names isSome
          exact ⟨found, mem_cons_of_mem _ isFound, isNamed⟩
      watcher names := by
        rw [created]
        exact queues.watcher names }
  else queues

/-- `ObtainMessageQueue`; `info` has the token that is generated for a new queue. -/
def obtainMessageQueue (info : MessageQueueInfo) (file : Option QueueDocument) : SessionQueues :=
  match queues.state.page.getQueueToken info with
  | some queueToken => queues.getMessageQueueStorage { info with queueToken } file
  | none =>
    getMessageQueueStorage { queues with state.page := queues.state.page.putQueue info } info file

def getMessageSender (queueToken : Bytes) (file : Option QueueDocument) : SessionQueues :=
  if (queues.state.manager.messageQueues.get queueToken).isSome then queues
  else
    match queues.state.page.get (makeMessageQueueKey queueToken) with
    | some (.info info) =>
      if !info.componentInstanceId.isEmpty && !info.queueName.isEmpty then
        queues.getMessageQueueStorage info file
      else queues
    | _ => queues

/-- `DeleteMessageQueue`, where no other queue has the token of the queue. -/
def deleteMessageQueue (info : MessageQueueInfo)
    (isOwn : ∀ found ∈ queues.opened,
      queues.state.page.getQueueToken info = some found.queueToken → found.names = info.names) :
    SessionQueues where
  state := queues.state.deleteMessageQueue info
  opened := queues.opened.filter fun found =>
    queues.state.page.getQueueToken info ≠ some found.queueToken
  storage token := by
    have erased := (deletes_deleteMessageQueue queues.state info).storage token
    by_cases isToken : queues.state.page.getQueueToken info = some token
    · rw [erased.1 ⟨_, rfl, isToken⟩]
      apply iff_of_false Bool.false_ne_true
      rintro ⟨found, isFound, rfl⟩
      exact of_decide_eq_true (mem_filter.mp isFound).2 isToken
    · rw [erased.2 fun same => isToken same.choose_spec.2, queues.storage]
      constructor
      · rintro ⟨found, isFound, rfl⟩
        exact ⟨found, mem_filter.mpr ⟨isFound, decide_eq_true isToken⟩, rfl⟩
      · rintro ⟨found, isFound, isSame⟩
        exact ⟨found, (mem_filter.mp isFound).1, isSame⟩
  token names isSome := by
    have erased := (deletes_deleteMessageQueue queues.state info).token names
    by_cases isErased : ∃ token, info.names = names ∧
        queues.state.page.getQueueToken info = some token
    · rw [erased.1 isErased] at isSome
      cases isSome
    · rw [erased.2 isErased] at isSome
      obtain ⟨found, isFound, isNamed⟩ := queues.token names isSome
      refine ⟨found, mem_filter.mpr ⟨isFound, decide_eq_true fun isToken => ?_⟩, isNamed⟩
      exact isErased ⟨_, (isOwn found isFound isToken).symm.trans isNamed, isToken⟩
  watcher names := ((deletes_deleteMessageQueue queues.state info).pending names).eq_of_none
    (fun _ => queues.watcher names) |>.trans (queues.watcher names)

/-- `DeleteNamespace`. -/
def deleteNamespace (componentNamespace : Bytes) : SessionQueues :=
  { queues with state := queues.state.deleteNamespace componentNamespace }

variable (componentNamespace : Bytes)

def NotOpened : Prop :=
  ∀ info ∈ queues.opened, info.componentNamespace ≠ componentNamespace
deriving Decidable

/-- The ledger records no queue of a namespace, and the manager keeps nothing of one. -/
structure NoneLeft : Prop where
  row : NoQueues queues.state.page componentNamespace
  storage : ∀ info ∈ queues.opened, info.componentNamespace = componentNamespace →
    queues.state.manager.messageQueues.get info.queueToken = none
  token : ∀ info : MessageQueueInfo, info.componentNamespace = componentNamespace →
    queues.state.manager.messageQueueTokens.get info.names = none
  watcher : ∀ info : MessageQueueInfo, info.componentNamespace = componentNamespace →
    queues.state.manager.pendingWatcherCallbacks.get info.names = none

variable {queues componentNamespace}

theorem noneLeft_iff : queues.NoneLeft componentNamespace ↔
    NoQueues queues.state.page componentNamespace ∧ queues.NotOpened componentNamespace := by
  constructor
  · intro noneLeft
    refine ⟨noneLeft.row, fun info isOpened isNamespace => ?_⟩
    have isSome := (queues.storage info.queueToken).mpr ⟨info, isOpened, rfl⟩
    rw [noneLeft.storage info isOpened isNamespace] at isSome
    cases isSome
  · rintro ⟨noQueues, notOpened⟩
    refine ⟨noQueues, fun info isOpened same => absurd same (notOpened info isOpened), ?_,
      fun info _ => queues.watcher info.names⟩
    intro info isNamespace
    by_contra isKept
    obtain ⟨found, isFound, same⟩ := queues.token info.names (Option.isSome_iff_ne_none.mpr isKept)
    exact notOpened found isFound ((List.cons.inj same).1.trans isNamespace)

@[simp]
theorem page_getMessageQueueStorage (queues : SessionQueues) (info : MessageQueueInfo)
    (file : Option QueueDocument) :
    (queues.getMessageQueueStorage info file).state.page = queues.state.page := by
  rw [getMessageQueueStorage]
  split <;> rfl

theorem page_getMessageSender (queues : SessionQueues) (queueToken : Bytes)
    (file : Option QueueDocument) :
    (queues.getMessageSender queueToken file).state.page = queues.state.page := by
  rw [getMessageSender]
  split
  · rfl
  · split
    · split <;> simp
    · rfl

end SessionQueues

namespace NoQueues

variable {componentNamespace : Bytes}

theorem obtainMessageQueue {queues : SessionQueues} {info : MessageQueueInfo}
    (noQueues : NoQueues queues.state.page componentNamespace)
    (different : info.componentNamespace ≠ componentNamespace) (file : Option QueueDocument) :
    NoQueues (queues.obtainMessageQueue info file).state.page componentNamespace := by
  rw [SessionQueues.obtainMessageQueue]
  split
  · rwa [SessionQueues.page_getMessageQueueStorage]
  · rw [SessionQueues.page_getMessageQueueStorage, MessageQueuePage.putQueue]
    apply noQueues_iff.mpr
    intro key starts
    rw [get_put, if_neg, get_put, if_neg]
    · exact noQueues_iff.mp noQueues key starts
    · rintro rfl
      exact different (makeMessageQueuesPrefix_isPrefix_iff.mp starts).symm
    · rintro rfl
      refine not_isPrefix_makeMessageQueueKey info.queueToken (.trans ?_ starts)
      rw [makeMessageQueuesPrefix, append_assoc]
      exact prefix_append ..

theorem deleteMessageQueue {state : QueueState}
    (noQueues : NoQueues state.page componentNamespace) (info : MessageQueueInfo) :
    NoQueues (state.deleteMessageQueue info).page componentNamespace := by
  apply noQueues_iff.mpr
  intro key starts
  have isNone := noQueues_iff.mp noQueues key starts
  exact (((deletes_deleteMessageQueue state info).row key).eq_of_none fun _ => isNone).trans isNone

end NoQueues

end Peridot
