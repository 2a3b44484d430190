import Peridot.LedgerKeys
import Peridot.MessageQueueStorage
import Peridot.OrderedStore

/-!
# The message queues of components

`MessageQueueManager` keeps the storages of its queues by their tokens, and the tokens and the
watchers of queues without a storage by the names of the queues.
-/

namespace Peridot

structure MessageQueueInfo where
  componentNamespace : Bytes
  componentInstanceId : Bytes
  queueName : Bytes
  queueToken : Bytes
deriving DecidableEq

def MessageQueueInfo.names (info : MessageQueueInfo) : List Bytes :=
  [info.componentNamespace, info.componentInstanceId, info.queueName]

/-- `ComponentQueueNameMap`: the nested maps have the order of the lists of names. -/
abbrev ComponentQueueNameMap (V : Type) : Type :=
  OrderedStore Bytes V

/-- The maps of `MessageQueueManager`. -/
structure MessageQueueManager where
  messageQueues : OrderedStore UInt8 MessageQueueStorage
  messageQueueTokens : ComponentQueueNameMap Bytes
  pendingWatcherCallbacks : ComponentQueueNameMap ℕ

namespace MessageQueueManager

theorem ext_get {first second : MessageQueueManager}
    (queues : ∀ token, first.messageQueues.get token = second.messageQueues.get token)
    (tokens : ∀ names, first.messageQueueTokens.get names = second.messageQueueTokens.get names)
    (pending : ∀ names,
      first.pendingWatcherCallbacks.get names = second.pendingWatcherCallbacks.get names) :
    first = second := by
  cases first
  cases second
  rw [MessageQueueManager.mk.injEq]
  exact ⟨OrderedStore.ext_get queues, OrderedStore.ext_get tokens, OrderedStore.ext_get pending⟩

def empty : MessageQueueManager :=
  ⟨.empty, .empty, .empty⟩

def findQueueName {V : Type} (queueMap : ComponentQueueNameMap V) (names : List Bytes) : Option V :=
  queueMap.get names

def eraseQueueName {V : Type} (queueMap : ComponentQueueNameMap V) (names : List Bytes) :
    ComponentQueueNameMap V :=
  queueMap.delete names

/-- The part of `GetMessageQueueStorage` that creates a storage, from the file with the token's
name. -/
def createStorage (manager : MessageQueueManager) (info : MessageQueueInfo)
    (file : Option QueueDocument) : MessageQueueManager :=
  let storage := MessageQueueStorage.new info.queueName info.queueToken file 0
  let messageQueueTokens := manager.messageQueueTokens.put info.names info.queueToken
  match findQueueName manager.pendingWatcherCallbacks info.names with
  | none =>
    { manager with
      messageQueues := manager.messageQueues.put info.queueToken storage
      messageQueueTokens }
  | some watcher =>
    ⟨manager.messageQueues.put info.queueToken (storage.registerWatcher watcher),
      messageQueueTokens, eraseQueueName manager.pendingWatcherCallbacks info.names⟩

def getMessageQueueStorage (manager : MessageQueueManager) (info : MessageQueueInfo)
    (file : Option QueueDocument) : MessageQueueManager :=
  match manager.messageQueues.get info.queueToken with
  | some _ => manager
  | none => manager.createStorage info file

def clearMessageQueueStorage (manager : MessageQueueManager) (info : MessageQueueInfo) :
    MessageQueueManager where
  messageQueues := manager.messageQueues.delete info.queueToken
  pendingWatcherCallbacks := eraseQueueName manager.pendingWatcherCallbacks info.names
  messageQueueTokens := eraseQueueName manager.messageQueueTokens info.names

/-- `RegisterWatcher`, without a result if its assertion fails. -/
def registerWatcher (manager : MessageQueueManager) (names : List Bytes) (watcher : ℕ) :
    Option MessageQueueManager :=
  match findQueueName manager.messageQueueTokens names with
  | none =>
    some { manager with
      pendingWatcherCallbacks := manager.pendingWatcherCallbacks.put names watcher }
  | some token =>
    (manager.messageQueues.get token).map fun storage =>
      { manager with
        messageQueues := manager.messageQueues.put token (storage.registerWatcher watcher) }

/-- `DropWatcher`, without a result if it looks for a token that is null. -/
def dropWatcher (manager : MessageQueueManager) (names : List Bytes) :
    Option MessageQueueManager :=
  match findQueueName manager.messageQueueTokens names with
  | some _ =>
    some { manager with
      messageQueueTokens := eraseQueueName manager.messageQueueTokens names }
  | none => none

end MessageQueueManager

end Peridot
