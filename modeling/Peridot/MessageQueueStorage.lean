import Peridot.PageStorage
import Peridot.StepRun

/-!
# Message queues

The messages of a queue are kept in a file, and given to the receiver that is connected, one after
the other: a message leaves the queue when the receiver has acknowledged it.  A single flag tells
whether an acknowledgement is awaited, whichever receiver it is awaited from.
-/

namespace Peridot

/-- A JSON document in a file: an array, whose elements are strings or something else, or a
document that is no array. -/
inductive QueueDocument where
  | array (elements : List (Option Bytes))
  | other

/-- `PersistentQueue` and its file.  `dequeued` counts the messages that have left the queue; no
function reads it but to number the calls to a receiver. -/
structure PersistentQueue where
  file : Option QueueDocument
  queue : List Bytes
  dequeued : ℕ

namespace PersistentQueue

def readFile : Option QueueDocument → List Bytes
  | some (.array elements) => elements.filterMap id
  | _ => []

/-- `PersistentQueue::PersistentQueue`. -/
def load (file : Option QueueDocument) (dequeued : ℕ) : PersistentQueue :=
  ⟨file, readFile file, dequeued⟩

def isEmpty (queue : PersistentQueue) : Bool :=
  queue.queue.isEmpty

/-- `PersistentQueue::Save`.  The file stays as it is if it cannot be written. -/
def save (queue : PersistentQueue) (isWritten : Bool) : PersistentQueue :=
  if isWritten then { queue with file := some (.array (queue.queue.map some)) } else queue

def enqueue (queue : PersistentQueue) (message : Bytes) (isWritten : Bool) : PersistentQueue :=
  { queue with queue := queue.queue ++ [message] }.save isWritten

/-- `PersistentQueue::Dequeue`, without the message that it returns. -/
def dequeue (queue : PersistentQueue) (isWritten : Bool) : PersistentQueue :=
  { queue with
    queue := queue.queue.tail
    dequeued := queue.dequeued + 1 }.save isWritten

variable (queue : PersistentQueue)
include queue

@[simp]
theorem queue_save (isWritten : Bool) : (queue.save isWritten).queue = queue.queue := by
  unfold save
  split <;> rfl

@[simp]
theorem dequeued_save (isWritten : Bool) : (queue.save isWritten).dequeued = queue.dequeued := by
  unfold save
  split <;> rfl

@[simp]
theorem queue_enqueue (message : Bytes) (isWritten : Bool) :
    (queue.enqueue message isWritten).queue = queue.queue ++ [message] :=
  queue_save ..

@[simp]
theorem queue_dequeue (isWritten : Bool) : (queue.dequeue isWritten).queue = queue.queue.tail :=
  queue_save ..

end PersistentQueue

/-- A connected `MessageReader`: the calls of `OnReceive` that it has not acknowledged, with their
numbers. -/
structure MessageReader where
  calls : List (Bytes × ℕ)

/-- `MessageQueueStorage`.  Watchers are named by numbers. -/
structure MessageQueueStorage where
  queueName : Bytes
  queueToken : Bytes
  watcher : Option ℕ
  queueData : PersistentQueue
  receiveAckPending : Bool
  messageReceiver : Option MessageReader

namespace MessageQueueStorage

def new (queueName queueToken : Bytes) (file : Option QueueDocument) (dequeued : ℕ) :
    MessageQueueStorage where
  queueName := queueName
  queueToken := queueToken
  watcher := none
  queueData := .load file dequeued
  receiveAckPending := false
  messageReceiver := none

def maybeSendNextMessage (storage : MessageQueueStorage) : MessageQueueStorage :=
  match storage.messageReceiver, storage.queueData.queue with
  | some receiver, message :: _ =>
    if storage.receiveAckPending then storage
    else { storage with
      receiveAckPending := true
      messageReceiver := some
        ⟨receiver.calls ++ [(message, storage.queueData.dequeued)]⟩ }
  | _, _ => storage

/-- `RegisterReceiver`: the connection to the receiver before is closed, with the calls that this
one has not acknowledged. -/
def registerReceiver (storage : MessageQueueStorage) : MessageQueueStorage :=
  { storage with messageReceiver := some ⟨[]⟩ }.maybeSendNextMessage

def onReceiverError (storage : MessageQueueStorage) : MessageQueueStorage :=
  { storage with
    messageReceiver := none
    receiveAckPending := false }

/-- The callback of `OnReceive`. -/
def onAcknowledged (storage : MessageQueueStorage) (isWritten : Bool) : MessageQueueStorage :=
  { storage with
    receiveAckPending := false
    queueData := storage.queueData.dequeue isWritten }.maybeSendNextMessage

/-- `Send`.  The watcher is called after it. -/
def send (storage : MessageQueueStorage) (message : Bytes) (isWritten : Bool) :
    MessageQueueStorage :=
  { storage with queueData := storage.queueData.enqueue message isWritten }.maybeSendNextMessage

def registerWatcher (storage : MessageQueueStorage) (watcher : ℕ) : MessageQueueStorage :=
  { storage with watcher := some watcher }

def dropWatcher (storage : MessageQueueStorage) : MessageQueueStorage :=
  { storage with watcher := none }

@[simp]
theorem queueData_maybeSendNextMessage (storage : MessageQueueStorage) :
    storage.maybeSendNextMessage.queueData = storage.queueData := by
  unfold maybeSendNextMessage
  split
  · split <;> rfl
  · rfl

/-- The receiver that is connected has been called with the front message, and with no other one;
and the flag tells whether there is such a call. -/
structure Outstanding (storage : MessageQueueStorage) : Prop where
  disconnected : storage.messageReceiver = none → storage.receiveAckPending = false
  called : ∀ receiver, storage.messageReceiver = some receiver → receiver.calls =
    (storage.queueData.queue.head?.map fun message =>
      (message, storage.queueData.dequeued)).toList
  flag : ∀ receiver, storage.messageReceiver = some receiver →
    storage.receiveAckPending = !storage.queueData.isEmpty

variable {storage : MessageQueueStorage}

theorem outstanding_maybeSendNextMessage (notPending : storage.receiveAckPending = false)
    (notCalled : ∀ receiver, storage.messageReceiver = some receiver → receiver.calls = []) :
    storage.maybeSendNextMessage.Outstanding := by
  unfold maybeSendNextMessage
  cases isReceiver : storage.messageReceiver with
  | none =>
    simp only
    constructor
    · exact fun _ => notPending
    · intro receiver isSome
      exact nomatch isReceiver.symm.trans isSome
    · intro receiver isSome
      exact nomatch isReceiver.symm.trans isSome
  | some receiver =>
    have noCalls := notCalled receiver isReceiver
    cases isQueue : storage.queueData.queue with
    | nil =>
      simp only
      constructor
      · intro isNone
        exact nomatch isReceiver.symm.trans isNone
      · intro other isSome
        rw [isReceiver] at isSome
        cases isSome
        simp [noCalls, isQueue]
      · intro other _
        simp [notPending, PersistentQueue.isEmpty, isQueue]
    | cons message messages =>
      simp only [notPending, Bool.false_eq_true, if_false]
      constructor
      · rintro ⟨⟩
      · rintro other ⟨⟩
        simp [noCalls, isQueue]
      · rintro other ⟨⟩
        simp [PersistentQueue.isEmpty, isQueue]

variable (outstanding : storage.Outstanding) {receiver : MessageReader}
include outstanding

theorem Outstanding.queue_eq_nil (isReceiver : storage.messageReceiver = some receiver)
    (notPending : storage.receiveAckPending = false) : storage.queueData.queue = [] := by
  simpa [notPending, PersistentQueue.isEmpty] using outstanding.flag receiver isReceiver

theorem Outstanding.send (message : Bytes) (isWritten : Bool) :
    (storage.send message isWritten).Outstanding := by
  cases isPending : storage.receiveAckPending with
  | false =>
    refine outstanding_maybeSendNextMessage isPending fun receiver isReceiver => ?_
    rw [outstanding.called receiver isReceiver, outstanding.queue_eq_nil isReceiver isPending]
    rfl
  | true =>
    have unchanged : storage.send message isWritten =
        { storage with queueData := storage.queueData.enqueue message isWritten } := by
      unfold MessageQueueStorage.send maybeSendNextMessage
      split
      · simp [isPending]
      · rfl
    have notEmpty : ∀ receiver, storage.messageReceiver = some receiver →
        storage.queueData.queue ≠ [] := by
      intro receiver isReceiver isNil
      simpa [isPending, PersistentQueue.isEmpty, isNil] using outstanding.flag receiver isReceiver
    rw [unchanged]
    constructor
    · exact outstanding.disconnected
    · intro receiver isReceiver
      obtain ⟨front, messages, isQueue⟩ := List.exists_cons_of_ne_nil (notEmpty receiver isReceiver)
      rw [outstanding.called receiver isReceiver]
      simp [isQueue, PersistentQueue.enqueue]
    · intro receiver isReceiver
      simp [isPending, PersistentQueue.isEmpty]

/-- The only call that can be acknowledged is the one with the front message. -/
theorem Outstanding.front_of_call (isReceiver : storage.messageReceiver = some receiver) {index : ℕ}
    {call : Bytes × ℕ} (isCall : receiver.calls[index]? = some call) :
    receiver.calls.eraseIdx index = [] ∧ call.2 = storage.queueData.dequeued ∧
      ∃ messages, storage.queueData.queue = call.1 :: messages := by
  rw [outstanding.called receiver isReceiver] at isCall ⊢
  cases isQueue : storage.queueData.queue with
  | nil => simp [isQueue] at isCall
  | cons front messages =>
    simp only [isQueue, List.head?_cons, Option.map_some, Option.toList_some] at isCall ⊢
    cases index with
    | zero =>
      cases isCall
      exact ⟨rfl, rfl, messages, rfl⟩
    | succ index => simp at isCall

end MessageQueueStorage

end Peridot
