import Peridot.MessageQueueStorage

/-!
# Delivery of messages

Messages are sent, acknowledged and kept over restarts while receivers connect, disconnect and
replace each other.  No message is lost, but the queue stands still once a receiver has replaced
another one before it has acknowledged its message.
-/

namespace Peridot

open MessageQueueStorage PersistentQueue

/-- A queue with what has happened to it: the messages that have been sent, those that have left
the queue, and the calls that receivers have acknowledged. -/
structure QueueWorld where
  storage : MessageQueueStorage
  sent : List Bytes
  removed : List Bytes
  acknowledged : List (Bytes × ℕ)

inductive QueueEvent where
  | send (message : Bytes) (isWritten : Bool)
  | registerReceiver
  /-- The receiver that is connected acknowledges a call. -/
  | acknowledge (index : ℕ) (isWritten : Bool)
  /-- The receiver that is connected closes its connection. -/
  | closeReceiver
  /-- The queue is read from its file again, and nobody is connected to it. -/
  | restart

namespace QueueWorld

/-- A queue that is read from its file.  The messages in the file have been sent before. -/
def initial (queueName queueToken : Bytes) (file : Option QueueDocument) : QueueWorld :=
  ⟨.new queueName queueToken file 0, readFile file, [], []⟩

def acknowledge (world : QueueWorld) (receiver : MessageReader) (call : Bytes × ℕ) (index : ℕ)
    (isWritten : Bool) : QueueWorld :=
  let waiting : MessageQueueStorage :=
    { world.storage with messageReceiver := some ⟨receiver.calls.eraseIdx index⟩ }
  { world with
    storage := waiting.onAcknowledged isWritten
    removed := world.removed ++ world.storage.queueData.queue.head?.toList
    acknowledged := world.acknowledged ++ [call] }

def step (world : QueueWorld) : QueueEvent → Option QueueWorld
  | .send message isWritten =>
    some { world with
      storage := world.storage.send message isWritten
      sent := world.sent ++ [message] }
  | .registerReceiver => some { world with storage := world.storage.registerReceiver }
  | .acknowledge index isWritten =>
    match world.storage.messageReceiver with
    | none => none
    | some receiver =>
      (receiver.calls[index]?).map fun call =>
        world.acknowledge receiver call index isWritten
  | .closeReceiver =>
    if world.storage.messageReceiver = none then none
    else some { world with storage := world.storage.onReceiverError }
  | .restart =>
    some { world with
      storage := .new world.storage.queueName world.storage.queueToken
        world.storage.queueData.file world.storage.queueData.dequeued }

/-- The messages leave the queue in the order in which they were sent, each of them with the
acknowledgement of the call with this message, and the receiver that is connected has been called
with the front message. -/
structure Delivers (world : QueueWorld) : Prop where
  inOrder : world.sent = world.removed ++ world.storage.queueData.queue
  acknowledged : world.acknowledged = world.removed.zipIdx
  called : ∀ receiver message messages, world.storage.messageReceiver = some receiver →
    world.storage.queueData.queue = message :: messages →
      (message, world.removed.length) ∈ receiver.calls

/-- No receiver is replaced before it has acknowledged its message, and the queue is in the file
when it is read again. -/
def Undisturbed (world : QueueWorld) : QueueEvent → Prop
  | .registerReceiver => world.storage.receiveAckPending = false
  | .restart => readFile world.storage.queueData.file =
      world.storage.queueData.queue
  | _ => True

instance (world : QueueWorld) : ∀ event, Decidable (world.Undisturbed event)
  | .registerReceiver => inferInstanceAs (Decidable (_ = _))
  | .restart => inferInstanceAs (Decidable (_ = _))
  | .send _ _ | .acknowledge _ _ | .closeReceiver => .isTrue trivial

/-- What steps keep: the messages are counted, and the flag of the storage is right. -/
structure Accounted (world : QueueWorld) : Prop where
  inOrder : world.sent = world.removed ++ world.storage.queueData.queue
  acknowledged : world.acknowledged = world.removed.zipIdx
  counted : world.storage.queueData.dequeued = world.removed.length
  outstanding : world.storage.Outstanding

variable {world world' : QueueWorld}

theorem Accounted.delivers (accounted : world.Accounted) : world.Delivers where
  __ := accounted
  called receiver message messages isReceiver isQueue := by
    rw [accounted.outstanding.called receiver isReceiver, isQueue, accounted.counted]
    simp

theorem accounted_initial (queueName queueToken : Bytes) (file : Option QueueDocument) :
    (initial queueName queueToken file).Accounted where
  inOrder := rfl
  acknowledged := rfl
  counted := rfl
  outstanding := ⟨fun _ => rfl, nofun, nofun⟩

section

variable (accounted : world.Accounted)
include accounted

theorem Accounted.send (message : Bytes) (isWritten : Bool) : Accounted { world with
      storage := world.storage.send message isWritten
      sent := world.sent ++ [message] } where
  inOrder := by simp [MessageQueueStorage.send, accounted.inOrder]
  acknowledged := accounted.acknowledged
  counted := by simpa [MessageQueueStorage.send, enqueue] using accounted.counted
  outstanding := accounted.outstanding.send message isWritten

theorem Accounted.acknowledge {receiver : MessageReader}
    (isReceiver : world.storage.messageReceiver = some receiver) {index : ℕ} {call : Bytes × ℕ}
    (isCall : receiver.calls[index]? = some call) (isWritten : Bool) :
    (world.acknowledge receiver call index isWritten).Accounted := by
  obtain ⟨noCalls, isNumber, messages, isQueue⟩ :=
    accounted.outstanding.front_of_call isReceiver isCall
  exact {
    inOrder := by
      simp [QueueWorld.acknowledge, MessageQueueStorage.onAcknowledged, isQueue, accounted.inOrder]
    acknowledged := by
      simp [QueueWorld.acknowledge, isQueue, accounted.acknowledged, List.zipIdx_append,
        ← accounted.counted, ← isNumber]
    counted := by
      simp [QueueWorld.acknowledge, MessageQueueStorage.onAcknowledged, dequeue,
        isQueue, accounted.counted]
    outstanding := outstanding_maybeSendNextMessage rfl (by rintro other ⟨⟩; exact noCalls) }

theorem Accounted.step {event : QueueEvent}
    (undisturbed : world.Undisturbed event) (stepped : world.step event = some world') :
    world'.Accounted := by
  cases event with
  | send message isWritten =>
    cases stepped
    exact accounted.send message isWritten
  | registerReceiver =>
    cases stepped
    exact {
      inOrder := by simpa [MessageQueueStorage.registerReceiver] using accounted.inOrder
      acknowledged := accounted.acknowledged
      counted := by simpa [MessageQueueStorage.registerReceiver] using accounted.counted
      outstanding := outstanding_maybeSendNextMessage undisturbed (by rintro receiver ⟨⟩; rfl) }
  | acknowledge index isWritten =>
    simp only [QueueWorld.step] at stepped
    split at stepped
    · simp at stepped
    · rename_i receiver isReceiver
      obtain ⟨call, isCall, rfl⟩ := Option.map_eq_some_iff.mp stepped
      exact accounted.acknowledge isReceiver isCall isWritten
  | closeReceiver =>
    obtain ⟨-, stepped⟩ := Option.ite_none_left_eq_some.mp stepped
    cases stepped
    exact { accounted with outstanding := ⟨fun _ => rfl, nofun, nofun⟩ }
  | restart =>
    cases stepped
    exact {
      inOrder := accounted.inOrder.trans (congrArg _ undisturbed.symm)
      __ := accounted
      outstanding := ⟨fun _ => rfl, nofun, nofun⟩ }

end

/-- If no receiver is replaced while an acknowledgement is pending, and the queue is in its file at
each restart, all messages are delivered. -/
theorem delivers_run (queueName queueToken : Bytes) (file : Option QueueDocument)
    {events : List QueueEvent} {world : QueueWorld}
    (undisturbed : EachStep step Undisturbed (initial queueName queueToken file) events)
    (ran : runSteps step (initial queueName queueToken file) events = some world) :
    world.Delivers :=
  (invariant_runSteps Accounted
    (fun accounted undisturbed stepped => accounted.step undisturbed stepped)
    (accounted_initial queueName queueToken file) undisturbed ran).delivers

/-- Two messages of a queue whose receiver disconnects before it acknowledges the first one, and
which is read from its file between the acknowledgements. -/
theorem delivers_run_restart :
    let events : List QueueEvent := [.registerReceiver, .send [1] true, .send [2] true,
      .closeReceiver, .registerReceiver, .acknowledge 0 true, .restart, .registerReceiver,
      .acknowledge 0 true]
    ∃ world, runSteps step (initial [] [] none) events = some world ∧
      world.acknowledged = [([1], 0), ([2], 1)] ∧ world.Delivers := by
  intro events
  refine ⟨_, rfl, rfl, ?_⟩
  exact @delivers_run [] [] none events _ (by decide) rfl

/-- A receiver replaces another one that has not acknowledged its message: it is connected, but is
not called, although the message is still in the queue. -/
theorem not_delivers_replaced :
    let events : List QueueEvent := [.registerReceiver, .send [1] true, .registerReceiver]
    ∃ world, runSteps step (initial [] [] none) events = some world ∧
      world.storage.messageReceiver = some ⟨[]⟩ ∧ world.storage.queueData.queue = [[1]] ∧
        ¬world.Delivers := by
  intro events
  refine ⟨_, rfl, rfl, rfl, fun delivers => ?_⟩
  exact absurd (delivers.called ⟨[]⟩ [1] [] rfl rfl) (by decide)

end QueueWorld

end Peridot
