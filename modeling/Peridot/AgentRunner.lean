import Mathlib.Data.List.AList
import Peridot.StepRun
import Peridot.StorageTypes

/-!
# The agent runner

Agents are started when something is asked of them and stop by themselves when nothing is left to
do.  All maps of the runner have the url of the agent as their key, so that the state of the runner
is one slot for each url.  What is asked of an agent that terminates waits in the slot until the
next agent is started; what is asked of a running agent waits in its operation queue.
-/

namespace Peridot

open Function

/-- `AgentContextImpl::State`. -/
inductive AgentState
  | initializing
  | running
  | terminating
  deriving DecidableEq

/-- What is asked of an agent, with a number that no other request of the url has. -/
inductive AgentRequest
  | connection (number : ℕ) (requestorUrl : Bytes)
  | entityProvider (number : ℕ)
  | task (number : ℕ) (taskId : Bytes) (fromAlarm : Bool)
  deriving DecidableEq

def AgentRequest.number : AgentRequest → ℕ
  | .connection number _ => number
  | .entityProvider number => number
  | .task number _ _ => number

inductive AgentOperation
  | initializeCall
  | syncCall (request : AgentRequest)
  | stopCall
  deriving DecidableEq

/-- `AgentContextImpl`, with its operation queue: the first operation has been posted, or its
`Run` has been called and waits if `isRunning`. -/
structure AgentContext where
  state : AgentState
  operations : List AgentOperation
  isRunning : Bool
  agentControllerBindings : ℕ
  incompleteTaskCount : ℕ

namespace AgentContext

/-- The constructor, which makes the `InitializeCall`. -/
def start : AgentContext :=
  ⟨.initializing, [.initializeCall], false, 0, 0⟩

/-- `OperationQueue::Hold`: only the first operation is posted. -/
def hold (context : AgentContext) (operation : AgentOperation) : AgentContext :=
  { context with operations := context.operations ++ [operation] }

/-- `Drop` and `Cont` of the first operation. -/
def drop (context : AgentContext) : AgentContext :=
  { context with operations := context.operations.tail, isRunning := false }

def maybeStopAgent (context : AgentContext) : AgentContext :=
  context.hold .stopCall

/-- The body of the `SyncCall` of a request, once the agent is known to be running. -/
def receive (context : AgentContext) : AgentRequest → AgentContext
  | .task _ _ _ => { context with incompleteTaskCount := context.incompleteTaskCount + 1 }
  | _ => { context with agentControllerBindings := context.agentControllerBindings + 1 }

/-- An `AgentController` is closed; the agent is told when it was the last. -/
def closeBinding (context : AgentContext) : Option AgentContext :=
  match context.agentControllerBindings with
  | 0 => none
  | 1 => some { context with agentControllerBindings := 0 }.maybeStopAgent
  | bindings + 1 => some { context with agentControllerBindings := bindings }

/-- The callback of `RunTask`. -/
def completeTask (context : AgentContext) : Option AgentContext :=
  match context.incompleteTaskCount with
  | 0 => none
  | count + 1 => some { context with incompleteTaskCount := count }.maybeStopAgent

end AgentContext

/-- The functions that wait in `run_agent_callbacks_`. The function of an alarm has an iterator of
`running_alarms_`, which is the entry of the url from the given epoch. -/
inductive RunCallback
  | forwardConnections
  | connectEntityProvider
  | newTask (number : ℕ) (taskId : Bytes)
  | alarm (number : ℕ) (taskId : Bytes) (epoch : ℕ)
  deriving DecidableEq

inductive TriggerCondition
  | queue (queueName : Bytes)
  | alarm (alarmInSeconds : UInt32)

/-- What the runner has for one url. The entry of `running_alarms_` exists while it is not empty,
and a new epoch begins when it is erased. `failed` is a check that does not hold, `dangled` the use
of an entry that was erased. The last five are not in the source: the requests that were made, the
requests that the agents received and the state they were in, the alarm tasks that are added, and
the alarm tasks that were run or scheduled again by an alarm, and whether they were still added. -/
structure AgentSlot where
  runningAgent : Option AgentContext
  runAgentCallbacks : List RunCallback
  pendingAgentConnections : List AgentRequest
  pendingEntityProviderConnection : Option AgentRequest
  watchedQueues : AList fun _ : Bytes => Bytes
  runningAlarms : AList fun _ : Bytes => UInt32
  epoch : ℕ
  timers : List Bytes
  failed : Bool
  dangled : Bool
  issued : List AgentRequest
  received : List (AgentRequest × AgentState)
  added : Bytes → Bool
  ran : List (Bytes × Bool)
  rescheduled : List (Bytes × Bool)

namespace AgentSlot

def empty : AgentSlot :=
  ⟨none, [], [], none, ∅, ∅, 0, [], false, false, [], [], fun _ => false, [], []⟩

def newOperation (slot : AgentSlot) (operation : AgentOperation) : AgentSlot :=
  match slot.runningAgent with
  | some agent => { slot with runningAgent := some (agent.hold operation) }
  | none => { slot with failed := true }

/-- `NewAgentConnection`, `NewEntityProviderConnection` and `NewTask`. -/
def newRequest (slot : AgentSlot) (request : AgentRequest) : AgentSlot :=
  slot.newOperation (.syncCall request)

def forwardConnectionsToAgent (slot : AgentSlot) : AgentSlot :=
  { slot.pendingAgentConnections.foldl newRequest slot with pendingAgentConnections := [] }

/-- The function that `ConnectToEntityProvider` gives to `MaybeRunAgent`. -/
def forwardEntityProvider (slot : AgentSlot) : AgentSlot :=
  match slot.pendingEntityProviderConnection with
  | some request => { slot.newRequest request with pendingEntityProviderConnection := none }
  | none => { slot with failed := true }

def scheduleAlarmTask (slot : AgentSlot) (taskId : Bytes) (alarmInSeconds : UInt32)
    (isNewRequest : Bool) : AgentSlot :=
  if taskId ∈ slot.runningAlarms ∧ isNewRequest then
    { slot with runningAlarms := slot.runningAlarms.insert taskId alarmInSeconds }
  else
    { slot with
      runningAlarms := slot.runningAlarms.insert taskId alarmInSeconds
      timers := slot.timers ++ [taskId] }

/-- The function that a timer gives to `MaybeRunAgent`. A task without a period is given the
period 0 when its period is looked up. -/
def runAlarm (slot : AgentSlot) (number : ℕ) (taskId : Bytes) (epoch : ℕ) : AgentSlot :=
  let slot := slot.newRequest (.task number taskId true)
  if epoch = slot.epoch then
    { slot.scheduleAlarmTask taskId ((slot.runningAlarms.lookup taskId).getD 0) false with
      rescheduled := slot.rescheduled ++ [(taskId, slot.added taskId)] }
  else
    { slot with dangled := true }

/-- What a function that is given to `MaybeRunAgent` does. -/
def runCallback (slot : AgentSlot) : RunCallback → AgentSlot
  | .forwardConnections => slot.forwardConnectionsToAgent
  | .connectEntityProvider => slot.forwardEntityProvider
  | .newTask number taskId => slot.newRequest (.task number taskId false)
  | .alarm number taskId epoch => slot.runAlarm number taskId epoch

def runAgent (slot : AgentSlot) : AgentSlot :=
  match slot.runningAgent with
  | some _ => { slot with failed := true }
  | none =>
    { slot.runAgentCallbacks.foldl runCallback { slot with runningAgent := some .start } with
      runAgentCallbacks := [] }

def maybeRunAgent (slot : AgentSlot) (done : RunCallback) : AgentSlot :=
  match slot.runningAgent with
  | some agent =>
    if agent.state = .terminating then
      { slot with runAgentCallbacks := slot.runAgentCallbacks ++ [done] }
    else
      slot.runCallback done
  | none => { slot with runAgentCallbacks := slot.runAgentCallbacks ++ [done] }.runAgent

def removeAgent (slot : AgentSlot) : AgentSlot :=
  let slot := { slot with runningAgent := none }
  if slot.runAgentCallbacks = [] then slot else slot.runAgent

def connectToAgent (slot : AgentSlot) (number : ℕ) (requestorUrl : Bytes) : AgentSlot :=
  { slot with
    pendingAgentConnections := slot.pendingAgentConnections ++
      [AgentRequest.connection number requestorUrl] }.maybeRunAgent .forwardConnections

def connectToEntityProvider (slot : AgentSlot) (number : ℕ) : AgentSlot :=
  { slot with
    pendingEntityProviderConnection := some (AgentRequest.entityProvider number) }.maybeRunAgent
      .connectEntityProvider

def queueChanged (slot : AgentSlot) (number : ℕ) (taskId : Bytes) : AgentSlot :=
  slot.maybeRunAgent (.newTask number taskId)

/-- The task that `ScheduleAlarmTask` posts with a delay. -/
def alarmTimer (slot : AgentSlot) (number : ℕ) (taskId : Bytes) : AgentSlot :=
  let slot := { slot with timers := slot.timers.erase taskId }
  if taskId ∈ slot.runningAlarms then
    slot.maybeRunAgent (.alarm number taskId slot.epoch)
  else
    slot

/-- `ScheduleMessageQueueTask`, without the watcher of the message queue. -/
def scheduleMessageQueueTask (slot : AgentSlot) (taskId queueName : Bytes) : AgentSlot :=
  { slot with watchedQueues := slot.watchedQueues.insert taskId queueName }

/-- The part of `AddedTask` for one url. -/
def addedTask (slot : AgentSlot) (taskId : Bytes) : TriggerCondition → AgentSlot
  | .queue queueName => slot.scheduleMessageQueueTask taskId queueName
  | .alarm alarmInSeconds =>
    { slot.scheduleAlarmTask taskId alarmInSeconds true with
      added := update slot.added taskId true }

/-- `DeleteMessageQueueTask`, without the watcher of the message queue. -/
def deleteMessageQueueTask (slot : AgentSlot) (taskId : Bytes) : AgentSlot :=
  { slot with watchedQueues := slot.watchedQueues.erase taskId }

/-- `DeleteAlarmTask`: an entry of a url that is empty is erased. -/
def deleteAlarmTask (slot : AgentSlot) (taskId : Bytes) : AgentSlot :=
  if taskId ∈ slot.runningAlarms then
    let alarms := slot.runningAlarms.erase taskId
    { slot with
      runningAlarms := alarms
      epoch := if alarms.keys = [] then slot.epoch + 1 else slot.epoch }
  else
    slot

/-- The part of `DeletedTask` for one url. -/
def deletedTask (slot : AgentSlot) (taskId : Bytes) : AgentSlot :=
  { (slot.deleteMessageQueueTask taskId).deleteAlarmTask taskId with
    added := update slot.added taskId false }

/-- The `SyncCall` of a request is run: it is dropped, and the agent receives the request. -/
def runSyncCall (slot : AgentSlot) (agent : AgentContext) (request : AgentRequest) : AgentSlot :=
  if agent.state = .running then
    { slot with
      runningAgent := some (agent.drop.receive request)
      received := slot.received ++ [(request, agent.state)]
      ran := match request with
        | .task _ taskId true => slot.ran ++ [(taskId, slot.added taskId)]
        | _ => slot.ran }
  else
    { slot with failed := true }

/-- `StopCall::Run`, which is not for a teardown. -/
def runStopCall (agent : AgentContext) : AgentContext :=
  if agent.state = .terminating then
    agent.drop
  else if agent.agentControllerBindings = 0 ∧ agent.incompleteTaskCount = 0 then
    { agent with state := .terminating, isRunning := true }
  else
    agent.drop

/-- `Run` of an operation that was posted. -/
def runOperation (slot : AgentSlot) (agent : AgentContext) : AgentOperation → AgentSlot
  | .initializeCall =>
    if agent.state = .initializing then
      { slot with runningAgent := some { agent with isRunning := true } }
    else
      { slot with failed := true }
  | .syncCall request => slot.runSyncCall agent request
  | .stopCall => { slot with runningAgent := some (runStopCall agent) }

end AgentSlot

/-- What happens to the slot of a url by itself: requests come, timers fire and queues change, the
first operation of the agent is run, an operation that waits gets its answer, a connection of the
agent is closed, or a task is completed. -/
inductive AgentEvent
  | connectToAgent (requestorUrl : Bytes)
  | connectToEntityProvider
  | queueChanged (taskId : Bytes)
  | alarmTimer (taskId : Bytes)
  | runOperation
  | services
  | stopped
  | closeBinding
  | completeTask

inductive SlotEvent
  | addedTask (taskId : Bytes) (condition : TriggerCondition)
  | deletedTask (taskId : Bytes)
  | agent (event : AgentEvent)

namespace AgentSlot

/-- An operation that waits is answered: the agent has its services, or the application has been
torn down. -/
def answer (slot : AgentSlot) (agent : AgentContext) : AgentOperation → AgentEvent →
    Option AgentSlot
  | .initializeCall, .services =>
    some { slot with runningAgent := some { agent.drop with state := .running } }
  | .stopCall, .stopped => some slot.removeAgent
  | _, _ => none

def agentStep (slot : AgentSlot) (agent : AgentContext) : AgentEvent → Option AgentSlot
  | .runOperation =>
    if agent.isRunning then none else agent.operations.head?.map (slot.runOperation agent)
  | .closeBinding => agent.closeBinding.map fun agent => { slot with runningAgent := some agent }
  | .completeTask => agent.completeTask.map fun agent => { slot with runningAgent := some agent }
  | event =>
    if agent.isRunning then
      agent.operations.head?.bind fun operation => slot.answer agent operation event
    else
      none

/-- A request is given its number, and then to the function that takes it. -/
def issue (slot : AgentSlot) (request : ℕ → AgentRequest) (take : AgentSlot → ℕ → AgentSlot) :
    AgentSlot :=
  take { slot with issued := slot.issued ++ [request slot.issued.length] } slot.issued.length

def step (slot : AgentSlot) : SlotEvent → Option AgentSlot
  | .addedTask taskId condition => some (slot.addedTask taskId condition)
  | .deletedTask taskId => some (slot.deletedTask taskId)
  | .agent (.connectToAgent requestorUrl) =>
    some (slot.issue (.connection · requestorUrl) (connectToAgent · · requestorUrl))
  | .agent .connectToEntityProvider => some (slot.issue .entityProvider connectToEntityProvider)
  | .agent (.queueChanged taskId) =>
    if taskId ∈ slot.watchedQueues then
      some (slot.issue (.task · taskId false) (queueChanged · · taskId))
    else none
  | .agent (.alarmTimer taskId) =>
    if taskId ∈ slot.timers then
      some (if taskId ∈ slot.runningAlarms then
        slot.issue (.task · taskId true) (alarmTimer · · taskId)
      else slot.alarmTimer slot.issued.length taskId)
    else none
  | .agent event => slot.runningAgent.bind fun agent => slot.agentStep agent event

theorem deleteAlarmTask_eq (slot : AgentSlot) (taskId : Bytes) :
    slot.deleteAlarmTask taskId = { slot with
      runningAlarms := slot.runningAlarms.erase taskId
      epoch := if taskId ∈ slot.runningAlarms ∧ (slot.runningAlarms.erase taskId).keys = [] then
        slot.epoch + 1 else slot.epoch } := by
  by_cases isAlarm : taskId ∈ slot.runningAlarms
  · simp [deleteAlarmTask, isAlarm]
  · have sameAlarms : slot.runningAlarms.erase taskId = slot.runningAlarms :=
      AList.ext (List.kerase_of_notMem_keys isAlarm)
    simp [deleteAlarmTask, isAlarm, sameAlarms]

theorem deletedTask_eq (slot : AgentSlot) (taskId : Bytes) : slot.deletedTask taskId = { slot with
      watchedQueues := slot.watchedQueues.erase taskId
      runningAlarms := slot.runningAlarms.erase taskId
      epoch := if taskId ∈ slot.runningAlarms ∧ (slot.runningAlarms.erase taskId).keys = [] then
        slot.epoch + 1 else slot.epoch
      added := update slot.added taskId false } := by
  rw [deletedTask, deleteAlarmTask_eq]
  rfl

end AgentSlot

structure TriggerInfo where
  agentUrl : Bytes
  taskId : Bytes
  condition : TriggerCondition

inductive RunnerEvent
  | addedTask (key : Bytes) (data : TriggerInfo)
  | deletedTask (key : Bytes)
  | agent (agentUrl : Bytes) (event : AgentEvent)

structure AgentRunner where
  slots : Bytes → AgentSlot
  taskByLedgerKey : AList fun _ : Bytes => Bytes × Bytes
  crashed : Bool

namespace AgentRunner

def empty : AgentRunner := ⟨fun _ => .empty, ∅, false⟩

def target (runner : AgentRunner) : RunnerEvent → Option (Bytes × SlotEvent)
  | .addedTask _ data => some (data.agentUrl, .addedTask data.taskId data.condition)
  | .deletedTask key =>
    (runner.taskByLedgerKey.lookup key).map fun data => (data.1, .deletedTask data.2)
  | .agent agentUrl event => some (agentUrl, .agent event)

/-- The tasks by their keys, after `AddedTask` and `DeletedTask`. -/
def tasks (runner : AgentRunner) : RunnerEvent → AList fun _ : Bytes => Bytes × Bytes
  | .addedTask key data => runner.taskByLedgerKey.insert key (data.agentUrl, data.taskId)
  | .deletedTask key => runner.taskByLedgerKey.erase key
  | .agent _ _ => runner.taskByLedgerKey

def change (runner : AgentRunner) (event : RunnerEvent) (agentUrl : Bytes) (slot : AgentSlot) :
    AgentRunner :=
  ⟨update runner.slots agentUrl slot, runner.tasks event, slot.failed || slot.dangled⟩

/-- `AddedTask`, `DeletedTask` or an event of one url; a key without a task is not deleted. -/
def step (runner : AgentRunner) (event : RunnerEvent) : Option AgentRunner :=
  if runner.crashed then
    none
  else
    match runner.target event with
    | none => some runner
    | some (agentUrl, slotEvent) =>
      ((runner.slots agentUrl).step slotEvent).map (runner.change event agentUrl)

theorem step_slots {runner next : AgentRunner} {event : RunnerEvent}
    (isStep : runner.step event = some next) (url : Bytes) :
    next.slots url = runner.slots url ∨ ∃ slotEvent, runner.target event = some (url, slotEvent) ∧
        (runner.slots url).step slotEvent = some (next.slots url) := by
  obtain ⟨-, isStep⟩ := Option.ite_none_left_eq_some.mp isStep
  split at isStep
  · cases isStep
    exact .inl rfl
  · rename_i agentUrl slotEvent isTarget
    obtain ⟨slot, isSlot, rfl⟩ := Option.map_eq_some_iff.mp isStep
    by_cases same : url = agentUrl
    · subst same
      exact .inr ⟨slotEvent, isTarget, by simpa [change] using isSlot⟩
    · exact .inl (by simp [change, same])

/-- A condition on a slot and its event, for the slot that an event of the runner is about. -/
def Meets (condition : AgentSlot → SlotEvent → Prop) (runner : AgentRunner)
    (event : RunnerEvent) : Prop :=
  ∀ target ∈ runner.target event, condition (runner.slots target.1) target.2

instance (condition : AgentSlot → SlotEvent → Prop)
    [∀ slot event, Decidable (condition slot event)] (runner : AgentRunner)
    (event : RunnerEvent) : Decidable (Meets condition runner event) :=
  inferInstanceAs (Decidable (∀ target ∈ runner.target event, _))

theorem slots_run (Inv : AgentSlot → Prop) {condition : AgentSlot → SlotEvent → Prop}
    (kept : ∀ {slot next : AgentSlot} {event : SlotEvent}, Inv slot → condition slot event →
      slot.step event = some next → Inv next)
    {runner final : AgentRunner} {events : List RunnerEvent} (holds : ∀ url, Inv (runner.slots url))
    (allowed : EachStep step (Meets condition) runner events)
    (isRun : runSteps step runner events = some final) (url : Bytes) : Inv (final.slots url) := by
  refine invariant_runSteps (fun runner => ∀ url, Inv (runner.slots url))
    (fun inv meets stepped url => ?_) holds allowed isRun url
  rcases step_slots stepped url with same | ⟨slotEvent, isTarget, isStep⟩
  · rw [same]
    exact inv url
  · exact kept (inv url) (meets _ isTarget) isStep

end AgentRunner

end Peridot
