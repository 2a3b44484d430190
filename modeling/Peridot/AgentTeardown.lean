import Peridot.AgentPhases

/-!
# Teardown of the agent runner

After `Teardown` was called, every agent that runs is asked to stop, and the callback is called when
none is left, or after a timeout.  An agent may have been terminating already, with requests that
wait for the next one.
-/

namespace Peridot

open Function

/-- The agents, and the requests that wait for them, when `Teardown` is called. `urls` has the keys
of `running_agents_`. -/
structure RunningAgents where
  slots : Bytes → AgentSlot
  urls : List Bytes
  covers : ∀ url, (slots url).runningAgent.isSome = true → url ∈ urls
  phased : ∀ url, ∀ agent ∈ (slots url).runningAgent, agent.Phased
  checked : ∀ url, (slots url).failed = false ∧ (slots url).dangled = false

/-- The runner after `Teardown` was called. `stops` is how many operations an agent has before the
`StopCall` of its `StopForTeardown`. `asked` are the agents that were asked to stop, and
`stopResults` what their `StopCall` gave; `started` are the agents that were started since. Each
call of the callback is kept with whether it is from the timeout, and whether no agent is
running. -/
structure AgentTeardown where
  slots : Bytes → AgentSlot
  urls : List Bytes
  stops : Bytes → Option ℕ
  asked : List Bytes
  stopResults : List (Bytes × Bool)
  started : List Bytes
  timer : Bool
  called : Bool
  calls : List (Bool × Bool)
  crashed : Bool

/-- What happens during a teardown: an event of a slot, the end of the process of an agent, and the
timeout. -/
inductive TeardownEvent where
  | slot (url : Bytes) (event : SlotEvent)
  | crash (url : Bytes)
  | timeout

namespace AgentTeardown

def noneRunning (teardown : AgentTeardown) : Bool :=
  teardown.urls.all fun url => (teardown.slots url).runningAgent.isNone

def cont (teardown : AgentTeardown) (fromTimeout : Bool) : AgentTeardown :=
  if teardown.called then teardown
  else
    { teardown with
      called := true
      calls := teardown.calls ++ [(fromTimeout, teardown.noneRunning)] }

/-- `StopForTeardown`: a `StopCall` that does not ask whether something is left to do. -/
def stopForTeardown (slot : AgentSlot) : AgentSlot :=
  { slot with runningAgent := slot.runningAgent.map fun agent => agent.hold .stopCall }

def teardown (agents : RunningAgents) : AgentTeardown :=
  if (agents.urls.all fun url => (agents.slots url).runningAgent.isNone) = true then
    ⟨agents.slots, agents.urls, fun _ => none, [], [], [], false, true, [(false, true)], false⟩
  else
    ⟨fun url => stopForTeardown (agents.slots url), agents.urls,
      fun url => (agents.slots url).runningAgent.map fun agent => agent.operations.length,
      agents.urls.filter fun url => (agents.slots url).runningAgent.isSome, [], [], true, false, [],
      false⟩

def numOperations (slot : AgentSlot) : ℕ :=
  (slot.runningAgent.map fun agent => agent.operations.length).getD 0

/-- A slot is changed; operations leave the queue of its agent at the front. -/
def changeSlot (teardown : AgentTeardown) (url : Bytes) (slot : AgentSlot) : AgentTeardown :=
  { teardown with
    slots := update teardown.slots url slot
    stops := update teardown.stops url ((teardown.stops url).map fun ahead =>
      ahead - (numOperations (teardown.slots url) - numOperations slot))
    crashed := slot.failed || slot.dangled }

/-- An agent is erased from `running_agents_`, with its operations. -/
def eraseAgent (teardown : AgentTeardown) (url : Bytes) : AgentTeardown :=
  { teardown with
    slots := update teardown.slots url { teardown.slots url with runningAgent := none }
    stops := update teardown.stops url none }

def runAgent (teardown : AgentTeardown) (url : Bytes) : AgentTeardown :=
  { teardown.changeSlot url (teardown.slots url).runAgent with
    started := teardown.started ++ [url] }

def removeAgent (teardown : AgentTeardown) (url : Bytes) : AgentTeardown :=
  if (teardown.eraseAgent url).noneRunning then (teardown.eraseAgent url).cont false
  else if (teardown.slots url).runAgentCallbacks = [] then teardown.eraseAgent url
  else (teardown.eraseAgent url).runAgent url

/-- The result of the `StopCall` of a `StopForTeardown`, which has to have stopped the agent. -/
def stopResult (teardown : AgentTeardown) (url : Bytes) (stopped : Bool) : AgentTeardown :=
  { teardown with
    stopResults := teardown.stopResults ++ [(url, stopped)]
    crashed := !stopped }

/-- `StopCall::Run` of a `StopForTeardown`. -/
def runStopForTeardown (teardown : AgentTeardown) (url : Bytes) (agent : AgentContext) :
    AgentTeardown :=
  if agent.state = .terminating then teardown.stopResult url false
  else
    teardown.changeSlot url { teardown.slots url with
      runningAgent := some { agent with state := .terminating, isRunning := true } }

def onStopped (teardown : AgentTeardown) (url : Bytes) : AgentTeardown :=
  if teardown.stops url = some 0 then (teardown.stopResult url true).removeAgent url
  else teardown.removeAgent url

def slotStep (teardown : AgentTeardown) (url : Bytes) : SlotEvent → Option AgentTeardown
  | .agent (.connectToAgent _) | .agent .connectToEntityProvider => some teardown
  | .agent (.queueChanged taskId) =>
    if taskId ∈ (teardown.slots url).watchedQueues then some teardown else none
  | .agent (.alarmTimer taskId) =>
    if taskId ∈ (teardown.slots url).timers then
      some (teardown.changeSlot url { teardown.slots url with
        timers := (teardown.slots url).timers.erase taskId })
    else none
  | .agent .runOperation =>
    if teardown.stops url = some 0 then
      ((teardown.slots url).runningAgent.filter fun agent => !agent.isRunning).map
        (teardown.runStopForTeardown url)
    else ((teardown.slots url).step (.agent .runOperation)).map (teardown.changeSlot url)
  | .agent .stopped =>
    ((teardown.slots url).runningAgent.filter fun agent =>
      agent.isRunning && agent.operations.head? == some .stopCall).map
        fun _ => teardown.onStopped url
  | event => ((teardown.slots url).step event).map (teardown.changeSlot url)

/-- A step. The process of an agent is watched while the agent is running. -/
def step (teardown : AgentTeardown) (event : TeardownEvent) : Option AgentTeardown :=
  if teardown.crashed then none
  else match event with
    | .slot url event => teardown.slotStep url event
    | .crash url =>
      ((teardown.slots url).runningAgent.filter fun agent => agent.state = .running).map
        fun _ => teardown.removeAgent url
    | .timeout =>
      if teardown.timer then some ({ teardown with timer := false }.cont true) else none

end AgentTeardown

/-- No check has failed, no agent was started, every `StopForTeardown` waits or has stopped its
agent, and the callback is called once: at the timeout, or when no agent is running. -/
structure TearsDown (teardown : AgentTeardown) : Prop where
  checked : teardown.crashed = false
  noneStarted : teardown.started = []
  stops : ∀ url ∈ teardown.asked,
    (teardown.stops url).isSome = true ∨ (url, true) ∈ teardown.stopResults
  stopped : ∀ result ∈ teardown.stopResults, result.2 = true
  once : teardown.calls.length ≤ 1
  early : ∀ call ∈ teardown.calls, call.1 = true ∨ call.2 = true
  called : teardown.timer = false ∨ teardown.noneRunning = true → teardown.calls.length = 1

/-- An agent that goes is stopped by its `StopForTeardown`, and no requests wait for it while
another agent is running. -/
def StopsInOrder (teardown : AgentTeardown) : TeardownEvent → Prop
  | .slot url (.agent .stopped) => teardown.stops url = some 0 ∧
      ((∃ other ∈ teardown.urls, other ≠ url ∧ (teardown.slots other).runningAgent.isSome = true) →
        (teardown.slots url).runAgentCallbacks = [])
  | .crash _ => False
  | _ => True

end Peridot
