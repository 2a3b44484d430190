import Peridot.AgentRunner

/-!
# Requests of agents

A request waits in the slot of its url or in the operation queue of the agent until the agent
receives it.  It is lost when the agent decides to stop while the request is in its queue, and when
a second request for the entity provider comes while the agent terminates.
-/

namespace Peridot

open List Option AgentContext AgentOperation

def AgentOperation.request? : AgentOperation → Option AgentRequest
  | .syncCall request => some request
  | _ => none

def RunCallback.request? : RunCallback → Option AgentRequest
  | .newTask number taskId => some (.task number taskId false)
  | .alarm number taskId _ => some (.task number taskId true)
  | _ => none

namespace AgentContext

def requests (context : AgentContext) : List AgentRequest :=
  context.operations.filterMap request?

def work (context : AgentContext) : ℕ :=
  2 * context.operations.length - if context.isRunning then 1 else 0

/-- A `StopCall` that is run does not stop the agent while requests are behind it. -/
def Undisturbed (context : AgentContext) : Prop :=
  context.operations.head? = some .stopCall → context.agentControllerBindings = 0 →
    context.incompleteTaskCount = 0 → context.requests = []

instance (context : AgentContext) : Decidable context.Undisturbed :=
  inferInstanceAs (Decidable (_ = _ → _ = _ → _ = _ → _ = _))

/-- The queue starts with the operation that the state of the agent is due to. -/
inductive Shape : AgentContext → Prop
  | initializing (rest : List AgentOperation) (isRunning : Bool)
      (fresh : .initializeCall ∉ rest) :
      Shape ⟨.initializing, .initializeCall :: rest, isRunning, 0, 0⟩
  | running (operations : List AgentOperation) (bindings count : ℕ)
      (fresh : .initializeCall ∉ operations) :
      Shape ⟨.running, operations, false, bindings, count⟩
  | terminating (rest : List AgentOperation)
      (stops : rest.filterMap request? = []) :
      Shape ⟨.terminating, .stopCall :: rest, true, 0, 0⟩

def holdAll (context : AgentContext) (requests : List AgentRequest) : AgentContext :=
  { context with operations := context.operations ++ requests.map .syncCall }

theorem requests_holdAll (context : AgentContext) (requests : List AgentRequest) :
    (context.holdAll requests).requests = context.requests ++ requests := by
  have synced : (requests.map syncCall).filterMap request? =
      requests := by
    rw [filterMap_map]
    exact filterMap_some
  simp [AgentContext.requests, holdAll, synced]

theorem Shape.holdAll {context : AgentContext} (shape : context.Shape)
    (notTerminating : context.state ≠ .terminating) (requests : List AgentRequest) :
    (context.holdAll requests).Shape := by
  have fresh : initializeCall ∉ requests.map syncCall := by simp
  cases shape with
  | initializing rest isRunning isFresh => exact .initializing _ isRunning (by simp [isFresh])
  | running operations bindings count isFresh => exact .running _ bindings count (by simp [isFresh])
  | terminating rest stops => exact absurd rfl notTerminating

end AgentContext

namespace AgentSlot

def queued (slot : AgentSlot) : List AgentRequest :=
  (slot.runningAgent.map AgentContext.requests).getD []

def parked (slot : AgentSlot) (callbacks : List RunCallback) : List AgentRequest :=
  slot.pendingAgentConnections ++ slot.pendingEntityProviderConnection.toList ++
    callbacks.filterMap RunCallback.request?

def waiting (slot : AgentSlot) : List AgentRequest :=
  slot.parked slot.runAgentCallbacks ++ slot.queued

def work (slot : AgentSlot) : ℕ :=
  2 * (slot.parked slot.runAgentCallbacks).length +
    (if slot.runAgentCallbacks = [] then 0 else 2) +
      (slot.runningAgent.map AgentContext.work).getD 0

/-- An agent does not stop while requests are behind its `StopCall`, and no request for its entity
provider comes while another one waits. -/
def Connects (slot : AgentSlot) : SlotEvent → Prop
  | .agent .connectToEntityProvider => slot.pendingEntityProviderConnection = none
  | .agent .runOperation => ∀ agent ∈ slot.runningAgent, agent.Undisturbed
  | _ => True

instance (slot : AgentSlot) (event : SlotEvent) : Decidable (slot.Connects event) :=
  match event with
  | .agent .connectToEntityProvider =>
    inferInstanceAs (Decidable (slot.pendingEntityProviderConnection = none))
  | .agent .runOperation =>
    inferInstanceAs (Decidable (∀ agent ∈ slot.runningAgent, agent.Undisturbed))
  | .addedTask _ _ | .deletedTask _ | .agent (.connectToAgent _) | .agent (.queueChanged _)
  | .agent (.alarmTimer _) | .agent .services | .agent .stopped | .agent .closeBinding
  | .agent .completeTask => .isTrue trivial

variable {slot next : AgentSlot} {agent : AgentContext} {callbacks : List RunCallback}
    {rest : List AgentOperation} {request : AgentRequest} {done : RunCallback}

theorem foldl_newRequest (isAgent : slot.runningAgent = some agent) (requests : List AgentRequest) :
    requests.foldl newRequest slot =
      { slot with runningAgent := some (agent.holdAll requests) } := by
  induction requests generalizing slot agent with
  | nil => simp [AgentContext.holdAll, ← isAgent]
  | cons request requests ih =>
    have isNext : slot.newRequest request =
        { slot with runningAgent := some (agent.hold (.syncCall request)) } := by
      simp only [newRequest, newOperation, isAgent]
    rw [foldl_cons, isNext, ih rfl]
    simp [AgentContext.holdAll, hold]

theorem newRequest_eq (isAgent : slot.runningAgent = some agent) (request : AgentRequest) :
    slot.newRequest request = { slot with runningAgent := some (agent.holdAll [request]) } :=
  foldl_newRequest isAgent [request]

/-- The requests of a slot when the given functions are left to be called. -/
structure Sound (slot : AgentSlot) (callbacks : List RunCallback) : Prop where
  checked : slot.failed = false
  numbered : slot.issued.map AgentRequest.number = List.range slot.issued.length
  running : ∀ received ∈ slot.received, received.2 = .running
  located : (slot.parked callbacks ++ slot.queued ++ slot.received.map Prod.fst).Perm slot.issued
  shaped : ∀ agent ∈ slot.runningAgent, agent.Shape
  forwarded : slot.pendingAgentConnections ≠ [] → .forwardConnections ∈ callbacks
  provided : callbacks.count .connectEntityProvider =
    slot.pendingEntityProviderConnection.toList.length

section

variable (isAgent : slot.runningAgent = some agent) {callback : RunCallback}
include isAgent

/-- A function that waits moves requests from the slot to the queue of the agent. -/
theorem runCallback_eq {rest : List RunCallback} (sound : slot.Sound (callback :: rest)) :
    ∃ requests pending provider alarms timers dangled rescheduled,
      slot.runCallback callback = { slot with
        runningAgent := some (agent.holdAll requests)
        pendingAgentConnections := pending
        pendingEntityProviderConnection := provider
        runningAlarms := alarms
        timers
        dangled
        rescheduled } ∧
      (slot.parked (callback :: rest)).Perm (requests ++ (pending ++ provider.toList ++
        rest.filterMap RunCallback.request?)) ∧
      (pending ≠ [] → .forwardConnections ∈ rest) ∧
      rest.count .connectEntityProvider = provider.toList.length := by
  have forwarded := sound.forwarded
  have provided := sound.provided
  cases callback with
  | forwardConnections =>
    refine ⟨slot.pendingAgentConnections, [], slot.pendingEntityProviderConnection,
      slot.runningAlarms, slot.timers, slot.dangled, slot.rescheduled, ?_, ?_, by simp, ?_⟩
    · rw [runCallback, forwardConnectionsToAgent, foldl_newRequest isAgent]
    · simp [parked, RunCallback.request?, filterMap_cons]
    · simpa using provided
  | connectEntityProvider =>
    cases isProvider : slot.pendingEntityProviderConnection with
    | none => simp [isProvider] at provided
    | some request =>
      refine ⟨[request], slot.pendingAgentConnections, none, slot.runningAlarms, slot.timers,
        slot.dangled, slot.rescheduled, ?_, ?_, ?_, ?_⟩
      · simp only [runCallback, forwardEntityProvider, isProvider, newRequest_eq isAgent]
      · simp only [parked, isProvider, RunCallback.request?, filterMap_cons]
        simp
      · simpa using forwarded
      · simpa [isProvider] using provided
  | newTask number taskId =>
    refine ⟨[.task number taskId false], slot.pendingAgentConnections,
      slot.pendingEntityProviderConnection, slot.runningAlarms, slot.timers, slot.dangled,
      slot.rescheduled, newRequest_eq isAgent _, ?_, ?_, ?_⟩
    · simp only [parked, RunCallback.request?, filterMap_cons]
      exact perm_middle
    · simpa using forwarded
    · simpa using provided
  | alarm number taskId epoch =>
    refine ⟨[.task number taskId true], slot.pendingAgentConnections,
      slot.pendingEntityProviderConnection, (slot.runAlarm number taskId epoch).runningAlarms,
      (slot.runAlarm number taskId epoch).timers, (slot.runAlarm number taskId epoch).dangled,
      (slot.runAlarm number taskId epoch).rescheduled, ?_, ?_, ?_, ?_⟩
    · simp only [runCallback, runAlarm, newRequest_eq isAgent, scheduleAlarmTask]
      by_cases same : epoch = slot.epoch
      · simp [same]
      · simp [same]
    · simp only [parked, RunCallback.request?, filterMap_cons]
      exact perm_middle
    · simpa using forwarded
    · simpa using provided

variable (notTerminating : agent.state ≠ .terminating)
include notTerminating

theorem Sound.runCallback {rest : List RunCallback} (sound : slot.Sound (callback :: rest)) :
    ∃ requests, (slot.runCallback callback).runningAgent = some (agent.holdAll requests) ∧
      (slot.runCallback callback).Sound rest ∧
      (slot.runCallback callback).runAgentCallbacks = slot.runAgentCallbacks ∧
      ((slot.runCallback callback).parked rest).length + requests.length =
        (slot.parked (callback :: rest)).length := by
  obtain ⟨requests, pending, provider, alarms, timers, dangled, rescheduled, isNext, moved,
    forwarded, provided⟩ := runCallback_eq isAgent sound
  rw [isNext]
  refine ⟨requests, rfl, ?_, rfl, ?_⟩
  · refine ⟨sound.checked, sound.numbered, sound.running, ?_, ?_, forwarded, provided⟩
    · have queued : slot.queued = agent.requests := by simp [AgentSlot.queued, isAgent]
      refine perm_iff_count.mpr fun request => ?_
      have before := perm_iff_count.mp sound.located request
      have movedOne := perm_iff_count.mp moved request
      simp only [queued, count_append] at before
      simp only [parked, AgentSlot.queued, map_some, getD_some,
        requests_holdAll, count_append] at movedOne before ⊢
      omega
    · intro other isOther
      cases isOther
      exact (sound.shaped agent isAgent).holdAll notTerminating requests
  · have sameLength := moved.length_eq
    simp only [parked, length_append] at sameLength ⊢
    omega

theorem Sound.foldl_runCallback (sound : slot.Sound callbacks) :
    ∃ requests, (callbacks.foldl AgentSlot.runCallback slot).runningAgent =
        some (agent.holdAll requests) ∧ (callbacks.foldl AgentSlot.runCallback slot).Sound [] ∧
      ((callbacks.foldl AgentSlot.runCallback slot).parked []).length + requests.length =
        (slot.parked callbacks).length := by
  induction callbacks generalizing slot agent with
  | nil => exact ⟨[], by simpa [AgentContext.holdAll] using isAgent, sound, rfl⟩
  | cons callback callbacks ih =>
    obtain ⟨first, isNext, nextSound, _, sameLength⟩ := sound.runCallback isAgent notTerminating
    obtain ⟨others, isFinal, finalSound, finalLength⟩ := ih isNext notTerminating nextSound
    refine ⟨first ++ others, ?_, finalSound, ?_⟩
    · rw [foldl_cons, isFinal]
      simp [AgentContext.holdAll]
    · rw [foldl_cons, length_append]
      omega

end

theorem Sound.parked_nil (sound : slot.Sound []) : slot.parked [] = [] := by
  have noConnections : slot.pendingAgentConnections = [] := by
    by_contra isPending
    exact absurd (sound.forwarded isPending) (by simp)
  have noProvider : slot.pendingEntityProviderConnection = none := by
    have provided := sound.provided
    cases isProvider : slot.pendingEntityProviderConnection with
    | none => rfl
    | some request => simp [isProvider] at provided
  simp [parked, noConnections, noProvider]

/-- What holds of a slot between two events: functions wait only while an agent terminates. -/
structure Orderly (slot : AgentSlot) : Prop where
  sound : slot.Sound slot.runAgentCallbacks
  deferred : slot.runAgentCallbacks ≠ [] →
    ∃ agent ∈ slot.runningAgent, agent.state = .terminating

theorem Sound.runAgent (isNone : slot.runningAgent = none)
    (sound : slot.Sound slot.runAgentCallbacks) :
    slot.runAgent.Orderly ∧ slot.runAgent.runAgentCallbacks = [] ∧
      ∃ requests, slot.runAgent.runningAgent = some (AgentContext.start.holdAll requests) ∧
        requests.length = (slot.parked slot.runAgentCallbacks).length := by
  have started : { slot with runningAgent := some .start }.Sound slot.runAgentCallbacks := by
    refine ⟨sound.checked, sound.numbered, sound.running, ?_, ?_, sound.forwarded, sound.provided⟩
    · have noneQueued : slot.queued = [] := by simp [queued, isNone]
      have located := sound.located
      rw [noneQueued] at located
      exact located
    · intro agent isAgent
      cases isAgent
      exact .initializing [] false (by simp)
  obtain ⟨requests, isAgent, finalSound, sameLength⟩ :=
    started.foldl_runCallback rfl (by simp [AgentContext.start])
  have isNext : slot.runAgent = { slot.runAgentCallbacks.foldl AgentSlot.runCallback
          { slot with runningAgent := some .start } with runAgentCallbacks := [] } := by
    simp only [AgentSlot.runAgent, isNone]
  rw [finalSound.parked_nil] at sameLength
  rw [isNext]
  refine ⟨⟨⟨finalSound.checked, finalSound.numbered, finalSound.running, finalSound.located,
    finalSound.shaped, finalSound.forwarded, finalSound.provided⟩, fun isWaiting => ?_⟩, rfl,
    requests, isAgent, ?_⟩
  · exact absurd rfl isWaiting
  · simpa [parked] using sameLength

theorem Sound.maybeRunAgent (sound : slot.Sound (slot.runAgentCallbacks ++ [done]))
    (deferred : slot.runAgentCallbacks ≠ [] →
      ∃ agent ∈ slot.runningAgent, agent.state = .terminating) :
    (slot.maybeRunAgent done).Orderly := by
  have waitingSound : { slot with
      runAgentCallbacks := slot.runAgentCallbacks ++ [done] }.Sound
        (slot.runAgentCallbacks ++ [done]) :=
    ⟨sound.checked, sound.numbered, sound.running, sound.located, sound.shaped,
      sound.forwarded, sound.provided⟩
  cases isAgent : slot.runningAgent with
  | none =>
    have isNext : slot.maybeRunAgent done = { slot with
        runAgentCallbacks := slot.runAgentCallbacks ++ [done] }.runAgent := by
      simp only [AgentSlot.maybeRunAgent, isAgent]
    rw [isNext]
    refine (Sound.runAgent ?_ waitingSound).1
    exact isAgent
  | some agent =>
    by_cases isTerminating : agent.state = .terminating
    · have isNext : slot.maybeRunAgent done = { slot with
          runAgentCallbacks := slot.runAgentCallbacks ++ [done] } := by
        simp only [AgentSlot.maybeRunAgent, isAgent, if_pos isTerminating]
      rw [isNext]
      exact ⟨waitingSound, fun _ => ⟨agent, isAgent, isTerminating⟩⟩
    · have isNext : slot.maybeRunAgent done = slot.runCallback done := by
        simp only [AgentSlot.maybeRunAgent, isAgent, if_neg isTerminating]
      rw [isNext]
      have noneWaits : slot.runAgentCallbacks = [] := by
        by_contra isWaiting
        obtain ⟨other, isOther, otherTerminating⟩ := deferred isWaiting
        obtain rfl := some.inj (isAgent.symm.trans isOther)
        exact isTerminating otherTerminating
      rw [noneWaits, nil_append] at sound
      obtain ⟨_, _, nextSound, sameCallbacks, _⟩ := sound.runCallback isAgent isTerminating
      rw [noneWaits] at sameCallbacks
      refine ⟨?_, absurd sameCallbacks⟩
      rw [sameCallbacks]
      exact nextSound

theorem Orderly.none_waits (orderly : slot.Orderly)
    (notTerminating : ∀ agent ∈ slot.runningAgent, agent.state ≠ .terminating) :
    slot.runAgentCallbacks = [] := by
  by_contra isWaiting
  obtain ⟨agent, isAgent, isTerminating⟩ := orderly.deferred isWaiting
  exact notTerminating agent isAgent isTerminating

theorem Sound.numbered_issue (sound : slot.Sound callbacks) (isNumber : request.number = slot.issued.length) :
    (slot.issued ++ [request]).map AgentRequest.number =
      range (slot.issued ++ [request]).length := by
  simp [sound.numbered, isNumber, range_succ]

theorem Orderly.connectToAgent (orderly : slot.Orderly) (requestorUrl : Bytes) :
    (slot.issue (.connection · requestorUrl)
      (AgentSlot.connectToAgent · · requestorUrl)).Orderly := by
  have sound := orderly.sound
  refine Sound.maybeRunAgent ⟨sound.checked, sound.numbered_issue rfl, sound.running, ?_,
    sound.shaped, fun _ => by simp, ?_⟩ orderly.deferred
  · refine perm_iff_count.mpr fun request => ?_
    have before := perm_iff_count.mp sound.located request
    have noRequest : [RunCallback.forwardConnections].filterMap RunCallback.request? = [] := rfl
    simp only [parked, queued, count_append, filterMap_append, noRequest,
      count_nil] at before ⊢
    omega
  · simpa using sound.provided

theorem Orderly.connectToEntityProvider (orderly : slot.Orderly)
    (isNone : slot.pendingEntityProviderConnection = none) :
    (slot.issue .entityProvider AgentSlot.connectToEntityProvider).Orderly := by
  have sound := orderly.sound
  refine Sound.maybeRunAgent ⟨sound.checked, sound.numbered_issue rfl, sound.running, ?_,
    sound.shaped, fun isPending => ?_, ?_⟩ orderly.deferred
  · refine perm_iff_count.mpr fun request => ?_
    have before := perm_iff_count.mp sound.located request
    have noRequest : [RunCallback.connectEntityProvider].filterMap RunCallback.request? = [] := rfl
    simp only [parked, queued, isNone, count_append, filterMap_append,
      noRequest, toList_none, toList_some, count_nil] at before ⊢
    omega
  · exact mem_append_left _ (sound.forwarded isPending)
  · have provided := sound.provided
    rw [isNone] at provided
    simpa using provided

theorem Orderly.runTask (orderly : slot.Orderly) {taskId : Bytes} {fromAlarm : Bool}
    (isTask : done.request? = some (.task slot.issued.length taskId fromAlarm)) :
    (slot.issue (.task · taskId fromAlarm) fun slot _ => slot.maybeRunAgent done).Orderly := by
  have sound := orderly.sound
  have isOther : done ≠ .connectEntityProvider := by
    rintro rfl
    cases isTask
  refine Sound.maybeRunAgent ⟨sound.checked, sound.numbered_issue rfl, sound.running, ?_,
    sound.shaped, fun isPending => ?_, ?_⟩ orderly.deferred
  · refine perm_iff_count.mpr fun request => ?_
    have before := perm_iff_count.mp sound.located request
    have oneRequest : [done].filterMap RunCallback.request? =
        [.task slot.issued.length taskId fromAlarm] := by
      simp [isTask]
    simp only [parked, queued, count_append, filterMap_append, oneRequest]
      at before ⊢
    omega
  · exact mem_append_left _ (sound.forwarded isPending)
  · simpa [count_append, count_singleton, isOther] using sound.provided

section

variable (orderly : slot.Orderly)
include orderly

/-- What is done with alarms and queues changes no request. -/
theorem Orderly.withTasks (watchedQueues : AList fun _ : Bytes => Bytes)
    (runningAlarms : AList fun _ : Bytes => UInt32) (epoch : ℕ) (timers : List Bytes)
    (added : Bytes → Bool) : { slot with
      watchedQueues
      runningAlarms
      epoch
      timers
      added }.Orderly :=
  have sound := orderly.sound
  ⟨⟨sound.checked, sound.numbered, sound.running, sound.located, sound.shaped, sound.forwarded,
    sound.provided⟩, orderly.deferred⟩

theorem Orderly.alarmTimer (taskId : Bytes) : (if taskId ∈ slot.runningAlarms then
      slot.issue (.task · taskId true) (AgentSlot.alarmTimer · · taskId)
    else slot.alarmTimer slot.issued.length taskId).Orderly := by
  have fired := orderly.withTasks slot.watchedQueues slot.runningAlarms slot.epoch
    (slot.timers.erase taskId) slot.added
  simp only [AgentSlot.issue, AgentSlot.alarmTimer]
  split
  · exact fired.runTask rfl
  · exact fired

theorem Orderly.addedTask (taskId : Bytes) (condition : TriggerCondition) :
    (slot.addedTask taskId condition).Orderly := by
  cases condition with
  | queue queueName => exact orderly.withTasks _ _ _ _ _
  | alarm alarmInSeconds =>
    simp only [AgentSlot.addedTask, scheduleAlarmTask]
    split
    · exact orderly.withTasks _ _ _ _ _
    · exact orderly.withTasks _ _ _ _ _

theorem Orderly.deletedTask (taskId : Bytes) : (slot.deletedTask taskId).Orderly := by
  rw [deletedTask_eq]
  exact orderly.withTasks _ _ _ _ _

theorem Orderly.withAgent {next : AgentContext}
    (isAgent : slot.runningAgent = some agent) (shape : next.Shape)
    (sameRequests : next.requests = agent.requests)
    (terminating : agent.state = .terminating → next.state = .terminating) :
    { slot with runningAgent := some next }.Orderly := by
  have sound := orderly.sound
  refine ⟨⟨sound.checked, sound.numbered, sound.running, ?_, ?_, sound.forwarded,
    sound.provided⟩, fun isWaiting => ?_⟩
  · have located := sound.located
    simp only [queued, isAgent, map_some, ← sameRequests] at located
    exact located
  · intro other isOther
    cases isOther
    exact shape
  · obtain ⟨other, isOther, isTerminating⟩ := orderly.deferred isWaiting
    obtain rfl := some.inj (isAgent.symm.trans isOther)
    exact ⟨next, rfl, terminating isTerminating⟩

end

theorem Orderly.runSyncCall (orderly : slot.Orderly) {bindings count : ℕ} (isAgent : slot.runningAgent =
      some ⟨.running, .syncCall request :: rest, false, bindings, count⟩)
    (fresh : .initializeCall ∉ rest) :
    (slot.runSyncCall ⟨.running, .syncCall request :: rest, false, bindings, count⟩
      request).Orderly := by
  have sound := orderly.sound
  simp only [AgentSlot.runSyncCall, if_true]
  refine ⟨⟨sound.checked, sound.numbered, fun received isReceived => ?_, ?_, ?_,
    sound.forwarded, sound.provided⟩, fun isWaiting => ?_⟩
  · rcases mem_append.mp isReceived with earlier | isLast
    · exact sound.running received earlier
    · rw [mem_singleton.mp isLast]
  · refine perm_iff_count.mpr fun other => ?_
    have before := perm_iff_count.mp sound.located other
    have queuedBefore : slot.queued = [request] ++ rest.filterMap request? := by
      simp [queued, isAgent, AgentContext.requests, request?]
    have queuedAfter : (AgentContext.receive
        ⟨.running, rest, false, bindings, count⟩ request).requests =
          rest.filterMap request? := by
      cases request <;> rfl
    simp only [queuedBefore, parked, count_append] at before
    simp only [queued, parked, map_some, getD_some, AgentContext.drop,
      tail_cons, queuedAfter, map_append, map_cons, map_nil, count_append]
    omega
  · intro other isOther
    cases isOther
    cases request with
    | task number taskId fromAlarm => exact .running rest bindings (count + 1) fresh
    | connection number requestorUrl | entityProvider number =>
      exact .running rest (bindings + 1) count fresh
  · obtain ⟨agent, isSome, isTerminating⟩ := orderly.deferred isWaiting
    obtain rfl := some.inj (isAgent.symm.trans isSome)
    cases isTerminating

theorem work_withAgent {next : AgentContext} (isAgent : slot.runningAgent = some agent)
    (less : next.work < agent.work) : { slot with runningAgent := some next }.work < slot.work := by
  simp only [work, parked, isAgent, map_some, getD_some]
  omega

section

variable (orderly : slot.Orderly)
include orderly

theorem Orderly.runOperation (isAgent : slot.runningAgent = some agent)
    (undisturbed : agent.Undisturbed) (isStep : slot.agentStep agent .runOperation = some next) :
    next.Orderly ∧ next.work < slot.work := by
  have sound := orderly.sound
  have shape := sound.shaped agent isAgent
  cases shape with
  | initializing rest isRunning fresh =>
    cases isRunning with
    | true => cases isStep
    | false =>
      cases isStep
      refine ⟨orderly.withAgent isAgent (.initializing rest true fresh) rfl nofun,
        work_withAgent isAgent ?_⟩
      change 2 * (rest.length + 1) - 1 < 2 * (rest.length + 1) - 0
      omega
  | terminating rest stops => cases isStep
  | running operations bindings count fresh =>
    cases operations with
    | nil => cases isStep
    | cons operation rest =>
      cases isStep
      have freshRest : initializeCall ∉ rest :=
        fun member => fresh (mem_cons_of_mem _ member)
      cases operation with
      | initializeCall => exact absurd mem_cons_self fresh
      | stopCall =>
        simp only [runOperation, runStopCall]
        rw [if_neg (by simp)]
        split
        · rename_i isIdle
          obtain ⟨rfl, rfl⟩ := isIdle
          refine ⟨orderly.withAgent isAgent (.terminating rest ?_) rfl (by simp),
            work_withAgent isAgent ?_⟩
          · simpa [AgentContext.requests, request?, filterMap_cons]
              using undisturbed rfl rfl rfl
          · change 2 * (rest.length + 1) - 1 < 2 * (rest.length + 1) - 0
            omega
        · exact ⟨orderly.withAgent isAgent (.running rest bindings count freshRest) rfl
            (by simp), work_withAgent isAgent (by simp [AgentContext.work, AgentContext.drop])⟩
      | syncCall request =>
        refine ⟨orderly.runSyncCall isAgent freshRest, work_withAgent isAgent ?_⟩
        cases request <;> simp [AgentContext.work, AgentContext.drop, AgentContext.receive]

theorem Orderly.services (isAgent : slot.runningAgent = some agent)
    (isStep : slot.agentStep agent .services = some next) :
    next.Orderly ∧ next.work < slot.work := by
  have shape := orderly.sound.shaped agent isAgent
  cases shape with
  | initializing rest isRunning fresh =>
    cases isRunning with
    | false => cases isStep
    | true =>
      cases isStep
      refine ⟨orderly.withAgent isAgent (.running rest 0 0 fresh) rfl nofun,
        work_withAgent isAgent ?_⟩
      simp only [AgentContext.work, AgentContext.drop, tail_cons, length_cons]
      simp
      omega
  | running operations bindings count fresh => cases isStep
  | terminating rest stops => cases isStep

theorem Orderly.removed
    (isAgent : slot.runningAgent = some ⟨.terminating, .stopCall :: rest, true, 0, 0⟩)
    (stops : rest.filterMap request? = []) :
    { slot with runningAgent := none }.Sound slot.runAgentCallbacks := by
  have sound := orderly.sound
  have noneQueued : slot.queued = [] := by
    simpa [queued, isAgent, AgentContext.requests, request?,
      filterMap_cons] using stops
  have located := sound.located
  rw [noneQueued] at located
  exact ⟨sound.checked, sound.numbered, sound.running, located, nofun, sound.forwarded,
    sound.provided⟩

section

variable (isAgent : slot.runningAgent = some agent)
include isAgent

/-- An agent that is started in the place of another one has the requests that waited for it. -/
theorem Orderly.stopped (isStep : slot.agentStep agent .stopped = some next) :
    next.Orderly ∧ next.work < slot.work := by
  have shape := orderly.sound.shaped agent isAgent
  cases shape with
  | initializing rest isRunning fresh => cases isRunning <;> cases isStep
  | running operations bindings count fresh => cases isStep
  | terminating rest stops =>
    cases isStep
    have agentWork : AgentContext.work ⟨.terminating, .stopCall :: rest, true, 0, 0⟩ =
        2 * rest.length + 1 := by
      simp only [AgentContext.work, length_cons, if_true]
      omega
    have workBefore : slot.work = 2 * (slot.parked slot.runAgentCallbacks).length +
        (if slot.runAgentCallbacks = [] then 0 else 2) + (2 * rest.length + 1) := by
      simp [work, isAgent, agentWork]
    have removed := orderly.removed isAgent stops
    simp only [removeAgent]
    split
    · rename_i noneWaits
      refine ⟨⟨removed, absurd noneWaits⟩, ?_⟩
      rw [workBefore, if_pos noneWaits]
      simp only [work, parked, noneWaits, if_true, map_none, getD_none]
      omega
    · rename_i isWaiting
      obtain ⟨startedOrderly, noneWaits, requests, isStarted, sameLength⟩ :=
        Sound.runAgent rfl removed
      refine ⟨startedOrderly, ?_⟩
      have startedSound := startedOrderly.sound
      rw [noneWaits] at startedSound
      rw [workBefore, if_neg isWaiting]
      simp only [work, noneWaits, startedSound.parked_nil, isStarted, map_some, getD_some, if_true]
      simp only [AgentContext.work, AgentContext.holdAll, AgentContext.start,
        length_append, length_map, length_cons, length_nil, sameLength, parked]
      simp
      omega

theorem Orderly.closeBinding {next : AgentContext} (isClosed : agent.closeBinding = some next) :
    { slot with runningAgent := some next }.Orderly := by
  have shape := orderly.sound.shaped agent isAgent
  cases shape with
  | initializing rest isRunning fresh => cases isClosed
  | terminating rest stops => cases isClosed
  | running operations bindings count fresh =>
    match bindings, isClosed with
    | 1, isClosed =>
      cases isClosed
      refine orderly.withAgent isAgent (.running _ 0 count ?_) ?_ nofun
      · simpa using fresh
      · simp [AgentContext.requests, maybeStopAgent, hold, request?]
    | bindings + 2, isClosed =>
      cases isClosed
      exact orderly.withAgent isAgent (.running operations (bindings + 1) count fresh) rfl nofun

theorem Orderly.completeTask {next : AgentContext} (isCompleted : agent.completeTask = some next) :
    { slot with runningAgent := some next }.Orderly := by
  have shape := orderly.sound.shaped agent isAgent
  cases shape with
  | initializing rest isRunning fresh => cases isCompleted
  | terminating rest stops => cases isCompleted
  | running operations bindings count fresh =>
    cases count with
    | zero => cases isCompleted
    | succ count =>
      cases isCompleted
      refine orderly.withAgent isAgent (.running _ bindings count ?_) ?_ nofun
      · simpa using fresh
      · simp [AgentContext.requests, maybeStopAgent, hold, request?]

end

theorem Orderly.step {event : SlotEvent}
    (connects : slot.Connects event) (isStep : slot.step event = some next) : next.Orderly := by
  cases event with
  | addedTask taskId condition =>
    cases isStep
    exact orderly.addedTask taskId condition
  | deletedTask taskId =>
    cases isStep
    exact orderly.deletedTask taskId
  | agent event =>
    cases event with
    | connectToAgent requestorUrl =>
      cases isStep
      exact orderly.connectToAgent requestorUrl
    | connectToEntityProvider =>
      cases isStep
      exact orderly.connectToEntityProvider connects
    | queueChanged taskId =>
      obtain ⟨_, isNext⟩ := ite_none_right_eq_some.mp isStep
      cases isNext
      exact orderly.runTask rfl
    | alarmTimer taskId =>
      obtain ⟨_, isNext⟩ := ite_none_right_eq_some.mp isStep
      cases isNext
      exact orderly.alarmTimer taskId
    | runOperation =>
      obtain ⟨agent, isAgent, isNext⟩ := bind_eq_some_iff.mp isStep
      exact (orderly.runOperation isAgent (connects agent isAgent) isNext).1
    | services =>
      obtain ⟨agent, isAgent, isNext⟩ := bind_eq_some_iff.mp isStep
      exact (orderly.services isAgent isNext).1
    | stopped =>
      obtain ⟨agent, isAgent, isNext⟩ := bind_eq_some_iff.mp isStep
      exact (orderly.stopped isAgent isNext).1
    | closeBinding =>
      obtain ⟨agent, isAgent, isNext⟩ := bind_eq_some_iff.mp isStep
      obtain ⟨closed, isClosed, rfl⟩ := map_eq_some_iff.mp isNext
      exact orderly.closeBinding isAgent isClosed
    | completeTask =>
      obtain ⟨agent, isAgent, isNext⟩ := bind_eq_some_iff.mp isStep
      obtain ⟨completed, isCompleted, rfl⟩ := map_eq_some_iff.mp isNext
      exact orderly.completeTask isAgent isCompleted

end

def ownEvents : List AgentEvent := [.runOperation, .services, .stopped]

theorem Orderly.exists_own (orderly : slot.Orderly) (isWaiting : slot.waiting ≠ []) :
    ∃ event ∈ ownEvents, (slot.step (.agent event)).isSome := by
  cases isAgent : slot.runningAgent with
  | none =>
    refine absurd ?_ isWaiting
    have noneWaits := orderly.none_waits (by simp [isAgent])
    have sound := orderly.sound
    rw [noneWaits] at sound
    simp [waiting, noneWaits, sound.parked_nil, queued, isAgent]
  | some agent =>
    have shape := orderly.sound.shaped agent isAgent
    cases shape with
    | initializing rest isRunning fresh =>
      cases isRunning with
      | false => exact ⟨.runOperation, by simp [ownEvents], by
          simp [AgentSlot.step, isAgent, agentStep]⟩
      | true => exact ⟨.services, by simp [ownEvents], by
          simp [AgentSlot.step, isAgent, agentStep, answer]⟩
    | terminating rest stops =>
      exact ⟨.stopped, by simp [ownEvents], by simp [AgentSlot.step, isAgent, agentStep, answer]⟩
    | running operations bindings count fresh =>
      refine ⟨.runOperation, by simp [ownEvents], ?_⟩
      have noneWaits := orderly.none_waits (by simp [isAgent])
      have sound := orderly.sound
      rw [noneWaits] at sound
      cases operations with
      | nil =>
        refine absurd ?_ isWaiting
        simp [waiting, noneWaits, sound.parked_nil, queued, isAgent, AgentContext.requests]
      | cons operation rest => simp [AgentSlot.step, isAgent, agentStep]

theorem Orderly.work_lt {event : AgentEvent} (orderly : slot.Orderly)
    (isOwn : event ∈ ownEvents) (connects : slot.Connects (.agent event))
    (isStep : slot.step (.agent event) = some next) : next.work < slot.work := by
  simp only [ownEvents, mem_cons, not_mem_nil, or_false] at isOwn
  rcases isOwn with rfl | rfl | rfl
  · obtain ⟨agent, isAgent, isNext⟩ := bind_eq_some_iff.mp isStep
    exact (orderly.runOperation isAgent (connects agent isAgent) isNext).2
  · obtain ⟨agent, isAgent, isNext⟩ := bind_eq_some_iff.mp isStep
    exact (orderly.services isAgent isNext).2
  · obtain ⟨agent, isAgent, isNext⟩ := bind_eq_some_iff.mp isStep
    exact (orderly.stopped isAgent isNext).2

/-- Every request is received by a running agent at most once, and as long as some wait, the runner
goes on by itself, but not forever. -/
structure Connected (slot : AgentSlot) : Prop where
  checked : slot.failed = false
  distinct : slot.issued.Nodup
  once : ∀ request ∈ slot.issued,
    slot.waiting.count request + (slot.received.map Prod.fst).count request = 1
  running : ∀ received ∈ slot.received, received.1 ∈ slot.issued ∧ received.2 = .running
  due : slot.waiting ≠ [] → ∃ event ∈ ownEvents, (slot.step (.agent event)).isSome
  ends : ∀ events : List AgentEvent, (∀ event ∈ events, event ∈ ownEvents) →
    EachStep AgentSlot.step Connects slot (events.map .agent) →
      (runSteps AgentSlot.step slot (events.map .agent)).isSome → events.length ≤ slot.work

theorem empty_orderly : empty.Orderly :=
  ⟨⟨rfl, rfl, nofun, .nil, nofun, absurd rfl, rfl⟩, absurd rfl⟩

theorem Orderly.length_le_work (orderly : slot.Orderly) {events : List AgentEvent}
    (areOwn : ∀ event ∈ events, event ∈ ownEvents)
    (connects : EachStep AgentSlot.step Connects slot (events.map .agent))
    (isRun : (runSteps AgentSlot.step slot (events.map .agent)).isSome) :
    events.length ≤ slot.work := by
  induction events generalizing slot with
  | nil => exact Nat.zero_le _
  | cons event events ih =>
    obtain ⟨final, isFinal⟩ := isSome_iff_exists.mp isRun
    obtain ⟨next, isStep, isRest⟩ := runSteps_cons.mp isFinal
    have less := orderly.work_lt (areOwn event mem_cons_self) connects.1 isStep
    have atMost := ih (orderly.step connects.1 isStep)
      (fun other member => areOwn other (mem_cons_of_mem _ member))
      (connects.2 next isStep) (by rw [isRest]; rfl)
    rw [length_cons]
    omega

theorem Orderly.connected (orderly : slot.Orderly) : slot.Connected := by
  have sound := orderly.sound
  have distinct : slot.issued.Nodup := by
    refine List.Nodup.of_map AgentRequest.number ?_
    rw [sound.numbered]
    exact nodup_range
  refine ⟨sound.checked, distinct, fun request isIssued => ?_, fun received isReceived => ?_,
    orderly.exists_own, fun events areOwn connects isRun =>
      orderly.length_le_work areOwn connects isRun⟩
  · have sameCount := perm_iff_count.mp sound.located request
    rw [count_append, count_eq_one_of_mem distinct isIssued] at sameCount
    exact sameCount
  · refine ⟨sound.located.subset ?_, sound.running received isReceived⟩
    exact mem_append_right _ (mem_map_of_mem isReceived)

end AgentSlot

namespace AgentRunner

/-- In every run in which no agent stops before it has received what is in its queue, and no
request for an entity provider comes while another one waits, no request is lost. -/
theorem connected_run (events : List RunnerEvent) {final : AgentRunner}
    (connects : EachStep step (Meets AgentSlot.Connects) empty events)
    (isRun : runSteps step empty events = some final) (url : Bytes) : (final.slots url).Connected :=
  (slots_run AgentSlot.Orderly (fun orderly connects isStep => orderly.step connects isStep)
    (fun _ => AgentSlot.empty_orderly) connects isRun url).connected

def sampleConnections : List RunnerEvent :=
  [.agent [1] (.connectToAgent [2]), .agent [1] .connectToEntityProvider,
    .agent [1] .runOperation, .agent [1] .services, .agent [1] .runOperation,
    .agent [1] .runOperation, .agent [1] .closeBinding, .agent [1] .closeBinding,
    .agent [1] .runOperation, .agent [1] (.connectToAgent [3]), .agent [1] .stopped,
    .agent [1] .runOperation, .agent [1] .services, .agent [1] .runOperation]

theorem connected_run_sample : ∃ final, runSteps step empty sampleConnections = some final ∧
    (final.slots [1]).Connected :=
  ⟨_, rfl, connected_run sampleConnections (by decide) rfl [1]⟩

/-- An agent is connected to after its last connection was closed, and before it stops. -/
def lateConnection : List RunnerEvent :=
  [.agent [1] (.connectToAgent [2]), .agent [1] .runOperation, .agent [1] .services,
    .agent [1] .runOperation, .agent [1] .closeBinding, .agent [1] (.connectToAgent [3]),
    .agent [1] .runOperation, .agent [1] .stopped]

def secondProvider : List RunnerEvent :=
  [.agent [1] (.connectToAgent [2]), .agent [1] .runOperation, .agent [1] .services,
    .agent [1] .runOperation, .agent [1] .closeBinding, .agent [1] .runOperation,
    .agent [1] .connectToEntityProvider, .agent [1] .connectToEntityProvider, .agent [1] .stopped]

/-- The second connection was in the queue of the agent that stopped; the second request for the
entity provider takes the place of the first, and is not found when it is asked for again. -/
theorem not_connected_run : (∃ final, runSteps step empty lateConnection = some final ∧
    (final.slots [1]).issued = [.connection 0 [2], .connection 1 [3]] ∧
      (final.slots [1]).received = [(.connection 0 [2], .running)] ∧
        (final.slots [1]).waiting = [] ∧ ¬(final.slots [1]).Connected) ∧
    ∃ final, runSteps step empty secondProvider = some final ∧
      (final.slots [1]).failed = true ∧ ¬(final.slots [1]).Connected := by
  refine ⟨⟨_, rfl, rfl, rfl, rfl, fun connected => ?_⟩, _, rfl, rfl, fun connected => ?_⟩
  · have once := connected.once (.connection 1 [3]) (by decide)
    revert once
    decide
  · have checked := connected.checked
    revert checked
    decide

end AgentRunner

end Peridot
