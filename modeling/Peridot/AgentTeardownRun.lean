import Peridot.AgentTeardown

/-!
# Agents stop at a teardown

An agent that was asked to stop is started again if requests wait for it and another agent is still
running when it is removed.
-/

namespace Peridot

open List AgentContext Function Option AgentSlot

namespace AgentTeardown

/-- An agent that is running has the `StopCall` of its `StopForTeardown` in its queue. -/
structure Stops (slot : AgentSlot) (ahead : Option ℕ) : Prop where
  stopping : ∀ agent, slot.runningAgent = some agent → agent.Phased ∧
    ∃ number, ahead = some number ∧ agent.operations[number]? = some .stopCall
  gone : slot.runningAgent = none → ahead = none
  checked : slot.failed = false ∧ slot.dangled = false

variable {slot next : AgentSlot} {ahead : Option ℕ} {agent changed : AgentContext}
    {operation : AgentOperation}

theorem numOperations_of_agent (isAgent : slot.runningAgent = some agent) :
    numOperations slot = agent.operations.length := by
  rw [numOperations, isAgent]
  rfl

theorem stops_of_agent {number : ℕ} (isChanged : next.runningAgent = some changed)
    (phased : changed.Phased) (checked : next.failed = false ∧ next.dangled = false)
    (isStop : changed.operations[number]? = some .stopCall) : Stops next (some number) := by
  refine ⟨fun other isOther => ?_, fun isNone => ?_, checked⟩
  · cases isChanged.symm.trans isOther
    exact ⟨phased, number, rfl, isStop⟩
  · exact nomatch isChanged.symm.trans isNone

section

variable (stops : Stops slot ahead)
include stops

theorem Stops.same (isSame : next.runningAgent = slot.runningAgent)
    (checked : next.failed = slot.failed ∧ next.dangled = slot.dangled) :
    Stops next (ahead.map fun ahead => ahead - (numOperations slot - numOperations next)) := by
  have noneGone : numOperations slot - numOperations next = 0 := by
    rw [numOperations, numOperations, isSame]
    omega
  have sameAhead : (ahead.map fun ahead => ahead - (numOperations slot - numOperations next)) =
      ahead := by
    rw [noneGone]
    exact map_id'
  rw [sameAhead]
  exact ⟨fun agent isAgent => stops.stopping agent (isSame.symm.trans isAgent),
    fun isNone => stops.gone (isSame.symm.trans isNone),
    checked.1.trans stops.checked.1, checked.2.trans stops.checked.2⟩

variable (isAgent : slot.runningAgent = some agent)
  (isChanged : next.runningAgent = some changed) (phased : changed.Phased)
  (checked : next.failed = false ∧ next.dangled = false)
include isAgent isChanged phased checked

theorem Stops.hold {added : List AgentOperation}
    (isAdded : changed.operations = agent.operations ++ added) :
    Stops next (ahead.map fun ahead => ahead - (numOperations slot - numOperations next)) := by
  obtain ⟨-, number, rfl, isStop⟩ := stops.stopping agent isAgent
  have noneGone : numOperations slot - numOperations next = 0 := by
    rw [numOperations_of_agent isAgent, numOperations_of_agent isChanged, isAdded, length_append]
    omega
  rw [noneGone]
  apply stops_of_agent isChanged phased checked
  obtain ⟨inBounds, -⟩ := List.getElem?_eq_some_iff.mp isStop
  rw [isAdded]
  exact (getElem?_append_left inBounds).trans isStop

theorem Stops.drop (isDropped : agent.operations = operation :: changed.operations)
    (isOther : ahead ≠ some 0 ∨ operation ≠ .stopCall) :
    Stops next (ahead.map fun ahead => ahead - (numOperations slot - numOperations next)) := by
  obtain ⟨-, number, rfl, isStop⟩ := stops.stopping agent isAgent
  have oneGone : numOperations slot - numOperations next = 1 := by
    rw [numOperations_of_agent isAgent, numOperations_of_agent isChanged, isDropped, length_cons]
    omega
  rw [isDropped] at isStop
  cases number with
  | zero =>
    have isFirst : operation = .stopCall := by simpa using isStop
    rcases isOther with notFirst | notStop
    · exact absurd rfl notFirst
    · exact absurd isFirst notStop
  | succ number =>
    rw [oneGone]
    exact stops_of_agent isChanged phased checked (by rwa [getElem?_cons_succ] at isStop)

end

theorem addedTask_frame (slot : AgentSlot) (taskId : Bytes) (condition : TriggerCondition) :
    (slot.addedTask taskId condition).runningAgent = slot.runningAgent ∧
      (slot.addedTask taskId condition).failed = slot.failed ∧
      (slot.addedTask taskId condition).dangled = slot.dangled := by
  cases condition with
  | queue queueName => exact ⟨rfl, rfl, rfl⟩
  | alarm alarmInSeconds =>
    simp only [addedTask, scheduleAlarmTask]
    split <;> exact ⟨rfl, rfl, rfl⟩

theorem deletedTask_frame (slot : AgentSlot) (taskId : Bytes) :
    (slot.deletedTask taskId).runningAgent = slot.runningAgent ∧
      (slot.deletedTask taskId).failed = slot.failed ∧
      (slot.deletedTask taskId).dangled = slot.dangled := by
  rw [deletedTask_eq]
  exact ⟨rfl, rfl, rfl⟩

section

variable (stops : Stops slot ahead)
include stops

theorem Stops.runOperation (notStop : ahead ≠ some 0)
    (isAgent : slot.runningAgent = some agent) (notRunning : agent.isRunning = false)
    (isFirst : agent.operations.head? = some operation) :
    Stops (slot.runOperation agent operation) (ahead.map fun ahead =>
        ahead - (numOperations slot - numOperations (slot.runOperation agent operation))) ∧
      (slot.runOperation agent operation).runningAgent.isSome = true := by
  have phases : slot.Phases := fun other isOther => (stops.stopping other isOther).1
  obtain ⟨⟨sameFailed, sameDangled⟩, changed, isChanged, phased, waits | leaves⟩ :=
    phases.runOperation_cases isAgent notRunning isFirst
  all_goals
    have checked := And.intro (sameFailed.trans stops.checked.1) (sameDangled.trans stops.checked.2)
  · refine ⟨stops.hold isAgent isChanged phased checked (waits.trans (append_nil _).symm), ?_⟩
    rw [isChanged]
    rfl
  · refine ⟨stops.drop isAgent isChanged phased checked leaves (.inl notStop), ?_⟩
    rw [isChanged]
    rfl

theorem Stops.services (isAgent : slot.runningAgent = some agent)
    (isStep : slot.agentStep agent .services = some next) :
    Stops next (ahead.map fun ahead => ahead - (numOperations slot - numOperations next)) ∧
      next.runningAgent.isSome = true := by
  obtain ⟨phased, -⟩ := stops.stopping agent isAgent
  cases phased with
  | initializing rest isRunning bindings count once =>
    cases isRunning with
    | false => cases isStep
    | true =>
      cases isStep
      exact ⟨stops.drop isAgent rfl (.running rest bindings count once) stops.checked rfl
        (.inr (by decide)), rfl⟩
  | running operations bindings count once => cases isStep
  | terminating rest bindings count => cases isStep

theorem Stops.append (isAgent : slot.runningAgent = some agent)
    (adds : changed.state = agent.state ∧ changed.isRunning = agent.isRunning ∧
      ∃ added, changed.operations = agent.operations ++ added ∧ .initializeCall ∉ added) :
    Stops { slot with runningAgent := some changed } (ahead.map fun ahead =>
      ahead - (numOperations slot - numOperations { slot with runningAgent := some changed })) := by
  obtain ⟨sameState, sameRunning, added, isAdded, notInitialize⟩ := adds
  have phased := (stops.stopping agent isAgent).1
  exact stops.hold isAgent rfl (phased.append sameState sameRunning isAdded notInitialize)
    stops.checked isAdded

theorem Stops.step {event : SlotEvent}
    (isInside : event = .agent .runOperation ∧ ahead ≠ some 0 ∨ event = .agent .services ∨
      event = .agent .closeBinding ∨ event = .agent .completeTask ∨
      (∃ taskId condition, event = .addedTask taskId condition) ∨
      ∃ taskId, event = .deletedTask taskId) (isStep : slot.step event = some next) :
    Stops next (ahead.map fun ahead => ahead - (numOperations slot - numOperations next)) ∧
      next.runningAgent.isSome = slot.runningAgent.isSome := by
  rcases isInside with ⟨rfl, notStop⟩ | rfl | rfl | rfl | ⟨taskId, condition, rfl⟩ | ⟨taskId, rfl⟩
  · obtain ⟨agent, isAgent, isNext⟩ := bind_eq_some_iff.mp isStep
    rw [isAgent]
    simp only [agentStep] at isNext
    cases isRunning : agent.isRunning with
    | true => simp [isRunning] at isNext
    | false =>
      simp only [isRunning, Bool.false_eq_true, if_false] at isNext
      obtain ⟨operation, isFirst, rfl⟩ := map_eq_some_iff.mp isNext
      exact stops.runOperation notStop isAgent isRunning isFirst
  · obtain ⟨agent, isAgent, isNext⟩ := bind_eq_some_iff.mp isStep
    rw [isAgent]
    exact stops.services isAgent isNext
  · obtain ⟨agent, isAgent, isNext⟩ := bind_eq_some_iff.mp isStep
    obtain ⟨closed, isClosed, rfl⟩ := map_eq_some_iff.mp isNext
    rw [isAgent]
    exact ⟨stops.append isAgent (closeBinding_cases isClosed), rfl⟩
  · obtain ⟨agent, isAgent, isNext⟩ := bind_eq_some_iff.mp isStep
    obtain ⟨completed, isCompleted, rfl⟩ := map_eq_some_iff.mp isNext
    rw [isAgent]
    exact ⟨stops.append isAgent (completeTask_cases isCompleted), rfl⟩
  · cases isStep
    obtain ⟨isSame, failed, dangled⟩ := addedTask_frame slot taskId condition
    exact ⟨stops.same isSame ⟨failed, dangled⟩, congrArg Option.isSome isSame⟩
  · cases isStep
    obtain ⟨isSame, failed, dangled⟩ := deletedTask_frame slot taskId
    exact ⟨stops.same isSame ⟨failed, dangled⟩, congrArg Option.isSome isSame⟩

end

structure Tracked (teardown : AgentTeardown) : Prop extends TearsDown teardown where
  slots : ∀ url, Stops (teardown.slots url) (teardown.stops url)
  covers : ∀ url, (teardown.slots url).runningAgent.isSome = true →
    url ∈ teardown.urls ∧ url ∈ teardown.asked
  pending : ∀ url, (teardown.stops url).isSome = true →
    ∀ result ∈ teardown.stopResults, result.1 ≠ url
  length_calls : teardown.calls.length = if teardown.called then 1 else 0
  waits : teardown.called = false → teardown.timer = true ∧ teardown.noneRunning = false

variable {teardown : AgentTeardown} {url : Bytes}

theorem noneRunning_iff : teardown.noneRunning = true ↔
    ∀ url ∈ teardown.urls, (teardown.slots url).runningAgent = none := by
  simp [noneRunning]

theorem Tracked.changeSlot (tracked : Tracked teardown)
    (stops : Stops next ((teardown.stops url).map fun ahead =>
      ahead - (numOperations (teardown.slots url) - numOperations next)))
    (isSame : next.runningAgent.isSome = (teardown.slots url).runningAgent.isSome) :
    Tracked (teardown.changeSlot url next) := by
  have sameAgents : ∀ other, ((teardown.changeSlot url next).slots other).runningAgent.isSome =
      (teardown.slots other).runningAgent.isSome := by
    intro other
    by_cases same : other = url
    · subst same
      simpa [changeSlot] using isSame
    · simp [AgentTeardown.changeSlot, same]
  have sameStops : ∀ other, ((teardown.changeSlot url next).stops other).isSome =
      (teardown.stops other).isSome := by
    intro other
    by_cases same : other = url
    · subst same
      simp [changeSlot]
    · simp [AgentTeardown.changeSlot, same]
  have sameNone : (teardown.changeSlot url next).noneRunning = teardown.noneRunning := by
    simp only [noneRunning]
    refine congrArg (all teardown.urls) (funext fun other => ?_)
    rw [← not_isSome, ← not_isSome, sameAgents]
  refine ⟨⟨?_, tracked.noneStarted, fun other isAsked => ?_, tracked.stopped, tracked.once,
    tracked.early, ?_⟩, fun other => ?_, fun other isAgent => ?_, fun other isPending => ?_,
    tracked.length_calls, ?_⟩
  · change (next.failed || next.dangled) = false
    rw [stops.checked.1, stops.checked.2]
    rfl
  · rw [sameStops]
    exact tracked.stops other isAsked
  · rw [sameNone]
    exact tracked.called
  · by_cases same : other = url
    · subst same
      simpa [changeSlot] using stops
    · simpa [AgentTeardown.changeSlot, same] using tracked.slots other
  · rw [sameAgents] at isAgent
    exact tracked.covers other isAgent
  · rw [sameStops] at isPending
    exact tracked.pending other isPending
  · rw [sameNone]
    exact tracked.waits

theorem cont_calls (tracked : Tracked teardown) (after : AgentTeardown) (fromTimeout : Bool)
    (sameCalls : after.calls = teardown.calls) (sameCalled : after.called = teardown.called)
    (isEarly : fromTimeout = true ∨ after.noneRunning = true) :
    (after.cont fromTimeout).calls.length = 1 ∧ (after.cont fromTimeout).called = true ∧
      ∀ call ∈ (after.cont fromTimeout).calls, call.1 = true ∨ call.2 = true := by
  have counted := tracked.length_calls
  unfold cont
  cases isCalled : teardown.called with
  | true =>
    rw [isCalled, if_pos rfl] at counted
    rw [sameCalled, isCalled, if_pos rfl, sameCalls]
    exact ⟨counted, sameCalled.trans isCalled, tracked.early⟩
  | false =>
    rw [isCalled, if_neg Bool.false_ne_true, length_eq_zero_iff] at counted
    rw [sameCalled, isCalled, if_neg Bool.false_ne_true, sameCalls, counted]
    exact ⟨rfl, rfl, forall_mem_singleton.mpr isEarly⟩

theorem cont_frame (after : AgentTeardown) (fromTimeout : Bool) :
    (after.cont fromTimeout).slots = after.slots ∧ (after.cont fromTimeout).urls = after.urls ∧
      (after.cont fromTimeout).stops = after.stops ∧ (after.cont fromTimeout).asked = after.asked ∧
      (after.cont fromTimeout).stopResults = after.stopResults ∧
      (after.cont fromTimeout).started = after.started ∧
      (after.cont fromTimeout).timer = after.timer ∧
      (after.cont fromTimeout).crashed = after.crashed := by
  unfold cont
  split <;> exact ⟨rfl, rfl, rfl, rfl, rfl, rfl, rfl, rfl⟩

theorem Tracked.timeout (tracked : Tracked teardown) :
    Tracked ({ teardown with timer := false }.cont true) := by
  obtain ⟨oneCall, isCalled, early⟩ :=
    cont_calls tracked { teardown with timer := false } true rfl rfl (.inl rfl)
  obtain ⟨slots, urls, stops, asked, results, started, -, crashed⟩ :=
    cont_frame { teardown with timer := false } true
  refine ⟨⟨crashed.trans tracked.checked, started.trans tracked.noneStarted, ?_, ?_, oneCall.le,
    early, fun _ => oneCall⟩, ?_, ?_, ?_, ?_, fun notCalled => ?_⟩
  · rw [asked, stops, results]
    exact tracked.stops
  · rw [results]
    exact tracked.stopped
  · rw [slots, stops]
    exact tracked.slots
  · rw [slots, urls, asked]
    exact tracked.covers
  · rw [stops, results]
    exact tracked.pending
  · rw [oneCall, isCalled, if_pos rfl]
  · exact absurd isCalled (ne_true_of_eq_false notCalled)

theorem eraseAgent_noneRunning :
    (teardown.eraseAgent url).noneRunning = true ↔ ¬∃ other ∈ teardown.urls, other ≠ url ∧
      (teardown.slots other).runningAgent.isSome = true := by
  rw [noneRunning_iff]
  constructor
  · rintro noneLeft ⟨other, inUrls, different, isAgent⟩
    have isNone := noneLeft other inUrls
    simp only [eraseAgent, update_of_ne different] at isNone
    rw [isNone] at isAgent
    cases isAgent
  · intro noOther other inUrls
    by_cases same : other = url
    · subst same
      simp [eraseAgent]
    · simp only [eraseAgent, update_of_ne same]
      by_contra isAgent
      exact noOther ⟨other, inUrls, same, isSome_iff_ne_none.mpr isAgent⟩

/-- An agent is removed when its `StopForTeardown` has stopped it. -/
theorem Tracked.onStopped (tracked : Tracked teardown) (isStop : teardown.stops url = some 0)
    (noneWaits : (∃ other ∈ teardown.urls, other ≠ url ∧
      (teardown.slots other).runningAgent.isSome = true) →
      (teardown.slots url).runAgentCallbacks = []) : Tracked (teardown.onStopped url) := by
  have stops : ∀ other ∈ teardown.asked,
      (Function.update teardown.stops url none other).isSome = true ∨
        (other, true) ∈ teardown.stopResults ++ [(url, true)] := by
    intro other isAsked
    by_cases same : other = url
    · subst same
      exact .inr (by simp)
    · rw [update_of_ne same]
      exact (tracked.stops other isAsked).imp_right (mem_append_left _)
  have stopped : ∀ result ∈ teardown.stopResults ++ [(url, true)], result.2 = true :=
    forall_mem_append.mpr ⟨tracked.stopped, forall_mem_singleton.mpr rfl⟩
  have slots : ∀ other, Stops (Function.update teardown.slots url
      { teardown.slots url with runningAgent := none } other)
      (Function.update teardown.stops url none other) := by
    intro other
    by_cases same : other = url
    · subst same
      rw [update_self, update_self]
      refine ⟨fun agent isAgent => ?_, fun _ => rfl, (tracked.slots other).checked⟩
      cases isAgent
    · rw [update_of_ne same, update_of_ne same]
      exact tracked.slots other
  have covers : ∀ other, (Function.update teardown.slots url
      { teardown.slots url with runningAgent := none } other).runningAgent.isSome = true →
        other ∈ teardown.urls ∧ other ∈ teardown.asked := by
    intro other isAgent
    by_cases same : other = url
    · subst same
      rw [update_self] at isAgent
      cases isAgent
    · rw [update_of_ne same] at isAgent
      exact tracked.covers other isAgent
  have pending : ∀ other, (Function.update teardown.stops url none other).isSome = true →
      ∀ result ∈ teardown.stopResults ++ [(url, true)], result.1 ≠ other := by
    intro other isPending
    have different : other ≠ url := by
      rintro rfl
      rw [update_self] at isPending
      cases isPending
    rw [update_of_ne different] at isPending
    exact forall_mem_append.mpr ⟨tracked.pending other isPending,
      forall_mem_singleton.mpr different.symm⟩
  unfold AgentTeardown.onStopped
  rw [if_pos isStop]
  unfold removeAgent
  by_cases noneLeft : ((teardown.stopResult url true).eraseAgent url).noneRunning = true
  · rw [if_pos noneLeft]
    obtain ⟨oneCall, isCalled, early⟩ := cont_calls tracked
      ((teardown.stopResult url true).eraseAgent url) false rfl rfl (.inr noneLeft)
    obtain ⟨sameSlots, sameUrls, sameStops, sameAsked, sameResults, sameStarted, -, sameCrashed⟩ :=
      cont_frame ((teardown.stopResult url true).eraseAgent url) false
    refine ⟨⟨sameCrashed, sameStarted.trans tracked.noneStarted, ?_, ?_, oneCall.le, early,
      fun _ => oneCall⟩, ?_, ?_, ?_, ?_, fun notCalled => ?_⟩
    · rw [sameAsked, sameStops, sameResults]
      exact stops
    · rw [sameResults]
      exact stopped
    · rw [sameSlots, sameStops]
      exact slots
    · rw [sameSlots, sameUrls, sameAsked]
      exact covers
    · rw [sameStops, sameResults]
      exact pending
    · rw [oneCall, isCalled, if_pos rfl]
    · exact absurd isCalled (ne_true_of_eq_false notCalled)
  · rw [if_neg noneLeft]
    have isOther : ∃ other ∈ teardown.urls, other ≠ url ∧
        (teardown.slots other).runningAgent.isSome = true := by
      by_contra noOther
      exact noneLeft (eraseAgent_noneRunning.mpr noOther)
    have noneWaits : ((teardown.stopResult url true).slots url).runAgentCallbacks = [] :=
      noneWaits isOther
    rw [if_pos noneWaits]
    refine ⟨⟨rfl, tracked.noneStarted, stops, stopped, tracked.once, tracked.early,
      fun isEnd => ?_⟩, slots, covers, pending, tracked.length_calls, fun notCalled => ?_⟩
    · exact tracked.called (isEnd.imp_right fun isNone => absurd isNone noneLeft)
    · exact ⟨(tracked.waits notCalled).1, Bool.eq_false_iff.mpr noneLeft⟩

theorem removeAgent_frame (teardown : AgentTeardown) (url : Bytes) :
    (teardown.removeAgent url).stops url = none ∧
      (teardown.removeAgent url).asked = teardown.asked ∧
      (teardown.removeAgent url).stopResults = teardown.stopResults := by
  unfold removeAgent
  split
  · obtain ⟨-, -, stops, asked, results, -⟩ := cont_frame (teardown.eraseAgent url) false
    refine ⟨?_, asked, results⟩
    rw [stops]
    exact update_self url none teardown.stops
  · split
    · refine ⟨?_, rfl, rfl⟩
      simp [eraseAgent]
    · refine ⟨?_, rfl, rfl⟩
      simp [runAgent, changeSlot, eraseAgent]

/-- An agent that is removed in another way has not been stopped by its `StopForTeardown`. -/
theorem Tracked.not_removed (tracked : Tracked teardown)
    (isAgent : (teardown.slots url).runningAgent = some agent) :
    ¬TearsDown (teardown.removeAgent url) := by
  intro tearsDown
  obtain ⟨noStop, sameAsked, sameResults⟩ := removeAgent_frame teardown url
  obtain ⟨-, number, isAhead, -⟩ := (tracked.slots url).stopping agent isAgent
  have isAsked := (tracked.covers url (by rw [isAgent]; rfl)).2
  have stops := tearsDown.stops url (sameAsked ▸ isAsked)
  rw [noStop, sameResults] at stops
  rcases stops with isSome | isResult
  · cases isSome
  · exact tracked.pending url (by rw [isAhead]; rfl) _ isResult rfl

/-- An agent for which requests wait is started again while another one is running. -/
theorem not_started (teardown : AgentTeardown) (isOther : ∃ other ∈ teardown.urls, other ≠ url ∧
      (teardown.slots other).runningAgent.isSome = true)
    (isWaiting : (teardown.slots url).runAgentCallbacks ≠ []) :
    ¬TearsDown (teardown.removeAgent url) := by
  intro tearsDown
  have someLeft : ¬(teardown.eraseAgent url).noneRunning = true := fun noneLeft =>
    eraseAgent_noneRunning.mp noneLeft isOther
  have isStarted := tearsDown.noneStarted
  rw [removeAgent, if_neg someLeft, if_neg isWaiting] at isStarted
  exact append_ne_nil_of_right_ne_nil _ (cons_ne_nil url []) isStarted

section

variable (tracked : Tracked teardown) {event : TeardownEvent}
include tracked

/-- The `StopCall` of a `StopForTeardown` is run, on an agent that is not terminating. -/
theorem Tracked.runStopForTeardown (isStop : teardown.stops url = some 0)
    (isAgent : (teardown.slots url).runningAgent = some agent)
    (notRunning : agent.isRunning = false) : Tracked (teardown.runStopForTeardown url agent) := by
  obtain ⟨phased, number, isAhead, isFirst⟩ := (tracked.slots url).stopping agent isAgent
  obtain rfl : 0 = number := some.inj (isStop.symm.trans isAhead)
  cases phased with
  | initializing rest isRunning bindings count once => cases isFirst
  | terminating rest bindings count => cases notRunning
  | running operations bindings count once =>
    cases operations with
    | nil => cases isFirst
    | cons first rest =>
      obtain rfl : first = .stopCall := by simpa using isFirst
      rw [AgentTeardown.runStopForTeardown, if_neg (by simp)]
      refine tracked.changeSlot ?_ (by rw [isAgent]; rfl)
      exact (tracked.slots url).hold isAgent rfl (.terminating rest bindings count)
        (tracked.slots url).checked (append_nil _).symm

theorem Tracked.slotStep {event : SlotEvent}
    (inOrder : StopsInOrder teardown (.slot url event)) {next : AgentTeardown}
    (isStep : teardown.slotStep url event = some next) : Tracked next := by
  have inside : ∀ {slot : AgentSlot}, (teardown.slots url).step event = some slot →
      (event = .agent .runOperation ∧ teardown.stops url ≠ some 0 ∨ event = .agent .services ∨
        event = .agent .closeBinding ∨ event = .agent .completeTask ∨
        (∃ taskId condition, event = .addedTask taskId condition) ∨
        ∃ taskId, event = .deletedTask taskId) →
      Tracked (teardown.changeSlot url slot) := by
    intro slot isSlot isInside
    obtain ⟨stops, isSame⟩ := (tracked.slots url).step isInside isSlot
    exact tracked.changeSlot stops isSame
  cases event with
  | addedTask taskId condition | deletedTask taskId =>
    simp only [AgentTeardown.slotStep] at isStep
    obtain ⟨slot, isSlot, rfl⟩ := map_eq_some_iff.mp isStep
    exact inside isSlot (by simp)
  | agent event =>
    cases event with
    | connectToAgent requestorUrl | connectToEntityProvider =>
      cases isStep
      exact tracked
    | queueChanged taskId =>
      obtain ⟨-, isNext⟩ := ite_none_right_eq_some.mp isStep
      cases isNext
      exact tracked
    | alarmTimer taskId =>
      obtain ⟨-, isNext⟩ := ite_none_right_eq_some.mp isStep
      cases isNext
      exact tracked.changeSlot ((tracked.slots url).same rfl ⟨rfl, rfl⟩) rfl
    | runOperation =>
      simp only [AgentTeardown.slotStep] at isStep
      by_cases isStop : teardown.stops url = some 0
      · rw [if_pos isStop] at isStep
        obtain ⟨agent, isAgent, rfl⟩ := map_eq_some_iff.mp isStep
        obtain ⟨isAgent, notRunning⟩ := filter_eq_some_iff.mp isAgent
        exact tracked.runStopForTeardown isStop isAgent (by simpa using notRunning)
      · rw [if_neg isStop] at isStep
        obtain ⟨slot, isSlot, rfl⟩ := map_eq_some_iff.mp isStep
        exact inside isSlot (.inl ⟨rfl, isStop⟩)
    | services | closeBinding | completeTask =>
      simp only [AgentTeardown.slotStep] at isStep
      obtain ⟨slot, isSlot, rfl⟩ := map_eq_some_iff.mp isStep
      exact inside isSlot (by simp)
    | stopped =>
      obtain ⟨agent, isAgent, rfl⟩ := map_eq_some_iff.mp isStep
      exact tracked.onStopped inOrder.1 inOrder.2

theorem Tracked.step (inOrder : StopsInOrder teardown event) {next : AgentTeardown}
    (isStep : teardown.step event = some next) : Tracked next := by
  unfold AgentTeardown.step at isStep
  rw [if_neg (ne_true_of_eq_false tracked.checked)] at isStep
  cases event with
  | slot url event => exact tracked.slotStep inOrder isStep
  | crash url => exact inOrder.elim
  | timeout =>
    obtain ⟨-, isNext⟩ := ite_none_right_eq_some.mp isStep
    cases isNext
    exact tracked.timeout

theorem Tracked.stopsInOrder {next : AgentTeardown} (isStep : teardown.step event = some next)
    (tearsDown : TearsDown next) : StopsInOrder teardown event := by
  unfold AgentTeardown.step at isStep
  rw [if_neg (ne_true_of_eq_false tracked.checked)] at isStep
  cases event with
  | timeout => trivial
  | crash url =>
    obtain ⟨agent, isAgent, rfl⟩ := map_eq_some_iff.mp isStep
    obtain ⟨isAgent, -⟩ := filter_eq_some_iff.mp isAgent
    exact tracked.not_removed isAgent tearsDown
  | slot url event =>
    cases event with
    | addedTask taskId condition => trivial
    | deletedTask taskId => trivial
    | agent event =>
      cases event with
      | stopped =>
        obtain ⟨agent, isAgent, rfl⟩ := map_eq_some_iff.mp isStep
        obtain ⟨isAgent, -⟩ := filter_eq_some_iff.mp isAgent
        unfold AgentTeardown.onStopped at tearsDown
        by_cases isStop : teardown.stops url = some 0
        · rw [if_pos isStop] at tearsDown
          refine ⟨isStop, fun isOther => ?_⟩
          by_contra isWaiting
          exact not_started (teardown.stopResult url true) isOther isWaiting tearsDown
        · rw [if_neg isStop] at tearsDown
          exact absurd tearsDown (tracked.not_removed isAgent)
      | _ => trivial

end

/-- The `StopCall` of a `StopForTeardown` is queued behind everything else. -/
theorem stops_stopForTeardown (phases : slot.Phases)
    (checked : slot.failed = false ∧ slot.dangled = false) : Stops (stopForTeardown slot)
      (slot.runningAgent.map fun agent => agent.operations.length) := by
  refine ⟨fun agent isAgent => ?_, fun isNone => ?_, checked⟩
  · obtain ⟨before, isBefore, rfl⟩ := map_eq_some_iff.mp isAgent
    have phased := phases before isBefore
    refine ⟨phased.append rfl rfl rfl (by decide), before.operations.length, ?_, ?_⟩
    · rw [isBefore]
      rfl
    · simp [AgentContext.hold]
  · rw [map_eq_none_iff.mp isNone]
    rfl

theorem tracked_teardown (agents : RunningAgents) : Tracked (AgentTeardown.teardown agents) := by
  unfold teardown
  by_cases noneRuns : (agents.urls.all fun url => (agents.slots url).runningAgent.isNone) = true
  · rw [if_pos noneRuns]
    have isNone : ∀ url, (agents.slots url).runningAgent = none := by
      intro url
      by_contra isAgent
      have inUrls := agents.covers url (isSome_iff_ne_none.mpr isAgent)
      have isGone := all_eq_true.mp noneRuns url inUrls
      exact isAgent (isNone_iff_eq_none.mp isGone)
    refine ⟨⟨rfl, rfl, forall_mem_nil _, forall_mem_nil _, le_rfl,
      forall_mem_singleton.mpr (.inr rfl), fun _ => rfl⟩, fun url => ?_, fun url isAgent => ?_,
      fun url isPending => ?_, rfl, fun notCalled => ?_⟩
    · refine ⟨fun agent isAgent => ?_, fun _ => rfl, agents.checked url⟩
      rw [isNone url] at isAgent
      cases isAgent
    · rw [isNone url] at isAgent
      cases isAgent
    · cases isPending
    · cases notCalled
  · rw [if_neg noneRuns]
    have stillRuns : (mk (fun url => stopForTeardown (agents.slots url)) agents.urls
        (fun url => (agents.slots url).runningAgent.map fun agent => agent.operations.length)
        (agents.urls.filter fun url => (agents.slots url).runningAgent.isSome) [] [] true false []
        false).noneRunning = false := by
      refine Bool.eq_false_iff.mpr fun noneLeft => noneRuns ?_
      simpa [noneRunning, stopForTeardown] using noneLeft
    refine ⟨⟨rfl, rfl, fun url isAsked => ?_, forall_mem_nil _, Nat.zero_le 1,
      forall_mem_nil _, fun isEnd => ?_⟩, fun url => ?_, fun url isAgent => ?_,
      fun url _ => forall_mem_nil _, rfl, fun _ => ⟨rfl, stillRuns⟩⟩
    · refine .inl ?_
      rw [isSome_map]
      exact (mem_filter.mp isAsked).2
    · rcases isEnd with noTimer | noneLeft
      · cases noTimer
      · exact absurd noneLeft (ne_true_of_eq_false stillRuns)
    · exact stops_stopForTeardown (agents.phased url) (agents.checked url)
    · have isBefore : (agents.slots url).runningAgent.isSome = true := by
        simpa [stopForTeardown] using isAgent
      have inUrls := agents.covers url isBefore
      exact ⟨inUrls, mem_filter.mpr ⟨inUrls, isBefore⟩⟩

end AgentTeardown

/-- A teardown goes as it has to in exactly the runs in which every agent that goes is stopped by
its `StopForTeardown`, and no requests wait for it while another agent is running. -/
theorem tearsDown_run (agents : RunningAgents) (events : List TeardownEvent) {final : AgentTeardown}
    (isRun : runSteps AgentTeardown.step (AgentTeardown.teardown agents) events = some final) :
    EachStep AgentTeardown.step (fun teardown event => ∀ next ∈ teardown.step event, TearsDown next)
        (AgentTeardown.teardown agents) events ↔
      EachStep AgentTeardown.step StopsInOrder (AgentTeardown.teardown agents) events :=
  eachStep_next_iff AgentTeardown.Tracked (fun tracked inOrder isStep => tracked.step inOrder isStep)
    TearsDown AgentTeardown.Tracked.toTearsDown
    (fun tracked isStep tearsDown => tracked.stopsInOrder isStep tearsDown)
    (AgentTeardown.tracked_teardown agents) isRun

def sampleSlot (agent : AgentContext) (connections : List AgentRequest) : AgentSlot :=
  { empty with
    runningAgent := some agent
    runAgentCallbacks := connections.map fun _ => .forwardConnections
    pendingAgentConnections := connections }

def sampleAgents (connections : List AgentRequest) : RunningAgents where
  slots url :=
    if url = [1] then sampleSlot ⟨.terminating, [.stopCall], true, 0, 0⟩ connections
    else if url = [2] then sampleSlot ⟨.running, [], false, 1, 0⟩ []
    else if url = [3] then sampleSlot .start []
    else .empty
  urls := [[1], [2], [3]]
  covers url isAgent := by
    split_ifs at isAgent with isFirst isSecond isThird
    · simp [isFirst]
    · simp [isSecond]
    · simp [isThird]
    · cases isAgent
  phased url agent isAgent := by
    split_ifs at isAgent with isFirst isSecond isThird
    · cases isAgent
      exact .terminating [] 0 0
    · cases isAgent
      exact .running [] 1 0 List.not_mem_nil
    · cases isAgent
      exact .initializing [] false 0 0 List.not_mem_nil
    · cases isAgent
  checked url := by split_ifs <;> exact ⟨rfl, rfl⟩

def sampleTeardownEvents : List TeardownEvent :=
  [.slot [2] (.agent .runOperation), .slot [2] (.agent (.connectToAgent [4])),
    .slot [3] (.agent .runOperation), .slot [2] (.agent .stopped), .timeout]

theorem tearsDown_run_sample :
    ∃ final, runSteps AgentTeardown.step (AgentTeardown.teardown (sampleAgents []))
        sampleTeardownEvents = some final ∧ (EachStep AgentTeardown.step
          (fun teardown event => ∀ next ∈ teardown.step event, TearsDown next)
          (AgentTeardown.teardown (sampleAgents [])) sampleTeardownEvents ↔
        EachStep AgentTeardown.step StopsInOrder (AgentTeardown.teardown (sampleAgents []))
          sampleTeardownEvents) :=
  ⟨_, rfl, tearsDown_run (sampleAgents []) sampleTeardownEvents rfl⟩

/-- A connection waits for an agent that terminates, and another agent is running: when the first
one has stopped, it is started again. -/
theorem not_tearsDown_run : ∃ final, runSteps AgentTeardown.step
    (AgentTeardown.teardown (sampleAgents [.connection 0 [4]]))
    [.slot [1] (.agent .stopped)] = some final ∧ ¬TearsDown final := by
  refine ⟨_, rfl, fun tearsDown => ?_⟩
  have noneStarted := tearsDown.noneStarted
  exact absurd noneStarted (by decide)

end Peridot
