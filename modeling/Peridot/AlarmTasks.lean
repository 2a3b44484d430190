import Peridot.AgentConnections

/-!
# Alarm tasks

An alarm task has a timer, or a run that waits until its agent has been started again.  A task that
is deleted leaves both behind: the timer is not told from the timer of the same task when it is
added again, and the run is still made, with an entry of `running_alarms_` that may be gone.
-/

namespace Peridot

open List Option RunCallback Function

def RunCallback.alarmTask? : RunCallback → Option Bytes
  | .alarm _ taskId _ => some taskId
  | _ => none

def AgentRequest.alarmTask? : AgentRequest → Option Bytes
  | .task _ taskId true => some taskId
  | _ => none

namespace AgentSlot

/-- The alarm tasks that are to be run when the agent is started again. -/
def deferredRuns (slot : AgentSlot) : List Bytes :=
  slot.runAgentCallbacks.filterMap RunCallback.alarmTask?

def queuedRuns (slot : AgentSlot) : List Bytes :=
  slot.queued.filterMap AgentRequest.alarmTask?

/-- A task is deleted while no run of it waits, and added again when its timer has fired. -/
def Spares (slot : AgentSlot) : SlotEvent → Prop
  | .addedTask taskId (.alarm _) => taskId ∈ slot.runningAlarms ∨ taskId ∉ slot.timers
  | .deletedTask taskId => taskId ∉ slot.deferredRuns ∧ taskId ∉ slot.queuedRuns
  | _ => True

instance (slot : AgentSlot) (event : SlotEvent) : Decidable (slot.Spares event) :=
  match event with
  | .addedTask taskId (.alarm _) =>
    inferInstanceAs (Decidable (taskId ∈ slot.runningAlarms ∨ taskId ∉ slot.timers))
  | .deletedTask taskId =>
    inferInstanceAs (Decidable (taskId ∉ slot.deferredRuns ∧ taskId ∉ slot.queuedRuns))
  | .addedTask _ (.queue _) | .agent _ => .isTrue trivial

/-- The alarms of a slot when the given functions are left to be called. -/
structure Timed (slot : AgentSlot) (callbacks : List RunCallback) : Prop where
  intact : slot.dangled = false
  atMostOne : ∀ taskId, slot.timers.count taskId +
    (callbacks.filterMap RunCallback.alarmTask?).count taskId ≤ 1
  exactlyOne : ∀ taskId ∈ slot.runningAlarms, slot.timers.count taskId +
    (callbacks.filterMap RunCallback.alarmTask?).count taskId = 1
  added : ∀ taskId, taskId ∈ slot.runningAlarms ↔ slot.added taskId = true
  deferred : ∀ number taskId epoch, .alarm number taskId epoch ∈ callbacks →
    taskId ∈ slot.runningAlarms ∧ epoch = slot.epoch
  plain : ∀ request ∈ slot.pendingAgentConnections ++
    slot.pendingEntityProviderConnection.toList, request.alarmTask? = none
  queued : ∀ taskId ∈ slot.queuedRuns, taskId ∈ slot.runningAlarms
  ran : ∀ run ∈ slot.ran, run.2 = true
  rescheduled : ∀ run ∈ slot.rescheduled, run.2 = true

variable {slot : AgentSlot}

theorem Timed.ofCallbacks {callbacks others : List RunCallback} (timed : slot.Timed callbacks)
    (sameRuns : ∀ taskId, (others.filterMap alarmTask?).count taskId =
      (callbacks.filterMap alarmTask?).count taskId)
    (subset : ∀ number taskId epoch, .alarm number taskId epoch ∈ others →
      .alarm number taskId epoch ∈ callbacks) : slot.Timed others :=
  { timed with
    atMostOne := fun taskId => by
      rw [sameRuns]
      exact timed.atMostOne taskId
    exactlyOne := fun taskId isAlarm => by
      rw [sameRuns]
      exact timed.exactlyOne taskId isAlarm
    deferred := fun number taskId epoch member =>
      timed.deferred number taskId epoch (subset _ _ _ member) }

variable {callbacks : List RunCallback}

theorem Timed.withRequests (timed : slot.Timed callbacks) (runningAgent : Option AgentContext)
    (runAgentCallbacks : List RunCallback) (pending : List AgentRequest)
    (provider : Option AgentRequest) (failed : Bool) (issued : List AgentRequest)
    (received : List (AgentRequest × AgentState))
    (plain : ∀ request ∈ pending ++ provider.toList, request.alarmTask? = none)
    (queued : ∀ taskId ∈ ((runningAgent.map AgentContext.requests).getD []).filterMap
      AgentRequest.alarmTask?, taskId ∈ slot.queuedRuns) : { slot with
      runningAgent
      runAgentCallbacks
      pendingAgentConnections := pending
      pendingEntityProviderConnection := provider
      failed
      issued
      received }.Timed callbacks :=
  ⟨timed.intact, timed.atMostOne, timed.exactlyOne, timed.added, timed.deferred, plain,
    fun taskId member => timed.queued taskId (queued taskId member), timed.ran,
    timed.rescheduled⟩

variable {agent : AgentContext}

theorem runCallback_alarm (isAgent : slot.runningAgent = some agent) (number : ℕ) (taskId : Bytes) :
    slot.runCallback (.alarm number taskId slot.epoch) = { slot with
      runningAgent := some (agent.holdAll [.task number taskId true])
      runningAlarms := slot.runningAlarms.insert taskId ((slot.runningAlarms.lookup taskId).getD 0)
      timers := slot.timers ++ [taskId]
      rescheduled := slot.rescheduled ++ [(taskId, slot.added taskId)] } := by
  simp [runCallback, runAlarm, newRequest_eq isAgent, scheduleAlarmTask]

variable {taskId : Bytes} {done : RunCallback}

theorem queuedRuns_holdAll {requests : List AgentRequest} (member : taskId ∈
    (((some (agent.holdAll requests)).map AgentContext.requests).getD []).filterMap
      AgentRequest.alarmTask?) : taskId ∈ agent.requests.filterMap AgentRequest.alarmTask? ∨
    taskId ∈ requests.filterMap AgentRequest.alarmTask? := by
  simpa only [map_some, getD_some, AgentContext.requests_holdAll,
    filterMap_append, mem_append] using member

theorem Timed.runCallback (isAgent : slot.runningAgent = some agent) {callback : RunCallback}
    {rest : List RunCallback} (timed : slot.Timed (callback :: rest)) :
    (slot.runCallback callback).runningAgent.isSome ∧ (slot.runCallback callback).Timed rest ∧
      (slot.runCallback callback).runAgentCallbacks = slot.runAgentCallbacks := by
  have queuedRuns : slot.queuedRuns = agent.requests.filterMap AgentRequest.alarmTask? := by
    simp [AgentSlot.queuedRuns, AgentSlot.queued, isAgent]
  have plain := timed.plain
  cases callback with
  | forwardConnections =>
    have others : slot.Timed rest := timed.ofCallbacks (fun _ => rfl) (by simp)
    have isNext : slot.runCallback .forwardConnections = { slot with
        runningAgent := some (agent.holdAll slot.pendingAgentConnections)
        pendingAgentConnections := [] } := by
      rw [AgentSlot.runCallback, forwardConnectionsToAgent, foldl_newRequest isAgent]
    rw [isNext]
    refine ⟨rfl, others.withRequests _ _ _ _ _ _ _ (fun request member => ?_)
      (fun taskId member => ?_), rfl⟩
    · exact plain request (mem_append_right _ (by simpa using member))
    · rw [queuedRuns]
      refine (queuedRuns_holdAll member).resolve_right fun isPending => ?_
      obtain ⟨request, isRequest, isTask⟩ := mem_filterMap.mp isPending
      rw [plain request (mem_append_left _ isRequest)] at isTask
      cases isTask
  | connectEntityProvider =>
    have others : slot.Timed rest := timed.ofCallbacks (fun _ => rfl) (by simp)
    cases isProvider : slot.pendingEntityProviderConnection with
    | none =>
      have isNext : slot.runCallback .connectEntityProvider = { slot with failed := true } := by
        simp only [AgentSlot.runCallback, forwardEntityProvider, isProvider]
      rw [isNext]
      refine ⟨by simp [isAgent], others.withRequests _ _ _ _ _ _ _ plain
        (fun taskId member => member), rfl⟩
    | some request =>
      have isNext : slot.runCallback .connectEntityProvider = { slot with
          runningAgent := some (agent.holdAll [request])
          pendingEntityProviderConnection := none } := by
        simp only [AgentSlot.runCallback, forwardEntityProvider, isProvider, newRequest_eq isAgent]
      rw [isNext]
      refine ⟨rfl, others.withRequests _ _ _ _ _ _ _ (fun other member => ?_)
        (fun taskId member => ?_), rfl⟩
      · exact plain other (mem_append_left _ (by simpa using member))
      · rw [queuedRuns]
        refine (queuedRuns_holdAll member).resolve_right fun isPending => ?_
        have isPlain : request.alarmTask? = none :=
          plain request (mem_append_right _ (by simp [isProvider]))
        simp [isPlain] at isPending
  | newTask number taskId =>
    have others : slot.Timed rest := timed.ofCallbacks (fun _ => rfl) (by simp)
    have isNext : slot.runCallback (.newTask number taskId) = { slot with
        runningAgent := some (agent.holdAll [.task number taskId false]) } :=
      newRequest_eq isAgent _
    rw [isNext]
    refine ⟨rfl, others.withRequests _ _ _ _ _ _ _ plain (fun taskId member => ?_), rfl⟩
    rw [queuedRuns]
    refine (queuedRuns_holdAll member).resolve_right fun isPending => ?_
    simp [AgentRequest.alarmTask?] at isPending
  | alarm number taskId epoch =>
    obtain ⟨isAlarm, rfl⟩ := timed.deferred number taskId epoch mem_cons_self
    rw [runCallback_alarm isAgent]
    have sameAlarms (other : Bytes) : other ∈ slot.runningAlarms.insert taskId
        ((slot.runningAlarms.lookup taskId).getD 0) ↔ other ∈ slot.runningAlarms := by
      rw [AList.mem_insert]
      exact ⟨fun member => member.elim (fun same => same ▸ isAlarm) id, .inr⟩
    have sameCount (other : Bytes) : (slot.timers ++ [taskId]).count other +
        (rest.filterMap alarmTask?).count other = slot.timers.count other +
          ((alarm number taskId slot.epoch :: rest).filterMap alarmTask?).count other := by
      simp only [filterMap_cons, alarmTask?, count_append, count_cons, count_nil]
      omega
    refine ⟨rfl, ⟨timed.intact, fun other => ?_, fun other isOther => ?_, fun other => ?_,
      fun otherNumber other otherEpoch member => ?_, plain, fun other member => ?_, timed.ran,
      fun run member => ?_⟩, rfl⟩
    · rw [sameCount]
      exact timed.atMostOne other
    · rw [sameCount]
      exact timed.exactlyOne other ((sameAlarms other).mp isOther)
    · rw [sameAlarms]
      exact timed.added other
    · rw [sameAlarms]
      exact timed.deferred otherNumber other otherEpoch (mem_cons_of_mem _ member)
    · rw [sameAlarms]
      rcases queuedRuns_holdAll member with earlier | isLast
      · exact timed.queued other (queuedRuns ▸ earlier)
      · have same : other = taskId := by simpa [AgentRequest.alarmTask?] using isLast
        exact same ▸ isAlarm
    · rcases mem_append.mp member with earlier | isLast
      · exact timed.rescheduled run earlier
      · rw [mem_singleton.mp isLast]
        exact (timed.added taskId).mp isAlarm

theorem Timed.foldl_runCallback (isAgent : slot.runningAgent.isSome) (timed : slot.Timed callbacks) :
    (callbacks.foldl AgentSlot.runCallback slot).Timed [] := by
  induction callbacks generalizing slot with
  | nil => exact timed
  | cons callback callbacks ih =>
    obtain ⟨agent, isSome⟩ := isSome_iff_exists.mp isAgent
    obtain ⟨nextAgent, nextTimed, _⟩ := timed.runCallback isSome
    exact ih nextAgent nextTimed

theorem Timed.withAgent (timed : slot.Timed callbacks) (runningAgent : Option AgentContext)
    (queued : ((runningAgent.map AgentContext.requests).getD []).Sublist slot.queued) :
    { slot with runningAgent }.Timed callbacks :=
  timed.withRequests _ _ _ _ _ _ _ timed.plain
    fun _ member => (queued.filterMap AgentRequest.alarmTask?).subset member

theorem Timed.failed (timed : slot.Timed callbacks) :
    { slot with failed := true }.Timed callbacks :=
  timed.withRequests _ _ _ _ _ _ _ timed.plain fun _ member => member

theorem Timed.runAgent (timed : slot.Timed slot.runAgentCallbacks) :
    slot.runAgent.Timed slot.runAgent.runAgentCallbacks := by
  cases isAgent : slot.runningAgent with
  | some agent =>
    have isNext : slot.runAgent = { slot with failed := true } := by
      simp only [AgentSlot.runAgent, isAgent]
    rw [isNext]
    exact timed.failed
  | none =>
    have started : { slot with runningAgent := some .start }.Timed slot.runAgentCallbacks :=
      timed.withAgent _ (nil_sublist _)
    have called := started.foldl_runCallback rfl
    have isNext : slot.runAgent = { slot.runAgentCallbacks.foldl AgentSlot.runCallback
            { slot with runningAgent := some .start } with runAgentCallbacks := [] } := by
      simp only [AgentSlot.runAgent, isAgent]
    rw [isNext]
    exact called.withRequests _ _ _ _ _ _ _ called.plain fun _ member => member

theorem Timed.maybeRunAgent (timed : slot.Timed (slot.runAgentCallbacks ++ [done])) :
    (slot.maybeRunAgent done).Timed (slot.maybeRunAgent done).runAgentCallbacks := by
  have waiting : { slot with
      runAgentCallbacks := slot.runAgentCallbacks ++ [done] }.Timed
        (slot.runAgentCallbacks ++ [done]) :=
    timed.withRequests _ _ _ _ _ _ _ timed.plain fun _ member => member
  cases isAgent : slot.runningAgent with
  | none =>
    have isNext : slot.maybeRunAgent done = { slot with
        runAgentCallbacks := slot.runAgentCallbacks ++ [done] }.runAgent := by
      simp only [AgentSlot.maybeRunAgent, isAgent]
    rw [isNext]
    exact waiting.runAgent
  | some agent =>
    by_cases isTerminating : agent.state = .terminating
    · have isNext : slot.maybeRunAgent done = { slot with
          runAgentCallbacks := slot.runAgentCallbacks ++ [done] } := by
        simp only [AgentSlot.maybeRunAgent, isAgent, if_pos isTerminating]
      rw [isNext]
      exact waiting
    · have isNext : slot.maybeRunAgent done = slot.runCallback done := by
        simp only [AgentSlot.maybeRunAgent, isAgent, if_neg isTerminating]
      have first : slot.Timed (done :: slot.runAgentCallbacks) := by
        refine timed.ofCallbacks (fun taskId => ?_) fun number taskId epoch member => ?_
        · have sameRuns := (perm_append_singleton done slot.runAgentCallbacks).filterMap
            alarmTask?
          exact (sameRuns.count_eq taskId).symm
        · exact (perm_append_singleton done slot.runAgentCallbacks).mem_iff.mpr member
      obtain ⟨_, nextTimed, sameCallbacks⟩ := first.runCallback isAgent
      rw [isNext, sameCallbacks]
      exact nextTimed

section

variable (timed : slot.Timed slot.runAgentCallbacks)
include timed

theorem Timed.ask (pending : List AgentRequest)
    (provider : Option AgentRequest) (issued : List AgentRequest)
    (isOther : done.alarmTask? = none)
    (plain : ∀ request ∈ pending ++ provider.toList, request.alarmTask? = none) :
    let next := { slot with
      pendingAgentConnections := pending
      pendingEntityProviderConnection := provider
      issued }.maybeRunAgent done
    next.Timed next.runAgentCallbacks := by
  refine Timed.maybeRunAgent ?_
  refine (timed.ofCallbacks (fun taskId => ?_) fun number taskId epoch member => ?_).withRequests
    _ _ _ _ _ _ _ plain fun _ member => member
  · simp [isOther]
  · refine (mem_append.mp member).resolve_right fun isLast => ?_
    rw [← mem_singleton.mp isLast] at isOther
    cases isOther

theorem Timed.alarmTimer (isTimer : taskId ∈ slot.timers) :
    let next := if taskId ∈ slot.runningAlarms then
      slot.issue (.task · taskId true) (AgentSlot.alarmTimer · · taskId)
    else slot.alarmTimer slot.issued.length taskId
    next.Timed next.runAgentCallbacks := by
  have fewer (other : Bytes) : (slot.timers.erase taskId).count other ≤ slot.timers.count other :=
    erase_sublist.count_le other
  have one : (slot.timers.erase taskId).count taskId + 1 = slot.timers.count taskId := by
    have positive := count_pos_iff.mpr isTimer
    rw [count_erase_self]
    omega
  simp only [issue, AgentSlot.alarmTimer]
  split
  · rename_i isAlarm
    refine Timed.maybeRunAgent ?_
    have sameCount (other : Bytes) : (slot.timers.erase taskId).count other +
        ((slot.runAgentCallbacks ++ [alarm slot.issued.length taskId slot.epoch]).filterMap
          alarmTask?).count other = slot.timers.count other +
            (slot.runAgentCallbacks.filterMap alarmTask?).count other := by
      simp only [filterMap_append, filterMap_cons, filterMap_nil, alarmTask?, count_append]
      by_cases same : other = taskId
      · subst same
        rw [count_singleton_self]
        omega
      · have noneLast : [taskId].count other = 0 := by simp [Ne.symm same]
        rw [count_erase_of_ne same, noneLast]
        rfl
    refine ⟨timed.intact, fun other => ?_, fun other isOther => ?_, timed.added,
      fun number other epoch member => ?_, timed.plain, timed.queued, timed.ran,
      timed.rescheduled⟩
    · exact (sameCount other).trans_le (timed.atMostOne other)
    · exact (sameCount other).trans (timed.exactlyOne other isOther)
    · rcases mem_append.mp member with earlier | isLast
      · exact timed.deferred number other epoch earlier
      · cases mem_singleton.mp isLast
        exact ⟨isAlarm, rfl⟩
  · rename_i noAlarm
    refine ⟨timed.intact, fun other => ?_, fun other isOther => ?_, timed.added, timed.deferred,
      timed.plain, timed.queued, timed.ran, timed.rescheduled⟩
    · exact (Nat.add_le_add_right (fewer other) _).trans (timed.atMostOne other)
    · have isDifferent : other ≠ taskId := fun same => noAlarm (same ▸ isOther)
      simp only [count_erase_of_ne isDifferent]
      exact timed.exactlyOne other isOther

theorem Timed.addedTask (alarmInSeconds : UInt32)
    (isFree : taskId ∈ slot.runningAlarms ∨ taskId ∉ slot.timers) :
    (slot.addedTask taskId (.alarm alarmInSeconds)).Timed
      (slot.addedTask taskId (.alarm alarmInSeconds)).runAgentCallbacks := by
  have added (other : Bytes) : other ∈ slot.runningAlarms.insert taskId alarmInSeconds ↔
      update slot.added taskId true other = true := by
    rw [AList.mem_insert, update_apply]
    by_cases same : other = taskId
    · simp [same]
    · simpa [same] using timed.added other
  have larger {other : Bytes} (isOther : other ∈ slot.runningAlarms) :
      other ∈ slot.runningAlarms.insert taskId alarmInSeconds :=
    (AList.mem_insert _).mpr (.inr isOther)
  by_cases isAlarm : taskId ∈ slot.runningAlarms
  · have isNext : slot.addedTask taskId (.alarm alarmInSeconds) = { slot with
        runningAlarms := slot.runningAlarms.insert taskId alarmInSeconds
        added := update slot.added taskId true } := by
      simp [AgentSlot.addedTask, scheduleAlarmTask, isAlarm]
    rw [isNext]
    refine ⟨timed.intact, timed.atMostOne, fun other isOther => ?_, added,
      fun number other epoch member => ?_, timed.plain,
      fun other member => larger (timed.queued other member), timed.ran, timed.rescheduled⟩
    · refine timed.exactlyOne other ?_
      exact ((AList.mem_insert _).mp isOther).elim (fun same => same ▸ isAlarm) id
    · obtain ⟨isOther, isEpoch⟩ := timed.deferred number other epoch member
      exact ⟨larger isOther, isEpoch⟩
  · have isNext : slot.addedTask taskId (.alarm alarmInSeconds) = { slot with
        runningAlarms := slot.runningAlarms.insert taskId alarmInSeconds
        timers := slot.timers ++ [taskId]
        added := update slot.added taskId true } := by
      simp [AgentSlot.addedTask, scheduleAlarmTask, isAlarm]
    rw [isNext]
    have noTimer : slot.timers.count taskId = 0 := count_eq_zero.mpr (isFree.resolve_left isAlarm)
    have noRun : (slot.runAgentCallbacks.filterMap alarmTask?).count taskId = 0 := by
      refine count_eq_zero.mpr fun isRun => ?_
      obtain ⟨callback, isCallback, isTask⟩ := mem_filterMap.mp isRun
      cases callback with
      | alarm number other epoch =>
        obtain rfl : other = taskId := some.inj isTask
        exact isAlarm (timed.deferred number other epoch isCallback).1
      | forwardConnections | connectEntityProvider | newTask number other => cases isTask
    have countSame : (slot.timers ++ [taskId]).count taskId +
        (slot.runAgentCallbacks.filterMap alarmTask?).count taskId = 1 := by
      rw [count_append, noTimer, noRun, count_singleton_self]
    have countOther {other : Bytes} (isDifferent : other ≠ taskId) :
        (slot.timers ++ [taskId]).count other = slot.timers.count other := by
      have noneLast : [taskId].count other = 0 := by simp [Ne.symm isDifferent]
      rw [count_append, noneLast, Nat.add_zero]
    refine ⟨timed.intact, fun other => ?_, fun other isOther => ?_, added,
      fun number other epoch member => ?_, timed.plain,
      fun other member => larger (timed.queued other member), timed.ran, timed.rescheduled⟩
    · by_cases same : other = taskId
      · rw [same]
        exact countSame.le
      · rw [countOther same]
        exact timed.atMostOne other
    · by_cases same : other = taskId
      · rw [same]
        exact countSame
      · rw [countOther same]
        exact timed.exactlyOne other (((AList.mem_insert _).mp isOther).resolve_left same)
    · obtain ⟨isOther, isEpoch⟩ := timed.deferred number other epoch member
      exact ⟨larger isOther, isEpoch⟩

theorem Timed.deletedTask (notDeferred : taskId ∉ slot.deferredRuns)
    (notQueued : taskId ∉ slot.queuedRuns) :
    (slot.deletedTask taskId).Timed (slot.deletedTask taskId).runAgentCallbacks := by
  rw [deletedTask_eq]
  have kept {other : Bytes} (isDifferent : other ≠ taskId)
      (isOther : other ∈ slot.runningAlarms) : other ∈ slot.runningAlarms.erase taskId :=
    AList.mem_erase.mpr ⟨isDifferent, isOther⟩
  refine ⟨timed.intact, timed.atMostOne, fun other isOther => ?_, fun other => ?_,
    fun number other epoch member => ?_, timed.plain, fun other member => ?_, timed.ran,
    timed.rescheduled⟩
  · exact timed.exactlyOne other (AList.mem_erase.mp isOther).2
  · change other ∈ slot.runningAlarms.erase taskId ↔
      update slot.added taskId false other = true
    rw [AList.mem_erase, update_apply]
    by_cases same : other = taskId
    · simp [same]
    · simpa [same] using timed.added other
  · obtain ⟨isOther, isEpoch⟩ := timed.deferred number other epoch member
    have isDifferent : other ≠ taskId := by
      rintro rfl
      exact notDeferred (mem_filterMap.mpr ⟨_, member, rfl⟩)
    have isKept := kept isDifferent isOther
    refine ⟨isKept, isEpoch.trans ?_⟩
    -- the entry of the url is not erased, for it is not empty
    refine (if_neg fun isErased => ?_).symm
    have member := AList.mem_keys.mp isKept
    rw [isErased.2] at member
    cases member
  · have isDifferent : other ≠ taskId := by
      rintro rfl
      exact notQueued member
    exact kept isDifferent (timed.queued other member)

end

theorem requests_drop (agent : AgentContext) : agent.drop.requests.Sublist agent.requests :=
  (tail_sublist agent.operations).filterMap AgentOperation.request?

theorem requests_receive (agent : AgentContext) (request : AgentRequest) :
    (agent.receive request).requests = agent.requests := by
  cases request <;> rfl

section

variable (timed : slot.Timed slot.runAgentCallbacks)
include timed

theorem Timed.runSyncCall (isAgent : slot.runningAgent = some agent) {request : AgentRequest}
    (isFirst : request ∈ agent.requests) :
    (slot.runSyncCall agent request).Timed (slot.runSyncCall agent request).runAgentCallbacks := by
  have queued : slot.queued = agent.requests := by simp [AgentSlot.queued, isAgent]
  by_cases isRunning : agent.state = .running
  · unfold AgentSlot.runSyncCall
    rw [if_pos isRunning]
    have dropped : { slot with runningAgent := some (agent.drop.receive request) }.Timed
        slot.runAgentCallbacks := by
      refine timed.withAgent _ ?_
      simp only [map_some, getD_some, requests_receive, queued]
      exact requests_drop agent
    refine ⟨dropped.intact, dropped.atMostOne, dropped.exactlyOne, dropped.added,
      dropped.deferred, dropped.plain, dropped.queued, fun run member => ?_,
      dropped.rescheduled⟩
    cases request with
    | connection number requestorUrl | entityProvider number => exact timed.ran run member
    | task number taskId fromAlarm =>
      cases fromAlarm with
      | false => exact timed.ran run member
      | true =>
        rcases mem_append.mp member with earlier | isLast
        · exact timed.ran run earlier
        · rw [mem_singleton.mp isLast]
          refine (timed.added taskId).mp (timed.queued taskId ?_)
          rw [queuedRuns, queued]
          exact mem_filterMap.mpr ⟨_, isFirst, rfl⟩
  · unfold AgentSlot.runSyncCall
    rw [if_neg isRunning]
    exact timed.failed

theorem Timed.runOperation (isAgent : slot.runningAgent = some agent) {operation : AgentOperation}
    (isFirst : operation ∈ agent.operations) : (slot.runOperation agent operation).Timed
      (slot.runOperation agent operation).runAgentCallbacks := by
  have queued : slot.queued = agent.requests := by simp [AgentSlot.queued, isAgent]
  cases operation with
  | initializeCall =>
    rw [AgentSlot.runOperation]
    split
    · refine timed.withAgent _ ?_
      rw [queued]
      exact List.Sublist.refl _
    · exact timed.failed
  | syncCall request => exact timed.runSyncCall isAgent (mem_filterMap.mpr ⟨_, isFirst, rfl⟩)
  | stopCall =>
    refine timed.withAgent _ ?_
    rw [queued, runStopCall]
    split
    · exact requests_drop agent
    · split
      · exact List.Sublist.refl _
      · exact requests_drop agent

theorem Timed.removeAgent : slot.removeAgent.Timed slot.removeAgent.runAgentCallbacks := by
  have removed : { slot with runningAgent := none }.Timed slot.runAgentCallbacks :=
    timed.withAgent _ (nil_sublist _)
  simp only [AgentSlot.removeAgent]
  split
  · exact removed
  · exact removed.runAgent

end

theorem requests_maybeStopAgent (agent : AgentContext) :
    agent.maybeStopAgent.requests = agent.requests := by
  simp [AgentContext.requests, AgentContext.maybeStopAgent, AgentContext.hold,
    AgentOperation.request?]

theorem requests_closeBinding {closed : AgentContext}
    (isClosed : agent.closeBinding = some closed) : closed.requests = agent.requests := by
  rw [AgentContext.closeBinding] at isClosed
  split at isClosed
  · cases isClosed
  · cases isClosed
    exact requests_maybeStopAgent _
  · cases isClosed
    rfl

theorem requests_completeTask {completed : AgentContext}
    (isCompleted : agent.completeTask = some completed) : completed.requests = agent.requests := by
  rw [AgentContext.completeTask] at isCompleted
  split at isCompleted
  · cases isCompleted
  · cases isCompleted
    exact requests_maybeStopAgent _

section

variable {slot next : AgentSlot} (timed : slot.Timed slot.runAgentCallbacks) {event : AgentEvent}
include timed

theorem Timed.answer (isAgent : slot.runningAgent = some agent)
    (isStep : (if agent.isRunning then agent.operations.head?.bind fun operation =>
      slot.answer agent operation event else none) = some next) :
    next.Timed next.runAgentCallbacks := by
  have queued : slot.queued = agent.requests := by simp [AgentSlot.queued, isAgent]
  obtain ⟨_, isBound⟩ := ite_none_right_eq_some.mp isStep
  obtain ⟨operation, isFirst, isAnswer⟩ := bind_eq_some_iff.mp isBound
  unfold AgentSlot.answer at isAnswer
  split at isAnswer
  · cases isAnswer
    refine timed.withAgent _ ?_
    rw [queued]
    exact requests_drop agent
  · cases isAnswer
    exact timed.removeAgent
  · cases isAnswer

theorem Timed.agentStep (isAgent : slot.runningAgent = some agent)
    (isStep : slot.agentStep agent event = some next) : next.Timed next.runAgentCallbacks := by
  have queued : slot.queued = agent.requests := by simp [AgentSlot.queued, isAgent]
  cases event with
  | runOperation =>
    obtain ⟨_, isMapped⟩ := ite_none_left_eq_some.mp isStep
    obtain ⟨operation, isFirst, rfl⟩ := map_eq_some_iff.mp isMapped
    exact timed.runOperation isAgent (mem_of_head? isFirst)
  | closeBinding =>
    obtain ⟨closed, isClosed, rfl⟩ := map_eq_some_iff.mp isStep
    refine timed.withAgent _ ?_
    simp only [map_some, getD_some, queued, requests_closeBinding isClosed]
    exact List.Sublist.refl _
  | completeTask =>
    obtain ⟨completed, isCompleted, rfl⟩ := map_eq_some_iff.mp isStep
    refine timed.withAgent _ ?_
    simp only [map_some, getD_some, queued, requests_completeTask isCompleted]
    exact List.Sublist.refl _
  | services | stopped | connectToAgent requestorUrl | connectToEntityProvider
  | queueChanged taskId | alarmTimer taskId =>
    exact timed.answer isAgent isStep

theorem Timed.step {event : SlotEvent} (spares : slot.Spares event)
    (isStep : slot.step event = some next) : next.Timed next.runAgentCallbacks := by
  unfold AgentSlot.step at isStep
  split at isStep
  · rename_i taskId condition
    cases isStep
    cases condition with
    | queue queueName =>
      exact ⟨timed.intact, timed.atMostOne, timed.exactlyOne, timed.added, timed.deferred,
        timed.plain, timed.queued, timed.ran, timed.rescheduled⟩
    | alarm alarmInSeconds => exact timed.addedTask alarmInSeconds spares
  · cases isStep
    exact timed.deletedTask spares.1 spares.2
  · cases isStep
    refine timed.ask _ _ _ rfl fun request member => ?_
    rcases mem_append.mp member with isPending | isProvider
    · rcases mem_append.mp isPending with earlier | isLast
      · exact timed.plain request (mem_append_left _ earlier)
      · rw [mem_singleton.mp isLast]
        rfl
    · exact timed.plain request (mem_append_right _ isProvider)
  · cases isStep
    refine timed.ask _ _ _ rfl fun request member => ?_
    rcases mem_append.mp member with isPending | isProvider
    · exact timed.plain request (mem_append_left _ isPending)
    · rw [mem_singleton.mp isProvider]
      rfl
  · obtain ⟨_, isNext⟩ := ite_none_right_eq_some.mp isStep
    cases isNext
    exact timed.ask _ _ _ rfl timed.plain
  · obtain ⟨isTimer, isNext⟩ := ite_none_right_eq_some.mp isStep
    cases isNext
    exact timed.alarmTimer isTimer
  · obtain ⟨agent, isAgent, isNext⟩ := bind_eq_some_iff.mp isStep
    exact timed.agentStep isAgent isNext

end

/-- An alarm task has one timer or one run that waits while it is in `running_alarms_`, and at most
one otherwise; and no task is run or scheduled again after it was deleted. -/
structure Scheduled (slot : AgentSlot) : Prop where
  intact : slot.dangled = false
  atMostOne : ∀ taskId, slot.timers.count taskId + slot.deferredRuns.count taskId ≤ 1
  exactlyOne : ∀ taskId ∈ slot.runningAlarms,
    slot.timers.count taskId + slot.deferredRuns.count taskId = 1
  ran : ∀ run ∈ slot.ran, run.2 = true
  rescheduled : ∀ run ∈ slot.rescheduled, run.2 = true

theorem empty_timed : empty.Timed empty.runAgentCallbacks :=
  ⟨rfl, fun _ => Nat.zero_le _, fun taskId isAlarm => absurd isAlarm (AList.notMem_empty taskId),
    fun taskId => by simp [empty], nofun, nofun, nofun, nofun, nofun⟩

theorem Timed.scheduled (timed : slot.Timed slot.runAgentCallbacks) : slot.Scheduled :=
  ⟨timed.intact, timed.atMostOne, timed.exactlyOne, timed.ran, timed.rescheduled⟩

end AgentSlot

namespace AgentRunner

/-- In every run in which no task is deleted while a run of it waits, or added again while its old
timer is pending, every alarm is scheduled once, and no deleted task is run. -/
theorem scheduled_run (events : List RunnerEvent) {final : AgentRunner}
    (spares : EachStep step (Meets AgentSlot.Spares) empty events)
    (isRun : runSteps step empty events = some final) (url : Bytes) : (final.slots url).Scheduled :=
  (slots_run (fun slot => slot.Timed slot.runAgentCallbacks)
    (fun timed spares isStep => timed.step spares isStep)
    (fun _ => AgentSlot.empty_timed) spares isRun url).scheduled

def sampleAlarms : List RunnerEvent :=
  [.addedTask [5] ⟨[1], [7], .alarm 60⟩, .agent [1] (.alarmTimer [7]), .agent [1] .runOperation,
    .agent [1] .services, .agent [1] .runOperation, .agent [1] .completeTask,
    .agent [1] .runOperation, .agent [1] (.alarmTimer [7]), .agent [1] .stopped,
    .agent [1] .runOperation, .agent [1] .services, .agent [1] .runOperation,
    .deletedTask [5], .agent [1] (.alarmTimer [7]), .addedTask [5] ⟨[1], [7], .alarm 30⟩]

theorem scheduled_run_sample : ∃ final, runSteps step empty sampleAlarms = some final ∧
    (final.slots [1]).Scheduled :=
  ⟨_, rfl, scheduled_run sampleAlarms (by decide) rfl [1]⟩

def addedAgain : List RunnerEvent :=
  [.addedTask [5] ⟨[1], [7], .alarm 60⟩, .deletedTask [5], .addedTask [5] ⟨[1], [7], .alarm 60⟩]

/-- A task is deleted while its run waits for the agent to be started again. -/
def deletedDeferred : List RunnerEvent :=
  [.addedTask [5] ⟨[1], [7], .alarm 60⟩, .addedTask [6] ⟨[1], [8], .alarm 60⟩,
    .agent [1] (.alarmTimer [7]), .agent [1] .runOperation, .agent [1] .services,
    .agent [1] .runOperation, .agent [1] .completeTask, .agent [1] .runOperation,
    .agent [1] (.alarmTimer [7]), .deletedTask [5], .agent [1] .stopped]

/-- A task is deleted while its run is in the operation queue of the agent. -/
def deletedQueued : List RunnerEvent :=
  [.addedTask [5] ⟨[1], [7], .alarm 60⟩, .agent [1] (.alarmTimer [7]), .deletedTask [5],
    .agent [1] .runOperation, .agent [1] .services, .agent [1] .runOperation]

/-- Added again, the task has two timers; deleted while its run waits, it is run all the same, and
scheduled again with the period 0 where the agent has other alarms. -/
theorem not_scheduled_run : (∃ final, runSteps step empty addedAgain = some final ∧
      (final.slots [1]).timers = [[7], [7]] ∧ ¬(final.slots [1]).Scheduled) ∧
    (∃ final, runSteps step empty deletedDeferred = some final ∧
      (final.slots [1]).rescheduled = [([7], true), ([7], false)] ∧
        (final.slots [1]).runningAlarms.lookup [7] = some 0 ∧ ¬(final.slots [1]).Scheduled) ∧
    ∃ final, runSteps step empty deletedQueued = some final ∧
      (final.slots [1]).ran = [([7], false)] ∧ ¬(final.slots [1]).Scheduled := by
  refine ⟨⟨_, rfl, rfl, fun scheduled => ?_⟩, ⟨_, rfl, rfl, rfl, fun scheduled => ?_⟩, _, rfl,
    rfl, fun scheduled => ?_⟩
  · have atMostOne := scheduled.atMostOne [7]
    revert atMostOne
    decide
  · have rescheduled := scheduled.rescheduled
    revert rescheduled
    decide
  · have ran := scheduled.ran
    revert ran
    decide

end AgentRunner

end Peridot
