import Peridot.AgentRunner

/-!
# The operation that an agent is at

In every run an agent initializes at its first operation, runs operations while it is running, and
terminates at the operation that stops it.
-/

namespace Peridot

open List

/-- The operation that an agent is at is the one that its state is due to. -/
inductive AgentContext.Phased : AgentContext → Prop
  | initializing (rest : List AgentOperation) (isRunning : Bool) (bindings count : ℕ)
      (once : .initializeCall ∉ rest) :
      Phased ⟨.initializing, .initializeCall :: rest, isRunning, bindings, count⟩
  | running (operations : List AgentOperation) (bindings count : ℕ)
      (once : .initializeCall ∉ operations) :
      Phased ⟨.running, operations, false, bindings, count⟩
  | terminating (rest : List AgentOperation) (bindings count : ℕ) :
      Phased ⟨.terminating, .stopCall :: rest, true, bindings, count⟩

namespace AgentContext

variable {agent changed : AgentContext}

theorem closeBinding_cases (isClosed : agent.closeBinding = some changed) :
    changed.state = agent.state ∧ changed.isRunning = agent.isRunning ∧
      ∃ added, changed.operations = agent.operations ++ added ∧ .initializeCall ∉ added := by
  unfold AgentContext.closeBinding at isClosed
  split at isClosed
  · cases isClosed
  · cases isClosed
    exact ⟨rfl, rfl, [.stopCall], rfl, by decide⟩
  · cases isClosed
    exact ⟨rfl, rfl, [], (append_nil _).symm, not_mem_nil⟩

theorem completeTask_cases (isCompleted : agent.completeTask = some changed) :
    changed.state = agent.state ∧ changed.isRunning = agent.isRunning ∧
      ∃ added, changed.operations = agent.operations ++ added ∧ .initializeCall ∉ added := by
  unfold AgentContext.completeTask at isCompleted
  split at isCompleted
  · cases isCompleted
  · cases isCompleted
    exact ⟨rfl, rfl, [.stopCall], rfl, by decide⟩

theorem Phased.append (phased : agent.Phased) (sameState : changed.state = agent.state)
    (sameRunning : changed.isRunning = agent.isRunning) {added : List AgentOperation}
    (isAdded : changed.operations = agent.operations ++ added)
    (notInitialize : .initializeCall ∉ added) : changed.Phased := by
  obtain ⟨state, operations, isRunning, bindings, count⟩ := changed
  dsimp only at sameState sameRunning isAdded
  subst sameState sameRunning isAdded
  cases phased with
  | initializing rest isRunning _ _ once =>
    refine .initializing (rest ++ added) isRunning bindings count ?_
    rw [mem_append, not_or]
    exact ⟨once, notInitialize⟩
  | running operations _ _ once =>
    refine .running (operations ++ added) bindings count ?_
    rw [mem_append, not_or]
    exact ⟨once, notInitialize⟩
  | terminating rest _ _ => exact .terminating (rest ++ added) bindings count

end AgentContext

namespace AgentSlot

/-- The agent of the slot is at the operation that its state is due to. -/
def Phases (slot : AgentSlot) : Prop :=
  ∀ agent ∈ slot.runningAgent, agent.Phased

variable {slot next : AgentSlot}

/-- `Run` of the first operation, which stays at the head of the queue while it waits for its
answer, or leaves the queue. -/
theorem Phases.runOperation_cases (phases : slot.Phases) {agent : AgentContext}
    (isAgent : slot.runningAgent = some agent) (notRunning : agent.isRunning = false)
    {operation : AgentOperation} (isFirst : agent.operations.head? = some operation) :
    ((slot.runOperation agent operation).failed = slot.failed ∧
        (slot.runOperation agent operation).dangled = slot.dangled) ∧
      ∃ changed, (slot.runOperation agent operation).runningAgent = some changed ∧
        changed.Phased ∧ (changed.operations = agent.operations ∨
          agent.operations = operation :: changed.operations) := by
  cases phases agent isAgent with
  | initializing rest isRunning bindings count once =>
    obtain rfl := Option.some.inj isFirst
    exact ⟨⟨rfl, rfl⟩, _, rfl, .initializing rest true bindings count once, .inl rfl⟩
  | terminating rest bindings count => cases notRunning
  | running operations bindings count once =>
    cases operations with
    | nil => cases isFirst
    | cons first rest =>
      obtain rfl := Option.some.inj isFirst
      rw [mem_cons, not_or] at once
      cases first with
      | initializeCall => exact absurd rfl once.1
      | syncCall request =>
        refine ⟨⟨rfl, rfl⟩, _, rfl, ?_, .inr ?_⟩
        · cases request with
          | connection number requestorUrl | entityProvider number =>
            exact .running rest (bindings + 1) count once.2
          | task number taskId fromAlarm => exact .running rest bindings (count + 1) once.2
        · cases request <;> rfl
      | stopCall =>
        refine ⟨⟨rfl, rfl⟩, _, rfl, ?_⟩
        rw [runStopCall, if_neg (by simp)]
        split
        · exact ⟨.terminating rest bindings count, .inl rfl⟩
        · exact ⟨.running rest bindings count once.2, .inr rfl⟩

end AgentSlot

end Peridot
