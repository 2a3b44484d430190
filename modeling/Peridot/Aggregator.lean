import Mathlib.Data.List.AList
import Peridot.StepRun
import Peridot.SyncState

/-!
# Aggregating synchronization states

`Aggregator` of `aggregator.cc`: its listeners come and go, and each tells its state.  The base
watcher is told the merge of their states when a listener tells a new one.
-/

namespace Peridot

open Option

/-- `Aggregator` with its listeners, each with its state, and what its base watcher was told. -/
structure Aggregator where
  state : SyncStateContainer
  listeners : AList fun _ : Nat => SyncStateContainer
  told : List SyncStateContainer

namespace Aggregator

def new : Aggregator :=
  ⟨.initial, ∅, [.initial]⟩

def merged (listeners : AList fun _ : Nat => SyncStateContainer) : SyncStateContainer :=
  listeners.entries.foldl (fun state listener => state.merge listener.2) .initial

def newStateAvailable (aggregator : Aggregator) : Aggregator :=
  let newState := merged aggregator.listeners
  if newState ≠ aggregator.state then
    { aggregator with state := newState, told := aggregator.told ++ [newState] }
  else aggregator

inductive Action where
  | getNewStateWatcher (listener : Nat)
  | notify (listener : Nat) (syncState : SyncStateContainer)
  | destroy (listener : Nat)

/-- A listener is created under a new name, and tells states until it is destroyed. -/
def step (aggregator : Aggregator) : Action → Option Aggregator
  | .getNewStateWatcher listener =>
    if listener ∈ aggregator.listeners then none
    else some { aggregator with listeners := aggregator.listeners.insert listener .initial }
  | .notify listener syncState =>
    if listener ∈ aggregator.listeners then
      -- `Listener::Notify` keeps the state before it calls `NewStateAvailable`.
      some { aggregator with
        listeners := aggregator.listeners.insert listener syncState }.newStateAvailable
    else none
  | .destroy listener =>
    if listener ∈ aggregator.listeners then
      some { aggregator with listeners := aggregator.listeners.erase listener }
    else none

/-- The base watcher was last told the merge of the states of the listeners. -/
def Reported (aggregator : Aggregator) : Prop :=
  aggregator.told.getLast? = some (merged aggregator.listeners)

/-- No listener is destroyed without whose state the merge is another one. -/
def KeepsMerge (aggregator : Aggregator) : Action → Prop
  | .destroy listener => merged (aggregator.listeners.erase listener) = merged aggregator.listeners
  | _ => True

variable {aggregator next : Aggregator} {action : Action} {listener : Nat}

def Told (aggregator : Aggregator) : Prop :=
  aggregator.told.getLast? = some aggregator.state

theorem told_newStateAvailable (told : aggregator.Told) : aggregator.newStateAvailable.Told := by
  unfold newStateAvailable
  simp only
  split
  · simp [Told]
  · exact told

theorem state_newStateAvailable (aggregator : Aggregator) :
    aggregator.newStateAvailable.state = merged aggregator.newStateAvailable.listeners := by
  unfold newStateAvailable
  simp only
  split
  · rfl
  case isFalse same => exact (not_not.mp same).symm

theorem getNewStateWatcher_eq_some :
    aggregator.step (.getNewStateWatcher listener) = some next ↔ listener ∉ aggregator.listeners ∧
        next = { aggregator with listeners := aggregator.listeners.insert listener .initial } := by
  rw [step, ite_none_left_eq_some, some.injEq, eq_comm (b := next)]

theorem notify_eq_some {syncState : SyncStateContainer} :
    aggregator.step (.notify listener syncState) = some next ↔
      listener ∈ aggregator.listeners ∧ next = { aggregator with
        listeners := aggregator.listeners.insert listener syncState }.newStateAvailable := by
  rw [step, ite_none_right_eq_some, some.injEq, eq_comm (b := next)]

theorem destroy_eq_some : aggregator.step (.destroy listener) = some next ↔
    listener ∈ aggregator.listeners ∧
      next = { aggregator with listeners := aggregator.listeners.erase listener } := by
  rw [step, ite_none_right_eq_some, some.injEq, eq_comm (b := next)]

theorem Told.step (told : aggregator.Told) (isStep : aggregator.step action = some next) :
    next.Told := by
  cases action with
  | getNewStateWatcher listener =>
    obtain ⟨-, rfl⟩ := getNewStateWatcher_eq_some.mp isStep
    exact told
  | notify listener syncState =>
    obtain ⟨-, rfl⟩ := notify_eq_some.mp isStep
    exact told_newStateAvailable told
  | destroy listener =>
    obtain ⟨-, rfl⟩ := destroy_eq_some.mp isStep
    exact told

theorem reported_iff (told : aggregator.Told) :
    aggregator.Reported ↔ aggregator.state = merged aggregator.listeners := by
  rw [Reported, told, some.injEq]

theorem merged_insert_initial {listeners : AList fun _ : Nat => SyncStateContainer}
    (isNew : listener ∉ listeners) :
    merged (listeners.insert listener .initial) = merged listeners := by
  rw [merged, AList.entries_insert_of_notMem isNew, List.foldl_cons]
  rfl

theorem reported_step_iff (told : aggregator.Told) (reported : aggregator.Reported)
    (isStep : aggregator.step action = some next) :
    next.Reported ↔ aggregator.KeepsMerge action := by
  rw [reported_iff told] at reported
  rw [reported_iff (told.step isStep)]
  cases action with
  | getNewStateWatcher listener =>
    obtain ⟨isNew, rfl⟩ := getNewStateWatcher_eq_some.mp isStep
    exact iff_of_true (reported.trans (merged_insert_initial isNew).symm) trivial
  | notify listener syncState =>
    obtain ⟨-, rfl⟩ := notify_eq_some.mp isStep
    exact iff_of_true (state_newStateAvailable _) trivial
  | destroy listener =>
    obtain ⟨-, rfl⟩ := destroy_eq_some.mp isStep
    rw [KeepsMerge, reported]
    exact eq_comm

/-- The base watcher is always told the merge of the listeners that are there exactly when no
listener is destroyed that makes a difference. -/
theorem reported_run_iff {actions : List Action} (final : Aggregator)
    (isRun : runSteps step new actions = some final) :
    EachStep step (fun aggregator action => ∀ next, aggregator.step action = some next →
        next.Reported) new actions ↔ EachStep step KeepsMerge new actions := by
  have start : new.Told ∧ new.Reported := ⟨rfl, rfl⟩
  generalize new = aggregator at start isRun
  obtain ⟨told, reported⟩ := start
  induction actions generalizing aggregator with
  | nil => exact Iff.rfl
  | cons action actions ih =>
    obtain ⟨next, isStep, isRun⟩ := runSteps_cons.mp isRun
    simp only [EachStep, isStep, some.injEq, forall_eq']
    rw [reported_step_iff told reported isStep]
    refine and_congr_right fun keeps => ?_
    exact ih next isRun (told.step isStep) ((reported_step_iff told reported isStep).mpr keeps)

/-- A listener in error, another one that is idle, and the end of the idle one. -/
theorem reported_run_iff_idle :
    let actions : List Action := [.getNewStateWatcher 0, .getNewStateWatcher 1,
      .notify 0 ⟨.permanentError, .pending⟩, .destroy 1]
    EachStep step (fun aggregator action => ∀ next, aggregator.step action = some next →
        next.Reported) new actions ↔
      EachStep step KeepsMerge new actions :=
  reported_run_iff _ rfl

/-- The error of a page is reported after the page is gone. -/
theorem destroyed_still_reported : ∃ final,
    runSteps step new [.getNewStateWatcher 0, .notify 0 ⟨.permanentError, .idle⟩, .destroy 0] =
        some final ∧ final.told.getLast? = some ⟨.permanentError, .idle⟩ ∧
      merged final.listeners = .initial ∧ ¬final.Reported := by
  refine ⟨_, rfl, rfl, rfl, fun reported => ?_⟩
  cases reported

end Aggregator

end Peridot
