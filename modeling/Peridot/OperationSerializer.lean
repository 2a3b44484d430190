import Peridot.OperationQueue

/-!
# The serializer of operations

`OperationSerializer` starts an operation from `Serialize` or when the one before it is done.  An
operation calls back before or after it returns, and code that is called may call `Serialize`.
-/

namespace Peridot

open List OperationWorld Option Orderly

structure OperationSerializer where
  queuedOperations : List ℕ

def OperationSerializer.empty (serializer : OperationSerializer) : Bool :=
  serializer.queuedOperations.isEmpty

/-- A serializer, unless it is deleted, with the operations that have been started and have not
called back, and the result callbacks that have not returned, the innermost first.  Operations have
numbers in the order of the calls of `Serialize`. -/
structure SerializerWorld where
  serializer : Option OperationSerializer
  running : List ℕ
  dispatching : List ℕ
  serialized : ℕ
  log : List OperationCall

/-- What any code may do at any time, inside of an operation, a result callback or `on_empty_` too. -/
inductive SerializerEvent where
  | serialize
  | complete (operation : ℕ)
  | returnCallback
  | delete

namespace SerializerWorld

def start : SerializerWorld :=
  ⟨some ⟨[]⟩, [], [], 0, []⟩

/-- `queued_operations_.front()()` -/
def callFront (world : SerializerWorld) (queuedOperations : List ℕ) : SerializerWorld :=
  match queuedOperations with
  | [] => world
  | operation :: _ => { world with
      running := operation :: world.running
      log := world.log ++ [.run operation] }

def serialize (world : SerializerWorld) (serializer : OperationSerializer) (operation : ℕ) :
    SerializerWorld :=
  let queuedOperations := serializer.queuedOperations ++ [operation]
  let next : SerializerWorld := { world with serializer := some ⟨queuedOperations⟩ }
  if queuedOperations.length = 1 then next.callFront queuedOperations else next

/-- An operation calls back, which it does once. -/
def complete (world : SerializerWorld) (operation : ℕ) : SerializerWorld :=
  { world with
    running := world.running.erase operation
    dispatching := operation :: world.dispatching
    log := world.log ++ [.resultCall operation] }

def updateOperationsAndCallNext (world : SerializerWorld) (serializer : OperationSerializer) :
    SerializerWorld :=
  callFront { world with serializer := some ⟨serializer.queuedOperations.tail⟩ }
    serializer.queuedOperations.tail

/-- The result callback returns. -/
def returnCallback (world : SerializerWorld) (operation : ℕ) (others : List ℕ) :
    SerializerWorld :=
  let next : SerializerWorld := { world with
    dispatching := others
    log := world.log ++ [.returned operation] }
  match world.serializer with
  | some serializer => next.updateOperationsAndCallNext serializer
  | none => next

def step (world : SerializerWorld) : SerializerEvent → Option SerializerWorld
  | .serialize => world.serializer.map fun serializer =>
    { world with serialized := world.serialized + 1 }.serialize serializer world.serialized
  | .complete operation =>
    if operation ∈ world.running then some (world.complete operation) else none
  | .returnCallback =>
    match world.dispatching with
    | [] => none
    | operation :: others => some (world.returnCallback operation others)
  | .delete => world.serializer.map fun _ => { world with serializer := none }

/-- Operations run one at a time in the order of the calls, and are called back once, each before the
next one starts.  The operation of each call waits or runs until its callback has returned: the first
one in the queue runs, and the queue is empty exactly when no operation waits or runs. -/
structure RunsSerially (world : SerializerWorld) : Prop where
  inTurn : world.log <+: inTurn world.serialized
  once : world.log.Nodup
  queued : ∀ serializer ∈ world.serializer, ∀ operation,
    operation ∈ serializer.queuedOperations ↔
      operation < world.serialized ∧ .returned operation ∉ world.log
  running : ∀ operation, operation ∈ world.running ↔
    .run operation ∈ world.log ∧ .resultCall operation ∉ world.log
  dispatching : ∀ operation, operation ∈ world.dispatching ↔
    .resultCall operation ∈ world.log ∧ .returned operation ∉ world.log
  front : ∀ serializer ∈ world.serializer, ∀ operation ∈ serializer.queuedOperations.head?,
    .run operation ∈ world.log ∧ .returned operation ∉ world.log
  empty : ∀ serializer ∈ world.serializer, serializer.empty = true ↔
    ∀ operation < world.serialized, .returned operation ∈ world.log

/-- The invariant. -/
inductive Orderly : SerializerWorld → Prop
  | rest {serializer : Option OperationSerializer} (count later : ℕ)
      (isQueue : ∀ queue ∈ serializer, queue = ⟨[]⟩ ∧ later = 0) :
      Orderly ⟨serializer, [], [], count + later, inTurn count⟩
  | running {serializer : Option OperationSerializer} (count later : ℕ)
      (isQueue : ∀ queue ∈ serializer, queue = ⟨range' count (later + 1)⟩) :
      Orderly ⟨serializer, [count], [], count + later + 1, inTurn count ++ [.run count]⟩
  | dispatching {serializer : Option OperationSerializer} (count later : ℕ)
      (isQueue : ∀ queue ∈ serializer, queue = ⟨range' count (later + 1)⟩) :
      Orderly ⟨serializer, [], [count], count + later + 1,
        inTurn count ++ [.run count, .resultCall count]⟩

theorem nodup_inTurn (count : ℕ) : (inTurn count).Nodup := by
  induction count with
  | zero => exact nodup_nil
  | succ count ih =>
    rw [inTurn_succ, nodup_append]
    refine ⟨ih, by simp, fun call isEarlier other isLast => ?_⟩
    obtain ⟨operation, isLess, isCall⟩ := mem_inTurn.mp isEarlier
    rintro rfl
    have same : operation = count := by
      rcases isCall with rfl | rfl | rfl <;> simpa using isLast
    omega

variable {world next : SerializerWorld}

theorem Orderly.stage (orderly : world.Orderly) :
    world.log <+: OperationWorld.inTurn world.serialized := by
  cases orderly with
  | rest => exact Stage.isPrefix (.rest (Nat.le_add_right ..))
  | running count => exact Stage.isPrefix (.running (show count < _ by dsimp only; omega))
  | dispatching count => exact Stage.isPrefix (.dispatching (show count < _ by dsimp only; omega))

theorem Orderly.runsSerially (orderly : world.Orderly) : world.RunsSerially := by
  refine ⟨orderly.stage, orderly.stage.sublist.nodup (nodup_inTurn _), ?_, ?_, ?_, ?_, ?_⟩
  · intro serializer isSerializer operation
    cases orderly with
    | rest _ _ isQueue => simp [isQueue _ isSerializer, mem_inTurn]
    | running _ _ isQueue | dispatching _ _ isQueue =>
      simp [isQueue _ isSerializer, mem_inTurn, Nat.add_assoc, and_comm]
  · intro operation
    cases orderly <;> simp [mem_inTurn]
    all_goals omega
  · intro operation
    cases orderly <;> simp [mem_inTurn]
    all_goals omega
  · rintro serializer isSerializer
    cases orderly with
    | rest _ _ isQueue => simp [(isQueue _ isSerializer).1]
    | running _ _ isQueue | dispatching _ _ isQueue =>
      simp [isQueue _ isSerializer, range'_succ, mem_inTurn]
  · rintro serializer isSerializer
    cases orderly with
    | rest _ _ isQueue => simp [isQueue _ isSerializer, OperationSerializer.empty, mem_inTurn]
    | running count later isQueue | dispatching count later isQueue =>
      suffices ∃ operation < count + later + 1, count ≤ operation by
        simpa [isQueue _ isSerializer, OperationSerializer.empty, mem_inTurn]
      exact ⟨count, by omega, Nat.le_refl _⟩

theorem Orderly.step {event : SerializerEvent} (orderly : world.Orderly)
    (isStep : world.step event = some next) : next.Orderly := by
  cases event with
  | serialize =>
    obtain ⟨serializer, isSerializer, rfl⟩ := map_eq_some_iff.mp isStep
    cases orderly with
    | rest count later isQueue =>
      obtain ⟨rfl, rfl⟩ := isQueue _ isSerializer
      exact .running count 0 (by simp)
    | running count later isQueue =>
      obtain rfl := isQueue _ isSerializer
      simpa [serialize, range'_concat, ← Nat.add_assoc] using
        @running (some ⟨range' count (later + 2)⟩) count (later + 1) (by simp)
    | dispatching count later isQueue =>
      obtain rfl := isQueue _ isSerializer
      simpa [serialize, range'_concat, ← Nat.add_assoc] using
        @dispatching (some ⟨range' count (later + 2)⟩) count (later + 1) (by simp)
  | complete operation =>
    obtain ⟨isRunning, isNext⟩ := ite_none_right_eq_some.mp isStep
    cases isNext
    cases orderly with
    | running count later isQueue =>
      obtain rfl := mem_singleton.mp isRunning
      simpa [complete] using dispatching operation later isQueue
    | _ => cases isRunning
  | returnCallback =>
    cases orderly with
    | @dispatching serializer count later isQueue =>
      cases isStep
      cases serializer with
      | none =>
        have rest := @rest none (count + 1) later (by simp)
        simpa [returnCallback, inTurn_succ, Nat.add_right_comm] using rest
      | some queue =>
        obtain rfl := isQueue _ rfl
        cases later with
        | zero =>
          have rest := @rest (some ⟨[]⟩) (count + 1) 0 (by simp)
          simpa [returnCallback, updateOperationsAndCallNext, callFront, inTurn_succ] using rest
        | succ later =>
          have running :=
            @running (some ⟨range' (count + 1) (later + 1)⟩) (count + 1) later (by simp)
          rw [inTurn_succ, Nat.add_right_comm count 1 later, Nat.add_assoc count later 1] at running
          simpa [returnCallback, updateOperationsAndCallNext, callFront, range'_succ] using running
    | _ => cases isStep
  | delete =>
    obtain ⟨serializer, -, rfl⟩ := map_eq_some_iff.mp isStep
    cases orderly with
    | rest count later => exact .rest count later (by simp)
    | running count later => exact .running count later (by simp)
    | dispatching count later => exact .dispatching count later (by simp)

/-- Operations run in their order in every run. -/
theorem runsSerially_run {events : List SerializerEvent} {final : SerializerWorld}
    (isRun : runSteps step start events = some final) : final.RunsSerially :=
  have orderly : final.Orderly := invariant_runSteps Orderly
    (fun orderly _ isStep => orderly.step isStep) (.rest 0 0 (by simp)) (eachStep_true _ _)
    isRun
  orderly.runsSerially

/-- The first operation calls `Serialize` and calls back before it returns, its callback calls
`Serialize` too, and the second operation calls back later. -/
theorem runsSerially_run_sample :
    let events : List SerializerEvent := [.serialize, .serialize, .complete 0, .serialize,
      .returnCallback, .complete 1, .returnCallback]
    ∃ final, runSteps step start events = some final ∧ final.RunsSerially ∧
      final.log =
        [.run 0, .resultCall 0, .returned 0, .run 1, .resultCall 1, .returned 1, .run 2] := by
  intro events
  have isRun : runSteps step start events = some _ := rfl
  exact ⟨_, isRun, runsSerially_run isRun, rfl⟩

end SerializerWorld

end Peridot
