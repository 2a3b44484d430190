import Mathlib.Logic.Function.Basic
import Peridot.StepRun

/-!
# The queue of operations

`OperationQueue` runs operations one after the other.  An operation that is scheduled makes its
`FlowToken` in `Run`, and is done when the last copy of the token is destroyed.
-/

namespace Peridot

open List Option Function

/-- `OperationQueue`; operations have numbers in the order in which they are created. -/
structure OperationQueue where
  idle : Bool
  operations : List ℕ

inductive OperationCall where
  | run (operation : ℕ)
  | resultCall (operation : ℕ)
  /-- The result callback has returned. -/
  | returned (operation : ℕ)
deriving DecidableEq

/-- A queue, unless it is destroyed, with the tasks that `Schedule` has posted, the reference
counts of the flow tokens, and the result callbacks that have not returned, the innermost first. -/
structure OperationWorld where
  queue : Option OperationQueue
  posted : List ℕ
  refcounts : ℕ → ℕ
  dispatching : List ℕ
  created : ℕ
  log : List OperationCall
  checkFailed : Bool

inductive OperationEvent where
  | create
  | runTask (index : ℕ)
  | copyToken (operation : ℕ)
  | dropToken (operation : ℕ)
  | returnCallback
  | destroy

namespace OperationWorld

def start : OperationWorld :=
  ⟨some ⟨true, []⟩, [], fun _ => 0, [], 0, [], false⟩

def schedule (world : OperationWorld) (operation : ℕ) : OperationWorld :=
  { world with posted := world.posted ++ [operation] }

def hold (world : OperationWorld) (queue : OperationQueue) (operation : ℕ) : OperationWorld :=
  let operations := queue.operations ++ [operation]
  if queue.idle then
    schedule { world with
      queue := some ⟨false, operations⟩
      checkFailed := world.checkFailed || operations.length ≠ 1 } operation
  else { world with queue := some { queue with operations } }

def drop (world : OperationWorld) (queue : OperationQueue) (operation : ℕ) : OperationWorld :=
  { world with
    queue := some { queue with operations := queue.operations.tail }
    checkFailed := world.checkFailed || queue.operations.head? ≠ some operation }

def cont (world : OperationWorld) (queue : OperationQueue) : OperationWorld :=
  match queue.operations with
  | operation :: _ => world.schedule operation
  | [] => { world with queue := some { queue with idle := true } }

/-- Whether the weak pointers to an operation are valid. -/
def isAlive (world : OperationWorld) (operation : ℕ) : Bool :=
  world.queue.any fun queue => operation ∈ queue.operations

/-- The task of `Schedule`. -/
def run (world : OperationWorld) (operation : ℕ) : OperationWorld :=
  if world.isAlive operation then
    { world with
      refcounts := update world.refcounts operation 1
      log := world.log ++ [.run operation] }
  else world

/-- `DispatchCallback`, until the result callback is called. -/
def dispatchCallback (world : OperationWorld) (queue : OperationQueue) (operation : ℕ) :
    OperationWorld :=
  { world.drop queue operation with
    dispatching := operation :: world.dispatching
    log := world.log ++ [.resultCall operation] }

/-- The destructor of a `FlowToken`. -/
def dropToken (world : OperationWorld) (operation : ℕ) : OperationWorld :=
  let next : OperationWorld := { world with
    refcounts := update world.refcounts operation (world.refcounts operation - 1) }
  match world.queue with
  | some queue =>
    if world.refcounts operation = 1 ∧ world.isAlive operation then
      next.dispatchCallback queue operation
    else next
  | none => next

/-- The rest of `DispatchCallback`. -/
def returnCallback (world : OperationWorld) (operation : ℕ) (others : List ℕ) : OperationWorld :=
  let next : OperationWorld := { world with
    dispatching := others
    log := world.log ++ [.returned operation] }
  match world.queue with
  | some queue => next.cont queue
  | none => next

def step (world : OperationWorld) : OperationEvent → Option OperationWorld
  | .create => world.queue.map fun queue =>
      { world with created := world.created + 1 }.hold queue world.created
  | .runTask index => world.posted[index]?.map fun operation =>
      { world with posted := world.posted.eraseIdx index }.run operation
  | .copyToken operation =>
    if world.refcounts operation = 0 then none
    else some { world with
      refcounts := update world.refcounts operation (world.refcounts operation + 1) }
  | .dropToken operation =>
    if world.refcounts operation = 0 then none else some (world.dropToken operation)
  | .returnCallback =>
    match world.dispatching with
    | [] => none
    | operation :: others => some (world.returnCallback operation others)
  | .destroy => world.queue.map fun _ => { world with queue := none }

/-- What is called for operations that run one at a time. -/
def inTurn (count : ℕ) : List OperationCall :=
  (range count).flatMap fun operation =>
    [.run operation, .resultCall operation, .returned operation]

/-- The calls of `Run` and of result callbacks. -/
def begun (world : OperationWorld) : List OperationCall :=
  world.log.filter fun
    | .returned _ => false
    | _ => true

/-- Operations run one at a time in the order in which they are created, and are called back when
no copy of their token is left.  The first operation in the queue goes on, unless a result
callback has not returned. -/
structure RunsInOrder (world : OperationWorld) : Prop where
  checks : world.checkFailed = false
  inTurn : world.log <+: inTurn world.created
  dispatching : ∀ operation, operation ∈ world.dispatching ↔
    .resultCall operation ∈ world.log ∧ .returned operation ∉ world.log
  queued : ∀ queue ∈ world.queue, ∀ operation, operation ∈ queue.operations ↔
    operation < world.created ∧ .resultCall operation ∉ world.log
  called : ∀ queue ∈ world.queue, ∀ operation, .run operation ∈ world.log →
    (.resultCall operation ∈ world.log ↔ world.refcounts operation = 0)
  idle : ∀ queue ∈ world.queue,
    queue.idle = true ↔ queue.operations = [] ∧ world.dispatching = []
  goesOn : ∀ queue ∈ world.queue, world.dispatching = [] → ∀ operation ∈ queue.operations.head?,
    .run operation ∉ world.log → operation ∈ world.posted

/-- How far the operations are, when `created` of them have been created. -/
inductive Stage (created : ℕ) : List ℕ → List OperationCall → Prop
  | rest {count : ℕ} (atMost : count ≤ created) : Stage created [] (inTurn count)
  | running {count : ℕ} (isLess : count < created) :
      Stage created [] (inTurn count ++ [.run count])
  | dispatching {count : ℕ} (isLess : count < created) :
      Stage created [count] (inTurn count ++ [.run count, .resultCall count])

/-- The invariant. -/
inductive Orderly : OperationWorld → Prop
  | idle {refcounts : ℕ → ℕ} (created : ℕ) (noToken : ∀ operation, refcounts operation = 0) :
      Orderly ⟨some ⟨true, []⟩, [], refcounts, [], created, inTurn created, false⟩
  | scheduled {refcounts : ℕ → ℕ} (count later : ℕ)
      (noToken : ∀ operation, refcounts operation = 0) :
      Orderly ⟨some ⟨false, range' count (later + 1)⟩, [count], refcounts, [], count + later + 1,
        inTurn count, false⟩
  | running {refcounts : ℕ → ℕ} (count later : ℕ)
      (hasToken : ∀ operation, refcounts operation ≠ 0 ↔ operation = count) :
      Orderly ⟨some ⟨false, range' count (later + 1)⟩, [], refcounts, [], count + later + 1,
        inTurn count ++ [.run count], false⟩
  | dispatching {refcounts : ℕ → ℕ} (count later : ℕ)
      (noToken : ∀ operation, refcounts operation = 0) :
      Orderly ⟨some ⟨false, range' (count + 1) later⟩, [], refcounts, [count], count + later + 1,
        inTurn count ++ [.run count, .resultCall count], false⟩
  | destroyed {posted : List ℕ} {refcounts : ℕ → ℕ} {dispatching : List ℕ} {created : ℕ}
      {log : List OperationCall} (stage : Stage created dispatching log) :
      Orderly ⟨none, posted, refcounts, dispatching, created, log, false⟩

theorem inTurn_succ (count : ℕ) : inTurn (count + 1) =
    inTurn count ++ [.run count, .resultCall count, .returned count] := by
  simp [inTurn, range_succ]

theorem mem_inTurn {count : ℕ} {call : OperationCall} : call ∈ inTurn count ↔
    ∃ operation < count, call = .run operation ∨ call = .resultCall operation ∨
      call = .returned operation := by
  simp [inTurn]

theorem inTurn_mono {first second : ℕ} (atMost : first ≤ second) :
    inTurn first <+: inTurn second := by
  obtain ⟨later, rfl⟩ := Nat.exists_eq_add_of_le atMost
  rw [inTurn, inTurn, range_add, flatMap_append]
  exact prefix_append ..

variable {log : List OperationCall} {dispatching : List ℕ} {created : ℕ}

theorem Stage.isPrefix (stage : Stage created dispatching log) : log <+: inTurn created := by
  cases stage with
  | rest atMost => exact inTurn_mono atMost
  | running isLess | dispatching isLess =>
    refine .trans ?_ (inTurn_mono isLess)
    rw [inTurn_succ]
    exact (prefix_append_right_inj _).mpr ⟨_, rfl⟩

theorem Stage.mem_dispatching (stage : Stage created dispatching log) (operation : ℕ) :
    operation ∈ dispatching ↔ .resultCall operation ∈ log ∧ .returned operation ∉ log := by
  cases stage with
  | rest => simp [mem_inTurn]
  | running => simp [mem_inTurn]
  | dispatching =>
    simp [mem_inTurn]
    omega

variable {world next : OperationWorld} {operation : ℕ} {event : OperationEvent}

theorem Orderly.stage (orderly : world.Orderly) :
    Stage world.created world.dispatching world.log := by
  cases orderly with
  | idle => exact .rest (Nat.le_refl _)
  | scheduled => exact .rest (by dsimp only; omega)
  | running => exact .running (by dsimp only; omega)
  | dispatching => exact .dispatching (by dsimp only; omega)
  | destroyed stage => exact stage

theorem Orderly.runsInOrder (orderly : world.Orderly) : world.RunsInOrder := by
  have stage := orderly.stage
  refine ⟨?_, stage.isPrefix, stage.mem_dispatching, ?_, ?_, ?_, ?_⟩
  · cases orderly <;> rfl
  · rintro queue isQueue operation
    cases orderly <;> cases isQueue <;> simp [mem_inTurn, mem_range'_1] <;> omega
  · rintro queue isQueue operation
    cases orderly with
    | running count later hasToken =>
      have noToken := not_congr (hasToken operation)
      simp only [mem_append, mem_inTurn, mem_singleton, not_not] at noToken ⊢
      simp [noToken]
      omega
    | _ => cases isQueue <;> simp [mem_inTurn, *]
  · rintro queue isQueue
    cases orderly <;> cases isQueue <;> simp [range'_succ]
  · rintro queue isQueue
    cases orderly <;> cases isQueue <;> simp [range'_succ]

/-- A token that is copied or dropped, but not for the last time, stays with its operation. -/
theorem hasToken_update {refcounts : ℕ → ℕ} {count value : ℕ}
    (hasToken : ∀ operation, refcounts operation ≠ 0 ↔ operation = count)
    (isOwn : refcounts operation ≠ 0) (positive : value ≠ 0) (other : ℕ) :
    update refcounts operation value other ≠ 0 ↔ other = count := by
  obtain rfl := (hasToken operation).mp isOwn
  by_cases same : other = operation
  · simp [same, positive]
  · rw [update_of_ne same]
    exact hasToken other

theorem Orderly.dropToken (orderly : world.Orderly)
    (isOwn : world.refcounts operation ≠ 0) : (world.dropToken operation).Orderly := by
  cases orderly with
  | idle _ noToken | scheduled _ _ noToken | dispatching _ _ noToken =>
    exact absurd (noToken operation) isOwn
  | destroyed stage => exact .destroyed stage
  | @running refcounts count later hasToken =>
    obtain rfl := (hasToken operation).mp isOwn
    by_cases isLast : refcounts operation = 1
    · have noToken : ∀ other, update refcounts operation 0 other = 0 := by
        intro other
        by_cases same : other = operation
        · simp [same]
        · rw [update_of_ne same]
          exact of_not_not fun isToken => same ((hasToken other).mp isToken)
      simpa [dropToken, isLast, isAlive, dispatchCallback, drop, range'_succ]
        using Orderly.dispatching operation later noToken
    · have left : refcounts operation - 1 ≠ 0 := by
        change refcounts operation ≠ 0 at isOwn
        omega
      simpa [dropToken, isLast]
        using Orderly.running operation later (hasToken_update hasToken isOwn left)

theorem Orderly.returnCallback {others : List ℕ} (orderly : world.Orderly)
    (isInnermost : world.dispatching = operation :: others) :
    (world.returnCallback operation others).Orderly := by
  cases orderly with
  | dispatching _ later noToken =>
    cases isInnermost
    cases later with
    | zero => simpa [returnCallback, cont, inTurn_succ] using idle (operation + 1) noToken
    | succ later =>
      have scheduled := Orderly.scheduled (operation + 1) later noToken
      rw [inTurn_succ, Nat.add_right_comm operation 1 later, Nat.add_assoc operation later 1]
        at scheduled
      simpa [returnCallback, cont, schedule, range'_succ] using scheduled
  | destroyed stage =>
    refine .destroyed ?_
    change _ = operation :: others at isInnermost
    subst isInnermost
    cases stage with
    | dispatching isLess =>
      have rest := Stage.rest isLess
      simpa [inTurn_succ] using rest
  | _ => cases isInnermost

theorem Orderly.step (orderly : world.Orderly)
    (isStep : world.step event = some next) : next.Orderly := by
  cases event with
  | create =>
    obtain ⟨queue, isQueue, rfl⟩ := map_eq_some_iff.mp isStep
    cases orderly with
    | idle created noToken =>
      cases isQueue
      exact .scheduled created 0 noToken
    | scheduled count later noToken =>
      cases isQueue
      simpa [hold, range'_concat, ← Nat.add_assoc] using Orderly.scheduled count (later + 1) noToken
    | running count later hasToken =>
      cases isQueue
      simpa [hold, range'_concat, ← Nat.add_assoc] using Orderly.running count (later + 1) hasToken
    | dispatching count later noToken =>
      cases isQueue
      simpa [hold, range'_concat, ← Nat.add_assoc, Nat.add_right_comm]
        using Orderly.dispatching count (later + 1) noToken
    | destroyed => cases isQueue
  | runTask index =>
    obtain ⟨operation, isPosted, rfl⟩ := map_eq_some_iff.mp isStep
    cases orderly with
    | @scheduled refcounts count later noToken =>
      obtain ⟨rfl, rfl⟩ : index = 0 ∧ operation = count := by
        simpa [getElem?_singleton, eq_comm] using isPosted
      have hasToken (other : ℕ) :
          update refcounts operation 1 other ≠ 0 ↔ other = operation := by
        by_cases same : other = operation
        · simp [same]
        · simp [same, noToken]
      simpa [run, isAlive, range'_succ] using Orderly.running operation later hasToken
    | destroyed stage => exact .destroyed stage
    | _ => simp at isPosted
  | copyToken operation =>
    obtain ⟨isOwn, isNext⟩ := ite_none_left_eq_some.mp isStep
    cases isNext
    cases orderly with
    | idle _ noToken | scheduled _ _ noToken | dispatching _ _ noToken =>
      exact absurd (noToken operation) isOwn
    | destroyed stage => exact .destroyed stage
    | running _ _ hasToken =>
      exact .running _ _ (hasToken_update hasToken isOwn (Nat.succ_ne_zero _))
  | dropToken operation =>
    obtain ⟨isOwn, isNext⟩ := ite_none_left_eq_some.mp isStep
    cases isNext
    exact orderly.dropToken isOwn
  | returnCallback =>
    simp only [OperationWorld.step] at isStep
    split at isStep
    · cases isStep
    · rename_i isInnermost
      cases isStep
      exact orderly.returnCallback isInnermost
  | destroy =>
    obtain ⟨queue, -, rfl⟩ := map_eq_some_iff.mp isStep
    have stage := orderly.stage
    cases orderly <;> exact .destroyed stage

theorem destroyed_step (isDestroyed : world.queue = none) (isStep : world.step event = some next) :
    next.queue = none ∧ next.begun = world.begun := by
  cases event with
  | create | destroy => simp [step, isDestroyed] at isStep
  | runTask index =>
    obtain ⟨operation, -, rfl⟩ := map_eq_some_iff.mp isStep
    simp [run, isAlive, isDestroyed, begun]
  | copyToken operation =>
    cases (ite_none_left_eq_some.mp isStep).2
    exact ⟨isDestroyed, rfl⟩
  | dropToken operation =>
    cases (ite_none_left_eq_some.mp isStep).2
    simp [dropToken, isDestroyed, begun]
  | returnCallback =>
    simp only [step] at isStep
    split at isStep
    · cases isStep
    · cases isStep
      simp [returnCallback, isDestroyed, begun]

/-- Operations run in their order in every run, and when the queue is destroyed no other `Run` or
result callback is called. -/
theorem runsInOrder_run {before after : List OperationEvent} {middle final : OperationWorld}
    (isBefore : runSteps step start before = some middle)
    (isAfter : runSteps step middle after = some final) :
    final.RunsInOrder ∧ (middle.queue = none → final.begun = middle.begun) := by
  have isRun := runSteps_append.mpr ⟨middle, isBefore, isAfter⟩
  have orderly : final.Orderly := invariant_runSteps Orderly
    (fun orderly _ isStep => orderly.step isStep) (.idle 0 fun _ => rfl) (eachStep_true _ _) isRun
  refine ⟨orderly.runsInOrder, fun isDestroyed => ?_⟩
  refine (invariant_runSteps (fun world => world.queue = none ∧ world.begun = middle.begun) ?_
    ⟨isDestroyed, rfl⟩ (eachStep_true _ _) isAfter).2
  intro world next event destroyed _ isStep
  obtain ⟨still, same⟩ := destroyed_step destroyed.1 isStep
  exact ⟨still, same.trans destroyed.2⟩

/-- An operation is created by another one and one by its result callback, and the second result
callback destroys the queue. -/
theorem runsInOrder_run_sample : ∃ middle final,
    runSteps step start [.create, .runTask 0, .create, .copyToken 0, .dropToken 0, .dropToken 0,
      .create, .returnCallback, .runTask 0, .dropToken 1, .destroy] = some middle ∧
    runSteps step middle [.returnCallback] = some final ∧
    final.RunsInOrder ∧ (middle.queue = none → final.begun = middle.begun) := by
  obtain ⟨final, isFinal⟩ := isSome_iff_exists.mp
    (show (runSteps step start ([.create, .runTask 0, .create, .copyToken 0, .dropToken 0,
      .dropToken 0, .create, .returnCallback, .runTask 0, .dropToken 1, .destroy] ++
        [.returnCallback])).isSome by rfl)
  obtain ⟨middle, isBefore, isAfter⟩ := runSteps_append.mp isFinal
  exact ⟨middle, final, isBefore, isAfter, runsInOrder_run isBefore isAfter⟩

end OperationWorld

end Peridot
