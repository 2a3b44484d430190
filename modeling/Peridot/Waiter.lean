import Peridot.CallList
import Peridot.StepRun

/-!
# Waiters

A waiter joins asynchronous calls.  Each of its callbacks reports to an accumulator; the result
callback gets what has been accumulated, once the waiter is finalized and nothing is pending.
-/

namespace Peridot

open List

structure Accumulator (Args R : Type) where
  State : Type
  Token : Type
  /-- `PrepareCall`. -/
  prepareCall : State → Token × State
  /-- `Update`, false when no more reports are wanted. -/
  update : State → Token → Args → Bool × State
  /-- `Result`.  What is moved out of the accumulator is not read again. -/
  result : State → R

structure BaseWaiter {Args R : Type} (A : Accumulator Args R) where
  accumulator : A.State
  done : Bool
  finalized : Bool
  finished : Bool
  cancelled : Bool
  pendingCallbacks : ℕ

namespace BaseWaiter

variable {Args R : Type} {A : Accumulator Args R}

def create (accumulator : A.State) : BaseWaiter A :=
  ⟨accumulator, false, false, false, false, 0⟩

/-- `NewCallback`.  A callback without a token does nothing. -/
def newCallback (waiter : BaseWaiter A) : Option A.Token × BaseWaiter A :=
  if waiter.done then (none, waiter)
  else
    (some (A.prepareCall waiter.accumulator).1, { waiter with
        pendingCallbacks := waiter.pendingCallbacks + 1
        accumulator := (A.prepareCall waiter.accumulator).2 })

/-- `ExecuteCallbackIfFinished`, with what the result callback is called with. -/
def executeCallbackIfFinished (waiter : BaseWaiter A) : Option R × BaseWaiter A :=
  if waiter.finalized ∧ waiter.pendingCallbacks = 0 then
    (if waiter.cancelled then none else some (A.result waiter.accumulator),
      { waiter with finished := true })
  else (none, waiter)

section

variable (waiter : BaseWaiter A)
include waiter

@[simp]
theorem executeCallbackIfFinished_accumulator :
    waiter.executeCallbackIfFinished.2.accumulator = waiter.accumulator := by
  rw [executeCallbackIfFinished]
  split <;> rfl

@[simp]
theorem executeCallbackIfFinished_done : waiter.executeCallbackIfFinished.2.done = waiter.done := by
  rw [executeCallbackIfFinished]
  split <;> rfl

@[simp]
theorem executeCallbackIfFinished_finalized :
    waiter.executeCallbackIfFinished.2.finalized = waiter.finalized := by
  rw [executeCallbackIfFinished]
  split <;> rfl

@[simp]
theorem executeCallbackIfFinished_cancelled :
    waiter.executeCallbackIfFinished.2.cancelled = waiter.cancelled := by
  rw [executeCallbackIfFinished]
  split <;> rfl

@[simp]
theorem executeCallbackIfFinished_pendingCallbacks :
    waiter.executeCallbackIfFinished.2.pendingCallbacks = waiter.pendingCallbacks := by
  rw [executeCallbackIfFinished]
  split <;> rfl

/-- The result callback is called when the waiter is finalized and nothing is pending. -/
theorem executeCallbackIfFinished_toList (notCancelled : waiter.cancelled = false) :
    waiter.executeCallbackIfFinished.1.toList =
      if waiter.finalized ∧ waiter.pendingCallbacks = 0 then [A.result waiter.accumulator]
      else [] := by
  rw [executeCallbackIfFinished]
  split
  · simp [notCancelled]
  · rfl

end

def returnResult (waiter : BaseWaiter A) (token : A.Token) (args : Args) :
    Option R × BaseWaiter A :=
  if waiter.done then (none, waiter)
  else
    let updated := A.update waiter.accumulator token args
    executeCallbackIfFinished
      { waiter with
        accumulator := updated.2
        done := !updated.1
        pendingCallbacks := if updated.1 then waiter.pendingCallbacks - 1 else 0 }

/-- What a callback of `NewCallback` does. -/
def callCallback (waiter : BaseWaiter A) (callback : Option A.Token) (args : Args) :
    Option R × BaseWaiter A :=
  match callback with
  | none => (none, waiter)
  | some token => waiter.returnResult token args

def finalize (waiter : BaseWaiter A) : Option R × BaseWaiter A :=
  executeCallbackIfFinished { waiter with finalized := true }

def cancel (waiter : BaseWaiter A) : BaseWaiter A :=
  { waiter with cancelled := true }

end BaseWaiter

structure ResultAccumulator (S T : Type) where
  results : List T
  resultStatus : S

/-- The accumulator of a `Waiter`. -/
@[reducible]
def resultAccumulator (S T : Type) [DecidableEq S] [Inhabited T] (successStatus : S) :
    Accumulator (S × T) (S × List T) where
  State := ResultAccumulator S T
  Token := ℕ
  prepareCall accumulator :=
    (accumulator.results.length, { accumulator with results := accumulator.results ++ [default] })
  update accumulator index reply :=
    if reply.1 ≠ successStatus then (false, ⟨[], reply.1⟩)
    else (true, { accumulator with results := accumulator.results.set index reply.2 })
  result accumulator := (accumulator.resultStatus, accumulator.results)

def Waiter.create (S T : Type) [DecidableEq S] [Inhabited T] (successStatus : S) :
    BaseWaiter (resultAccumulator S T successStatus) :=
  BaseWaiter.create (A := resultAccumulator S T successStatus) ⟨[], successStatus⟩

/-- The accumulator of a `CompletionWaiter`. -/
@[reducible]
def completionAccumulator : Accumulator Unit Bool where
  State := Unit
  Token := Bool
  prepareCall _ := (true, ())
  update _ _ _ := (true, ())
  result _ := true

/-- A callback of a waiter, with what it has been called with. -/
structure WaiterCallback {Args R : Type} (A : Accumulator Args R) where
  token : Option A.Token
  reply : Option Args

structure WaiterWorld {Args R : Type} (A : Accumulator Args R) where
  waiter : BaseWaiter A
  callbacks : List (WaiterCallback A)
  /-- What callbacks have been called with, in the order of the calls. -/
  replies : List Args
  /-- What the result callback has been called with. -/
  fired : List R

inductive WaiterEvent (Args : Type) where
  | newCallback
  | call (index : ℕ) (args : Args)
  | finalize
deriving DecidableEq

variable {index : ℕ}

namespace WaiterWorld

variable {Args R : Type} {A : Accumulator Args R}

def create (accumulator : A.State) : WaiterWorld A :=
  ⟨BaseWaiter.create accumulator, [], [], []⟩

/-- A waiter is finalized once and makes no callbacks after that; a callback is called once. -/
def step (world : WaiterWorld A) : WaiterEvent Args → Option (WaiterWorld A)
  | .newCallback =>
    if world.waiter.finalized then none
    else
      some { world with
        waiter := world.waiter.newCallback.2
        callbacks := world.callbacks ++ [⟨world.waiter.newCallback.1, none⟩] }
  | .call index args =>
    match world.callbacks[index]? with
    | some ⟨token, none⟩ =>
      let called := world.waiter.callCallback token args
      some { world with
        waiter := called.2
        callbacks := world.callbacks.set index ⟨token, some args⟩
        replies := world.replies ++ [args]
        fired := world.fired ++ called.1.toList }
    | _ => none
  | .finalize =>
    if world.waiter.finalized then none
    else
      some { world with
        waiter := world.waiter.finalize.2
        fired := world.fired ++ world.waiter.finalize.1.toList }

/-- Every callback has been called. -/
def AllCalled (world : WaiterWorld A) : Prop :=
  ∀ callback ∈ world.callbacks, callback.reply.isSome

instance (world : WaiterWorld A) : Decidable world.AllCalled :=
  inferInstanceAs (Decidable (∀ callback ∈ world.callbacks, callback.reply.isSome))

def outstanding (callbacks : List (WaiterCallback A)) : ℕ :=
  callbacks.countP fun callback => callback.reply.isNone

theorem outstanding_eq_zero {world : WaiterWorld A} :
    outstanding world.callbacks = 0 ↔ world.AllCalled := by
  simp [outstanding, AllCalled, countP_eq_zero, Option.isSome_iff_ne_none]

structure Consistent (world : WaiterWorld A) : Prop where
  notCancelled : world.waiter.cancelled = false
  pending : world.waiter.pendingCallbacks =
    if world.waiter.done then 0 else outstanding world.callbacks
  hasToken : world.waiter.done = false → ∀ callback ∈ world.callbacks, callback.token.isSome
  fired : world.fired =
    if world.waiter.finalized ∧ world.waiter.pendingCallbacks = 0 then
      [A.result world.waiter.accumulator] else []

theorem consistent_create (accumulator : A.State) : (create accumulator).Consistent where
  notCancelled := rfl
  pending := rfl
  hasToken _ := by simp [create]
  fired := by simp [create, BaseWaiter.create]

variable {world next : WaiterWorld A} {events : List (WaiterEvent Args)} {event : WaiterEvent Args}
    {args : Args}

theorem step_newCallback (isStep : world.step .newCallback = some next) :
    world.waiter.finalized = false ∧ next = { world with
        waiter := world.waiter.newCallback.2
        callbacks := world.callbacks ++ [⟨world.waiter.newCallback.1, none⟩] } := by
  obtain ⟨notFinalized, isNext⟩ := Option.ite_none_left_eq_some.mp isStep
  exact ⟨Bool.eq_false_of_not_eq_true notFinalized, (Option.some.inj isNext).symm⟩

theorem step_finalize (isStep : world.step .finalize = some next) : world.waiter.finalized = false ∧
      next = { world with
        waiter := world.waiter.finalize.2
        fired := world.fired ++ world.waiter.finalize.1.toList } := by
  obtain ⟨notFinalized, isNext⟩ := Option.ite_none_left_eq_some.mp isStep
  exact ⟨Bool.eq_false_of_not_eq_true notFinalized, (Option.some.inj isNext).symm⟩

theorem step_call (isStep : world.step (.call index args) = some next) :
    ∃ token, world.callbacks[index]? = some ⟨token, none⟩ ∧ next = { world with
        waiter := (world.waiter.callCallback token args).2
        callbacks := world.callbacks.set index ⟨token, some args⟩
        replies := world.replies ++ [args]
        fired := world.fired ++ (world.waiter.callCallback token args).1.toList } := by
  rw [step] at isStep
  split at isStep
  case h_1 token isCallback => exact ⟨token, isCallback, (Option.some.inj isStep).symm⟩
  case h_2 => simp at isStep

theorem outstanding_call {callbacks : List (WaiterCallback A)}
    {token : Option A.Token} (isCallback : callbacks[index]? = some ⟨token, none⟩) (args : Args) :
    outstanding callbacks = outstanding (callbacks.set index ⟨token, some args⟩) + 1 := by
  obtain ⟨inCallbacks, isCallback⟩ := List.getElem?_eq_some_iff.mp isCallback
  have isOutstanding : 0 < outstanding callbacks :=
    countP_pos_iff.mpr ⟨_, getElem_mem inCallbacks, by simp [isCallback]⟩
  have afterCall : outstanding (callbacks.set index ⟨token, some args⟩) =
      outstanding callbacks - 1 := by
    rw [outstanding, countP_set inCallbacks, isCallback]
    simp [outstanding]
  omega

section

variable (consistent : world.Consistent)
include consistent

theorem consistent_newCallback (isStep : world.step .newCallback = some next) :
    next.Consistent := by
  obtain ⟨notFinalized, rfl⟩ := step_newCallback isStep
  have notFired := consistent.fired
  have pending := consistent.pending
  cases isDone : world.waiter.done with
  | true =>
    have sameWaiter : world.waiter.newCallback = (none, world.waiter) := by
      simp [BaseWaiter.newCallback, isDone]
    rw [sameWaiter]
    exact { consistent with
      pending := by simpa [isDone] using pending
      hasToken := by simp [isDone]
      fired := notFired }
  | false =>
    have newWaiter : world.waiter.newCallback = (some (A.prepareCall world.waiter.accumulator).1,
        { world.waiter with
          pendingCallbacks := world.waiter.pendingCallbacks + 1
          accumulator := (A.prepareCall world.waiter.accumulator).2 }) := by
      simp [BaseWaiter.newCallback, isDone]
    rw [newWaiter]
    exact { consistent with
      pending := by simpa [isDone, outstanding] using pending
      hasToken := by
        intro _ callback inCallbacks
        rcases mem_append.mp inCallbacks with isOld | isNew
        · exact consistent.hasToken isDone callback isOld
        · simp [mem_singleton.mp isNew]
      fired := by simpa [notFinalized] using notFired }

theorem consistent_finalize (isStep : world.step .finalize = some next) : next.Consistent := by
  obtain ⟨notFinalized, rfl⟩ := step_finalize isStep
  have notFired : world.fired = [] := by simpa [notFinalized] using consistent.fired
  constructor
  case notCancelled => simpa [BaseWaiter.finalize] using consistent.notCancelled
  case pending => simpa [BaseWaiter.finalize] using consistent.pending
  case hasToken => simpa [BaseWaiter.finalize] using consistent.hasToken
  case fired => simp [BaseWaiter.finalize, notFired, BaseWaiter.executeCallbackIfFinished_toList,
      consistent.notCancelled]

theorem consistent_call (isStep : world.step (.call index args) = some next) : next.Consistent := by
  obtain ⟨token, isCallback, rfl⟩ := step_call isStep
  have inCallbacks := mem_of_getElem? isCallback
  have hasToken : world.waiter.done = false → ∀ callback ∈ world.callbacks.set index
      ⟨token, some args⟩, callback.token.isSome := by
    intro notDone callback inNext
    rcases mem_or_eq_of_mem_set inNext with isOld | rfl
    · exact consistent.hasToken notDone callback isOld
    · have isSome := consistent.hasToken notDone _ inCallbacks
      exact isSome
  cases isDone : world.waiter.done with
  | true =>
    have sameWaiter : world.waiter.callCallback token args = (none, world.waiter) := by
      cases token with
      | none => rfl
      | some token => simp [BaseWaiter.callCallback, BaseWaiter.returnResult, isDone]
    rw [sameWaiter]
    exact { consistent with
      pending := by simpa [isDone] using consistent.pending
      hasToken
      fired := by simpa using consistent.fired }
  | false =>
    obtain ⟨token, rfl⟩ := Option.isSome_iff_exists.mp (consistent.hasToken isDone _ inCallbacks)
    have fewer := outstanding_call isCallback args
    have pending := consistent.pending
    rw [isDone, if_neg (by simp)] at pending
    have notFired : world.fired = [] := by
      rw [consistent.fired, if_neg]
      omega
    simp only [BaseWaiter.callCallback, BaseWaiter.returnResult, isDone, Bool.false_eq_true,
      if_false]
    constructor
    case notCancelled => simpa using consistent.notCancelled
    case pending =>
      cases isUpdated : (A.update world.waiter.accumulator token args).1 with
      | true =>
        simp
        omega
      | false => simp
    case hasToken => exact fun _ => hasToken isDone
    case fired =>
      simp [notFired, BaseWaiter.executeCallbackIfFinished_toList, consistent.notCancelled]

theorem consistent_step (isStep : world.step event = some next) : next.Consistent := by
  cases event with
  | newCallback => exact consistent_newCallback consistent isStep
  | call index args => exact consistent_call consistent isStep
  | finalize => exact consistent_finalize consistent isStep

end

theorem consistent_events {accumulator : A.State}
    (isRun : runSteps step (create accumulator) events = some world) : world.Consistent :=
  invariant_runSteps Consistent (fun consistent _ isStep => consistent_step consistent isStep)
    (consistent_create accumulator) (eachStep_true events _) isRun

theorem finalized_step (isStep : world.step event = some next) :
    next.waiter.finalized ↔ world.waiter.finalized ∨ event = .finalize := by
  cases event with
  | newCallback =>
    obtain ⟨-, rfl⟩ := step_newCallback isStep
    cases isDone : world.waiter.done <;> simp [BaseWaiter.newCallback, isDone]
  | call index args =>
    obtain ⟨token, -, rfl⟩ := step_call isStep
    cases token with
    | none => simp [BaseWaiter.callCallback]
    | some token => cases isDone : world.waiter.done <;>
        simp [BaseWaiter.callCallback, BaseWaiter.returnResult, isDone]
  | finalize =>
    obtain ⟨-, rfl⟩ := step_finalize isStep
    simp [BaseWaiter.finalize]

theorem finalized_run {final : WaiterWorld A} (isRun : runSteps step world events = some final) :
    final.waiter.finalized ↔ world.waiter.finalized ∨ .finalize ∈ events := by
  induction events generalizing world with
  | nil =>
    cases isRun
    simp
  | cons event events ih =>
    obtain ⟨next, isStep, isRun⟩ := runSteps_cons.mp isRun
    rw [ih isRun, finalized_step isStep, mem_cons, or_assoc, eq_comm (a := event)]

end WaiterWorld

namespace Waiter

variable {S T : Type} [DecidableEq S] [Inhabited T] {successStatus : S}
    {next final : WaiterWorld (resultAccumulator S T successStatus)}
    {events : List (WaiterEvent (S × T))} {reply : S × T}

def world (S T : Type) [DecidableEq S] [Inhabited T] (successStatus : S) :
    WaiterWorld (resultAccumulator S T successStatus) :=
  .create (A := resultAccumulator S T successStatus) ⟨[], successStatus⟩

/-- Before the first error the values are kept in the order of the callbacks. -/
structure Gathers (world : WaiterWorld (resultAccumulator S T successStatus)) : Prop where
  length : world.waiter.accumulator.results.length = world.callbacks.length
  token : ∀ (index : ℕ) (callback : WaiterCallback (resultAccumulator S T successStatus)),
    world.callbacks[index]? = some callback → callback.token = some index
  value : ∀ (index : ℕ) (callback : WaiterCallback (resultAccumulator S T successStatus)),
    world.callbacks[index]? = some callback → ∀ reply ∈ callback.reply,
      world.waiter.accumulator.results[index]? = some reply.2
  resultStatus : world.waiter.accumulator.resultStatus = successStatus
  replies : ∀ reply ∈ world.replies, reply.1 = successStatus
  callbacks : ∀ callback ∈ world.callbacks, ∀ reply ∈ callback.reply, reply ∈ world.replies

structure Failed (world : WaiterWorld (resultAccumulator S T successStatus)) : Prop where
  results : world.waiter.accumulator.results = []
  firstError : ∃ reply, world.replies.find? (fun reply => reply.1 ≠ successStatus) = some reply ∧
    world.waiter.accumulator.resultStatus = reply.1

def Collects (world : WaiterWorld (resultAccumulator S T successStatus)) : Prop :=
  if world.waiter.done then Failed world else Gathers world

theorem collects_create : Collects (world S T successStatus) where
  length := rfl
  token := by simp [world, WaiterWorld.create]
  value := by simp [world, WaiterWorld.create]
  resultStatus := rfl
  replies := by simp [world, WaiterWorld.create]
  callbacks := by simp [world, WaiterWorld.create]

section

variable {world : WaiterWorld (resultAccumulator S T successStatus)}

theorem collects_newCallback (collects : Collects world)
    (isStep : world.step .newCallback = some next) : Collects next := by
  obtain ⟨-, rfl⟩ := WaiterWorld.step_newCallback isStep
  cases isDone : world.waiter.done with
  | true =>
    simp only [Collects, isDone, BaseWaiter.newCallback, if_true] at collects ⊢
    exact { results := collects.results, firstError := collects.firstError }
  | false =>
    simp only [Collects, isDone, BaseWaiter.newCallback, if_false, Bool.false_eq_true] at collects ⊢
    exact { collects with
      length := by simp [collects.length]
      token := by
        intro index callback isCallback
        rcases getElem?_concat_eq_some.mp isCallback with isOld | ⟨rfl, rfl⟩
        · exact collects.token index callback isOld
        · simp [collects.length]
      value := by
        intro index callback isCallback reply isReply
        rcases getElem?_concat_eq_some.mp isCallback with isOld | ⟨rfl, rfl⟩
        · have value := collects.value index callback isOld reply isReply
          simpa [List.getElem?_append_left (List.getElem?_eq_some_iff.mp value).1] using value
        · simp at isReply
      callbacks := by
        intro callback inCallbacks reply isReply
        rcases mem_append.mp inCallbacks with isOld | isNew
        · exact collects.callbacks callback isOld reply isReply
        · simp [mem_singleton.mp isNew] at isReply }

theorem collects_finalize (collects : Collects world)
    (isStep : world.step .finalize = some next) : Collects next := by
  obtain ⟨-, rfl⟩ := WaiterWorld.step_finalize isStep
  simp only [Collects, BaseWaiter.finalize, BaseWaiter.executeCallbackIfFinished_done] at collects ⊢
  split
  case isTrue isDone =>
    rw [if_pos isDone] at collects
    exact {
      results := by simpa using collects.results
      firstError := by simpa using collects.firstError }
  case isFalse notDone =>
    rw [if_neg notDone] at collects
    exact {
      length := by simpa using collects.length
      __ := collects
      value := by simpa using collects.value
      resultStatus := by simpa using collects.resultStatus
      callbacks := collects.callbacks }

theorem Gathers.update (gathers : Gathers world) {token : Option ℕ}
    (isCallback : world.callbacks[index]? = some ⟨token, none⟩) (isOk : reply.1 = successStatus)
    (isAccumulator : next.waiter.accumulator = { world.waiter.accumulator with
        results := world.waiter.accumulator.results.set index reply.2 })
    (isCallbacks : next.callbacks = world.callbacks.set index ⟨token, some reply⟩)
    (isReplies : next.replies = world.replies ++ [reply]) : Gathers next := by
  have inCallbacks := (List.getElem?_eq_some_iff.mp isCallback).1
  have inResults : index < world.waiter.accumulator.results.length := by
    rw [gathers.length]
    exact inCallbacks
  constructor
  case length =>
    rw [isAccumulator, isCallbacks]
    simpa using gathers.length
  case token =>
    intro other callback isOther
    rw [isCallbacks, getElem?_set] at isOther
    split at isOther
    case isTrue same =>
      subst same
      cases isOther
      have isToken := gathers.token index _ isCallback
      exact isToken
    case isFalse => exact gathers.token other callback isOther
  case value =>
    intro other callback isOther received isReceived
    rw [isCallbacks, getElem?_set] at isOther
    rw [isAccumulator]
    simp only [getElem?_set]
    split at isOther
    case isTrue same =>
      subst same
      cases isOther
      cases isReceived
      simp [inResults]
    case isFalse different =>
      rw [if_neg different]
      exact gathers.value other callback isOther received isReceived
  case resultStatus =>
    rw [isAccumulator]
    exact gathers.resultStatus
  case replies =>
    intro other isOther
    rw [isReplies, mem_append, mem_singleton] at isOther
    rcases isOther with isOld | rfl
    · exact gathers.replies other isOld
    · exact isOk
  case callbacks =>
    intro callback isMember received isReceived
    rw [isReplies]
    rw [isCallbacks] at isMember
    rcases mem_or_eq_of_mem_set isMember with isOld | rfl
    · exact mem_append_left _ (gathers.callbacks callback isOld received isReceived)
    · cases isReceived
      simp

theorem find?_append_of_eq_some {α : Type} {condition : α → Bool} {elements others : List α}
    {element : α} (found : elements.find? condition = some element) :
    (elements ++ others).find? condition = some element := by
  rw [find?_append, found, Option.some_or]

theorem collects_call (collects : Collects world)
    (isStep : world.step (.call index reply) = some next) : Collects next := by
  obtain ⟨token, isCallback, rfl⟩ := WaiterWorld.step_call isStep
  cases isDone : world.waiter.done with
  | true =>
    rw [Collects, if_pos isDone] at collects
    have sameWaiter : world.waiter.callCallback token reply = (none, world.waiter) := by
      cases token with
      | none => rfl
      | some token => simp [BaseWaiter.callCallback, BaseWaiter.returnResult, isDone]
    rw [Collects, sameWaiter, if_pos isDone]
    obtain ⟨error, isFirst, isStatus⟩ := collects.firstError
    exact {
      results := collects.results
      firstError := ⟨error, find?_append_of_eq_some isFirst, isStatus⟩ }
  | false =>
    rw [Collects, if_neg (by simp [isDone])] at collects
    obtain rfl := collects.token index _ isCallback
    by_cases isOk : reply.1 = successStatus
    · rw [Collects, if_neg]
      · apply collects.update isCallback isOk
        · simp [BaseWaiter.callCallback, BaseWaiter.returnResult, isDone, isOk]
        · rfl
        · rfl
      · simp [BaseWaiter.callCallback, BaseWaiter.returnResult, isDone, isOk]
    · have noneBefore : world.replies.find? (fun reply => reply.1 ≠ successStatus) = none := by
        simpa using collects.replies
      rw [Collects, if_pos]
      · constructor
        · simp [BaseWaiter.callCallback, BaseWaiter.returnResult, isDone, isOk]
        · use reply
          simp only [find?_append, noneBefore]
          simp [BaseWaiter.callCallback, BaseWaiter.returnResult, isDone, isOk]
      · simp [BaseWaiter.callCallback, BaseWaiter.returnResult, isDone, isOk]

theorem collects_step {event : WaiterEvent (S × T)} (collects : Collects world)
    (isStep : world.step event = some next) : Collects next := by
  cases event with
  | newCallback => exact collects_newCallback collects isStep
  | call index reply => exact collects_call collects isStep
  | finalize => exact collects_finalize collects isStep

end

theorem collects_run
    (isRun : runSteps WaiterWorld.step (world S T successStatus) events = some final) :
    Collects final :=
  invariant_runSteps Collects (fun collects _ isStep => collects_step collects isStep)
    collects_create (eachStep_true events _) isRun

/-- One of the replies is not a success. -/
def HasError (world : WaiterWorld (resultAccumulator S T successStatus)) : Prop :=
  ∃ reply ∈ world.replies, reply.1 ≠ successStatus

theorem Collects.done_iff {world : WaiterWorld (resultAccumulator S T successStatus)}
    (collects : Collects world) : world.waiter.done ↔ HasError world := by
  rw [Collects] at collects
  split at collects
  case isTrue isDone =>
    obtain ⟨error, isFirst, -⟩ := collects.firstError
    refine iff_of_true isDone ⟨error, mem_of_find?_eq_some isFirst, ?_⟩
    simpa using find?_some isFirst
  case isFalse notDone =>
    refine iff_of_false notDone ?_
    rintro ⟨reply, isReply, isError⟩
    exact isError (collects.replies reply isReply)

theorem fires_iff
    (isRun : runSteps WaiterWorld.step (world S T successStatus) events = some final) :
    (final.waiter.finalized ∧ final.waiter.pendingCallbacks = 0) ↔
      .finalize ∈ events ∧ (final.AllCalled ∨ HasError final) := by
  have isFinalized : final.waiter.finalized ↔ .finalize ∈ events := by
    simpa [world, WaiterWorld.create, BaseWaiter.create] using WaiterWorld.finalized_run isRun
  have nonePending : final.waiter.pendingCallbacks = 0 ↔ final.AllCalled ∨ HasError final := by
    rw [(WaiterWorld.consistent_events isRun).pending, ← (collects_run isRun).done_iff,
      ← WaiterWorld.outstanding_eq_zero]
    cases final.waiter.done <;> simp
  rw [isFinalized, nonePending]

/-- All results in the order of the callbacks, or the first error and no results. -/
def ResultOf (world : WaiterWorld (resultAccumulator S T successStatus)) (result : S × List T) :
    Prop :=
  (result.1 = successStatus ↔ ∀ reply ∈ world.replies, reply.1 = successStatus) ∧
    (result.1 = successStatus → world.callbacks.map WaiterCallback.reply =
      result.2.map fun value => some (successStatus, value)) ∧
    (result.1 ≠ successStatus → result.2 = [] ∧
      ∃ reply, world.replies.find? (fun reply => reply.1 ≠ successStatus) = some reply ∧
        result.1 = reply.1)

theorem Failed.result {world : WaiterWorld (resultAccumulator S T successStatus)}
    (failed : Failed world) : ResultOf world
      (world.waiter.accumulator.resultStatus, world.waiter.accumulator.results) := by
  obtain ⟨error, isFirst, isStatus⟩ := failed.firstError
  have isError : error.1 ≠ successStatus := by simpa using find?_some isFirst
  have isReply := mem_of_find?_eq_some isFirst
  rw [ResultOf, isStatus]
  refine ⟨iff_of_false isError fun allOk => isError (allOk error isReply), ?_, ?_⟩
  · intro isOk
    exact absurd isOk isError
  · intro _
    exact ⟨failed.results, error, isFirst, rfl⟩

theorem Gathers.result {world : WaiterWorld (resultAccumulator S T successStatus)}
    (gathers : Gathers world) (allCalled : world.AllCalled) : ResultOf world
      (world.waiter.accumulator.resultStatus, world.waiter.accumulator.results) := by
  refine ⟨iff_of_true gathers.resultStatus gathers.replies, fun _ => ?_, fun isError => ?_⟩
  · apply ext_getElem?
    intro index
    rw [getElem?_map, getElem?_map]
    cases isCallback : world.callbacks[index]? with
    | none =>
      have noResult : world.waiter.accumulator.results[index]? = none := by
        rw [getElem?_eq_none_iff, gathers.length]
        exact getElem?_eq_none_iff.mp isCallback
      rw [noResult]
      rfl
    | some callback =>
      have inCallbacks := mem_of_getElem? isCallback
      obtain ⟨reply, isReply⟩ := Option.isSome_iff_exists.mp (allCalled callback inCallbacks)
      have isOk := gathers.replies reply (gathers.callbacks callback inCallbacks reply isReply)
      rw [gathers.value index callback isCallback reply isReply]
      simp [isReply, ← isOk]
  · exact absurd gathers.resultStatus isError

/-- The result callback is called once when the waiter is finalized and either all callbacks have
been called or an error was returned, and it is not called otherwise.  It gets the values in the
order in which their callbacks were made, or else the first error. -/
theorem fired_run {final : WaiterWorld (resultAccumulator S T successStatus)}
    {events : List (WaiterEvent (S × T))}
    (isRun : runSteps WaiterWorld.step (world S T successStatus) events = some final) :
    (.finalize ∈ events ∧ (final.AllCalled ∨ HasError final) → final.fired.length = 1) ∧
      (¬(.finalize ∈ events ∧ (final.AllCalled ∨ HasError final)) → final.fired = []) ∧
      ∀ result ∈ final.fired, ResultOf final result := by
  have fires := fires_iff isRun
  have fired := (WaiterWorld.consistent_events isRun).fired
  refine ⟨fun due => ?_, fun notDue => ?_, fun result isResult => ?_⟩
  · rw [fired, if_pos (fires.mpr due)]
    rfl
  · rw [fired, if_neg (mt fires.mp notDue)]
  · split at fired
    case isFalse => simp [fired] at isResult
    case isTrue due =>
      rw [fired, mem_singleton] at isResult
      obtain rfl := isResult
      have collects := collects_run isRun
      rw [Collects] at collects
      split at collects
      case isTrue isDone => exact collects.result
      case isFalse notDone =>
        have noError : ¬HasError final := by rwa [← (collects_run isRun).done_iff]
        exact collects.result ((fires.mp due).2.resolve_right noError)

/-- Three callbacks that are called out of order, before `Finalize` and after it. -/
def outOfOrder : List (WaiterEvent (ℕ × ℕ)) :=
  [.newCallback, .newCallback, .call 1 (0, 8), .newCallback, .finalize, .call 2 (0, 9),
    .call 0 (0, 7)]

theorem fired_run_sample :
    (runSteps WaiterWorld.step (world ℕ ℕ 0) outOfOrder).map WaiterWorld.fired =
        some [(0, [7, 8, 9])] ∧
      ((runSteps WaiterWorld.step (world ℕ ℕ 0) outOfOrder).get rfl).fired.length = 1 :=
  ⟨rfl, (fired_run (Option.some_get _).symm).1 ⟨by decide, .inl (by decide)⟩⟩

/-- An error is returned, and the waiter is not finalized. -/
theorem not_fired_on_error :
    ¬∀ (events : List (WaiterEvent (ℕ × ℕ))) (final : WaiterWorld (resultAccumulator ℕ ℕ 0)),
      runSteps WaiterWorld.step (world ℕ ℕ 0) events = some final →
      .finalize ∈ events ∧ final.AllCalled ∨ HasError final → final.fired.length = 1 := by
  intro fires
  have notFired := fires [.newCallback, .call 0 (1, 5)] _ rfl (.inr ⟨(1, 5), by decide, by decide⟩)
  exact absurd notFired (by decide)

end Waiter

end Peridot
