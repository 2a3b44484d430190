import Peridot.MessageQueuePage

/-!
# Obtaining message queues

Calls of `ObtainMessageQueue` look for the token of their queue, and create the queue if they do
not find one.  The ledger commits the transactions one by one, but a queue can have been created
between the lookup of a call and its transaction.
-/

namespace Peridot

open List MessageQueuePage Option

/-- How far an `ObtainMessageQueueCall` has come. -/
inductive ObtainStage where
  /-- `GetQueueTokenCall` gets a snapshot. -/
  | looking
  /-- The snapshot is read, and the answer is on its way. -/
  | found (token : Option Bytes)
  /-- The transaction of a new queue is sent. -/
  | committing
  /-- The transaction is committed, and the answer is on its way. -/
  | committed
  /-- The call is answered with a connection to the queue. -/
  | answered
  /-- `Commit` has failed. -/
  | failed
deriving DecidableEq

/-- `ObtainMessageQueueCall` with its `message_queue_info_`. -/
structure ObtainMessageQueueCall where
  info : MessageQueueInfo
  stage : ObtainStage

structure ObtainWorld where
  page : MessageQueuePage
  manager : MessageQueueManager
  calls : List ObtainMessageQueueCall

inductive ObtainEvent where
  /-- `ObtainMessageQueue`. -/
  | obtain (componentNamespace componentInstanceId queueName : Bytes)
  /-- The lookup of a call reads its snapshot, unless this fails. -/
  | readSnapshot (index : ℕ) (isOk : Bool)
  /-- The lookup of a call is answered.  `GenerateQueueToken` may give a token, and a storage may
  be created from the file of the token. -/
  | answerLookup (index : ℕ) (token : Bytes) (file : Option QueueDocument)
  | commit (index : ℕ)
  | failCommit (index : ℕ)
  | answerCommit (index : ℕ) (file : Option QueueDocument)

namespace ObtainWorld

def initial (page : MessageQueuePage) (manager : MessageQueueManager) : ObtainWorld :=
  ⟨page, manager, []⟩

/-- `Finish`: the call is answered with a connection to the storage of its token. -/
def finish (world : ObtainWorld) (index : ℕ) (info : MessageQueueInfo)
    (file : Option QueueDocument) : ObtainWorld :=
  { world with
    manager := world.manager.getMessageQueueStorage info file
    calls := world.calls.set index ⟨info, .answered⟩ }

/-- The callback of `GetQueueTokenCall`. -/
def onToken (world : ObtainWorld) (index : ℕ) (info : MessageQueueInfo) (found : Option Bytes)
    (token : Bytes) (file : Option QueueDocument) : ObtainWorld :=
  match found with
  | some queueToken => world.finish index { info with queueToken } file
  | none =>
    { world with
      calls := world.calls.set index ⟨{ info with queueToken := token }, .committing⟩ }

def stepCall (world : ObtainWorld) (index : ℕ)
    (next : ObtainMessageQueueCall → Option ObtainWorld) : Option ObtainWorld :=
  (world.calls[index]?).bind next

def step (world : ObtainWorld) : ObtainEvent → Option ObtainWorld
  | .obtain componentNamespace componentInstanceId queueName =>
    some { world with
      calls := world.calls ++
        [⟨⟨componentNamespace, componentInstanceId, queueName, []⟩, .looking⟩] }
  | .readSnapshot index isOk => world.stepCall index fun call =>
    match call.stage with
    | .looking =>
      some { world with
        calls := world.calls.set index { call with
          stage := .found (if isOk then world.page.getQueueToken call.info else none) } }
    | _ => none
  | .answerLookup index token file => world.stepCall index fun call =>
    match call.stage with
    | .found found => some (world.onToken index call.info found token file)
    | _ => none
  | .commit index => world.stepCall index fun call =>
    match call.stage with
    | .committing =>
      some { world with
        page := world.page.putQueue call.info
        calls := world.calls.set index { call with stage := .committed } }
    | _ => none
  | .failCommit index => world.stepCall index fun call =>
    match call.stage with
    | .committing =>
      some { world with calls := world.calls.set index { call with stage := .failed } }
    | _ => none
  | .answerCommit index file => world.stepCall index fun call =>
    match call.stage with
    | .committed => some (world.finish index call.info file)
    | _ => none

/-- All calls for a queue that are answered have the same token, which the ledger records for it. -/
structure Agreed (world : ObtainWorld) : Prop where
  sameToken : ∀ first ∈ world.calls, ∀ second ∈ world.calls, first.stage = .answered →
    second.stage = .answered → first.info.names = second.info.names →
      first.info.queueToken = second.info.queueToken
  recorded : ∀ call ∈ world.calls, call.stage = .answered →
    world.page.getQueueToken call.info = some call.info.queueToken

def NotCreated (world : ObtainWorld) (info : MessageQueueInfo) : Prop :=
  world.page.getQueueToken info = none ∧
    ∀ call ∈ world.calls, call.stage = .committing → call.info.names ≠ info.names
deriving Decidable

/-- A call whose lookup has found no token creates a queue that has not been created since. -/
def CreatesOnce (world : ObtainWorld) : ObtainEvent → Prop
  | .answerLookup index _ _ => ∀ call ∈ world.calls[index]?, call.stage = .found none →
      world.NotCreated call.info
  | _ => True

instance (world : ObtainWorld) : ∀ event, Decidable (world.CreatesOnce event)
  | .answerLookup index _ _ => inferInstanceAs (Decidable (∀ call ∈ world.calls[index]?, _ → _))
  | .obtain _ _ _ | .readSnapshot _ _ | .commit _ | .failCommit _ | .answerCommit _ _ =>
    .isTrue trivial

/-- What a call knows is right: a token that it has found, or committed, is the one that the ledger
records; and a queue that it creates has not been created by any other call. -/
structure Knows (world : ObtainWorld) (index : ℕ) (call : ObtainMessageQueueCall) : Prop where
  found : ∀ token, call.stage = .found (some token) →
    world.page.getQueueToken call.info = some token
  creating : call.stage = .committing → world.page.getQueueToken call.info = none
  alone : call.stage = .committing → ∀ other otherCall, world.calls[other]? = some otherCall →
    otherCall.stage = .committing → otherCall.info.names = call.info.names → other = index
  recorded : call.stage = .committed ∨ call.stage = .answered →
    world.page.getQueueToken call.info = some call.info.queueToken

def Informed (world : ObtainWorld) : Prop :=
  ∀ index call, world.calls[index]? = some call → world.Knows index call

variable {world world' : ObtainWorld} {call : ObtainMessageQueueCall}

theorem Informed.agreed (informed : world.Informed) : world.Agreed := by
  have recorded : ∀ call ∈ world.calls, call.stage = .answered →
      world.page.getQueueToken call.info = some call.info.queueToken := by
    intro call isCall isAnswered
    obtain ⟨index, isIndex⟩ := getElem?_of_mem isCall
    exact (informed index call isIndex).recorded (.inr isAnswered)
  refine ⟨fun first isFirst second isSecond firstAnswered secondAnswered sameNames => ?_, recorded⟩
  have sameRow := recorded first isFirst firstAnswered
  rw [getQueueToken_congr world.page sameNames, recorded second isSecond secondAnswered] at sameRow
  exact (some.inj sameRow).symm

theorem informed_set {index : ℕ}
    (isSet : world'.calls = world.calls.set index call) (knows : world'.Knows index call)
    (othersKnow : ∀ other otherCall, other ≠ index → world.calls[other]? = some otherCall →
      world'.Knows other otherCall) : world'.Informed := by
  intro other otherCall isOther
  rw [isSet] at isOther
  rcases eq_or_ne index other with rfl | differs
  · obtain ⟨_, rfl⟩ : index < world.calls.length ∧ call = otherCall := by
      simpa [getElem?_set] using isOther
    exact knows
  · rw [getElem?_set_ne differs] at isOther
    exact othersKnow other otherCall differs.symm isOther

/-- What the other calls know stays right, unless the call begins to create their queue. -/
theorem Informed.set (informed : world.Informed) {index : ℕ}
    (samePage : world'.page = world.page) (isSet : world'.calls = world.calls.set index call)
    (knows : world'.Knows index call) (notCreated : call.stage = .committing →
      world.NotCreated call.info) : world'.Informed := by
  refine informed_set isSet knows fun other otherCall differs isOther => ?_
  have knewOther := informed other otherCall isOther
  exact {
    found := by
      rw [samePage]
      exact knewOther.found
    creating := by
      rw [samePage]
      exact knewOther.creating
    alone := by
      intro isCreating third thirdCall isThird isCommitting sameNames
      rw [isSet] at isThird
      rcases eq_or_ne index third with rfl | differs'
      · obtain ⟨_, rfl⟩ : index < world.calls.length ∧ call = thirdCall := by
          simpa [getElem?_set] using isThird
        exact absurd sameNames.symm
          ((notCreated isCommitting).2 otherCall (mem_of_getElem? isOther) isCreating)
      · rw [getElem?_set_ne differs'] at isThird
        exact knewOther.alone isCreating third thirdCall isThird isCommitting sameNames
    recorded := by
      rw [samePage]
      exact knewOther.recorded }

theorem Informed.step (informed : world.Informed) {event : ObtainEvent}
    (createsOnce : world.CreatesOnce event) (stepped : world.step event = some world') :
    world'.Informed := by
  cases event with
  | obtain componentNamespace componentInstanceId queueName =>
    cases stepped
    intro index call isCall
    have oldOrLooking : ∀ {other : ℕ} {otherCall : ObtainMessageQueueCall},
        (world.calls ++ [⟨⟨componentNamespace, componentInstanceId, queueName, []⟩,
          .looking⟩])[other]? = some otherCall →
        world.calls[other]? = some otherCall ∨ otherCall.stage = .looking := by
      intro other otherCall isOther
      rw [getElem?_append] at isOther
      split at isOther
      · exact .inl isOther
      · rw [getElem?_singleton] at isOther
        split at isOther
        · cases isOther
          exact .inr rfl
        · cases isOther
    rcases oldOrLooking isCall with isOld | isLooking
    · have knew := informed index call isOld
      exact { knew with
        alone := by
          intro isCreating other otherCall isOther isCommitting sameNames
          rcases oldOrLooking isOther with isOther | isLooking
          · exact knew.alone isCreating other otherCall isOther isCommitting sameNames
          · rw [isLooking] at isCommitting
            cases isCommitting }
    · constructor <;> simp [isLooking]
  | readSnapshot index isOk =>
    obtain ⟨call, isCall, stepped⟩ := bind_eq_some_iff.mp stepped
    split at stepped
    · cases stepped
      refine informed.set rfl rfl ?_ nofun
      refine ⟨fun token isFound => ?_, nofun, nofun, by simp⟩
      cases isOk with
      | false => cases isFound
      | true => injection isFound
    · simp at stepped
  | answerLookup index token file =>
    obtain ⟨call, isCall, stepped⟩ := bind_eq_some_iff.mp stepped
    have knows := informed index call isCall
    split at stepped
    · rename_i found isFound
      cases stepped
      cases found with
      | some queueToken =>
        exact informed.set rfl rfl ⟨nofun, nofun, nofun, fun _ => knows.found _ isFound⟩ nofun
      | none =>
        have notCreated := createsOnce call isCall isFound
        refine informed.set rfl rfl
          ⟨nofun, fun _ => notCreated.1, fun _ other otherCall isOther isCommitting sameNames =>
            ?_, by simp⟩ fun _ => notCreated
        by_contra differs
        have isOld : world.calls[other]? = some otherCall := by
          rwa [← getElem?_set_ne (Ne.symm differs)]
        exact notCreated.2 otherCall (mem_of_getElem? isOld) isCommitting sameNames
    · simp at stepped
  | commit index =>
    obtain ⟨call, isCall, stepped⟩ := bind_eq_some_iff.mp stepped
    have knows := informed index call isCall
    split at stepped
    · rename_i isCommitting
      cases stepped
      refine informed_set rfl ⟨nofun, nofun, nofun, fun _ => ?_⟩ ?_
      · rw [getQueueToken_putQueue, if_pos rfl]
      · intro other otherCall differs isOther
        have knewOther := informed other otherCall isOther
        have otherQueue : ∀ token, world.page.getQueueToken otherCall.info = some token →
            otherCall.info.names ≠ call.info.names := by
          intro token isRecorded sameNames
          rw [getQueueToken_congr world.page sameNames, knows.creating isCommitting] at isRecorded
          cases isRecorded
        refine ⟨fun token isFound => ?_, fun isCreating => ?_, fun isCreating => ?_,
          fun isRecorded => ?_⟩
        · have wasFound := knewOther.found token isFound
          rwa [getQueueToken_putQueue, if_neg (otherQueue token wasFound)]
        · rw [getQueueToken_putQueue, if_neg]
          · exact knewOther.creating isCreating
          · exact fun sameNames =>
              differs (knows.alone isCommitting other otherCall isOther isCreating sameNames)
        · intro third thirdCall isThird thirdCommitting sameNames
          rcases eq_or_ne index third with rfl | differs'
          · obtain ⟨_, rfl⟩ : index < world.calls.length ∧
                ({ call with stage := .committed } : ObtainMessageQueueCall) = thirdCall := by
              simpa [getElem?_set] using isThird
            cases thirdCommitting
          · rw [getElem?_set_ne differs'] at isThird
            exact knewOther.alone isCreating third thirdCall isThird thirdCommitting sameNames
        · have wasRecorded := knewOther.recorded isRecorded
          rwa [getQueueToken_putQueue, if_neg (otherQueue _ wasRecorded)]
    · simp at stepped
  | failCommit index =>
    obtain ⟨call, isCall, stepped⟩ := bind_eq_some_iff.mp stepped
    split at stepped
    · cases stepped
      exact informed.set rfl rfl ⟨nofun, nofun, nofun, by simp⟩ nofun
    · simp at stepped
  | answerCommit index file =>
    obtain ⟨call, isCall, stepped⟩ := bind_eq_some_iff.mp stepped
    have knows := informed index call isCall
    split at stepped
    · rename_i isCommitted
      cases stepped
      exact informed.set rfl rfl
        ⟨nofun, nofun, nofun, fun _ => knows.recorded (.inl isCommitted)⟩ nofun
    · simp at stepped

theorem informed_initial (page : MessageQueuePage) (manager : MessageQueueManager) :
    (initial page manager).Informed := by
  intro index call isCall
  simp [initial] at isCall

/-- If no queue is created after another call has created it, all calls that are answered have the
token that the ledger records. -/
theorem agreed_run (page : MessageQueuePage) (manager : MessageQueueManager)
    {events : List ObtainEvent} {world : ObtainWorld}
    (createsOnce : EachStep step CreatesOnce (initial page manager) events)
    (ran : runSteps step (initial page manager) events = some world) : world.Agreed :=
  Informed.agreed (invariant_runSteps Informed
    (fun informed createsOnce stepped => informed.step createsOnce stepped)
    (informed_initial page manager) createsOnce ran)

/-- A call reads its snapshot when another one has committed the queue. -/
theorem agreed_run_late :
    let events : List ObtainEvent := [.obtain [1] [2] [3], .obtain [1] [2] [3],
      .readSnapshot 0 true, .answerLookup 0 [7] none, .commit 0, .readSnapshot 1 true,
      .answerLookup 1 [8] none, .answerCommit 0 none]
    ∃ world, runSteps step (initial .empty .empty) events = some world ∧
      world.calls = [⟨⟨[1], [2], [3], [7]⟩, .answered⟩, ⟨⟨[1], [2], [3], [7]⟩, .answered⟩] ∧
        world.Agreed := by
  intro events
  refine ⟨_, rfl, rfl, ?_⟩
  exact @agreed_run .empty .empty events _ (by decide) rfl

/-- Two calls find no token before one of them has committed its own. -/
theorem not_agreed_concurrent :
    let events : List ObtainEvent := [.obtain [1] [2] [3], .obtain [1] [2] [3],
      .readSnapshot 0 true, .readSnapshot 1 true, .answerLookup 0 [7] none,
      .answerLookup 1 [8] none, .commit 0, .answerCommit 0 none, .commit 1, .answerCommit 1 none]
    ∃ world, runSteps step (initial .empty .empty) events = some world ∧
      world.calls = [⟨⟨[1], [2], [3], [7]⟩, .answered⟩, ⟨⟨[1], [2], [3], [8]⟩, .answered⟩] ∧
        ¬world.Agreed := by
  intro events
  refine ⟨_, rfl, rfl, fun agreed => ?_⟩
  have same := agreed.sameToken ⟨⟨[1], [2], [3], [7]⟩, .answered⟩ (mem_cons_self ..)
    ⟨⟨[1], [2], [3], [8]⟩, .answered⟩ (mem_cons_of_mem _ (mem_cons_self ..)) rfl rfl rfl
  exact absurd same (by decide)

end ObtainWorld

end Peridot
