import Peridot.MessageQueueManager

/-!
# The maps of the manager of message queues

The tokens, the storages and the watchers of queues stay consistent as long as no watcher is
dropped: `DropWatcher` forgets the token of a queue whose storage exists, and looks for a token
where there is none.
-/

namespace Peridot

open Function OrderedStore MessageQueueManager

/-- The manager of message queues.  `crashed` tells that it has looked for a token that is null, or
that an assertion has failed; `registered` are the watchers that have been registered last and not
dropped since, and whose queues have not been cleared since. -/
structure WatcherWorld where
  manager : MessageQueueManager
  crashed : Bool
  registered : List Bytes → Option ℕ

inductive WatcherEvent where
  | getMessageQueueStorage (info : MessageQueueInfo) (file : Option QueueDocument)
  | clearMessageQueueStorage (info : MessageQueueInfo)
  | registerWatcher (names : List Bytes) (watcher : ℕ)
  | dropWatcher (names : List Bytes)

/-- A token is used for one queue only. -/
def WatcherEvent.BelongsTo (owner : Bytes → List Bytes) : WatcherEvent → Prop
  | getMessageQueueStorage info _ => owner info.queueToken = info.names
  | clearMessageQueueStorage info => owner info.queueToken = info.names
  | _ => True

namespace WatcherWorld

def initial : WatcherWorld :=
  ⟨.empty, false, fun _ => none⟩

def attempt (world : WatcherWorld) (names : List Bytes) (watcher : Option ℕ) :
    Option MessageQueueManager → WatcherWorld
  | some manager => ⟨manager, world.crashed, Function.update world.registered names watcher⟩
  | none => { world with crashed := true }

def step (world : WatcherWorld) : WatcherEvent → Option WatcherWorld
  | .getMessageQueueStorage info file =>
    some { world with manager := world.manager.getMessageQueueStorage info file }
  | .clearMessageQueueStorage info =>
    some { world with
      manager := world.manager.clearMessageQueueStorage info
      registered := Function.update world.registered info.names none }
  | .registerWatcher names watcher =>
    some (world.attempt names (some watcher) (world.manager.registerWatcher names watcher))
  | .dropWatcher names => some (world.attempt names none (world.manager.dropWatcher names))

/-- A queue has a token exactly when the storage of its token exists; the watcher of a queue waits
for the storage or is installed in it, and no other watcher is. -/
structure Consistent (owner : Bytes → List Bytes) (world : WatcherWorld) : Prop where
  notCrashed : world.crashed = false
  hasStorage : ∀ names token, world.manager.messageQueueTokens.get names = some token →
    owner token = names ∧ ∃ storage, world.manager.messageQueues.get token = some storage
  hasToken : ∀ token storage, world.manager.messageQueues.get token = some storage →
    world.manager.messageQueueTokens.get (owner token) = some token
  watched : ∀ names watcher, world.registered names = some watcher →
    world.manager.pendingWatcherCallbacks.get names = some watcher ∨
      ∃ token storage, world.manager.messageQueueTokens.get names = some token ∧
        world.manager.messageQueues.get token = some storage ∧ storage.watcher = some watcher
  notWatched : ∀ names, world.registered names = none →
    world.manager.pendingWatcherCallbacks.get names = none ∧
      ∀ token storage, world.manager.messageQueues.get token = some storage →
        owner token = names → storage.watcher = none
  notPending : ∀ token storage, world.manager.messageQueues.get token = some storage →
    world.manager.pendingWatcherCallbacks.get (owner token) = none

/-- No watcher is dropped, and a queue has one token until it is cleared. -/
def Undropped (world : WatcherWorld) : WatcherEvent → Prop
  | .getMessageQueueStorage info _ =>
    world.manager.messageQueues.get info.queueToken = none →
      world.manager.messageQueueTokens.get info.names = none
  | .clearMessageQueueStorage info =>
    ∀ token ∈ world.manager.messageQueueTokens.get info.names, token = info.queueToken
  | .registerWatcher _ _ => True
  | .dropWatcher _ => False

instance (world : WatcherWorld) : ∀ event, Decidable (world.Undropped event)
  | .getMessageQueueStorage _ _ => inferInstanceAs (Decidable (_ = _ → _ = _))
  | .clearMessageQueueStorage _ => inferInstanceAs (Decidable (∀ token ∈ _, _))
  | .registerWatcher _ _ => .isTrue trivial
  | .dropWatcher _ => .isFalse id

variable {owner : Bytes → List Bytes} {world world' : WatcherWorld}

theorem consistent_initial : initial.Consistent owner where
  notCrashed := rfl
  hasStorage := nofun
  hasToken := nofun
  watched := nofun
  notWatched _ _ := ⟨rfl, nofun⟩
  notPending := nofun

theorem createStorage_get (manager : MessageQueueManager) (info : MessageQueueInfo)
    (file : Option QueueDocument) :
    (∀ token, (manager.createStorage info file).messageQueues.get token =
      if token = info.queueToken then some
        { MessageQueueStorage.new info.queueName info.queueToken file 0 with
          watcher := manager.pendingWatcherCallbacks.get info.names }
      else manager.messageQueues.get token) ∧
    (∀ names, (manager.createStorage info file).messageQueueTokens.get names =
      if names = info.names then some info.queueToken
      else manager.messageQueueTokens.get names) ∧
    ∀ names, (manager.createStorage info file).pendingWatcherCallbacks.get names =
      if names = info.names then none else manager.pendingWatcherCallbacks.get names := by
  unfold createStorage MessageQueueManager.findQueueName
  cases isPending : manager.pendingWatcherCallbacks.get info.names with
  | none =>
    refine ⟨fun token => ?_, fun names => ?_, fun names => ?_⟩
    · by_cases same : token = info.queueToken <;> simp [get_put, same, MessageQueueStorage.new]
    · by_cases same : names = info.names <;> simp [get_put, same]
    · by_cases same : names = info.names <;> simp [same, isPending]
  | some watcher =>
    refine ⟨fun token => ?_, fun names => ?_, fun names => ?_⟩
    · by_cases same : token = info.queueToken <;>
        simp [get_put, same, MessageQueueStorage.registerWatcher]
    · by_cases same : names = info.names <;> simp [get_put, same]
    · by_cases same : names = info.names <;> simp [eraseQueueName, get_delete, same]

section

variable (consistent : world.Consistent owner)
include consistent

section

variable {info : MessageQueueInfo} (belongs : owner info.queueToken = info.names)
include belongs

theorem Consistent.createStorage {file : Option QueueDocument}
    (noToken : world.manager.messageQueueTokens.get info.names = none) :
    Consistent owner { world with manager := world.manager.createStorage info file } := by
  obtain ⟨queues, tokens, pending⟩ := createStorage_get world.manager info file
  constructor
  · exact consistent.notCrashed
  · intro names token isToken
    simp only [tokens, queues] at isToken ⊢
    split at isToken
    · rename_i same
      cases isToken
      exact ⟨belongs.trans same.symm, _, if_pos rfl⟩
    · obtain ⟨isOwner, storage, isStorage⟩ := consistent.hasStorage names token isToken
      refine ⟨isOwner, ?_⟩
      split
      · exact ⟨_, rfl⟩
      · exact ⟨storage, isStorage⟩
  · intro token storage isStorage
    simp only [tokens, queues] at isStorage ⊢
    split at isStorage
    · rename_i same
      rw [same, if_pos belongs]
    · have hasToken := consistent.hasToken token storage isStorage
      rw [if_neg, hasToken]
      rintro same
      rw [same, noToken] at hasToken
      cases hasToken
  · intro names watcher isRegistered
    simp only [tokens, queues, pending]
    by_cases same : names = info.names
    · subst same
      rcases consistent.watched _ watcher isRegistered with isPending | ⟨token, _, isToken, _⟩
      · exact .inr ⟨info.queueToken, _, if_pos rfl, if_pos rfl, isPending⟩
      · exact nomatch noToken.symm.trans isToken
    · rcases consistent.watched names watcher isRegistered with
        isPending | ⟨token, storage, isToken, isStorage, isWatcher⟩
      · exact .inl ((if_neg same).trans isPending)
      · refine .inr ⟨token, storage, (if_neg same).trans isToken, ?_, isWatcher⟩
        rw [if_neg, isStorage]
        rintro rfl
        exact same ((consistent.hasStorage names _ isToken).1.symm.trans belongs)
  · intro names notRegistered
    obtain ⟨notPending, notInstalled⟩ := consistent.notWatched names notRegistered
    simp only [queues, pending]
    refine ⟨by split <;> [rfl; exact notPending], fun token storage isStorage isOwner => ?_⟩
    split at isStorage
    · rename_i same
      cases isStorage
      rw [same, belongs] at isOwner
      subst isOwner
      exact notPending
    · exact notInstalled token storage isStorage isOwner
  · intro token storage isStorage
    simp only [queues, pending] at isStorage ⊢
    split at isStorage
    · rename_i same
      rw [same, if_pos belongs]
    · split
      · rfl
      · exact consistent.notPending token storage isStorage

theorem Consistent.clear
    (isToken : ∀ token ∈ world.manager.messageQueueTokens.get info.names, token = info.queueToken) :
    Consistent owner { world with
      manager := world.manager.clearMessageQueueStorage info
      registered := update world.registered info.names none } := by
  constructor
  · exact consistent.notCrashed
  · intro names token isNamed
    simp only [clearMessageQueueStorage, eraseQueueName, get_delete] at isNamed ⊢
    split at isNamed
    · cases isNamed
    · rename_i differs
      obtain ⟨isOwner, storage, isStorage⟩ := consistent.hasStorage names token isNamed
      refine ⟨isOwner, storage, ?_⟩
      rw [if_neg, isStorage]
      rintro rfl
      exact differs (isOwner.symm.trans belongs)
  · intro token storage isStorage
    simp only [clearMessageQueueStorage, eraseQueueName, get_delete] at isStorage ⊢
    split at isStorage
    · cases isStorage
    · rename_i differs
      have hasToken := consistent.hasToken token storage isStorage
      rw [if_neg, hasToken]
      intro same
      exact differs (isToken token (same ▸ hasToken))
  · intro names watcher isRegistered
    rcases eq_or_ne names info.names with rfl | differs
    · simp at isRegistered
    · simp only [clearMessageQueueStorage, eraseQueueName, get_delete, if_neg differs]
      simp only [update_of_ne differs] at isRegistered
      rcases consistent.watched names watcher isRegistered with
        isPending | ⟨token, storage, isNamed, isStorage, isWatcher⟩
      · exact .inl isPending
      · refine .inr ⟨token, storage, isNamed, ?_, isWatcher⟩
        rw [if_neg, isStorage]
        rintro rfl
        exact differs ((consistent.hasStorage names _ isNamed).1.symm.trans belongs)
  · intro names notRegistered
    simp only [clearMessageQueueStorage, eraseQueueName, get_delete]
    rcases eq_or_ne names info.names with rfl | differs
    · refine ⟨if_pos rfl, fun token storage isStorage isOwner => ?_⟩
      split at isStorage
      · cases isStorage
      · rename_i differs
        have hasToken := consistent.hasToken token storage isStorage
        exact absurd (isToken token (isOwner ▸ hasToken)) differs
    · simp only [update_of_ne differs] at notRegistered
      obtain ⟨notPending, notInstalled⟩ := consistent.notWatched names notRegistered
      refine ⟨(if_neg differs).trans notPending, fun token storage isStorage isOwner => ?_⟩
      split at isStorage
      · cases isStorage
      · exact notInstalled token storage isStorage isOwner
  · intro token storage isStorage
    simp only [clearMessageQueueStorage, eraseQueueName, get_delete] at isStorage ⊢
    split at isStorage
    · cases isStorage
    · split
      · rfl
      · exact consistent.notPending token storage isStorage

end

theorem Consistent.registerWatcher (names : List Bytes) (watcher : ℕ) :
    Consistent owner (world.attempt names (some watcher)
      (world.manager.registerWatcher names watcher)) := by
  unfold MessageQueueManager.registerWatcher MessageQueueManager.findQueueName
  cases isNamed : world.manager.messageQueueTokens.get names with
  | none =>
    constructor
    · exact consistent.notCrashed
    · exact consistent.hasStorage
    · exact consistent.hasToken
    · intro other watcher' isRegistered
      simp only [attempt, get_put] at isRegistered ⊢
      rcases eq_or_ne other names with rfl | differs
      · simp only [update_self] at isRegistered
        exact .inl ((if_pos rfl).trans isRegistered)
      · simp only [update_of_ne differs] at isRegistered
        rw [if_neg differs]
        exact consistent.watched other watcher' isRegistered
    · intro other notRegistered
      simp only [attempt, get_put] at notRegistered ⊢
      rcases eq_or_ne other names with rfl | differs
      · simp at notRegistered
      · simp only [update_of_ne differs] at notRegistered
        rw [if_neg differs]
        exact consistent.notWatched other notRegistered
    · intro token storage isStorage
      simp only [attempt, get_put]
      rw [if_neg]
      · exact consistent.notPending token storage isStorage
      · rintro rfl
        rw [consistent.hasToken token storage isStorage] at isNamed
        cases isNamed
  | some token =>
    obtain ⟨isOwner, storage, isStorage⟩ := consistent.hasStorage names token isNamed
    simp only [isStorage, Option.map_some, attempt]
    constructor
    · exact consistent.notCrashed
    · intro other token' isNamed'
      obtain ⟨isOwner', storage', isStorage'⟩ := consistent.hasStorage other token' isNamed'
      refine ⟨isOwner', ?_⟩
      simp only [get_put]
      split
      · exact ⟨_, rfl⟩
      · exact ⟨storage', isStorage'⟩
    · intro token' storage' isStorage'
      simp only [get_put] at isStorage'
      split at isStorage'
      · rename_i same
        rw [same, isOwner, isNamed]
      · exact consistent.hasToken token' storage' isStorage'
    · intro other watcher' isRegistered
      rcases eq_or_ne other names with rfl | differs
      · simp only [update_self] at isRegistered
        cases isRegistered
        exact .inr ⟨token, storage.registerWatcher watcher, isNamed, by
          rw [get_put, if_pos rfl], rfl⟩
      · simp only [update_of_ne differs] at isRegistered
        refine (consistent.watched other watcher' isRegistered).imp_right ?_
        rintro ⟨token', storage', isNamed', isStorage', isWatcher'⟩
        refine ⟨token', storage', isNamed', ?_, isWatcher'⟩
        rw [get_put, if_neg, isStorage']
        rintro rfl
        exact differs ((consistent.hasStorage other _ isNamed').1.symm.trans isOwner)
    · intro other notRegistered
      rcases eq_or_ne other names with rfl | differs
      · simp at notRegistered
      · simp only [update_of_ne differs] at notRegistered
        obtain ⟨notPending, notInstalled⟩ := consistent.notWatched other notRegistered
        refine ⟨notPending, fun token' storage' isStorage' isOwner' => ?_⟩
        simp only [get_put] at isStorage'
        split at isStorage'
        · rename_i same
          rw [same] at isOwner'
          exact absurd (isOwner'.symm.trans isOwner) differs
        · exact notInstalled token' storage' isStorage' isOwner'
    · intro token' storage' isStorage'
      simp only [get_put] at isStorage'
      split at isStorage'
      · rename_i same
        rw [same]
        exact consistent.notPending token storage isStorage
      · exact consistent.notPending token' storage' isStorage'

theorem Consistent.step {event : WatcherEvent}
    (belongs : event.BelongsTo owner) (undropped : world.Undropped event)
    (stepped : world.step event = some world') : world'.Consistent owner := by
  cases event with
  | getMessageQueueStorage info file =>
    cases stepped
    simp only [getMessageQueueStorage]
    cases isStorage : world.manager.messageQueues.get info.queueToken with
    | some storage => exact consistent
    | none => exact consistent.createStorage belongs (undropped isStorage)
  | clearMessageQueueStorage info =>
    cases stepped
    exact consistent.clear belongs undropped
  | registerWatcher names watcher =>
    cases stepped
    exact consistent.registerWatcher names watcher
  | dropWatcher names => exact undropped.elim

end

/-- If no watcher is dropped, and each queue keeps its token while its storage exists, the maps of
the manager are consistent. -/
theorem consistent_run (owner : Bytes → List Bytes) {events : List WatcherEvent}
    {world : WatcherWorld} (belong : ∀ event ∈ events, event.BelongsTo owner)
    (undropped : EachStep step Undropped initial events)
    (ran : runSteps step initial events = some world) : world.Consistent owner :=
  invariant_runSteps (Consistent owner)
    (fun consistent allowed stepped => consistent.step allowed.1 allowed.2 stepped)
    consistent_initial ((eachStep_of_forall belong initial).and undropped) ran

def sampleQueue : MessageQueueInfo :=
  ⟨ascii ['n'], ascii ['i'], ascii ['q'], ascii ['t']⟩

/-- A watcher waits for its queue, which is created and cleared. -/
theorem consistent_run_cleared :
    let events : List WatcherEvent := [.registerWatcher sampleQueue.names 7,
      .getMessageQueueStorage sampleQueue none, .registerWatcher sampleQueue.names 8,
      .clearMessageQueueStorage sampleQueue]
    ∃ world, runSteps step initial events = some world ∧
      world.Consistent fun _ => sampleQueue.names := by
  intro events
  refine ⟨_, rfl, ?_⟩
  exact @consistent_run (fun _ => sampleQueue.names) events _
    (by simp [events, WatcherEvent.BelongsTo]) (by decide) rfl

/-- Dropping a watcher takes the token from a queue with a storage, and leaves the watcher there;
without a storage it looks for the token that is null. -/
theorem not_consistent_dropped :
    let created : List WatcherEvent := [.getMessageQueueStorage sampleQueue none,
      .registerWatcher sampleQueue.names 7, .dropWatcher sampleQueue.names]
    let missing : List WatcherEvent := [.dropWatcher sampleQueue.names]
    (∃ world, runSteps step initial created = some world ∧
      world.manager.messageQueueTokens.get sampleQueue.names = none ∧
        ((world.manager.messageQueues.get sampleQueue.queueToken).bind
          MessageQueueStorage.watcher) = some 7 ∧
        ∀ owner, owner sampleQueue.queueToken = sampleQueue.names → ¬world.Consistent owner) ∧
      ∃ world, runSteps step initial missing = some world ∧ world.crashed ∧
        ∀ owner, ¬world.Consistent owner := by
  intro created missing
  refine ⟨⟨_, rfl, rfl, rfl, fun owner isOwner consistent => ?_⟩,
    ⟨_, rfl, rfl, fun owner consistent => absurd consistent.notCrashed (by decide)⟩⟩
  have hasToken := consistent.hasToken sampleQueue.queueToken _ rfl
  rw [isOwner] at hasToken
  exact absurd hasToken (by decide)

end WatcherWorld

end Peridot
