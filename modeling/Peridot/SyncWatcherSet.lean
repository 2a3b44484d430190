import Peridot.CallList
import Peridot.StepRun
import Peridot.SyncState

/-!
# Watchers of the synchronization state

`SyncWatcherSet` tells its watchers the state of the synchronization.  A watcher that has not
acknowledged a state is told the next one later, and misses those between.
-/

namespace Peridot

open List

inductive SyncState where
  | idle
  | pending
  | inProgress
  | error

def DownloadSyncState.convertToSyncState : DownloadSyncState → SyncState
  | stopped => .idle
  | backlog => .inProgress
  | temporaryError => .pending
  | settingRemoteWatcher => .inProgress
  | idle => .idle
  | inProgress => .inProgress
  | permanentError => .error

def UploadSyncState.convertToSyncState : UploadSyncState → SyncState
  | stopped => .idle
  | setup => .idle
  | idle => .idle
  | pending => .pending
  | waitTooManyLocalHeads => .pending
  | waitRemoteDownload => .pending
  | temporaryError => .pending
  | inProgress => .inProgress
  | permanentError => .error

/-- What `SyncStateChanged` tells of a state. -/
def SyncStateContainer.told (state : SyncStateContainer) : SyncState × SyncState :=
  (state.download.convertToSyncState, state.upload.convertToSyncState)

/-- A watcher of the set, with the calls of its client: what they told, how many of them are not
acknowledged, and how many states the set had been in before the watcher was added. -/
structure SyncWatcherContainer where
  notificationInProgress : Bool
  pending : SyncStateContainer
  last : SyncStateContainer
  received : List (SyncState × SyncState)
  outstanding : ℕ
  added : ℕ

namespace SyncWatcherContainer

def new (added : ℕ) : SyncWatcherContainer where
  notificationInProgress := false
  pending := .initial
  last := .initial
  received := []
  outstanding := 0
  added := added

def send (watcher : SyncWatcherContainer) : SyncWatcherContainer :=
  { watcher with
    notificationInProgress := true
    last := watcher.pending
    received := watcher.received ++ [watcher.pending.told]
    outstanding := watcher.outstanding + 1 }

def sendIfPending (watcher : SyncWatcherContainer) : SyncWatcherContainer :=
  if watcher.notificationInProgress = true ∨ watcher.last = watcher.pending then watcher
  else watcher.send

def start (watcher : SyncWatcherContainer) (baseState : SyncStateContainer) :
    SyncWatcherContainer :=
  { watcher with pending := baseState }.send

def notify (watcher : SyncWatcherContainer) (syncState : SyncStateContainer) :
    SyncWatcherContainer :=
  if syncState = watcher.pending then watcher
  else { watcher with pending := syncState }.sendIfPending

/-- The callback of the client's oldest call. -/
def acknowledge (watcher : SyncWatcherContainer) : SyncWatcherContainer :=
  { watcher with
    notificationInProgress := false
    outstanding := watcher.outstanding - 1 }.sendIfPending

end SyncWatcherContainer

/-- The set, with the states it has been in before the current one. -/
structure SyncWatcherSet where
  current : SyncStateContainer
  watchers : List SyncWatcherContainer
  earlier : List SyncStateContainer

inductive SyncWatcherAction where
  | addSyncWatcher
  | notify (syncState : SyncStateContainer)
  | acknowledge (index : ℕ)
  | disconnect (index : ℕ)

namespace SyncWatcherSet

def new : SyncWatcherSet where
  current := .initial
  watchers := []
  earlier := []

def addSyncWatcher (set : SyncWatcherSet) : SyncWatcherSet :=
  { set with
    watchers := set.watchers ++
      [(SyncWatcherContainer.new set.earlier.length).start set.current] }

def notify (set : SyncWatcherSet) (syncState : SyncStateContainer) : SyncWatcherSet :=
  if set.current = syncState then set
  else
    { current := syncState
      watchers := set.watchers.map (·.notify syncState)
      earlier := set.earlier ++ [set.current] }

def step (set : SyncWatcherSet) : SyncWatcherAction → Option SyncWatcherSet
  | .addSyncWatcher => some set.addSyncWatcher
  | .notify syncState => some (set.notify syncState)
  | .acknowledge index => do
    let watcher ← set.watchers[index]?
    if watcher.outstanding = 0 then none
    else some { set with watchers := set.watchers.set index watcher.acknowledge }
  | .disconnect index => some { set with watchers := set.watchers.eraseIdx index }

/-- The states of the set since a watcher was added. -/
def since (set : SyncWatcherSet) (watcher : SyncWatcherContainer) : List SyncStateContainer :=
  (set.earlier ++ [set.current]).drop watcher.added

end SyncWatcherSet

/-- What holds of a watcher while the set goes through `states`, the last of which is `current`. -/
structure SyncWatcherContainer.Told (watcher : SyncWatcherContainer)
    (states : List SyncStateContainer) (current : SyncStateContainer) : Prop where
  isPending : watcher.pending = current
  outstanding_eq : watcher.outstanding = if watcher.notificationInProgress = true then 1 else 0
  settled : watcher.notificationInProgress = false → watcher.last = current
  isSent : ∃ sent, watcher.received = (sent ++ [watcher.last]).map (·.told) ∧
    (sent ++ [watcher.last]).Sublist states ∧ (sent ++ [watcher.last]).head? = states.head?

namespace SyncWatcherContainer

variable {watcher : SyncWatcherContainer} {states : List SyncStateContainer}
  {current : SyncStateContainer}

/-- A state that a watcher was not told last is told after all that it was told. -/
theorem exists_sent_send {sent : List SyncStateContainer} {last : SyncStateContainer}
    (sublist : (sent ++ [last]).Sublist (states ++ [current])) (differs : last ≠ current)
    (sameHead : (sent ++ [last]).head? = (states ++ [current]).head?) :
    (sent ++ [last] ++ [current]).Sublist (states ++ [current]) ∧
      (sent ++ [last] ++ [current]).head? = (states ++ [current]).head? := by
  constructor
  · obtain ⟨first, second, split, firstSub, secondSub⟩ := sublist_append_iff.mp sublist
    rcases sublist_singleton.mp secondSub with rfl | rfl
    · rw [append_nil] at split
      exact (split ▸ firstSub).append_right [current]
    · have same := congrArg getLast? split
      simp only [getLast?_concat, Option.some.injEq] at same
      exact absurd same differs
  · rw [← sameHead]
    cases sent <;> rfl

/-- `SendIfPending` settles a watcher to which nothing is being sent. -/
theorem told_sendIfPending (isPending : watcher.pending = current)
    (outstanding_eq : watcher.outstanding = if watcher.notificationInProgress = true then 1 else 0)
    (isSent : ∃ sent, watcher.received = (sent ++ [watcher.last]).map (·.told) ∧
      (sent ++ [watcher.last]).Sublist (states ++ [current]) ∧
      (sent ++ [watcher.last]).head? = (states ++ [current]).head?) :
    watcher.sendIfPending.Told (states ++ [current]) current := by
  rw [sendIfPending]
  split
  · rename_i waits
    refine ⟨isPending, outstanding_eq, fun notSent => ?_, isSent⟩
    rcases waits with isProgress | same
    · simp [notSent] at isProgress
    · exact same.trans isPending
  · rename_i sends
    rw [not_or, isPending] at sends
    obtain ⟨sent, received, sublist, sameHead⟩ := isSent
    obtain ⟨newSublist, newHead⟩ := exists_sent_send sublist sends.2 sameHead
    refine ⟨isPending, ?_, (nomatch ·), sent ++ [watcher.last], ?_⟩
    · simp [send, outstanding_eq, sends.1]
    · simp only [send, isPending]
      exact ⟨by simp [received], newSublist, newHead⟩

theorem told_start (added : ℕ) (current : SyncStateContainer) :
    ((new added).start current).Told [current] current where
  isPending := rfl
  outstanding_eq := rfl
  settled notSent := by cases notSent
  isSent := ⟨[], rfl, .refl _, rfl⟩

theorem Told.notify (told : watcher.Told states current) {syncState : SyncStateContainer}
    (changes : current ≠ syncState) :
    (watcher.notify syncState).Told (states ++ [syncState]) syncState := by
  obtain ⟨sent, received, sublist, sameHead⟩ := told.isSent
  rw [SyncWatcherContainer.notify, if_neg fun same => changes (told.isPending.symm.trans same.symm)]
  refine told_sendIfPending rfl told.outstanding_eq
    ⟨sent, received, sublist.trans (sublist_append_left _ _), ?_⟩
  cases states with
  | nil => simp at sublist
  | cons first states => exact sameHead

theorem Told.acknowledge (told : watcher.Told (states ++ [current]) current)
    (called : watcher.outstanding ≠ 0) :
    watcher.acknowledge.Told (states ++ [current]) current := by
  have inProgress : watcher.notificationInProgress = true := by
    by_contra notSent
    exact called (told.outstanding_eq.trans (if_neg notSent))
  refine told_sendIfPending told.isPending ?_ told.isSent
  simp [told.outstanding_eq, inProgress]

end SyncWatcherContainer

namespace SyncWatcherSet

/-- Each watcher was added when the set was in one of its states. -/
def Tells (set : SyncWatcherSet) : Prop :=
  ∀ watcher ∈ set.watchers, watcher.added ≤ set.earlier.length ∧
    watcher.Told (set.since watcher) set.current

variable {set next final : SyncWatcherSet} {action : SyncWatcherAction}

theorem since_eq {watcher : SyncWatcherContainer} (added : watcher.added ≤ set.earlier.length) :
    set.since watcher = set.earlier.drop watcher.added ++ [set.current] :=
  drop_append_of_le_length added

theorem Tells.notify (tells : set.Tells) (syncState : SyncStateContainer) :
    (set.notify syncState).Tells := by
  rw [SyncWatcherSet.notify]
  split
  · exact tells
  · rename_i changes
    intro watcher inSet
    obtain ⟨before, inBefore, rfl⟩ := mem_map.mp inSet
    obtain ⟨added, told⟩ := tells before inBefore
    have sameAdded : (before.notify syncState).added = before.added := by
      unfold SyncWatcherContainer.notify SyncWatcherContainer.sendIfPending
      split
      · rfl
      · split <;> rfl
    have later : before.added ≤ (set.earlier ++ [set.current]).length := by
      simpa using Nat.le_succ_of_le added
    refine ⟨sameAdded ▸ later, ?_⟩
    rw [since, sameAdded, drop_append_of_le_length later]
    exact told.notify changes

theorem Tells.step (tells : set.Tells) (isStep : set.step action = some next) : next.Tells := by
  cases action with
  | addSyncWatcher =>
    cases isStep
    refine forall_mem_concat.mpr ⟨tells, Nat.le_refl _, ?_⟩
    have states : (set.earlier ++ [set.current]).drop set.earlier.length = [set.current] :=
      drop_left
    have told := SyncWatcherContainer.told_start set.earlier.length set.current
    rw [← states] at told
    exact told
  | notify syncState =>
    cases isStep
    exact tells.notify syncState
  | acknowledge index =>
    obtain ⟨watcher, isWatcher, answered⟩ := Option.bind_eq_some_iff.mp isStep
    obtain ⟨called, isNext⟩ := Option.ite_none_left_eq_some.mp answered
    cases isNext
    intro other inSet
    rcases mem_or_eq_of_mem_set inSet with inSet | rfl
    · exact tells other inSet
    · obtain ⟨added, told⟩ := tells watcher (mem_of_getElem? isWatcher)
      have sameAdded : watcher.acknowledge.added = watcher.added := by
        unfold SyncWatcherContainer.acknowledge SyncWatcherContainer.sendIfPending
        split <;> rfl
      rw [since_eq added] at told
      refine ⟨sameAdded ▸ added, ?_⟩
      rw [since, sameAdded, drop_append_of_le_length added]
      exact told.acknowledge called
  | disconnect index =>
    cases isStep
    exact fun watcher inSet => tells watcher (mem_of_mem_eraseIdx inSet)

end SyncWatcherSet

end Peridot
