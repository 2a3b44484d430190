import Peridot.PageSync

/-!
# Watchers of the device set

`DeviceSetImpl::SetWatcher` and the watch of `CloudDeviceSetImpl`.  All calls share one watcher and
two flags, while each waits for its own authentication token and then has the watch to itself.
-/

namespace Peridot

open List Option

inductive CloudDeviceSetStatus where
  | ok
  | erased
  | networkError

inductive DeviceSetWatcherCall where
  | onCloudErased
  | onNetworkError

/-- The answer to `GetFirebaseToken`. -/
inductive TokenReply where
  | pending
  | failed
  | given
deriving DecidableEq

/-- A call of `SetWatcher`: the calls of its callback, the events that its watch has received, the
updates of the timestamp, and the calls of its watcher with the `SetWatcher` call whose watch has
reported them. -/
structure SetWatcherCall where
  fingerprint : Bytes
  token : TokenReply
  answers : List CloudStatus
  events : ℕ
  timestampUpdates : List (Bytes × Bytes)
  notified : List (DeviceSetWatcherCall × ℕ)

/-- `watch_callback_`: the `SetWatcher` call, and the token that was used. -/
structure FingerprintWatch where
  call : ℕ
  authToken : Bytes

/-- `DeviceSetImpl` with its `CloudDeviceSetImpl`; `watcher` is the call that has set it. -/
structure DeviceSet where
  calls : List SetWatcherCall
  watcher : Option ℕ
  setWatcherCallbackCalled : Bool
  timestampUpdateRequestSent : Bool
  watch : Option FingerprintWatch

inductive DeviceSetEvent where
  | setWatcher (fingerprint : Bytes)
  | firebaseToken (call : ℕ) (authToken : Option Bytes)
  | put (isNull : Bool)
  | patch
  | cancel
  | authRevoked
  | malformedEvent
  | connectionError

namespace SetWatcherCall

def start (fingerprint : Bytes) : SetWatcherCall :=
  ⟨fingerprint, .pending, [], 0, [], []⟩

def answer (status : CloudStatus) (call : SetWatcherCall) : SetWatcherCall :=
  { call with answers := call.answers ++ [status] }

def receive (call : SetWatcherCall) : SetWatcherCall :=
  { call with events := call.events + 1 }

def notify (watcherCall : DeviceSetWatcherCall) (reporter : ℕ) (call : SetWatcherCall) :
    SetWatcherCall :=
  { call with notified := call.notified ++ [(watcherCall, reporter)] }

def updateTimestamp (authToken : Bytes) (call : SetWatcherCall) : SetWatcherCall :=
  { call with timestampUpdates := call.timestampUpdates ++ [(authToken, call.fingerprint)] }

end SetWatcherCall

namespace DeviceSet

def start : DeviceSet :=
  ⟨[], none, false, false, none⟩

def atCall (set : DeviceSet) (call : ℕ) (change : SetWatcherCall → SetWatcherCall) : DeviceSet :=
  { set with calls := set.calls.modify call change }

def setWatcher (set : DeviceSet) (fingerprint : Bytes) : DeviceSet :=
  { set with
    calls := set.calls ++ [.start fingerprint]
    watcher := some set.calls.length
    setWatcherCallbackCalled := false
    timestampUpdateRequestSent := false }

def onFirebaseToken (set : DeviceSet) (call : ℕ) : Option Bytes → DeviceSet
  | none =>
    { set.atCall call fun record => { record with token := .failed }.answer .authError with
      setWatcherCallbackCalled := true }
  | some authToken =>
    { set.atCall call fun record => { record with token := .given } with
      watch := some ⟨call, authToken⟩ }

def callWatcher (set : DeviceSet) (watcherCall : DeviceSetWatcherCall) (reporter : ℕ) :
    DeviceSet :=
  match set.watcher with
  | none => set
  | some watcher => set.atCall watcher (.notify watcherCall reporter)

def answerOnce (set : DeviceSet) (call : ℕ) (status : CloudStatus) : DeviceSet :=
  if set.setWatcherCallbackCalled then set
  else { set.atCall call (.answer status) with setWatcherCallbackCalled := true }

def updateTimestampOnce (set : DeviceSet) (watch : FingerprintWatch) : DeviceSet :=
  if set.timestampUpdateRequestSent then set
  else { set.atCall watch.call (.updateTimestamp watch.authToken) with
    timestampUpdateRequestSent := true }

/-- The callback of `WatchFingerprint`. -/
def watchCallback (set : DeviceSet) (watch : FingerprintWatch) : CloudDeviceSetStatus → DeviceSet
  | .ok => (set.updateTimestampOnce watch).answerOnce watch.call .ok
  | .erased => (set.callWatcher .onCloudErased watch.call).answerOnce watch.call .notFound
  | .networkError =>
    (set.callWatcher .onNetworkError watch.call).answerOnce watch.call .networkError

def resetWatcher (set : DeviceSet) : DeviceSet :=
  { set with watch := none }

/-- What `CloudDeviceSetImpl` does with an event of its watch. -/
def onWatchEvent (set : DeviceSet) (watch : FingerprintWatch) : DeviceSetEvent → DeviceSet
  | .put true => (set.watchCallback watch .erased).resetWatcher
  | .put false => set.watchCallback watch .ok
  | .authRevoked | .connectionError => (set.watchCallback watch .networkError).resetWatcher
  | _ => set

/-- A step. Tokens come for the calls that wait for one, and events while there is a watch. -/
def step (set : DeviceSet) (event : DeviceSetEvent) : Option DeviceSet :=
  match event with
  | .setWatcher fingerprint => some (set.setWatcher fingerprint)
  | .firebaseToken call authToken =>
    if set.calls[call]?.map SetWatcherCall.token = some .pending then
      some (set.onFirebaseToken call authToken)
    else none
  | event =>
    set.watch.map fun watch => (set.atCall watch.call .receive).onWatchEvent watch event

end DeviceSet

/-- A callback is called at most once, and has been once the token request has failed or the watch
has received an event; the timestamp is updated at most once; the watcher is told what its own watch
reports. -/
structure SetWatcherCall.Served (index : ℕ) (call : SetWatcherCall) : Prop where
  atMostOnce : call.answers.length ≤ 1
  once : call.token = .failed ∨ 0 < call.events → call.answers.length = 1
  timestamp : call.timestampUpdates.length ≤ 1
  own : ∀ notice ∈ call.notified, notice.2 = index

/-- All calls of `SetWatcher` are served. -/
def ServesWatchers (set : DeviceSet) : Prop :=
  ∀ index : ℕ, ∀ call ∈ set.calls[index]?, call.Served index

/-- The flags are those of the call whose watch receives the event, and so is the watcher at an
error. A watch does not start with an event that is not implemented. -/
def DeviceSet.OwnFlags (set : DeviceSet) : DeviceSetEvent → Prop
  | .setWatcher _ | .firebaseToken _ _ => True
  | .put false => ∀ watch ∈ set.watch, ∀ call ∈ set.calls[watch.call]?,
      (set.setWatcherCallbackCalled = true ↔ call.answers ≠ []) ∧
        (set.timestampUpdateRequestSent = false → call.timestampUpdates = [])
  | .put true | .authRevoked | .connectionError =>
    ∀ watch ∈ set.watch, ∀ call ∈ set.calls[watch.call]?,
      (set.setWatcherCallbackCalled = true ↔ call.answers ≠ []) ∧
        set.watcher = some watch.call
  | .patch | .cancel | .malformedEvent =>
    ∀ watch ∈ set.watch, ∀ call ∈ set.calls[watch.call]?, call.answers ≠ []

namespace DeviceSet

/-- What holds besides: calls are answered when there is a reason, the watch is one of a call that
has a token, and the watcher is one of a call. -/
structure Tracked (set : DeviceSet) : Prop where
  served : ServesWatchers set
  answered : ∀ index : ℕ, ∀ call ∈ set.calls[index]?, call.answers ≠ [] →
    call.token = .failed ∨ 0 < call.events
  waits : ∀ index : ℕ, ∀ call ∈ set.calls[index]?, call.token = .pending → call.events = 0
  watch : ∀ watch ∈ set.watch, ∃ call, set.calls[watch.call]? = some call ∧ call.token = .given
  watcher : set.calls = [] ∨ ∃ watcher, set.watcher = some watcher ∧ watcher < set.calls.length

variable {set next : DeviceSet} {event : DeviceSetEvent} {watch : FingerprintWatch}
    {call : SetWatcherCall} {index : ℕ} {status : CloudStatus} {isCalled : Bool}

theorem tracked_start : Tracked start where
  served := by simp [ServesWatchers, start]
  answered := by simp [start]
  waits := by simp [start]
  watch := by simp [start]
  watcher := by simp [start]

theorem getElem?_atCall (set : DeviceSet) (call index : ℕ)
    (change : SetWatcherCall → SetWatcherCall) : (set.atCall call change).calls[index]? =
      set.calls[index]?.map fun record => if call = index then change record else record := by
  rw [atCall, getElem?_modify]
  by_cases same : call = index
  · simp [same]
  · simp [same]

section

variable (tracked : Tracked set) {change : SetWatcherCall → SetWatcherCall}
include tracked

theorem Tracked.atCall (isCall : set.calls[index]? = some call)
    (served : (change call).Served index) (answered : (change call).answers ≠ [] →
      (change call).token = .failed ∨ 0 < (change call).events)
    (waits : (change call).token = .pending → (change call).events = 0)
    (sameToken : (change call).token = call.token ∨ call.token = .pending) :
    Tracked (set.atCall index change) := by
  have each : ∀ {motive : ℕ → SetWatcherCall → Prop},
      (∀ other : ℕ, ∀ record ∈ set.calls[other]?, motive other record) →
      motive index (change call) →
      ∀ other : ℕ, ∀ record ∈ (set.atCall index change).calls[other]?, motive other record := by
    intro motive others this other record isRecord
    rw [getElem?_atCall] at isRecord
    obtain ⟨before, isBefore, rfl⟩ := map_eq_some_iff.mp isRecord
    by_cases same : index = other
    · subst same
      obtain rfl := some.inj (isCall.symm.trans isBefore)
      rwa [if_pos rfl]
    · rw [if_neg same]
      exact others other before isBefore
  constructor
  · exact each tracked.served served
  · exact each (motive := fun _ record => record.answers ≠ [] →
      record.token = .failed ∨ 0 < record.events) tracked.answered answered
  · exact each (motive := fun _ record => record.token = .pending → record.events = 0)
      tracked.waits waits
  · intro watch isWatch
    obtain ⟨watched, isWatched, isGiven⟩ := tracked.watch watch isWatch
    rw [getElem?_atCall, isWatched]
    refine ⟨_, rfl, ?_⟩
    split
    · rename_i same
      rw [same] at isCall
      obtain rfl := some.inj (isCall.symm.trans isWatched)
      rcases sameToken with isSame | isPending
      · rw [isSame, isGiven]
      · exact nomatch isGiven.symm.trans isPending
    · exact isGiven
  · rcases tracked.watcher with noCalls | ⟨watcher, isWatcher, inRange⟩
    · rw [noCalls] at isCall
      cases isCall
    · exact .inr ⟨watcher, isWatcher, by simpa [DeviceSet.atCall] using inRange⟩

theorem Tracked.setWatcher (fingerprint : Bytes) : Tracked (set.setWatcher fingerprint) := by
  have each : ∀ {motive : ℕ → SetWatcherCall → Prop},
      (∀ index : ℕ, ∀ call ∈ set.calls[index]?, motive index call) →
      motive set.calls.length (.start fingerprint) →
      ∀ index : ℕ, ∀ call ∈ (set.setWatcher fingerprint).calls[index]?, motive index call := by
    intro motive others this index call isCall
    rw [DeviceSet.setWatcher, mem_def, getElem?_append] at isCall
    split at isCall
    · exact others index call isCall
    · rename_i notBefore
      have isLast : index - set.calls.length = 0 := by
        have inRange := (List.getElem?_eq_some_iff.mp isCall).1
        rw [length_singleton] at inRange
        omega
      rw [isLast] at isCall
      cases isCall
      obtain rfl : index = set.calls.length := by omega
      exact this
  constructor
  · exact each tracked.served ⟨by simp [SetWatcherCall.start], by simp [SetWatcherCall.start],
      by simp [SetWatcherCall.start], by simp [SetWatcherCall.start]⟩
  · exact each (motive := fun _ call => call.answers ≠ [] →
      call.token = .failed ∨ 0 < call.events) tracked.answered (by simp [SetWatcherCall.start])
  · exact each (motive := fun _ call => call.token = .pending → call.events = 0) tracked.waits
      (by simp [SetWatcherCall.start])
  · intro watch isWatch
    obtain ⟨watched, isWatched, isGiven⟩ := tracked.watch watch isWatch
    exact ⟨watched, by rw [DeviceSet.setWatcher, getElem?_append_left
      (List.getElem?_eq_some_iff.mp isWatched).1, isWatched], isGiven⟩
  · exact .inr ⟨set.calls.length, rfl, by simp [DeviceSet.setWatcher]⟩

theorem Tracked.withFlags (isCalled isSent : Bool) : Tracked { set with
      setWatcherCallbackCalled := isCalled
      timestampUpdateRequestSent := isSent } :=
  ⟨tracked.served, tracked.answered, tracked.waits, tracked.watch, tracked.watcher⟩

theorem Tracked.resetWatcher : Tracked set.resetWatcher :=
  ⟨tracked.served, tracked.answered, tracked.waits, by simp [DeviceSet.resetWatcher],
    tracked.watcher⟩

variable {index : ℕ} {call : SetWatcherCall} (isCall : set.calls[index]? = some call)
include isCall

theorem Tracked.setWatch (isGiven : call.token = .given)
    (authToken : Bytes) : Tracked { set with watch := some ⟨index, authToken⟩ } := by
  refine ⟨tracked.served, tracked.answered, tracked.waits, ?_, tracked.watcher⟩
  intro watch isWatch
  cases isWatch
  exact ⟨call, isCall, isGiven⟩

theorem Tracked.onFirebaseToken (isPending : call.token = .pending)
    (authToken : Option Bytes) : Tracked (set.onFirebaseToken index authToken) := by
  have served := tracked.served index call isCall
  have noEvent := tracked.waits index call isCall isPending
  have noAnswer : call.answers = [] := by
    by_contra isAnswered
    rcases tracked.answered index call isCall isAnswered with isFailed | isPositive
    · exact nomatch isPending.symm.trans isFailed
    · omega
  cases authToken with
  | none =>
    have failed : Tracked (set.atCall index fun record =>
        { record with token := .failed }.answer .authError) := by
      apply tracked.atCall isCall
      · exact ⟨by simp [SetWatcherCall.answer, noAnswer],
          by simp [SetWatcherCall.answer, noAnswer], served.timestamp, served.own⟩
      · exact fun _ => .inl rfl
      · nofun
      · exact .inr isPending
    exact failed.withFlags true _
  | some authToken =>
    have given : Tracked (set.atCall index fun record => { record with token := .given }) := by
      apply tracked.atCall isCall
      · exact ⟨served.atMostOnce, by simp [noEvent], served.timestamp, served.own⟩
      · exact absurd noAnswer
      · nofun
      · exact .inr isPending
    apply given.setWatch
    · rw [getElem?_atCall, isCall, map_some, if_pos rfl]
    · rfl

theorem Tracked.receive (isGiven : call.token = .given)
    (own : isCalled = true ↔ call.answers ≠ []) (answers : (change call).answers =
      if isCalled then call.answers else call.answers ++ [status])
    (events : (change call).events = call.events + 1) (token : (change call).token = call.token)
    (timestamp : (change call).timestampUpdates.length ≤ 1)
    (notified : ∀ notice ∈ (change call).notified, notice.2 = index) :
    Tracked (set.atCall index change) := by
  have served := tracked.served index call isCall
  have answeredOnce : (change call).answers.length = 1 := by
    rw [answers]
    cases isCalled with
    | true =>
      have isAnswered := length_pos_iff.mpr (own.mp rfl)
      have atMostOnce := served.atMostOnce
      rw [if_pos rfl]
      omega
    | false =>
      have notAnswered : call.answers = [] := by
        by_contra isAnswered
        exact Bool.false_ne_true (own.mpr isAnswered)
      simp [notAnswered]
  apply tracked.atCall isCall
  · exact ⟨answeredOnce.le, fun _ => answeredOnce, timestamp, notified⟩
  · exact fun _ => .inr (by omega)
  · rw [token, isGiven]
    nofun
  · exact .inl token

end

/-- What the callback of `WatchFingerprint` does to its call: the flags decide. -/
def servedBy (set : DeviceSet) (authToken : Bytes) (call : SetWatcherCall) : SetWatcherCall :=
  let updated := if set.timestampUpdateRequestSent then call.receive
    else call.receive.updateTimestamp authToken
  if set.setWatcherCallbackCalled then updated else updated.answer .ok

/-- A status `OK` is for the call of the watch. -/
theorem onPut_eq (set : DeviceSet) (watch : FingerprintWatch) :
    (set.atCall watch.call .receive).onWatchEvent watch (.put false) =
      { set.atCall watch.call (set.servedBy watch.authToken) with
        setWatcherCallbackCalled := true
        timestampUpdateRequestSent := true } := by
  obtain ⟨calls, watcher, isCalled, isSent, installed⟩ := set
  cases isCalled <;> cases isSent <;>
    simp only [onWatchEvent, watchCallback, updateTimestampOnce, answerOnce, atCall,
      modify_modify_eq, if_true, if_false, Bool.false_eq_true] <;>
    rfl

/-- What an error does to the call of the watch, if the watcher is its own. -/
def failedBy (set : DeviceSet) (watcherCall : DeviceSetWatcherCall) (status : CloudStatus)
    (index : ℕ) (call : SetWatcherCall) : SetWatcherCall :=
  let notified := call.receive.notify watcherCall index
  if set.setWatcherCallbackCalled then notified else notified.answer status

theorem onError_eq (set : DeviceSet) (isWatcher : set.watcher = some index)
    (watcherCall : DeviceSetWatcherCall) (status : CloudStatus) :
    ((set.atCall index .receive).callWatcher watcherCall index).answerOnce index status =
      { set.atCall index (set.failedBy watcherCall status index) with
        setWatcherCallbackCalled := true } := by
  obtain ⟨calls, watcher, isCalled, isSent, installed⟩ := set
  obtain rfl := isWatcher
  cases isCalled <;>
    simp only [callWatcher, answerOnce, atCall, modify_modify_eq, if_true, if_false,
      Bool.false_eq_true] <;>
    rfl

theorem mem_notified_of_ne (set : DeviceSet) {watcher : ℕ}
    (isWatcher : set.watcher = some watcher) (notSame : index ≠ watcher)
    (isCall : set.calls[watcher]? = some call)
    (watcherCall : DeviceSetWatcherCall) (status : CloudStatus) :
    ∃ record, (((set.atCall index .receive).callWatcher watcherCall index).answerOnce index
        status).calls[watcher]? = some record ∧ (watcherCall, index) ∈ record.notified := by
  have isNotified : (set.atCall index .receive).callWatcher watcherCall index =
      (set.atCall index .receive).atCall watcher (.notify watcherCall index) := by
    rw [callWatcher, show (set.atCall index .receive).watcher = some watcher from isWatcher]
  rw [isNotified, answerOnce]
  split
  · refine ⟨call.notify watcherCall index, ?_, by simp [SetWatcherCall.notify]⟩
    rw [getElem?_atCall, getElem?_atCall, isCall]
    simp [notSame]
  · refine ⟨call.notify watcherCall index, ?_, by simp [SetWatcherCall.notify]⟩
    refine (getElem?_atCall _ _ _ _).trans ?_
    rw [getElem?_atCall, getElem?_atCall, isCall]
    simp [notSame]

theorem own_of_served {record : SetWatcherCall} (served : record.Served index)
    (answers : record.answers = if isCalled then call.answers else call.answers ++ [status])
    (events : 0 < record.events) : isCalled = true ↔ call.answers ≠ [] := by
  have answeredOnce := served.once (.inr events)
  rw [answers] at answeredOnce
  cases isCalled with
  | true =>
    apply iff_of_true rfl
    rintro noAnswer
    rw [noAnswer] at answeredOnce
    cases answeredOnce
  | false =>
    apply iff_of_false Bool.false_ne_true
    rw [if_neg Bool.false_ne_true, length_append, length_singleton] at answeredOnce
    simp only [ne_eq, not_not]
    exact length_eq_zero_iff.mp (by omega)

section ServedBy

variable (set : DeviceSet) (authToken : Bytes) (call : SetWatcherCall)

theorem answers_servedBy : (set.servedBy authToken call).answers =
    if set.setWatcherCallbackCalled then call.answers else call.answers ++ [.ok] := by
  unfold servedBy
  split <;> split <;> rfl

theorem events_servedBy : (set.servedBy authToken call).events = call.events + 1 := by
  unfold servedBy
  split <;> split <;> rfl

theorem token_servedBy : (set.servedBy authToken call).token = call.token := by
  unfold servedBy
  split <;> split <;> rfl

theorem timestampUpdates_servedBy : (set.servedBy authToken call).timestampUpdates =
    if set.timestampUpdateRequestSent then call.timestampUpdates
    else call.timestampUpdates ++ [(authToken, call.fingerprint)] := by
  unfold servedBy
  split <;> split <;> rfl

theorem notified_servedBy : (set.servedBy authToken call).notified = call.notified := by
  unfold servedBy
  split <;> split <;> rfl

end ServedBy

section FailedBy

variable (set : DeviceSet) (watcherCall : DeviceSetWatcherCall) (status : CloudStatus) (index : ℕ)
  (call : SetWatcherCall)

theorem answers_failedBy : (set.failedBy watcherCall status index call).answers =
    if set.setWatcherCallbackCalled then call.answers else call.answers ++ [status] := by
  unfold failedBy
  split <;> rfl

theorem events_failedBy :
    (set.failedBy watcherCall status index call).events = call.events + 1 := by
  unfold failedBy
  split <;> rfl

theorem token_failedBy : (set.failedBy watcherCall status index call).token = call.token := by
  unfold failedBy
  split <;> rfl

theorem timestampUpdates_failedBy :
    (set.failedBy watcherCall status index call).timestampUpdates = call.timestampUpdates := by
  unfold failedBy
  split <;> rfl

theorem notified_failedBy : (set.failedBy watcherCall status index call).notified =
    call.notified ++ [(watcherCall, index)] := by
  unfold failedBy
  split <;> rfl

end FailedBy

theorem Tracked.onPut (tracked : Tracked set) (isWatch : set.watch = some watch)
    (own : set.OwnFlags (.put false)) :
    Tracked ((set.atCall watch.call .receive).onWatchEvent watch (.put false)) := by
  obtain ⟨call, isCall, isGiven⟩ := tracked.watch watch isWatch
  obtain ⟨ownAnswer, ownTimestamp⟩ := own watch isWatch call isCall
  have served := tracked.served watch.call call isCall
  rw [onPut_eq]
  apply Tracked.withFlags
  apply tracked.receive isCall isGiven ownAnswer (answers_servedBy ..)
  · exact events_servedBy set watch.authToken call
  · exact token_servedBy set watch.authToken call
  · rw [timestampUpdates_servedBy]
    split
    · exact served.timestamp
    · rename_i notSent
      simp [ownTimestamp (by simpa using notSent)]
  · rw [notified_servedBy]
    exact served.own

theorem Tracked.onError (tracked : Tracked set) (isWatch : set.watch = some watch)
    (isCall : set.calls[watch.call]? = some call)
    (own : set.setWatcherCallbackCalled = true ↔ call.answers ≠ [])
    (isWatcher : set.watcher = some watch.call) (watcherCall : DeviceSetWatcherCall)
    (status : CloudStatus) :
    Tracked (((set.atCall watch.call .receive).callWatcher watcherCall watch.call).answerOnce
      watch.call status) := by
  obtain ⟨watched, isWatched, isGiven⟩ := tracked.watch watch isWatch
  obtain rfl := some.inj (isCall.symm.trans isWatched)
  have served := tracked.served watch.call call isCall
  rw [onError_eq set isWatcher]
  apply Tracked.withFlags _ _ set.timestampUpdateRequestSent
  apply tracked.receive isCall isGiven own (answers_failedBy ..)
  · exact events_failedBy set watcherCall status watch.call call
  · exact token_failedBy set watcherCall status watch.call call
  · rw [timestampUpdates_failedBy]
    exact served.timestamp
  · intro notice isNotice
    rw [notified_failedBy] at isNotice
    rcases mem_append.mp isNotice with isEarlier | isNew
    · exact served.own notice isEarlier
    · rw [mem_singleton.mp isNew]

theorem Tracked.failed (tracked : Tracked set) {watcherCall : DeviceSetWatcherCall}
    {status : CloudStatus} (own : ∀ watch ∈ set.watch, ∀ call ∈ set.calls[watch.call]?,
      (set.setWatcherCallbackCalled = true ↔ call.answers ≠ []) ∧ set.watcher = some watch.call)
    (isStep : set.watch.map (fun watch => (((set.atCall watch.call .receive).callWatcher
      watcherCall watch.call).answerOnce watch.call status).resetWatcher) = some next) :
    Tracked next := by
  obtain ⟨watch, isWatch, rfl⟩ := map_eq_some_iff.mp isStep
  obtain ⟨call, isCall, -⟩ := tracked.watch watch isWatch
  obtain ⟨ownAnswer, isWatcher⟩ := own watch isWatch call isCall
  apply Tracked.resetWatcher
  exact tracked.onError isWatch isCall ownAnswer isWatcher watcherCall status

theorem Tracked.notImplemented (tracked : Tracked set)
    (own : ∀ watch ∈ set.watch, ∀ call ∈ set.calls[watch.call]?, call.answers ≠ [])
    (isStep : set.watch.map (fun watch => set.atCall watch.call .receive) = some next) :
    Tracked next := by
  obtain ⟨watch, isWatch, rfl⟩ := map_eq_some_iff.mp isStep
  obtain ⟨call, isCall, isGiven⟩ := tracked.watch watch isWatch
  have served := tracked.served watch.call call isCall
  have isAnswer : call.receive.answers =
      if true then call.answers else call.answers ++ [CloudStatus.ok] := rfl
  exact tracked.receive isCall isGiven (iff_of_true rfl (own watch isWatch call isCall)) isAnswer
    rfl rfl served.timestamp served.own

theorem Tracked.step (tracked : Tracked set) (own : set.OwnFlags event)
    (isStep : set.step event = some next) : Tracked next := by
  cases event with
  | setWatcher fingerprint =>
    cases isStep
    exact tracked.setWatcher fingerprint
  | firebaseToken index authToken =>
    simp only [step] at isStep
    split at isStep
    · rename_i isPending
      obtain ⟨call, isCall, isPending⟩ := map_eq_some_iff.mp isPending
      cases isStep
      exact tracked.onFirebaseToken isCall isPending authToken
    · cases isStep
  | put isNull =>
    cases isNull with
    | false =>
      obtain ⟨watch, isWatch, rfl⟩ := map_eq_some_iff.mp isStep
      exact tracked.onPut isWatch own
    | true => exact tracked.failed own isStep
  | authRevoked | connectionError => exact tracked.failed own isStep
  | patch | cancel | malformedEvent => exact tracked.notImplemented own isStep

theorem ownFlags_of_onPut (isWatch : set.watch = some watch)
    (serves : ServesWatchers ((set.atCall watch.call .receive).onWatchEvent watch (.put false))) :
    set.OwnFlags (.put false) := by
  intro other isOther call isCall
  obtain rfl := some.inj (isWatch.symm.trans isOther)
  rw [onPut_eq] at serves
  have served := serves watch.call (set.servedBy watch.authToken call) (by
    refine (getElem?_atCall ..).trans ?_
    rw [isCall, map_some, if_pos rfl])
  constructor
  · apply own_of_served served (answers_servedBy ..)
    rw [events_servedBy]
    exact Nat.succ_pos call.events
  · intro notSent
    have atMostOnce := served.timestamp
    rw [timestampUpdates_servedBy, if_neg (by simp [notSent]), length_append,
      length_singleton] at atMostOnce
    exact length_eq_zero_iff.mp (by omega)

theorem ownFlags_of_onError (tracked : Tracked set)
    (isCall : set.calls[watch.call]? = some call) (watcherCall : DeviceSetWatcherCall)
    (status : CloudStatus)
    (serves : ServesWatchers (((set.atCall watch.call .receive).callWatcher watcherCall
      watch.call).answerOnce watch.call status)) :
    (set.setWatcherCallbackCalled = true ↔ call.answers ≠ []) ∧ set.watcher = some watch.call := by
  rcases tracked.watcher with noCalls | ⟨watcher, isWatcher, inRange⟩
  · rw [noCalls] at isCall
    cases isCall
  · by_cases same : watch.call = watcher
    · subst same
      rw [onError_eq set isWatcher] at serves
      have served := serves watch.call (set.failedBy watcherCall status watch.call call) (by
        refine (getElem?_atCall ..).trans ?_
        rw [isCall, map_some, if_pos rfl])
      refine ⟨own_of_served served (answers_failedBy ..) ?_, isWatcher⟩
      rw [events_failedBy]
      exact Nat.succ_pos call.events
    · -- The watcher of another call has been told.
      obtain ⟨record, isRecord, isNotice⟩ := mem_notified_of_ne set isWatcher same
        (getElem?_eq_getElem inRange) watcherCall status
      exact absurd ((serves watcher record isRecord).own _ isNotice) same

theorem answered_of_notImplemented (isWatch : set.watch = some watch)
    (serves : ServesWatchers (set.atCall watch.call .receive)) :
    ∀ watch ∈ set.watch, ∀ call ∈ set.calls[watch.call]?, call.answers ≠ [] := by
  intro other isOther call isCall noAnswer
  obtain rfl := some.inj (isWatch.symm.trans isOther)
  have served := serves watch.call call.receive (by
    rw [getElem?_atCall, isCall, map_some, if_pos rfl]
    rfl)
  have answeredOnce := served.once (.inr (Nat.succ_pos _))
  rw [SetWatcherCall.receive, noAnswer] at answeredOnce
  cases answeredOnce

theorem ownFlags_of_serves (tracked : Tracked set) (isStep : set.step event = some next)
    (serves : ServesWatchers next) : set.OwnFlags event := by
  have onError : ∀ (watcherCall : DeviceSetWatcherCall) (status : CloudStatus),
      set.watch.map (fun watch => (((set.atCall watch.call .receive).callWatcher watcherCall
        watch.call).answerOnce watch.call status).resetWatcher) = some next →
      ∀ watch ∈ set.watch, ∀ call ∈ set.calls[watch.call]?,
        (set.setWatcherCallbackCalled = true ↔ call.answers ≠ []) ∧
          set.watcher = some watch.call := by
    intro watcherCall status isNext watch isWatch call isCall
    obtain ⟨other, isOther, rfl⟩ := map_eq_some_iff.mp isNext
    obtain rfl := some.inj (isWatch.symm.trans isOther)
    exact ownFlags_of_onError tracked isCall watcherCall status serves
  have notImplemented : set.watch.map (fun watch => set.atCall watch.call .receive) = some next →
      ∀ watch ∈ set.watch, ∀ call ∈ set.calls[watch.call]?, call.answers ≠ [] := by
    intro isNext
    obtain ⟨watch, isWatch, rfl⟩ := map_eq_some_iff.mp isNext
    exact answered_of_notImplemented isWatch serves
  cases event with
  | setWatcher fingerprint => trivial
  | firebaseToken index authToken => trivial
  | put isNull =>
    cases isNull with
    | false =>
      obtain ⟨watch, isWatch, rfl⟩ := map_eq_some_iff.mp isStep
      exact ownFlags_of_onPut isWatch serves
    | true => exact onError _ _ isStep
  | authRevoked | connectionError => exact onError _ _ isStep
  | patch | cancel | malformedEvent => exact notImplemented isStep

end DeviceSet

/-- All calls of `SetWatcher` are served in every state of exactly the runs in which each event
finds the flags and the watcher of the call whose watch receives it. -/
theorem servesWatchers_run (events : List DeviceSetEvent) {final : DeviceSet}
    (isRun : runSteps DeviceSet.step DeviceSet.start events = some final) :
    EachStep DeviceSet.step (fun set event => ∀ next ∈ set.step event, ServesWatchers next)
        DeviceSet.start events ↔
      EachStep DeviceSet.step DeviceSet.OwnFlags DeviceSet.start events :=
  eachStep_next_iff DeviceSet.Tracked (fun tracked => tracked.step) ServesWatchers
    DeviceSet.Tracked.served DeviceSet.ownFlags_of_serves DeviceSet.tracked_start isRun

/-- A watcher is set, updates its timestamp and is told that the cloud was erased; the token of
another one is not given. -/
theorem servesWatchers_run_sample :
    let events := [.setWatcher [1], .firebaseToken 0 (some [7]), .put false, .put false, .patch,
      .put true, .setWatcher [1], .firebaseToken 1 none]
    EachStep DeviceSet.step (fun set event => ∀ next ∈ set.step event, ServesWatchers next)
        DeviceSet.start events ↔
      EachStep DeviceSet.step DeviceSet.OwnFlags DeviceSet.start events :=
  servesWatchers_run _ rfl

/-- The answer of the first call is taken for the one of the second, which is never called back. -/
theorem not_servesWatchers_run : ∃ final, runSteps DeviceSet.step DeviceSet.start
    [.setWatcher [1], .setWatcher [1], .firebaseToken 0 (some [7]), .put false,
      .firebaseToken 1 (some [7]), .put false] = some final ∧ ¬ServesWatchers final := by
  refine ⟨_, rfl, fun serves => ?_⟩
  have answeredOnce := (serves 1 _ rfl).once (.inr (Nat.succ_pos _))
  cases answeredOnce

end Peridot
