import Peridot.CloudCommits
import Peridot.PageSync

/-!
# The cloud of a page

`PageCloudImpl` gives the commits that the page handler reports to the watcher that the client has
set.  While a call of the watcher is not acknowledged, commits are kept in `records_`.
-/

namespace Peridot

open List Option CloudRecord

/-- The calls of a `PageCloudWatcher`. -/
inductive PageWatcherCall where
  | onNewCommits (commits : List CloudCommit) (positionToken : Bytes)
  | onError (status : CloudStatus)

/-- The pipe to a watcher is closed when the watcher is replaced, or by its other end. -/
inductive PipeState where
  | connected
  | replaced
  | disconnected
deriving DecidableEq

/-- A watcher, with the calls that have been made on it and the number of those that it has not
acknowledged. `reported` is what the handler has reported since it was set. -/
structure PageWatcher where
  state : PipeState
  calls : List PageWatcherCall
  unacked : ℕ
  reported : List CloudRecord

namespace PageWatcher

def start : PageWatcher :=
  ⟨.connected, [], 0, []⟩

/-- A call of `OnNewCommits`, which is lost if the pipe is closed. -/
def onNewCommits (watcher : PageWatcher) (commits : List CloudCommit) (positionToken : Bytes) :
    PageWatcher :=
  if watcher.state = .connected then
    { watcher with
      calls := watcher.calls ++ [.onNewCommits commits positionToken]
      unacked := watcher.unacked + 1 }
  else watcher

/-- A call of `OnError`. -/
def onError (watcher : PageWatcher) (status : CloudStatus) : PageWatcher :=
  if watcher.state = .connected then
    { watcher with calls := watcher.calls ++ [.onError status] }
  else watcher

def close (watcher : PageWatcher) (state : PipeState) : PageWatcher :=
  if watcher.state = .connected then { watcher with state, unacked := 0 } else watcher

def report (watcher : PageWatcher) (records : List CloudRecord) : PageWatcher :=
  { watcher with reported := watcher.reported ++ records }

def acknowledge (watcher : PageWatcher) : PageWatcher :=
  { watcher with unacked := watcher.unacked - 1 }

end PageWatcher

def PageWatcherCall.commits : PageWatcherCall → List CloudCommit
  | .onNewCommits commits _ => commits
  | .onError _ => []

def PageWatcher.received (watcher : PageWatcher) : List CloudCommit :=
  watcher.calls.flatMap PageWatcherCall.commits

/-- `PageCloudImpl`, as far as watchers are concerned. `earlier` are the watchers that have been
replaced, `tokenRequests` the position tokens of the calls of `SetWatcher` that wait for an
authentication token, `watches` the token and the timestamp that the handler was given for its own
watch, and `answers` the answers of `SetWatcher`. -/
structure PageCloud where
  records : List CloudRecord
  waitingForRemoteCommitsAck : Bool
  watcher : Option PageWatcher
  handlerWatcherSet : Bool
  earlier : List PageWatcher
  tokenRequests : List Bytes
  watches : Option (Bytes × Bytes)
  answers : List CloudStatus
  checkFailed : Bool

/-- What the handler, the authentication, the watcher and the client do. -/
inductive PageCloudEvent where
  | remoteCommits (records : List CloudRecord)
  | connectionError
  | tokenExpired
  | malformedNotification
  | setWatcher (minPositionToken : Bytes)
  | firebaseToken (index : ℕ) (authToken : Option Bytes)
  | ack
  | disconnect

def convertRecords (records : List CloudRecord) : List CloudCommit × Bytes :=
  (records.map commit, (records.getLast?.map timestamp).getD [])

namespace PageCloud

def start : PageCloud :=
  ⟨[], false, none, false, [], [], none, [], false⟩

def withWatcher (cloud : PageCloud) (change : PageWatcher → PageWatcher) : PageCloud :=
  { cloud with watcher := cloud.watcher.map change }

def sendRemoteCommits (cloud : PageCloud) : PageCloud :=
  if cloud.records = [] then cloud
  else
    { cloud.withWatcher fun watcher => watcher.onNewCommits (convertRecords cloud.records).1
        (convertRecords cloud.records).2 with
      waitingForRemoteCommitsAck := true
      records := [] }

def keepRecords (cloud : PageCloud) (records : List CloudRecord) : PageCloud :=
  { cloud.withWatcher fun watcher => watcher.report records with
    checkFailed := cloud.watcher.isNone
    records := cloud.records ++ records }

def onRemoteCommits (cloud : PageCloud) (records : List CloudRecord) : PageCloud :=
  if cloud.waitingForRemoteCommitsAck then cloud.keepRecords records
  else (cloud.keepRecords records).sendRemoteCommits

def unregister (cloud : PageCloud) : PageCloud :=
  { cloud with
    checkFailed := cloud.checkFailed || !cloud.handlerWatcherSet
    watches := none
    handlerWatcherSet := false }

def onHandlerError (cloud : PageCloud) (status : CloudStatus) : PageCloud :=
  { cloud.withWatcher fun watcher => watcher.onError status with
    checkFailed := cloud.watcher.isNone }.unregister

def setWatcher (cloud : PageCloud) (minPositionToken : Bytes) : PageCloud :=
  { cloud with
    earlier := cloud.earlier ++ cloud.watcher.toList.map fun watcher => watcher.close .replaced
    watcher := some .start
    tokenRequests := cloud.tokenRequests ++ [minPositionToken] }

def onFirebaseToken (cloud : PageCloud) (minTimestamp : Bytes) : Option Bytes → PageCloud
  | none =>
    { cloud.withWatcher fun watcher => watcher.onError .authError with
      answers := cloud.answers ++ [.authError] }
  | some authToken =>
    { cloud with
      watches := some (authToken, minTimestamp)
      handlerWatcherSet := true
      answers := cloud.answers ++ [.ok] }

def onAck (cloud : PageCloud) : PageCloud :=
  { cloud.withWatcher PageWatcher.acknowledge with
    waitingForRemoteCommitsAck := false }.sendRemoteCommits

def unregisterIfSet (cloud : PageCloud) : PageCloud :=
  if cloud.handlerWatcherSet then cloud.unregister else cloud

def onDisconnect (cloud : PageCloud) : PageCloud :=
  { (cloud.withWatcher fun watcher => watcher.close .disconnected).unregisterIfSet with
    waitingForRemoteCommitsAck := false }

def isConnected (cloud : PageCloud) : Bool :=
  cloud.watcher.any fun watcher => watcher.state = .connected

/-- A step. The handler calls while it watches, and a watcher while its pipe is open. -/
def step (cloud : PageCloud) (event : PageCloudEvent) : Option PageCloud :=
  if cloud.checkFailed then none
  else match event with
    | .remoteCommits records =>
      if cloud.watches.isSome then some (cloud.onRemoteCommits records) else none
    | .connectionError =>
      if cloud.watches.isSome then some (cloud.onHandlerError .networkError) else none
    | .tokenExpired =>
      if cloud.watches.isSome then some (cloud.onHandlerError .authError) else none
    | .malformedNotification =>
      if cloud.watches.isSome then some (cloud.onHandlerError .parseError) else none
    | .setWatcher minPositionToken => some (cloud.setWatcher minPositionToken)
    | .firebaseToken index authToken =>
      cloud.tokenRequests[index]?.map fun minTimestamp =>
        { cloud with tokenRequests := cloud.tokenRequests.eraseIdx index }.onFirebaseToken
          minTimestamp authToken
    | .ack =>
      if cloud.watcher.any fun watcher => 0 < watcher.unacked then some cloud.onAck else none
    | .disconnect => if cloud.isConnected then some cloud.onDisconnect else none

def watchers (cloud : PageCloud) : List PageWatcher :=
  cloud.earlier ++ cloud.watcher.toList

end PageCloud

/-- At most one call is not acknowledged, the watchers receive what was reported while they were
set, and what waits has an acknowledgement to come. -/
structure DeliversCommits (cloud : PageCloud) : Prop where
  checks : cloud.checkFailed = false
  once : (cloud.watchers.map PageWatcher.unacked).sum ≤ 1
  inOrder : ∀ watcher ∈ cloud.watchers,
    watcher.received <+: watcher.reported.map commit
  replaced : ∀ watcher ∈ cloud.watchers, watcher.state = .replaced →
    watcher.received = watcher.reported.map commit
  connected : ∀ watcher ∈ cloud.watcher, watcher.state = .connected →
    watcher.received ++ cloud.records.map commit =
      watcher.reported.map commit
  outstanding : ∀ watcher ∈ cloud.watcher, watcher.state = .connected → cloud.records ≠ [] →
    0 < watcher.unacked

/-- A watcher is set while nothing waits, and commits come while the acknowledgement that is waited
for is one of the watcher. -/
def ReadyFor (cloud : PageCloud) : PageCloudEvent → Prop
  | .setWatcher _ => cloud.records = []
  | .remoteCommits records => records ≠ [] → cloud.waitingForRemoteCommitsAck = true →
      ∀ watcher ∈ cloud.watcher, watcher.state = .connected → 0 < watcher.unacked
  | _ => True

namespace PageWatcher

/-- What has been sent to the current watcher: all that was reported, but for what waits. -/
structure Served (records : List CloudRecord) (isWaiting : Bool) (watcher : PageWatcher) :
    Prop where
  notReplaced : watcher.state ≠ .replaced
  few : watcher.unacked ≤ 1
  connected : watcher.state = .connected →
    watcher.received ++ records.map commit =
        watcher.reported.map commit ∧
      (records ≠ [] → 0 < watcher.unacked) ∧ (0 < watcher.unacked → isWaiting = true)
  disconnected : watcher.state = .disconnected → watcher.unacked = 0 ∧
    watcher.received <+: watcher.reported.map commit

structure Ready (records : List CloudRecord) (watcher : PageWatcher) : Prop where
  notReplaced : watcher.state ≠ .replaced
  unacked : watcher.unacked = 0
  connected : watcher.state = .connected →
    watcher.received ++ records.map commit = watcher.reported.map commit
  disconnected : watcher.state = .disconnected →
    watcher.received <+: watcher.reported.map commit

structure Past (watcher : PageWatcher) : Prop where
  unacked : watcher.unacked = 0
  received : watcher.received <+: watcher.reported.map commit
  replaced : watcher.state = .replaced →
    watcher.received = watcher.reported.map commit

variable {records : List CloudRecord} {isWaiting : Bool} {watcher : PageWatcher}

theorem received_onError (watcher : PageWatcher) (status : CloudStatus) :
    (watcher.onError status).received = watcher.received := by
  unfold onError
  split
  · simp [received, PageWatcherCall.commits]
  · rfl

theorem received_onNewCommits (isConnected : watcher.state = .connected)
    (commits : List CloudCommit) (positionToken : Bytes) :
    (watcher.onNewCommits commits positionToken).received = watcher.received ++ commits := by
  simp [onNewCommits, isConnected, received, PageWatcherCall.commits]

theorem served_start (isWaiting : Bool) : Served [] isWaiting start where
  notReplaced := by decide
  few := Nat.zero_le 1
  connected _ := ⟨rfl, fun notEmpty => absurd rfl notEmpty, fun positive => absurd positive
    (lt_irrefl 0)⟩
  disconnected isDisconnected := by cases isDisconnected

theorem Ready.served (ready : Ready [] watcher) : Served [] isWaiting watcher where
  notReplaced := ready.notReplaced
  few := ready.unacked.trans_le (Nat.zero_le 1)
  connected isConnected := ⟨ready.connected isConnected, absurd rfl,
    fun positive => absurd ready.unacked positive.ne'⟩
  disconnected isDisconnected := ⟨ready.unacked, ready.disconnected isDisconnected⟩

theorem Ready.onNewCommits (ready : Ready records watcher) (positionToken : Bytes) :
    Served [] true (watcher.onNewCommits (records.map commit) positionToken) := by
  by_cases isConnected : watcher.state = .connected
  · have received := received_onNewCommits isConnected (records.map commit)
      positionToken
    rw [ready.connected isConnected] at received
    have isSent : watcher.onNewCommits (records.map commit) positionToken =
        { watcher with
          calls := watcher.calls ++ [.onNewCommits (records.map commit) positionToken]
          unacked := 1 } := by
      simp [PageWatcher.onNewCommits, isConnected, ready.unacked]
    rw [isSent] at received ⊢
    refine ⟨ready.notReplaced, le_rfl, fun _ => ⟨?_, absurd rfl,
      fun _ => rfl⟩, fun isDisconnected => ?_⟩
    · rw [map_nil, append_nil]
      exact received
    · exact nomatch isConnected.symm.trans isDisconnected
  · have isLost : watcher.onNewCommits (records.map commit) positionToken =
        watcher := if_neg isConnected
    rw [isLost]
    exact ⟨ready.notReplaced, ready.unacked.trans_le (Nat.zero_le 1),
      fun connected => absurd connected isConnected,
      fun isDisconnected => ⟨ready.unacked, ready.disconnected isDisconnected⟩⟩

theorem Served.onError (served : Served records isWaiting watcher) (status : CloudStatus) :
    Served records isWaiting (watcher.onError status) := by
  have received := received_onError watcher status
  have same : (watcher.onError status).state = watcher.state ∧
      (watcher.onError status).unacked = watcher.unacked ∧
      (watcher.onError status).reported = watcher.reported := by
    unfold PageWatcher.onError
    split <;> exact ⟨rfl, rfl, rfl⟩
  obtain ⟨state, unacked, reported⟩ := same
  exact ⟨state ▸ served.notReplaced, unacked ▸ served.few,
    by rw [state, unacked, reported, received]; exact served.connected,
    by rw [state, unacked, reported, received]; exact served.disconnected⟩

/-- While an acknowledgement is to come, what is reported waits. -/
theorem Served.report (served : Served records true watcher) {more : List CloudRecord}
    (outstanding : more ≠ [] → watcher.state = .connected → 0 < watcher.unacked) :
    Served (records ++ more) true (watcher.report more) where
  __ := served
  connected isConnected := by
    obtain ⟨same, waits, -⟩ := served.connected isConnected
    refine ⟨?_, fun notEmpty => ?_, fun _ => rfl⟩
    · rw [map_append, ← append_assoc]
      exact (congrArg (· ++ more.map commit) same).trans map_append.symm
    · by_cases noMore : more = []
      · rw [noMore, append_nil] at notEmpty
        exact waits notEmpty
      · exact outstanding noMore isConnected
  disconnected isDisconnected := by
    obtain ⟨unacked, isPrefix⟩ := served.disconnected isDisconnected
    refine ⟨unacked, isPrefix.trans ?_⟩
    exact (prefix_append _ _).map commit

/-- Where no acknowledgement is to come, what is reported can be sent. -/
theorem Served.ready_report (served : Served records false watcher) (more : List CloudRecord) :
    Ready (records ++ more) (watcher.report more) where
  notReplaced := served.notReplaced
  unacked := by
    cases state : watcher.state with
    | connected =>
      by_contra positive
      exact absurd ((served.connected state).2.2 (Nat.pos_of_ne_zero positive)) (by decide)
    | replaced => exact absurd state served.notReplaced
    | disconnected => exact (served.disconnected state).1
  connected isConnected := by
    rw [map_append, ← append_assoc]
    exact (congrArg (· ++ more.map commit) (served.connected isConnected).1).trans
      map_append.symm
  disconnected isDisconnected :=
    (served.disconnected isDisconnected).2.trans ((prefix_append _ _).map commit)

theorem Served.acknowledge (served : Served records isWaiting watcher) :
    Ready records watcher.acknowledge where
  notReplaced := served.notReplaced
  unacked := by
    have few := served.few
    change watcher.unacked - 1 = 0
    omega
  connected isConnected := (served.connected isConnected).1
  disconnected isDisconnected := (served.disconnected isDisconnected).2

/-- The pipe is closed by its other end, and what waits is not received. -/
theorem Served.disconnect (served : Served records isWaiting watcher) (isWaiting' : Bool) :
    Served records isWaiting' (watcher.close .disconnected) := by
  cases state : watcher.state with
  | connected =>
    have isClosed : watcher.close .disconnected =
        { watcher with state := .disconnected, unacked := 0 } := if_pos state
    rw [isClosed]
    refine ⟨fun isReplaced => ?_, Nat.zero_le 1, fun isConnected => ?_, fun _ => ⟨rfl, ?_⟩⟩
    · cases isReplaced
    · cases isConnected
    · exact ⟨_, (served.connected state).1⟩
  | replaced => exact absurd state served.notReplaced
  | disconnected =>
    have isSame : watcher.close .disconnected = watcher := if_neg (by simp [state])
    rw [isSame]
    exact ⟨served.notReplaced, served.few, fun isConnected => by simp [state] at isConnected,
      served.disconnected⟩

theorem Served.replace (served : Served [] isWaiting watcher) : Past (watcher.close .replaced) := by
  cases state : watcher.state with
  | connected =>
    have isClosed : watcher.close .replaced =
        { watcher with state := .replaced, unacked := 0 } := if_pos state
    have same := (served.connected state).1
    rw [map_nil, append_nil] at same
    rw [isClosed]
    exact ⟨rfl, ⟨[], (append_nil _).trans same⟩, fun _ => same⟩
  | replaced => exact absurd state served.notReplaced
  | disconnected =>
    have isSame : watcher.close .replaced = watcher := if_neg (by simp [state])
    rw [isSame]
    obtain ⟨unacked, isPrefix⟩ := served.disconnected state
    exact ⟨unacked, isPrefix, fun isReplaced => absurd isReplaced served.notReplaced⟩

theorem Served.received_isPrefix (served : Served records isWaiting watcher) :
    watcher.received <+: watcher.reported.map commit := by
  cases state : watcher.state with
  | connected => exact ⟨_, (served.connected state).1⟩
  | replaced => exact absurd state served.notReplaced
  | disconnected => exact (served.disconnected state).2

end PageWatcher

namespace PageCloud

/-- The watchers before the current one are past, and the handler watches only for a watcher. -/
structure Registered (cloud : PageCloud) : Prop where
  checks : cloud.checkFailed = false
  watches : cloud.watches.isSome = true → cloud.handlerWatcherSet = true ∧
    cloud.watcher.isSome = true
  requests : cloud.tokenRequests ≠ [] → cloud.watcher.isSome = true
  earlier : ∀ watcher ∈ cloud.earlier, watcher.Past

/-- The invariant of `PageCloudImpl`. -/
structure Serves (cloud : PageCloud) : Prop where
  registered : Registered cloud
  served : ∀ watcher ∈ cloud.watcher,
    watcher.Served cloud.records cloud.waitingForRemoteCommitsAck

variable {cloud next : PageCloud} {event : PageCloudEvent}

theorem serves_start : Serves start :=
  ⟨⟨rfl, fun isWatched => absurd isWatched (by decide), absurd rfl,
    fun _ inNil => absurd inNil not_mem_nil⟩, fun _ isWatcher => absurd isWatcher (by simp [start])⟩

theorem Registered.withWatcher (registered : Registered cloud)
    (change : PageWatcher → PageWatcher) : Registered (cloud.withWatcher change) :=
  ⟨registered.checks, fun isWatched => by
      simpa [PageCloud.withWatcher] using registered.watches isWatched,
    fun notEmpty => by simpa [PageCloud.withWatcher] using registered.requests notEmpty,
    registered.earlier⟩

theorem mem_withWatcher {change : PageWatcher → PageWatcher} {watcher : PageWatcher}
    (isWatcher : watcher ∈ (cloud.withWatcher change).watcher) :
    ∃ before ∈ cloud.watcher, watcher = change before := by
  obtain ⟨before, isBefore, rfl⟩ := map_eq_some_iff.mp isWatcher
  exact ⟨before, isBefore, rfl⟩

theorem serves_sendRemoteCommits (registered : Registered cloud)
    (ready : ∀ watcher ∈ cloud.watcher, watcher.Ready cloud.records) :
    Serves cloud.sendRemoteCommits := by
  unfold sendRemoteCommits
  split
  · rename_i noRecords
    refine ⟨registered, fun watcher isWatcher => ?_⟩
    have isReady := ready watcher isWatcher
    rw [noRecords] at isReady ⊢
    exact isReady.served
  · have sent := registered.withWatcher fun watcher => watcher.onNewCommits
      (convertRecords cloud.records).1 (convertRecords cloud.records).2
    refine ⟨⟨sent.checks, sent.watches, sent.requests, sent.earlier⟩, fun watcher isWatcher => ?_⟩
    obtain ⟨before, isBefore, rfl⟩ := mem_withWatcher isWatcher
    exact (ready before isBefore).onNewCommits _

theorem Serves.onRemoteCommits (serves : Serves cloud) (isWatched : cloud.watches.isSome = true)
    {records : List CloudRecord} (isReady : ReadyFor cloud (.remoteCommits records)) :
    Serves (cloud.onRemoteCommits records) := by
  obtain ⟨isSet, isThere⟩ := serves.registered.watches isWatched
  have reported := serves.registered.withWatcher fun watcher => watcher.report records
  have registered : Registered (cloud.keepRecords records) :=
    ⟨by simpa [keepRecords] using isThere, reported.watches, reported.requests, reported.earlier⟩
  unfold PageCloud.onRemoteCommits
  split
  · rename_i isWaiting
    refine ⟨registered, fun watcher isWatcher => ?_⟩
    obtain ⟨before, isBefore, rfl⟩ := mem_withWatcher isWatcher
    have served := serves.served before isBefore
    change PageWatcher.Served (cloud.records ++ records) cloud.waitingForRemoteCommitsAck _
    rw [isWaiting] at served ⊢
    exact served.report fun notEmpty => isReady notEmpty isWaiting before isBefore
  · rename_i notWaiting
    refine serves_sendRemoteCommits registered fun watcher isWatcher => ?_
    obtain ⟨before, isBefore, rfl⟩ := mem_withWatcher isWatcher
    have served := serves.served before isBefore
    rw [Bool.eq_false_iff.mpr notWaiting] at served
    exact served.ready_report records

theorem Registered.unregister (registered : Registered cloud)
    (isSet : cloud.handlerWatcherSet = true) : Registered cloud.unregister :=
  ⟨by simp [PageCloud.unregister, registered.checks, isSet],
    fun isWatched => by simp [PageCloud.unregister] at isWatched, registered.requests,
    registered.earlier⟩

section

variable (serves : Serves cloud)
include serves

theorem Serves.onHandlerError (isWatched : cloud.watches.isSome = true)
    (status : CloudStatus) : Serves (cloud.onHandlerError status) := by
  obtain ⟨isSet, isThere⟩ := serves.registered.watches isWatched
  have told := serves.registered.withWatcher fun watcher => watcher.onError status
  have registered : Registered { cloud.withWatcher fun watcher => watcher.onError status with
      checkFailed := cloud.watcher.isNone } :=
    ⟨by simpa using isThere, told.watches, told.requests, told.earlier⟩
  refine ⟨registered.unregister isSet, fun watcher isWatcher => ?_⟩
  obtain ⟨before, isBefore, rfl⟩ := mem_withWatcher isWatcher
  exact (serves.served before isBefore).onError status

theorem Serves.setWatcher (noRecords : cloud.records = [])
    (minPositionToken : Bytes) : Serves (cloud.setWatcher minPositionToken) := by
  refine ⟨⟨serves.registered.checks,
    fun isWatched => ⟨(serves.registered.watches isWatched).1, rfl⟩,
    fun _ => rfl, fun watcher inEarlier => ?_⟩, fun watcher isWatcher => ?_⟩
  · rcases mem_append.mp inEarlier with inOld | inNew
    · exact serves.registered.earlier watcher inOld
    · obtain ⟨before, isBefore, rfl⟩ := mem_map.mp inNew
      have served := serves.served before (mem_toList.mp isBefore)
      rw [noRecords] at served
      exact served.replace
  · cases isWatcher
    change PageWatcher.Served cloud.records _ _
    rw [noRecords]
    exact PageWatcher.served_start _

theorem Serves.onFirebaseToken (isThere : cloud.watcher.isSome = true)
    (minTimestamp : Bytes) (authToken : Option Bytes) :
    Serves (cloud.onFirebaseToken minTimestamp authToken) := by
  have registered := serves.registered
  cases authToken with
  | none =>
    have told := registered.withWatcher fun watcher => watcher.onError .authError
    refine ⟨⟨told.checks, told.watches, told.requests, told.earlier⟩, fun watcher isWatcher => ?_⟩
    obtain ⟨before, isBefore, rfl⟩ := mem_withWatcher isWatcher
    exact (serves.served before isBefore).onError .authError
  | some authToken => exact ⟨⟨registered.checks, fun _ => ⟨rfl, isThere⟩, registered.requests,
      registered.earlier⟩, serves.served⟩

theorem Serves.onAck : Serves cloud.onAck := by
  have acknowledged := serves.registered.withWatcher PageWatcher.acknowledge
  refine serves_sendRemoteCommits ⟨acknowledged.checks, acknowledged.watches,
    acknowledged.requests, acknowledged.earlier⟩ fun watcher isWatcher => ?_
  obtain ⟨before, isBefore, rfl⟩ := mem_withWatcher isWatcher
  exact (serves.served before isBefore).acknowledge

end

theorem Registered.unregisterIfSet (registered : Registered cloud) :
    Registered cloud.unregisterIfSet := by
  unfold PageCloud.unregisterIfSet
  split
  · rename_i isSet
    exact registered.unregister isSet
  · exact registered

theorem same_unregisterIfSet (cloud : PageCloud) : cloud.unregisterIfSet.records = cloud.records ∧
    cloud.unregisterIfSet.watcher = cloud.watcher := by
  unfold unregisterIfSet
  split <;> exact ⟨rfl, rfl⟩

theorem Serves.onDisconnect (serves : Serves cloud) : Serves cloud.onDisconnect := by
  have closed := serves.registered.withWatcher fun watcher => watcher.close .disconnected
  have registered := closed.unregisterIfSet
  obtain ⟨sameRecords, sameWatcher⟩ := same_unregisterIfSet
    (cloud.withWatcher fun watcher => watcher.close .disconnected)
  refine ⟨⟨registered.checks, registered.watches, registered.requests, registered.earlier⟩,
    fun watcher isWatcher => ?_⟩
  obtain ⟨before, isBefore, rfl⟩ := mem_withWatcher (sameWatcher ▸ isWatcher)
  change PageWatcher.Served (unregisterIfSet _).records _ _
  rw [sameRecords]
  exact (serves.served before isBefore).disconnect false

/-- Each step keeps the invariant that finds the cloud ready. -/
theorem Serves.step (serves : Serves cloud)
    (isReady : ReadyFor cloud event) (isStep : cloud.step event = some next) : Serves next := by
  have running : ¬cloud.checkFailed = true := by simp [serves.registered.checks]
  cases event with
  | remoteCommits records =>
    simp only [PageCloud.step, if_neg running, ite_none_right_eq_some, some.injEq] at isStep
    obtain ⟨isWatched, rfl⟩ := isStep
    exact serves.onRemoteCommits isWatched isReady
  | connectionError | tokenExpired | malformedNotification =>
    simp only [PageCloud.step, if_neg running, ite_none_right_eq_some, some.injEq] at isStep
    obtain ⟨isWatched, rfl⟩ := isStep
    exact serves.onHandlerError isWatched _
  | setWatcher minPositionToken =>
    simp only [PageCloud.step, if_neg running, some.injEq] at isStep
    subst isStep
    exact serves.setWatcher isReady minPositionToken
  | firebaseToken index authToken =>
    simp only [PageCloud.step, if_neg running, map_eq_some_iff] at isStep
    obtain ⟨minTimestamp, isRequest, rfl⟩ := isStep
    have registered := serves.registered
    have notEmpty : cloud.tokenRequests ≠ [] := by
      rintro isNil
      simp [isNil] at isRequest
    have isThere := registered.requests notEmpty
    have taken : Serves { cloud with tokenRequests := cloud.tokenRequests.eraseIdx index } :=
      ⟨⟨registered.checks, registered.watches, fun _ => isThere, registered.earlier⟩, serves.served⟩
    exact taken.onFirebaseToken isThere minTimestamp authToken
  | ack =>
    simp only [PageCloud.step, if_neg running, ite_none_right_eq_some, some.injEq] at isStep
    obtain ⟨-, rfl⟩ := isStep
    exact serves.onAck
  | disconnect =>
    simp only [PageCloud.step, if_neg running, ite_none_right_eq_some, some.injEq] at isStep
    obtain ⟨-, rfl⟩ := isStep
    exact serves.onDisconnect

theorem Serves.deliversCommits (serves : Serves cloud) : DeliversCommits cloud where
  checks := serves.registered.checks
  once := by
    have noneEarlier : (cloud.earlier.map PageWatcher.unacked).sum = 0 := by
      refine List.sum_eq_zero_iff_forall_eq_nat.mpr fun count inCounts => ?_
      obtain ⟨watcher, inEarlier, rfl⟩ := List.mem_map.mp inCounts
      exact (serves.registered.earlier watcher inEarlier).unacked
    rw [watchers, map_append, sum_append, noneEarlier, Nat.zero_add]
    cases isWatcher : cloud.watcher with
    | none => exact Nat.zero_le 1
    | some watcher => simpa using (serves.served watcher isWatcher).few
  inOrder watcher inWatchers := by
    rcases mem_append.mp inWatchers with inEarlier | isCurrent
    · exact (serves.registered.earlier watcher inEarlier).received
    · exact (serves.served watcher (mem_toList.mp isCurrent)).received_isPrefix
  replaced watcher inWatchers isReplaced := by
    rcases mem_append.mp inWatchers with inEarlier | isCurrent
    · exact (serves.registered.earlier watcher inEarlier).replaced isReplaced
    · exact absurd isReplaced (serves.served watcher (mem_toList.mp isCurrent)).notReplaced
  connected watcher isWatcher isConnected :=
    ((serves.served watcher isWatcher).connected isConnected).1
  outstanding watcher isWatcher isConnected :=
    ((serves.served watcher isWatcher).connected isConnected).2.1

/-- A step that does not find the cloud ready leaves commits waiting without an acknowledgement
to come. -/
theorem readyFor_of_deliversCommits (isStep : cloud.step event = some next)
    (delivers : DeliversCommits next) : ReadyFor cloud event := by
  have running : ¬cloud.checkFailed = true := by
    intro failed
    simp [step, failed] at isStep
  cases event with
  | setWatcher minPositionToken =>
    simp only [step, if_neg running, some.injEq] at isStep
    subst isStep
    by_contra notEmpty
    exact absurd (delivers.outstanding _ rfl rfl notEmpty) (lt_irrefl 0)
  | remoteCommits records =>
    simp only [step, if_neg running, ite_none_right_eq_some, some.injEq] at isStep
    obtain ⟨-, rfl⟩ := isStep
    intro notEmpty isWaiting watcher isWatcher isConnected
    have isKept : cloud.onRemoteCommits records = cloud.keepRecords records := by
      rw [onRemoteCommits, if_pos isWaiting]
    rw [isKept] at delivers
    refine delivers.outstanding (watcher.report records) ?_ isConnected ?_
    · exact congrArg (Option.map fun watcher => watcher.report records) isWatcher
    · exact fun isNil => notEmpty (append_eq_nil_iff.mp isNil).2
  | connectionError | tokenExpired | malformedNotification | firebaseToken _ _ | ack
  | disconnect => trivial

end PageCloud

/-- Watchers get what they should in every state of exactly the runs whose steps find the cloud
ready. -/
theorem deliversCommits_run (events : List PageCloudEvent) {final : PageCloud}
    (isRun : runSteps PageCloud.step PageCloud.start events = some final) : EachStep PageCloud.step
        (fun cloud event => ∀ next ∈ cloud.step event, DeliversCommits next) PageCloud.start
        events ↔ EachStep PageCloud.step ReadyFor PageCloud.start events :=
  eachStep_next_iff PageCloud.Serves (fun serves => serves.step) DeliversCommits
    PageCloud.Serves.deliversCommits (fun _ => PageCloud.readyFor_of_deliversCommits)
    PageCloud.serves_start isRun

def sampleRecord (letter : Char) : CloudRecord :=
  ⟨⟨ascii [letter], []⟩, serverTimestampToBytes 42, 0, 1⟩

def samplePageCloudEvents : List PageCloudEvent :=
  [.setWatcher [], .firebaseToken 0 (some []), .remoteCommits [sampleRecord 'a'],
    .connectionError, .setWatcher [], .firebaseToken 0 (some [])]

theorem deliversCommits_run_sample : EachStep PageCloud.step
      (fun cloud event => ∀ next ∈ cloud.step event, DeliversCommits next) PageCloud.start
      samplePageCloudEvents ↔
    EachStep PageCloud.step ReadyFor PageCloud.start samplePageCloudEvents :=
  deliversCommits_run samplePageCloudEvents rfl

/-- The acknowledgement of the first watcher never comes, and the second one gets nothing. -/
theorem not_deliversCommits_run : ∃ final, runSteps PageCloud.step PageCloud.start
      (samplePageCloudEvents ++ [.remoteCommits [sampleRecord 'b']]) = some final ∧
    ¬DeliversCommits final := by
  refine ⟨_, rfl, fun delivers => ?_⟩
  exact absurd (delivers.outstanding _ rfl rfl (cons_ne_nil _ _)) (lt_irrefl 0)

end Peridot
