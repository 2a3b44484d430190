import Peridot.CloudCommits
import Peridot.StepRun

/-!
# Watching the commits in the cloud

`WatchClientImpl` takes the records that Firebase sends together to batches, and gives a batch to
its watcher when it is complete.  After an error it is not called any more.
-/

namespace Peridot

open List

/-- The calls of a `CommitWatcher`. -/
inductive WatcherCall
  | onRemoteCommits (records : List CloudRecord)
  | onConnectionError
  | onTokenExpired
  | onMalformedNotification

/-- `WatchClientImpl`. `watched` is whether Firebase has it as a watch client, `told` what the
commit watcher has been told, `handled` the number of calls of `HandleError`. An assertion that
fails in `HandleError` ends the program, and so do the other assertions. -/
structure WatchClient where
  errored : Bool
  batch : List CloudRecord
  batchTimestamp : Bytes
  batchSize : ℕ
  watched : Bool
  told : List WatcherCall
  handled : ℕ
  assertionFailed : Bool
  aborted : Bool

inductive FirebaseEvent
  | put (path : Bytes) (value : JsonValue)
  | patch (path : Bytes) (value : JsonValue)
  | cancel
  | authRevoked
  | malformedEvent
  | connectionError

def positionLess (lhs rhs : CloudRecord) : Bool :=
  decide (lhs.batchPosition < rhs.batchPosition)

def rootPath : Bytes :=
  ascii ['/']

def maxBatchSize : ℕ :=
  2 ^ 63

namespace WatchClient

def start : WatchClient :=
  ⟨false, [], [], 0, true, [], 0, false, false⟩

def ended (client : WatchClient) : Bool :=
  client.assertionFailed || client.aborted

def handleError (client : WatchClient) : WatchClient :=
  { client with
    errored := true
    watched := false
    handled := client.handled + 1
    assertionFailed := client.errored }

/-- `HandleError`, and the call of the watcher after it. -/
def reportError (client : WatchClient) (call : WatcherCall) : WatchClient :=
  { client.handleError with told := client.told ++ [call] }

def handleDecodingError (client : WatchClient) : WatchClient :=
  client.reportError .onMalformedNotification

variable (code : CloudCode)

def commitBatch (client : WatchClient) : WatchClient :=
  { client with
    told := client.told ++ [.onRemoteCommits (code.std.sort positionLess client.batch)]
    batch := []
    batchTimestamp := []
    batchSize := 0 }

def addRecord (client : WatchClient) (record : CloudRecord) : WatchClient :=
  let client := { client with batch := client.batch ++ [record] }
  if client.batch.length = client.batchSize then client.commitBatch code else client

/-- `ProcessRecord`. A batch cannot be reserved that is larger than any vector. -/
def processRecord (client : WatchClient) (record : CloudRecord) : WatchClient :=
  if client.ended then
    client
  else if client.batchTimestamp ≠ [] then
    if record.timestamp ≠ client.batchTimestamp then client.handleError
    else if record.batchSize ≠ client.batchSize then client.handleError
    else client.addRecord code record
  else if maxBatchSize ≤ record.batchSize then
    { client with aborted := true }
  else
    { client with
      batchTimestamp := record.timestamp
      batchSize := record.batchSize }.addRecord code record

def processDecoded (client : WatchClient) :
    Except CloudCode.DecodeError (List CloudRecord) → WatchClient
  | .ok records => records.foldl (processRecord code) client
  | .error .malformed => client.handleDecodingError
  | .error .assertion => { client with aborted := true }

end WatchClient

/-- The records that `Handle` decodes from a value. -/
def decodeEvent (code : CloudCode) (path : Bytes) :
    JsonValue → Except CloudCode.DecodeError (List CloudRecord)
  | .object members =>
    if path = rootPath then code.decodeMultipleCommitsFromValue members
    else if rootPath <+: path then (code.decodeCommitFromValue members).map fun record => [record]
    else .error .malformed
  | .null => if path = rootPath then .ok [] else .error .malformed
  | _ => .error .malformed

namespace WatchClient

variable (code : CloudCode)

def handle (client : WatchClient) (path : Bytes) (value : JsonValue) : WatchClient :=
  if client.errored then client else client.processDecoded code (decodeEvent code path value)

def receive (client : WatchClient) : FirebaseEvent → WatchClient
  | .put path value => client.handle code path value
  | .patch path value => client.handle code path value
  | .cancel => client.reportError .onConnectionError
  | .authRevoked => client.reportError .onTokenExpired
  | .malformedEvent => client.reportError .onMalformedNotification
  | .connectionError => client.reportError .onConnectionError

/-- Firebase sends an event; a client that it does not have any more is not called. -/
def step (client : WatchClient) (event : FirebaseEvent) : Option WatchClient :=
  if client.ended then none
  else if client.watched then some (client.receive code event)
  else some client

end WatchClient

def WatcherCall.isError : WatcherCall → Bool
  | .onRemoteCommits _ => false
  | _ => true

/-- The error state is entered once at most, and the watcher is told of it once, after all commits
that it gets. -/
structure TellsErrorOnce (client : WatchClient) : Prop where
  noFailure : client.assertionFailed = false
  once : client.handled = client.errored.toNat
  told : ∃ (groups : List (List CloudRecord)) (errors : List WatcherCall),
    client.told = groups.map .onRemoteCommits ++ errors ∧ errors.length = client.handled ∧
      ∀ call ∈ errors, call.isError = true

/-- Whether records that come one after the other fit together: a batch of some timestamp and size,
of which some records are there, is completed before another one begins. -/
def recordsFit : Bytes → ℕ → ℕ → List CloudRecord → Bool
  | _, _, _, [] => true
  | timestamp, size, count, record :: records =>
    if timestamp ≠ [] then
      record.timestamp = timestamp && record.batchSize = size &&
        (if count + 1 = size then recordsFit [] 0 0 records
          else recordsFit timestamp size (count + 1) records)
    else if maxBatchSize ≤ record.batchSize then true
    else if count + 1 = record.batchSize then recordsFit [] 0 0 records
    else recordsFit record.timestamp record.batchSize (count + 1) records

/-- While the client is watched, the commits of an event fit what it has of a batch. -/
def EventFits (code : CloudCode) (client : WatchClient) : FirebaseEvent → Prop
  | .put path value | .patch path value => client.watched = true →
      ∀ records, decodeEvent code path value = .ok records →
        recordsFit client.batchTimestamp client.batchSize client.batch.length records = true
  | _ => True

namespace WatchClient

variable {code : CloudCode}

theorem addRecord_eq (client : WatchClient) (record : CloudRecord) : client.addRecord code record =
      if client.batch.length + 1 = client.batchSize then
        { client with
          told := client.told ++
            [.onRemoteCommits (code.std.sort positionLess (client.batch ++ [record]))]
          batch := []
          batchTimestamp := []
          batchSize := 0 }
      else { client with batch := client.batch ++ [record] } := by
  simp [addRecord, commitBatch]

variable (code) in
theorem told_processRecord (client : WatchClient) (record : CloudRecord) :
    ∃ groups : List (List CloudRecord),
      (client.processRecord code record).told = client.told ++ groups.map .onRemoteCommits := by
  have same : client.told = client.told ++ ([] : List (List CloudRecord)).map .onRemoteCommits :=
    (append_nil _).symm
  unfold processRecord
  split
  · exact ⟨[], same⟩
  · split
    · split
      · exact ⟨[], same⟩
      · split
        · exact ⟨[], same⟩
        · rw [addRecord_eq]
          split
          · exact ⟨[_], rfl⟩
          · exact ⟨[], same⟩
    · split
      · exact ⟨[], same⟩
      · rw [addRecord_eq]
        split
        · exact ⟨[_], rfl⟩
        · exact ⟨[], same⟩

variable {client : WatchClient}

variable (code) in
/-- The error state is not left while records are processed. -/
theorem handled_processRecord (record : CloudRecord)
    (isErrored : client.errored = true ∧ client.watched = false ∧ 0 < client.handled) :
    (client.processRecord code record).errored = true ∧
      (client.processRecord code record).watched = false ∧
      0 < (client.processRecord code record).handled := by
  obtain ⟨errored, watched, handled⟩ := isErrored
  unfold processRecord handleError
  simp only [addRecord_eq]
  grind

theorem foldl_of_ended (ended : client.ended = true)
    (records : List CloudRecord) : records.foldl (processRecord code) client = client := by
  induction records with
  | nil => rfl
  | cons record records ih =>
    rw [foldl_cons, processRecord, if_pos ended]
    exact ih

structure SameErrors (before after : WatchClient) : Prop where
  errored : after.errored = before.errored
  watched : after.watched = before.watched
  handled : after.handled = before.handled
  assertionFailed : after.assertionFailed = before.assertionFailed

theorem SameErrors.trans {first second third : WatchClient} (before : SameErrors first second)
    (after : SameErrors second third) : SameErrors first third :=
  ⟨after.errored.trans before.errored, after.watched.trans before.watched,
    after.handled.trans before.handled, after.assertionFailed.trans before.assertionFailed⟩

variable (code) in
theorem fit_addRecord (client : WatchClient) (record : CloudRecord) (records : List CloudRecord) :
    SameErrors client (client.addRecord code record) ∧
      (client.addRecord code record).ended = client.ended ∧
      recordsFit (client.addRecord code record).batchTimestamp
          (client.addRecord code record).batchSize (client.addRecord code record).batch.length
          records = if client.batch.length + 1 = client.batchSize then recordsFit [] 0 0 records
        else recordsFit client.batchTimestamp client.batchSize (client.batch.length + 1)
          records := by
  rw [addRecord_eq]
  split
  · exact ⟨⟨rfl, rfl, rfl, rfl⟩, rfl, rfl⟩
  · refine ⟨⟨rfl, rfl, rfl, rfl⟩, rfl, ?_⟩
    simp

variable (code) in
/-- The client after a record, while it has not ended: the record is added, or ends the program, or
does not fit. -/
theorem processRecord_cases (running : client.ended = false)
    (record : CloudRecord) (records : List CloudRecord) :
    (SameErrors client (client.processRecord code record) ∧
      ((client.processRecord code record).ended = true ∧
          recordsFit client.batchTimestamp client.batchSize client.batch.length
            (record :: records) = true ∨ (client.processRecord code record).ended = false ∧
          recordsFit client.batchTimestamp client.batchSize client.batch.length
              (record :: records) = recordsFit (client.processRecord code record).batchTimestamp
              (client.processRecord code record).batchSize
              (client.processRecord code record).batch.length records)) ∨
      client.processRecord code record = client.handleError ∧
        recordsFit client.batchTimestamp client.batchSize client.batch.length
          (record :: records) = false := by
  have notEnded : ¬client.ended = true := by simp [running]
  by_cases pending : client.batchTimestamp ≠ []
  · by_cases otherTime : record.timestamp ≠ client.batchTimestamp
    · refine .inr ⟨?_, ?_⟩
      · simp only [processRecord, if_neg notEnded, if_pos pending, if_pos otherTime]
      · simp [recordsFit, pending, otherTime]
    · by_cases otherSize : record.batchSize ≠ client.batchSize
      · refine .inr ⟨?_, ?_⟩
        · simp only [processRecord, if_neg notEnded, if_pos pending, if_neg otherTime,
            if_pos otherSize]
        · simp [recordsFit, pending, otherSize]
      · have isAdd : client.processRecord code record = client.addRecord code record := by
          simp [processRecord, if_neg notEnded, if_pos pending, if_neg otherTime, if_neg otherSize]
        obtain ⟨same, sameEnd, rest⟩ := fit_addRecord code client record records
        rw [isAdd]
        refine .inl ⟨same, .inr ⟨sameEnd.trans running, ?_⟩⟩
        rw [rest, recordsFit, if_pos pending, not_ne_iff.mp otherTime, not_ne_iff.mp otherSize]
        simp
  · by_cases tooLarge : maxBatchSize ≤ record.batchSize
    · have isEnd : client.processRecord code record = { client with aborted := true } := by
        simp only [processRecord, if_neg notEnded, if_neg pending, if_pos tooLarge]
      rw [isEnd]
      refine .inl ⟨⟨rfl, rfl, rfl, rfl⟩, .inl ⟨by simp [ended], ?_⟩⟩
      rw [recordsFit, if_neg pending, if_pos tooLarge]
    · have isAdd : client.processRecord code record = { client with
            batchTimestamp := record.timestamp
            batchSize := record.batchSize }.addRecord code record := by
        simp only [processRecord, if_neg notEnded, if_neg pending, if_neg tooLarge]
      obtain ⟨same, sameEnd, rest⟩ := fit_addRecord code
        { client with
          batchTimestamp := record.timestamp
          batchSize := record.batchSize } record records
      rw [isAdd]
      refine .inl ⟨⟨same.errored, same.watched, same.handled, same.assertionFailed⟩,
        .inr ⟨sameEnd.trans running, ?_⟩⟩
      rw [rest, recordsFit, if_neg pending, if_neg tooLarge]

variable {records : List CloudRecord}

theorem sameErrors_of_fit (running : client.ended = false)
    (fit : recordsFit client.batchTimestamp client.batchSize
      client.batch.length records = true) :
    SameErrors client (records.foldl (processRecord code) client) := by
  induction records generalizing client with
  | nil => exact ⟨rfl, rfl, rfl, rfl⟩
  | cons record records ih =>
    rcases processRecord_cases code running record records with
      ⟨same, ⟨isEnd, _⟩ | ⟨goesOn, rest⟩⟩ | ⟨_, unfit⟩
    · rw [foldl_cons, foldl_of_ended isEnd]
      exact same
    · rw [foldl_cons]
      exact same.trans (ih goesOn (rest ▸ fit))
    · exact nomatch unfit.symm.trans fit

structure Silent (client : WatchClient) : Prop where
  errored : client.errored = true
  watched : client.watched = false
  handled : 0 < client.handled
  told : ∃ groups : List (List CloudRecord), client.told = groups.map .onRemoteCommits

theorem Silent.foldl (silent : Silent client)
    (records : List CloudRecord) : Silent (records.foldl (processRecord code) client) := by
  induction records generalizing client with
  | nil => exact silent
  | cons record records ih =>
    obtain ⟨errored, watched, handled⟩ :=
      handled_processRecord code record ⟨silent.errored, silent.watched, silent.handled⟩
    obtain ⟨groups, isTold⟩ := silent.told
    obtain ⟨others, alsoTold⟩ := told_processRecord code client record
    refine ih ⟨errored, watched, handled, groups ++ others, ?_⟩
    rw [alsoTold, isTold, map_append]

/-- Records that do not fit lead to an error that the watcher does not hear of. -/
theorem silent_of_unfit (running : client.ended = false)
    (told : ∃ groups : List (List CloudRecord), client.told = groups.map .onRemoteCommits)
    (unfit : recordsFit client.batchTimestamp client.batchSize
      client.batch.length records = false) :
    Silent (records.foldl (processRecord code) client) := by
  induction records generalizing client with
  | nil => cases unfit
  | cons record records ih =>
    rw [foldl_cons]
    rcases processRecord_cases code running record records with
      ⟨_, ⟨_, fit⟩ | ⟨goesOn, rest⟩⟩ | ⟨isError, _⟩
    · exact nomatch fit.symm.trans unfit
    · obtain ⟨groups, isTold⟩ := told
      obtain ⟨others, alsoTold⟩ := told_processRecord code client record
      refine ih goesOn ⟨groups ++ others, ?_⟩ (rest ▸ unfit)
      rw [alsoTold, isTold, map_append]
    · have silent : Silent client.handleError := ⟨rfl, rfl, Nat.succ_pos _, told⟩
      rw [isError]
      exact silent.foldl records

theorem told_foldl (client : WatchClient) (records : List CloudRecord) :
    ∃ groups : List (List CloudRecord), (records.foldl (processRecord code) client).told =
        client.told ++ groups.map .onRemoteCommits := by
  induction records generalizing client with
  | nil => exact ⟨[], (append_nil _).symm⟩
  | cons record records ih =>
    obtain ⟨groups, isTold⟩ := told_processRecord code client record
    obtain ⟨others, alsoTold⟩ := ih (client.processRecord code record)
    refine ⟨groups ++ others, ?_⟩
    rw [foldl_cons, alsoTold, isTold, map_append, append_assoc]

structure Quiet (client : WatchClient) : Prop where
  errored : client.errored = false
  watched : client.watched = true
  handled : client.handled = 0
  assertionFailed : client.assertionFailed = false
  told : ∃ groups : List (List CloudRecord), client.told = groups.map .onRemoteCommits

structure Reported (client : WatchClient) : Prop where
  errored : client.errored = true
  watched : client.watched = false
  handled : client.handled = 1
  assertionFailed : client.assertionFailed = false
  told : ∃ (groups : List (List CloudRecord)) (call : WatcherCall),
    client.told = groups.map .onRemoteCommits ++ [call] ∧ call.isError = true

theorem Quiet.reportError (quiet : Quiet client) {call : WatcherCall}
    (isError : call.isError = true) : Reported (client.reportError call) where
  errored := rfl
  watched := rfl
  handled := congrArg (· + 1) quiet.handled
  assertionFailed := quiet.errored
  told := by
    obtain ⟨groups, isTold⟩ := quiet.told
    exact ⟨groups, call, congrArg (· ++ [call]) isTold, isError⟩

theorem Quiet.of_sameErrors {before after : WatchClient} (quiet : Quiet before)
    (same : SameErrors before after) (told : ∃ groups : List (List CloudRecord),
      after.told = before.told ++ groups.map .onRemoteCommits) : Quiet after where
  errored := same.errored.trans quiet.errored
  watched := same.watched.trans quiet.watched
  handled := same.handled.trans quiet.handled
  assertionFailed := same.assertionFailed.trans quiet.assertionFailed
  told := by
    obtain ⟨groups, isTold⟩ := quiet.told
    obtain ⟨others, alsoTold⟩ := told
    exact ⟨groups ++ others, by rw [alsoTold, isTold, map_append]⟩

theorem Quiet.processDecoded (quiet : Quiet client) (running : client.ended = false)
    (decoded : Except CloudCode.DecodeError (List CloudRecord)) :
    ((∀ records, decoded = .ok records → recordsFit client.batchTimestamp client.batchSize
        client.batch.length records = true) ∧ (Quiet (client.processDecoded code decoded) ∨
        Reported (client.processDecoded code decoded))) ∨
      ¬(∀ records, decoded = .ok records → recordsFit client.batchTimestamp client.batchSize
        client.batch.length records = true) ∧ Silent (client.processDecoded code decoded) := by
  cases decoded with
  | error failure =>
    refine .inl ⟨fun records isOk => absurd isOk (by simp), ?_⟩
    cases failure with
    | malformed => exact .inr (quiet.reportError rfl)
    | assertion =>
      exact .inl ⟨quiet.errored, quiet.watched, quiet.handled, quiet.assertionFailed, quiet.told⟩
  | ok records =>
    cases fit : recordsFit client.batchTimestamp client.batchSize client.batch.length records with
    | true =>
      refine .inl ⟨fun others isOk => ?_, .inl ?_⟩
      · cases isOk
        exact fit
      · exact quiet.of_sameErrors (sameErrors_of_fit running fit) (told_foldl client records)
    | false =>
      refine .inr ⟨fun allFit => ?_, silent_of_unfit running quiet.told fit⟩
      rw [allFit records rfl] at fit
      cases fit

variable (code) in
/-- An event that fits leads to no error, or to one that the watcher is told of; one that does not
fit leads to a silent error. -/
theorem Quiet.receive (quiet : Quiet client)
    (running : client.ended = false) (event : FirebaseEvent) : EventFits code client event ∧
        (Quiet (client.receive code event) ∨ Reported (client.receive code event)) ∨
      ¬EventFits code client event ∧ Silent (client.receive code event) := by
  have handled : ∀ path value,
      client.handle code path value = client.processDecoded code (decodeEvent code path value) :=
    fun path value => by simp [handle, quiet.errored]
  cases event with
  | put path value | patch path value =>
    simp only [EventFits, WatchClient.receive, handled, quiet.watched, true_imp_iff]
    exact quiet.processDecoded running _
  | cancel | authRevoked | malformedEvent | connectionError =>
    exact .inl ⟨trivial, .inr (quiet.reportError rfl)⟩

theorem eventFits_of_unwatched (unwatched : client.watched = false)
    (event : FirebaseEvent) : EventFits code client event := by
  cases event with
  | put path value | patch path value =>
    intro watched
    exact nomatch unwatched.symm.trans watched
  | cancel | authRevoked | malformedEvent | connectionError => trivial

variable {event : FirebaseEvent} {next : WatchClient}

theorem step_of_unwatched (unwatched : client.watched = false)
    (isStep : client.step code event = some next) : next = client := by
  simp only [step, unwatched, Bool.false_eq_true, if_false] at isStep
  split at isStep
  · cases isStep
  · exact (Option.some.inj isStep).symm

theorem Quiet.tellsErrorOnce (quiet : Quiet client) : TellsErrorOnce client where
  noFailure := quiet.assertionFailed
  once := by rw [quiet.handled, quiet.errored]; rfl
  told := by
    obtain ⟨groups, isTold⟩ := quiet.told
    exact ⟨groups, [], by rw [isTold, append_nil], quiet.handled.symm,
      fun _ inNil => absurd inNil not_mem_nil⟩

theorem Quiet.step (quiet : Quiet client)
    (isStep : WatchClient.step code client event = some next) :
    EventFits code client event ∧ (Quiet next ∨ Reported next) ∨
      ¬EventFits code client event ∧ Silent next := by
  have running : client.ended = false := by
    by_contra ended
    simp [WatchClient.step, ended] at isStep
  obtain rfl : client.receive code event = next := by
    simpa [WatchClient.step, running, quiet.watched] using isStep
  exact quiet.receive code running event

theorem Reported.tellsErrorOnce (reported : Reported client) : TellsErrorOnce client where
  noFailure := reported.assertionFailed
  once := by rw [reported.handled, reported.errored]; rfl
  told := by
    obtain ⟨groups, call, isTold, isError⟩ := reported.told
    exact ⟨groups, [call], isTold, reported.handled.symm,
      fun _ inError => mem_singleton.mp inError ▸ isError⟩

theorem Silent.not_tellsErrorOnce (silent : Silent client) : ¬TellsErrorOnce client := by
  intro tells
  obtain ⟨groups, isTold⟩ := silent.told
  obtain ⟨others, errors, alsoTold, sameLength, areErrors⟩ := tells.told
  have noErrors : errors = [] := by
    refine eq_nil_iff_forall_not_mem.mpr fun call inErrors => ?_
    have inTold : call ∈ groups.map WatcherCall.onRemoteCommits := by
      rw [← isTold, alsoTold]
      exact mem_append_right _ inErrors
    obtain ⟨group, _, rfl⟩ := mem_map.mp inTold
    exact absurd (areErrors _ inErrors) (by simp [WatcherCall.isError])
  have positive := silent.handled
  rw [← sameLength, noErrors] at positive
  exact absurd positive (lt_irrefl 0)

end WatchClient

open WatchClient in
/-- The watcher hears of the error once, and of no commits after it, in exactly the runs in which
the records of every event fit together. -/
theorem tellsErrorOnce_run (code : CloudCode) (events : List FirebaseEvent) {final : WatchClient}
    (isRun : runSteps (WatchClient.step code) WatchClient.start events = some final) :
    TellsErrorOnce final ↔
      EachStep (WatchClient.step code) (EventFits code) WatchClient.start events := by
  refine final_iff_eachStep (fun client => Quiet client ∨ Reported client) ?_ Silent TellsErrorOnce
    (fun state => state.elim Quiet.tellsErrorOnce Reported.tellsErrorOnce)
    Silent.not_tellsErrorOnce ?_ ?_ (.inl ⟨rfl, rfl, rfl, rfl, [], rfl⟩) isRun
  · intro client next event state fits isStep
    rcases state with quiet | reported
    · rcases quiet.step isStep with ⟨-, good⟩ | ⟨unfit, -⟩
      · exact good
      · exact absurd fits unfit
    · obtain rfl := step_of_unwatched reported.watched isStep
      exact .inr reported
  · intro client next event state unfit isStep
    rcases state with quiet | reported
    · rcases quiet.step isStep with ⟨fits, -⟩ | ⟨-, silent⟩
      · exact absurd fits unfit
      · exact silent
    · exact absurd (eventFits_of_unwatched reported.watched event) unfit
  · intro client next event silent isStep
    obtain rfl := step_of_unwatched silent.watched isStep
    exact silent

def sampleRecordValue (letter : Char) (timestamp batchPosition : ℤ) : JsonValue :=
  .object (sampleCloudCode.commitMembers ⟨ascii [letter], []⟩ (.integer timestamp) batchPosition 2)

def sampleFirebaseEvents : List FirebaseEvent :=
  [.put (ascii ['/', 'b']) (sampleRecordValue 'b' 42 1),
    .patch rootPath (.object [(ascii ['a'], sampleRecordValue 'a' 42 0)]),
    .cancel, .connectionError]

theorem tellsErrorOnce_run_sample :
    ∃ final, runSteps (WatchClient.step sampleCloudCode) WatchClient.start
        sampleFirebaseEvents = some final ∧
      (TellsErrorOnce final ↔ EachStep (WatchClient.step sampleCloudCode)
        (EventFits sampleCloudCode) WatchClient.start sampleFirebaseEvents) :=
  ⟨_, rfl, tellsErrorOnce_run sampleCloudCode sampleFirebaseEvents rfl⟩

/-- A record of a later batch comes before the first batch is complete: the error state is entered,
and the watcher is not told. -/
theorem not_tellsErrorOnce_run :
    ∃ final, runSteps (WatchClient.step sampleCloudCode) WatchClient.start
        [.put (ascii ['/', 'a']) (sampleRecordValue 'a' 42 0),
          .put (ascii ['/', 'b']) (sampleRecordValue 'b' 43 0)] = some final ∧
      ¬TellsErrorOnce final := by
  refine ⟨_, rfl, fun tells => ?_⟩
  obtain ⟨groups, errors, isTold, isOnce, -⟩ := tells.told
  have noErrors : errors.length ≤ 0 := by
    have length := congrArg length isTold
    rw [length_append] at length
    exact (Nat.le_add_left _ _).trans length.ge
  rw [isOnce] at noErrors
  exact absurd noErrors (by decide)

end Peridot
