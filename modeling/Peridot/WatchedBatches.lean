import Peridot.WatchClient

/-!
# Batches that are watched

Batches of commits reach the watch client as the records of the commits: those that are in the
cloud already in one event, in any order, and later ones one by one.  The client knows a batch by
its timestamp and its size.
-/

namespace Peridot

open List WatchClient

structure CloudBatch where
  timestamp : Int64
  commits : List CloudCommit

/-- What is in the cloud, and what is put there later. All batches are complete, and each commit is
in one place. -/
structure CloudContent where
  initial : List CloudBatch
  later : List CloudBatch
  notEmpty : ∀ batch ∈ initial ++ later, batch.commits ≠ []
  distinct : (((initial ++ later).flatMap CloudBatch.commits).map CloudCommit.id).Nodup

namespace CloudBatch

def records (batch : CloudBatch) : List CloudRecord :=
  batchRecords batch.commits batch.timestamp

def members (code : CloudCode) (batch : CloudBatch) : List (Bytes × JsonValue) :=
  batch.commits.mapIdx fun position commit =>
    (code.encodeValue commit.id,
      .object (code.commitMembers commit (.integer batch.timestamp.toInt) position
        batch.commits.length))

end CloudBatch

def InitialPut (code : CloudCode) (batches : List CloudBatch) (event : FirebaseEvent) : Prop :=
  ∃ value, event = .put rootPath value ∧
    (JsonValue.Reordered (.object (batches.flatMap (CloudBatch.members code))) value ∨
      batches = [] ∧ value = .null)

/-- A put or a patch of one record, at its own path or as the only member at the root. -/
def SinglePut (member : Bytes × JsonValue) (event : FirebaseEvent) : Prop :=
  ∃ path value, (event = .put path value ∨ event = .patch path value) ∧
    (rootPath <+: path ∧ path ≠ rootPath ∧ JsonValue.SameMembers member.2 value ∨
      path = rootPath ∧ ∃ inner, value = .object [(member.1, inner)] ∧
        JsonValue.SameMembers member.2 inner)

/-- How the content comes: what is there already in one event, and then one batch after the other,
its records in any order. -/
def Delivered (code : CloudCode) (content : CloudContent) (events : List FirebaseEvent) : Prop :=
  ∃ first rest, events = first :: rest ∧ InitialPut code content.initial first ∧
    ∃ orders : List (List (Bytes × JsonValue)),
      List.Forall₂ (fun order batch => order.Perm (CloudBatch.members code batch)) orders
        content.later ∧
      List.Forall₂ SinglePut orders.flatten rest

def passedGroups (told : List WatcherCall) : List (List CloudRecord) :=
  told.filterMap fun call =>
    match call with
    | .onRemoteCommits records => some records
    | _ => none

/-- Every group is a batch in its order, and each batch is passed once. -/
def PassesBatches (client : WatchClient) (batches : List CloudBatch) : Prop :=
  (passedGroups client.told).Perm (batches.map CloudBatch.records)

def SingleAtOnce (first second : CloudBatch) : Prop :=
  first.timestamp = second.timestamp → first.commits.length = 1 ∧ second.commits.length = 1

/-- No batch is too long, and those of one timestamp in the initial content have one commit. -/
def CloudContent.Separate (content : CloudContent) : Prop :=
  (∀ batch ∈ content.initial ++ content.later, batch.commits.length < 2 ^ 31) ∧
    content.initial.Pairwise SingleAtOnce

variable {record : CloudRecord} {order : List CloudRecord}

namespace CloudBatch

variable {batch : CloudBatch}

@[simp]
theorem length_records (batch : CloudBatch) : batch.records.length = batch.commits.length := by
  simp [records, batchRecords]

theorem hasTimestamp_records (inBatch : record ∈ batch.records) :
    HasTimestamp record batch.timestamp :=
  hasTimestamp_batchRecords inBatch

theorem batchSize_records (inBatch : record ∈ batch.records) :
    record.batchSize = batch.commits.length := by
  obtain ⟨position, _, rfl⟩ := mem_mapIdx.mp inBatch
  rfl

theorem pairwise_records (batch : CloudBatch) :
    batch.records.Pairwise fun first second => recordLess first second = true :=
  pairwise_batchRecords _ _

theorem sort_positionLess (std : StdSort CloudRecord)
    (perm : order.Perm batch.records) : std.sort positionLess order = batch.records := by
  refine std.sort_eq ⟨fun first _ second _ => ?_, fun first _ second _ third _ => ?_⟩ ?_ perm.symm
  · simp only [positionLess, decide_eq_true_eq, decide_eq_false_iff_not]
    omega
  · simp only [positionLess, decide_eq_false_iff_not]
    omega
  · refine batch.pairwise_records.imp_of_mem fun {first second} inFirst inSecond isLess => ?_
    rw [recordLess_iff (hasTimestamp_records inFirst) (hasTimestamp_records inSecond)] at isLess
    simp only [positionLess, decide_eq_true_eq]
    omega

end CloudBatch

/-- What holds of all items before an item of which it holds, holds of the first ones. -/
theorem filter_append_of_pairwise {α : Type} {keep : α → Bool} {items : List α}
    (before : items.Pairwise fun first second => keep second = true → keep first = true) :
    items = items.filter keep ++ items.filter fun item => !keep item := by
  induction items with
  | nil => rfl
  | cons item items ih =>
    rw [pairwise_cons] at before
    cases isKept : keep item with
    | true => rw [filter_cons_of_pos isKept, filter_cons_of_neg (by simp [isKept]),
        cons_append, ← ih before.2]
    | false =>
      have noneKept : items.filter keep = [] := by
        refine filter_eq_nil_iff.mpr fun other inItems othersKept => ?_
        rw [before.1 other inItems othersKept] at isKept
        cases isKept
      have allLeft : items.filter (fun item => !keep item) = items := by
        rw [noneKept, nil_append] at ih
        exact (ih before.2).symm
      rw [filter_cons_of_neg (by simp [isKept]),
        filter_cons_of_pos (by simp [isKept]), noneKept, allLeft, nil_append]

theorem SingleAtOnce.symm {first second : CloudBatch} (single : SingleAtOnce first second) :
    SingleAtOnce second first :=
  fun sameTime => (single sameTime.symm).symm

variable {batch : CloudBatch} {event : FirebaseEvent} {events : List FirebaseEvent}
    {member : Bytes × JsonValue} {batches : List CloudBatch}

theorem filter_of_first {head : CloudRecord} {tail : List CloudRecord} {rest : List CloudBatch}
    (perm : (head :: tail).Perm (batch.records ++ rest.flatMap CloudBatch.records))
    (inOrder : (head :: tail).Pairwise fun first second => recordLess second first = false)
    (inBatch : head ∈ batch.records)
    (otherTimes : ∀ other ∈ rest, other.timestamp ≠ batch.timestamp) :
    ∃ left : List CloudRecord, head :: tail = batch.records ++ left ∧
      left.Perm (rest.flatMap CloudBatch.records) := by
  let ofBatch : CloudRecord → Bool := fun record =>
    record.timestamp = serverTimestampToBytes batch.timestamp
  have haveTimestamps : ∀ record ∈ head :: tail, ∃ timestamp, HasTimestamp record timestamp := by
    intro record inSorted
    rcases mem_append.mp (perm.subset inSorted) with inFirst | inRest
    · exact ⟨_, CloudBatch.hasTimestamp_records inFirst⟩
    · obtain ⟨other, _, inOther⟩ := mem_flatMap.mp inRest
      exact ⟨_, CloudBatch.hasTimestamp_records inOther⟩
  have order := strictWeakOrder_recordLess haveTimestamps
  have allOfBatch : ∀ record ∈ batch.records, ofBatch record = true := fun record inFirst =>
    decide_eq_true (CloudBatch.hasTimestamp_records inFirst)
  have noneOfRest : ∀ record ∈ rest.flatMap CloudBatch.records, ofBatch record = false := by
    intro record inRest
    obtain ⟨other, inOthers, inOther⟩ := mem_flatMap.mp inRest
    refine decide_eq_false fun sameTime => otherTimes other inOthers ?_
    rw [CloudBatch.hasTimestamp_records inOther] at sameTime
    exact serverTimestampToBytes_injective sameTime
  have keptFirst : batch.records.filter ofBatch = batch.records := filter_eq_self.mpr allOfBatch
  have keptRest : (rest.flatMap CloudBatch.records).filter ofBatch = [] :=
    filter_eq_nil_iff.mpr fun record inRest => by simp [noneOfRest record inRest]
  have leftFirst : (batch.records.filter fun record => !ofBatch record) = [] :=
    filter_eq_nil_iff.mpr fun record inFirst => by simp [allOfBatch record inFirst]
  have leftRest : ((rest.flatMap CloudBatch.records).filter fun record => !ofBatch record) =
      rest.flatMap CloudBatch.records :=
    filter_eq_self.mpr fun record inRest => by simp [noneOfRest record inRest]
  have keptPerm := perm.filter ofBatch
  rw [filter_append, keptFirst, keptRest, append_nil] at keptPerm
  have leftPerm := perm.filter fun record => !ofBatch record
  rw [filter_append, leftFirst, leftRest, nil_append] at leftPerm
  have isBatch : (head :: tail).filter ofBatch = batch.records :=
    (order.of_subset filter_sublist.subset).eq_of_perm (inOrder.filter _)
      batch.pairwise_records keptPerm
  refine ⟨_, ?_, leftPerm⟩
  rw [← isBatch]
  refine filter_append_of_pairwise (inOrder.imp_of_mem fun {first second} inFirst _ notLess
    isOfBatch => ?_)
  -- The head is of the time of the batch, and no record before `second` is of a later time.
  have headTime := CloudBatch.hasTimestamp_records inBatch
  have secondBytes : second.timestamp = serverTimestampToBytes batch.timestamp :=
    of_decide_eq_true isOfBatch
  have secondTime : HasTimestamp second batch.timestamp := secondBytes
  obtain ⟨time, firstTime⟩ := haveTimestamps first inFirst
  rw [recordLess_eq_false_iff secondTime firstTime] at notLess
  have notEarlier : batch.timestamp.toInt ≤ time.toInt := by
    rcases mem_cons.mp inFirst with rfl | inTail
    · have sameBytes := headTime.symm.trans firstTime
      rw [serverTimestampToBytes_injective sameBytes]
    · have afterHead := (pairwise_cons.mp inOrder).1 first inTail
      rw [recordLess_eq_false_iff firstTime headTime] at afterHead
      omega
  have sameTime : time = batch.timestamp := Int64.toInt_inj.mp (by omega)
  exact decide_eq_true (sameTime ▸ firstTime)

/-- Sorted records of batches that can be told apart are one batch after the other. -/
theorem exists_batches {sorted : List CloudRecord}
    (perm : sorted.Perm (batches.flatMap CloudBatch.records))
    (inOrder : sorted.Pairwise fun first second => recordLess second first = false)
    (notEmpty : ∀ batch ∈ batches, batch.commits ≠ []) (single : batches.Pairwise SingleAtOnce) :
    ∃ ordered : List CloudBatch, ordered.Perm batches ∧
      sorted = ordered.flatMap CloudBatch.records := by
  induction count : batches.length generalizing sorted batches with
  | zero =>
    obtain rfl := eq_nil_of_length_eq_zero count
    exact ⟨[], .refl _, perm.eq_nil⟩
  | succ count ih =>
    cases sorted with
    | nil =>
      obtain ⟨batch, rest, rfl⟩ := exists_cons_of_length_eq_add_one count
      have isNil := perm.nil_eq
      have noRecords : batch.records = [] := by
        rw [flatMap_cons, nil_eq_append_iff] at isNil
        exact isNil.1
      have noCommits := congrArg length noRecords
      rw [CloudBatch.length_records] at noCommits
      exact absurd (eq_nil_of_length_eq_zero noCommits) (notEmpty batch (by simp))
    | cons head tail =>
      obtain ⟨batch, inBatches, inBatch⟩ := mem_flatMap.mp (perm.subset mem_cons_self)
      obtain ⟨before, after, rfl⟩ := append_of_mem inBatches
      have middle : (before ++ batch :: after).Perm (batch :: (before ++ after)) := perm_middle
      have restPerm := perm.trans (middle.flatMap_right CloudBatch.records)
      rw [flatMap_cons] at restPerm
      have restSingle := (middle.pairwise_iff SingleAtOnce.symm).mp single
      rw [pairwise_cons] at restSingle
      obtain ⟨left, isAppend, leftPerm⟩ : ∃ left : List CloudRecord,
          head :: tail = batch.records ++ left ∧
            left.Perm ((before ++ after).flatMap CloudBatch.records) := by
        by_cases isSingle : batch.commits.length = 1
        · have isOne : batch.records = [head] := by
            obtain ⟨record, isRecord⟩ := length_eq_one_iff.mp
              ((CloudBatch.length_records batch).trans isSingle)
            rw [isRecord, mem_singleton] at inBatch
            rw [isRecord, inBatch]
          rw [isOne] at restPerm ⊢
          exact ⟨tail, rfl, restPerm.cons_inv⟩
        · refine filter_of_first restPerm inOrder inBatch fun other inRest sameTime => ?_
          exact isSingle (restSingle.1 other inRest sameTime.symm).1
      have leftOrder : left.Pairwise fun first second => recordLess second first = false := by
        rw [isAppend] at inOrder
        exact (pairwise_append.mp inOrder).2.1
      obtain ⟨ordered, orderedPerm, rfl⟩ := ih leftPerm leftOrder
        (fun other inRest => notEmpty other (middle.symm.subset (mem_cons_of_mem _ inRest)))
        restSingle.2 (by simp only [length_append, length_cons] at count ⊢; omega)
      exact ⟨batch :: ordered, (orderedPerm.cons batch).trans middle.symm, isAppend⟩

namespace WatchClient

variable {code : CloudCode}

def idle (groups : List (List CloudRecord)) : WatchClient :=
  ⟨false, [], [], 0, true, groups.map .onRemoteCommits, 0, false, false⟩

def waiting (groups : List (List CloudRecord)) (batch : CloudBatch) (there : List CloudRecord) :
    WatchClient :=
  { idle groups with
    batch := there
    batchTimestamp := serverTimestampToBytes batch.timestamp
    batchSize := batch.commits.length }

variable {record : CloudRecord}

section

variable (groups : List (List CloudRecord))
include groups

theorem processRecord_waiting (batched : List CloudRecord) (inBatch : record ∈ batch.records) :
    (waiting groups batch batched).processRecord code record =
      (waiting groups batch batched).addRecord code record := by
  have running : (waiting groups batch batched).ended = false := rfl
  have pending : (waiting groups batch batched).batchTimestamp ≠ [] := by
    simp [waiting, serverTimestampToBytes, kTimestampVersion, ascii]
  have sameTime : ¬record.timestamp ≠ (waiting groups batch batched).batchTimestamp :=
    not_not_intro (CloudBatch.hasTimestamp_records inBatch)
  have sameSize : ¬record.batchSize ≠ (waiting groups batch batched).batchSize :=
    not_not_intro (CloudBatch.batchSize_records inBatch)
  simp [processRecord, running, if_pos pending, if_neg sameTime, if_neg sameSize]

theorem processRecord_idle
    (inBatch : record ∈ batch.records) (few : batch.commits.length < 2 ^ 31) :
    (idle groups).processRecord code record = (waiting groups batch []).addRecord code record := by
  have running : (idle groups).ended = false := rfl
  have notPending : ¬(idle groups).batchTimestamp ≠ [] := not_not_intro rfl
  have notLarge : ¬maxBatchSize ≤ record.batchSize := by
    rw [CloudBatch.batchSize_records inBatch, maxBatchSize]
    omega
  have timestamp : record.timestamp = serverTimestampToBytes batch.timestamp :=
    CloudBatch.hasTimestamp_records inBatch
  rw [processRecord, if_neg (by simp [running]), if_neg notPending, if_neg notLarge, timestamp,
    CloudBatch.batchSize_records inBatch]
  rfl

theorem foldl_waiting {batched rest : List CloudRecord}
    (perm : (batched ++ rest).Perm batch.records)
    (more : rest ≠ []) : rest.foldl (processRecord code) (waiting groups batch batched) =
      idle (groups ++ [batch.records]) := by
  induction rest generalizing batched with
  | nil => exact absurd rfl more
  | cons record rest ih =>
    have inBatch : record ∈ batch.records := perm.subset (by simp)
    have length := perm.length_eq
    rw [CloudBatch.length_records, length_append, length_cons] at length
    rw [foldl_cons, processRecord_waiting groups batched inBatch, addRecord_eq]
    cases rest with
    | nil =>
      have full : (waiting groups batch batched).batch.length + 1 =
          (waiting groups batch batched).batchSize := length
      have isSorted : code.std.sort positionLess
          ((waiting groups batch batched).batch ++ [record]) = batch.records :=
        CloudBatch.sort_positionLess code.std perm
      rw [if_pos full, isSorted]
      simp [waiting, idle]
    | cons next rest =>
      have notFull : ¬(waiting groups batch batched).batch.length + 1 =
          (waiting groups batch batched).batchSize := by
        change ¬batched.length + 1 = batch.commits.length
        rw [length_cons] at length
        omega
      rw [if_neg notFull]
      refine ih ?_ (cons_ne_nil _ _)
      rwa [append_assoc, singleton_append]

theorem foldl_batch (perm : order.Perm batch.records)
    (notEmpty : batch.commits ≠ []) (few : batch.commits.length < 2 ^ 31) :
    order.foldl (processRecord code) (idle groups) = idle (groups ++ [batch.records]) := by
  cases order with
  | nil =>
    have length := perm.length_eq
    rw [CloudBatch.length_records] at length
    exact absurd (eq_nil_of_length_eq_zero length.symm) notEmpty
  | cons record rest =>
    have inBatch : record ∈ batch.records := perm.subset mem_cons_self
    rw [foldl_cons, processRecord_idle groups inBatch few,
      ← processRecord_waiting groups [] inBatch, ← foldl_cons]
    exact foldl_waiting groups perm (cons_ne_nil _ _)

/-- Batches that come one after the other are passed one by one. -/
theorem foldl_batches (notEmpty : ∀ batch ∈ batches, batch.commits ≠ [])
    (few : ∀ batch ∈ batches, batch.commits.length < 2 ^ 31) :
    (batches.flatMap CloudBatch.records).foldl (processRecord code) (idle groups) =
      idle (groups ++ batches.map CloudBatch.records) := by
  induction batches generalizing groups with
  | nil => simp
  | cons batch batches ih =>
    rw [forall_mem_cons] at notEmpty few
    rw [flatMap_cons, foldl_append,
      foldl_batch groups (.refl _) notEmpty.1 few.1, ih _ notEmpty.2 few.2, map_cons,
      append_assoc, singleton_append]

end

/-- Events whose records cause no error are processed as the records. -/
structure Calm (client : WatchClient) : Prop where
  running : client.ended = false
  errored : client.errored = false
  watched : client.watched = true

theorem calm_idle (groups : List (List CloudRecord)) : Calm (idle groups) :=
  ⟨rfl, rfl, rfl⟩

variable {client : WatchClient}

theorem Calm.of_processRecord (calm : Calm (client.processRecord code record)) : Calm client := by
  have running : client.ended = false := by
    by_contra ended
    have same : client.processRecord code record = client := by
      rw [processRecord, if_pos (by simpa using ended)]
    exact ended (same ▸ calm.running)
  rcases processRecord_cases code running record [] with ⟨same, -⟩ | ⟨isError, -⟩
  · exact ⟨running, same.errored ▸ calm.errored, same.watched ▸ calm.watched⟩
  · have errored := calm.errored
    rw [isError] at errored
    cases errored

variable {records : List CloudRecord}

theorem Calm.of_foldl (calm : Calm (records.foldl (processRecord code) client)) : Calm client := by
  induction records generalizing client with
  | nil => exact calm
  | cons record records ih => exact (ih calm).of_processRecord

def Carries (code : CloudCode) (records : List CloudRecord) (event : FirebaseEvent) : Prop :=
  ∃ path value, (event = .put path value ∨ event = .patch path value) ∧
    decodeEvent code path value = .ok records

theorem Calm.step (calm : Calm client) (carries : Carries code records event) :
    client.step code event = some (records.foldl (processRecord code) client) := by
  obtain ⟨path, value, rfl | rfl, isDecoded⟩ := carries <;>
    simp [WatchClient.step, calm.running, calm.watched, receive, handle, calm.errored, isDecoded,
      processDecoded]

theorem runSteps_singles
    (carry : List.Forall₂ (fun record event => Carries code [record] event) records events)
    (calm : Calm (records.foldl (processRecord code) client)) :
    runSteps (WatchClient.step code) client events =
      some (records.foldl (processRecord code) client) := by
  induction carry generalizing client with
  | nil => rfl
  | cons carries _ ih => exact runSteps_cons.mpr ⟨_, calm.of_foldl.step carries, ih calm⟩

end WatchClient

namespace CloudBatch

variable (code : CloudCode) (batch : CloudBatch)

theorem distinct_members (inBatch : member ∈ batch.members code) :
    ∃ inner, member.2 = .object inner ∧ (inner.map Prod.fst).Nodup := by
  obtain ⟨position, _, rfl⟩ := mem_mapIdx.mp inBatch
  exact ⟨_, rfl, code.names_commitMembers _ _ _ _⟩

theorem decodeRecord_members (few : batch.commits.length < 2 ^ 31) :
    (batch.members code).map code.decodeRecord = batch.records.map Except.ok := by
  refine ext_getElem (by simp [members, records, batchRecords]) fun position inFirst _ => ?_
  have inCommits : position < batch.commits.length := by simpa [members] using inFirst
  simp only [members, records, batchRecords, getElem_map, getElem_mapIdx]
  exact code.decode_commitMembers_of_small _ _ (inCommits.trans few) few

end CloudBatch

section Delivery

variable {code : CloudCode}

theorem SinglePut.carries (single : SinglePut member event)
    (distinct : ∃ inner, member.2 = .object inner ∧ (inner.map Prod.fst).Nodup)
    (isDecoded : code.decodeRecord member = .ok record) :
    WatchClient.Carries code [record] event := by
  obtain ⟨name, value⟩ := member
  obtain ⟨inner, rfl, distinct⟩ := distinct
  obtain ⟨path, value, isEvent, ⟨under, notRoot, same⟩ | ⟨isRoot, inside, rfl, same⟩⟩ := single
  · refine ⟨path, value, isEvent, ?_⟩
    have sameRecord := code.decodeRecord_of_sameMembers name name distinct same
    cases same with
    | refl =>
      rw [decodeEvent, if_neg notRoot, if_pos under]
      change (code.decodeCommitFromValue inner).map _ = _
      rw [show code.decodeCommitFromValue inner = .ok record from isDecoded]
      rfl
    | perm perm =>
      rw [decodeEvent, if_neg notRoot, if_pos under]
      rw [isDecoded] at sameRecord
      rw [show code.decodeCommitFromValue _ = .ok record from sameRecord]
      rfl
  · refine ⟨path, _, isEvent, ?_⟩
    have sameRecord := code.decodeRecord_of_sameMembers name name distinct same
    have isMap : [(name, inside)].mapM code.decodeRecord = .ok [record] :=
      mapM_eq_ok (by simp [sameRecord, isDecoded])
    rw [decodeEvent, if_pos isRoot, CloudCode.decodeMultipleCommitsFromValue, isMap]
    exact congrArg Except.ok (perm_singleton.mp (code.std.perm recordLess [record]))

theorem forall₂_carries {members : List (Bytes × JsonValue)}
    {records : List CloudRecord} (singles : List.Forall₂ SinglePut members events)
    (distinct : ∀ member ∈ members, ∃ inner, member.2 = .object inner ∧ (inner.map Prod.fst).Nodup)
    (areDecoded : members.map code.decodeRecord = records.map Except.ok) :
    List.Forall₂ (fun record event => WatchClient.Carries code [record] event) records events := by
  induction singles generalizing records with
  | nil =>
    obtain rfl : records = [] := by simpa using areDecoded.symm
    exact .nil
  | cons single _ ih =>
    cases records with
    | nil => simp at areDecoded
    | cons record records =>
      simp only [map_cons, cons.injEq] at areDecoded
      rw [forall_mem_cons] at distinct
      exact .cons (single.carries distinct.1 areDecoded.1) (ih distinct.2 areDecoded.2)

variable {batches : List CloudBatch}

section

variable {orders : List (List (Bytes × JsonValue))} {batches : List CloudBatch}
    (perms : List.Forall₂ (fun order batch => order.Perm (CloudBatch.members code batch)) orders batches)
include perms

theorem exists_orders (few : ∀ batch ∈ batches, batch.commits.length < 2 ^ 31) :
    ∃ decoded : List (List CloudRecord),
      List.Forall₂ (fun order batch => order.Perm batch.records) decoded batches ∧
      orders.flatten.map code.decodeRecord = decoded.flatten.map Except.ok := by
  induction perms with
  | nil => exact ⟨[], .nil, rfl⟩
  | @cons order batch orders batches perm _ ih =>
    rw [forall_mem_cons] at few
    obtain ⟨decoded, decodedPerms, areDecoded⟩ := ih few.2
    have outcomes := perm.map code.decodeRecord
    rw [batch.decodeRecord_members code few.1] at outcomes
    obtain ⟨records, recordsPerm, isDecoded⟩ := exists_perm_of_map_ok outcomes
    refine ⟨records :: decoded, .cons recordsPerm decodedPerms, ?_⟩
    rw [flatten_cons, flatten_cons, map_append, map_append, isDecoded, areDecoded]

theorem distinct_of_orders : ∀ member ∈ orders.flatten, ∃ inner, member.2 = .object inner ∧
    (inner.map Prod.fst).Nodup := by
  induction perms with
  | nil => exact fun _ inNil => absurd inNil not_mem_nil
  | @cons order batch orders batches perm _ ih =>
    intro member inOrders
    rcases mem_append.mp (flatten_cons ▸ inOrders) with inOrder | inRest
    · exact batch.distinct_members code (perm.subset inOrder)
    · exact ih member inRest

end

variable (code) in
/-- The records of later batches, each batch in its own order, are passed batch after batch. -/
theorem foldl_orders (groups : List (List CloudRecord)) {decoded : List (List CloudRecord)}
    (perms : List.Forall₂ (fun order batch => order.Perm (CloudBatch.records batch)) decoded
      batches) (notEmpty : ∀ batch ∈ batches, batch.commits ≠ [])
    (few : ∀ batch ∈ batches, batch.commits.length < 2 ^ 31) :
    decoded.flatten.foldl (WatchClient.processRecord code) (WatchClient.idle groups) =
      WatchClient.idle (groups ++ batches.map CloudBatch.records) := by
  induction perms generalizing groups with
  | nil => simp
  | @cons order batch decoded batches perm _ ih =>
    rw [forall_mem_cons] at notEmpty few
    rw [flatten_cons, foldl_append, foldl_batch groups perm notEmpty.1 few.1, ih _ notEmpty.2 few.2,
      map_cons, append_assoc, singleton_append]

theorem InitialPut.carries (initial : InitialPut code batches event)
    (few : ∀ batch ∈ batches, batch.commits.length < 2 ^ 31) :
    ∃ sorted : List CloudRecord, WatchClient.Carries code sorted event ∧
      sorted.Perm (batches.flatMap CloudBatch.records) ∧
      sorted.Pairwise fun first second => recordLess second first = false := by
  obtain ⟨value, rfl, ⟨members, others, sameOuter, rfl, sameInner⟩ | ⟨rfl, rfl⟩⟩ := initial
  · have perm : (batches.flatMap (CloudBatch.members code)).Perm members := by
      cases sameOuter with
      | refl => exact .refl _
      | perm perm => exact perm
    have areDecoded : (batches.flatMap (CloudBatch.members code)).map code.decodeRecord =
        (batches.flatMap CloudBatch.records).map Except.ok := by
      rw [map_flatMap, map_flatMap]
      exact flatMap_congr fun batch inBatches =>
        batch.decodeRecord_members code (few batch inBatches)
    have distinct : ∀ member ∈ batches.flatMap (CloudBatch.members code),
        ∃ inner, member.2 = .object inner ∧ (inner.map Prod.fst).Nodup := by
      intro member inMembers
      obtain ⟨batch, _, inBatch⟩ := mem_flatMap.mp inMembers
      exact batch.distinct_members code inBatch
    obtain ⟨decoded, decodedPerm, isDecoded⟩ := code.mapM_decodeRecord areDecoded distinct perm
      sameInner
    refine ⟨code.std.sort recordLess decoded, ⟨rootPath, _, .inl rfl, ?_⟩,
      (code.std.perm recordLess decoded).trans decodedPerm, code.std.ordered ?_⟩
    · rw [decodeEvent, if_pos rfl, CloudCode.decodeMultipleCommitsFromValue, isDecoded]
      rfl
    · refine strictWeakOrder_recordLess fun record inDecoded => ?_
      obtain ⟨batch, _, inBatch⟩ := mem_flatMap.mp (decodedPerm.subset inDecoded)
      exact ⟨_, CloudBatch.hasTimestamp_records inBatch⟩
  · exact ⟨[], ⟨rootPath, .null, .inl rfl, rfl⟩, .refl _, .nil⟩

end Delivery

/-- However batches are delivered that can be told apart, each is passed to the watcher once, in
its order. -/
theorem passesBatches_run (code : CloudCode) (content : CloudContent)
    (separate : content.Separate) {events : List FirebaseEvent}
    (delivered : Delivered code content events) :
    ∃ final, runSteps (WatchClient.step code) WatchClient.start events = some final ∧
      PassesBatches final (content.initial ++ content.later) := by
  obtain ⟨few, single⟩ := separate
  obtain ⟨first, rest, rfl, initial, orders, perms, singles⟩ := delivered
  have fewInitial : ∀ batch ∈ content.initial, batch.commits.length < 2 ^ 31 :=
    fun batch inInitial => few batch (mem_append_left _ inInitial)
  have fewLater : ∀ batch ∈ content.later, batch.commits.length < 2 ^ 31 :=
    fun batch inLater => few batch (mem_append_right _ inLater)
  have notEmptyLater : ∀ batch ∈ content.later, batch.commits ≠ [] :=
    fun batch inLater => content.notEmpty batch (mem_append_right _ inLater)
  obtain ⟨sorted, carries, sortedPerm, inOrder⟩ := initial.carries fewInitial
  obtain ⟨ordered, orderedPerm, rfl⟩ := exists_batches sortedPerm inOrder
    (fun batch inInitial => content.notEmpty batch (mem_append_left _ inInitial)) single
  have afterFirst : (ordered.flatMap CloudBatch.records).foldl (WatchClient.processRecord code)
      WatchClient.start = WatchClient.idle (ordered.map CloudBatch.records) :=
    foldl_batches []
      (fun batch inOrdered => content.notEmpty batch
        (mem_append_left _ (orderedPerm.subset inOrdered)))
      (fun batch inOrdered => fewInitial batch (orderedPerm.subset inOrdered))
  obtain ⟨decoded, decodedPerms, areDecoded⟩ := exists_orders perms fewLater
  have afterRest := foldl_orders code (ordered.map CloudBatch.records) decodedPerms
    notEmptyLater fewLater
  have carryRest := forall₂_carries singles (distinct_of_orders perms) areDecoded
  have calmStart : WatchClient.Calm WatchClient.start := calm_idle []
  refine ⟨WatchClient.idle (ordered.map CloudBatch.records ++
    content.later.map CloudBatch.records), runSteps_cons.mpr ⟨_, calmStart.step carries, ?_⟩, ?_⟩
  · rw [afterFirst, ← afterRest]
    refine runSteps_singles carryRest ?_
    rw [afterRest]
    exact calm_idle _
  · have passed : ∀ groups : List (List CloudRecord),
        passedGroups (groups.map .onRemoteCommits) = groups := by
      intro groups
      rw [passedGroups, filterMap_map]
      exact filterMap_some
    rw [PassesBatches, WatchClient.idle, passed, map_append]
    exact (orderedPerm.map CloudBatch.records).append_right _

def sampleBatch (timestamp : Int64) (letters : List Char) : CloudBatch :=
  ⟨timestamp, letters.map fun letter => ⟨ascii [letter], []⟩⟩

def sampleContent : CloudContent where
  initial := [sampleBatch 42 ['a', 'b']]
  later := [sampleBatch 42 ['c']]
  notEmpty := by decide
  distinct := by decide

def sampleDelivery : List FirebaseEvent :=
  [.put rootPath (.object ((sampleBatch 42 ['a', 'b']).members sampleCloudCode).reverse),
    .patch rootPath (.object ((sampleBatch 42 ['c']).members sampleCloudCode))]

theorem delivered_sampleDelivery : Delivered sampleCloudCode sampleContent sampleDelivery := by
  refine ⟨_, _, rfl, ⟨_, rfl, .inl ⟨_, _, .perm (reverse_perm _).symm, rfl, ?_⟩⟩,
    [(sampleBatch 42 ['c']).members sampleCloudCode], .cons (.refl _) .nil, .cons ?_ .nil⟩
  · exact forall₂_same.mpr fun member _ => ⟨rfl, .refl _⟩
  · exact ⟨rootPath, _, .inr rfl, .inr ⟨rfl, _, rfl, .refl _⟩⟩

theorem passesBatches_run_sample :
    ∃ final, runSteps (WatchClient.step sampleCloudCode) WatchClient.start sampleDelivery =
        some final ∧ PassesBatches final (sampleContent.initial ++ sampleContent.later) :=
  passesBatches_run sampleCloudCode sampleContent
    ⟨by decide, pairwise_singleton _ _⟩ delivered_sampleDelivery

def sampleSameTime : CloudContent where
  initial := [sampleBatch 42 ['a', 'b'], sampleBatch 42 ['c', 'd']]
  later := []
  notEmpty := by decide
  distinct := by decide

/-- The first commits of two batches are passed as a batch. -/
theorem not_passesBatches_run : ∃ event, Delivered sampleCloudCode sampleSameTime [event] ∧
    ∃ final, runSteps (WatchClient.step sampleCloudCode) WatchClient.start [event] = some final ∧
      ¬PassesBatches final (sampleSameTime.initial ++ sampleSameTime.later) := by
  refine ⟨.put rootPath (.object (sampleSameTime.initial.flatMap
    (CloudBatch.members sampleCloudCode))), ?_, _, rfl, ?_⟩
  · exact ⟨_, _, rfl, ⟨_, rfl, .inl ⟨_, _, .refl _, rfl,
      forall₂_same.mpr fun member _ => ⟨rfl, .refl _⟩⟩⟩, [], .nil, .nil⟩
  · rw [PassesBatches]
    decide

end Peridot
