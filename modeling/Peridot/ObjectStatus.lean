import Peridot.AddCommitsRun

/-!
# The status of an object

The status of an object is the presence of a row in one of three families.  This file
follows runs of `WriteObject` and `SetObjectStatus` on a new database: how many status
rows an object has, and what its status becomes.
-/

namespace Peridot

open List PageDb PageDbObjectStatus

variable {formats : StorageFormats} {status : PageDbObjectStatus} {world : PageWorld formats}

namespace PageDb

variable {db : PageDb} {identifier other : ObjectIdentifier}
  {objectStatus previous : PageDbObjectStatus}

def getUnsyncedPieces (db : PageDb) : List ObjectIdentifier :=
  db.keys.filterMap fun
    | .objectStatus .localObject objectIdentifier => some objectIdentifier
    | _ => none

theorem mem_getUnsyncedPieces :
    identifier ∈ db.getUnsyncedPieces ↔ .objectStatus .localObject identifier ∈ db := by
  rw [getUnsyncedPieces, mem_filterMap]
  constructor
  · rintro ⟨row, inDb, isLocal⟩
    split at isLocal
    · cases isLocal
      exact inDb
    · cases isLocal
  · exact fun inDb => ⟨_, inDb, rfl⟩

def objectWrites (db : PageDb) (objectIdentifier : ObjectIdentifier) (content : Bytes)
    (objectStatus : PageDbObjectStatus) : List Write :=
  if Row.object (objectRowPrefix ++ objectIdentifier.objectDigest) ∈ db then
    if objectStatus = .transient then [] else db.statusWrites objectIdentifier objectStatus
  else [.put (.object objectIdentifier.objectDigest) content,
    .put (.objectStatus objectStatus objectIdentifier) ()]

def StatusExact (db : PageDb) (objectIdentifier : ObjectIdentifier) : Prop :=
  ∀ status, .objectStatus status objectIdentifier ∈ db ↔
    status ≠ .unknown ∧ db.objectStatus objectIdentifier = status

theorem objectStatus_of_rows (known : objectStatus ≠ .unknown)
    (rows : ∀ status, .objectStatus status identifier ∈ db ↔ status = objectStatus) :
    db.objectStatus identifier = objectStatus := by
  simp only [PageDb.objectStatus, rows]
  cases objectStatus with
  | unknown => exact absurd rfl known
  | _ => rfl

theorem statusExact_of_rows (known : objectStatus ≠ .unknown)
    (rows : ∀ status, .objectStatus status identifier ∈ db ↔ status = objectStatus) :
    db.StatusExact identifier := by
  intro status
  rw [rows, objectStatus_of_rows known rows]
  constructor
  · rintro rfl
    exact ⟨known, rfl⟩
  · rintro ⟨-, rfl⟩
    rfl

theorem StatusExact.existsUnique (statusExact : db.StatusExact identifier)
    (known : db.objectStatus identifier ≠ .unknown) :
    ∃! status, Row.objectStatus status identifier ∈ db :=
  ⟨db.objectStatus identifier, (statusExact _).mpr ⟨known, rfl⟩,
    fun status inDb => ((statusExact status).mp inDb).2.symm⟩

section

variable {first second : PageDb}
    (same : ∀ status, .objectStatus status identifier ∈ second ↔ .objectStatus status identifier ∈ first)
include same

theorem objectStatus_congr :
    second.objectStatus identifier = first.objectStatus identifier := by
  simp only [PageDb.objectStatus, same]

theorem StatusExact.congr (statusExact : first.StatusExact identifier) :
    second.StatusExact identifier := by
  intro status
  rw [same, objectStatus_congr same, statusExact]

end

theorem statusRow_writeAll_of_ne {writes : List Write}
    (others : ∀ write ∈ writes, write.row ≠ .objectStatus status identifier) :
    .objectStatus status identifier ∈ db.writeAll writes ↔
      .objectStatus status identifier ∈ db := by
  rw [mem_iff_lookup, lookup_writeAll_of_ne others, mem_iff_lookup]

theorem rank_pos (known : objectStatus ≠ .unknown) : 0 < objectStatus.rank := by
  cases objectStatus with
  | unknown => exact absurd rfl known
  | _ => simp [rank]

theorem statusRow_statusWrites (statusExact : db.StatusExact identifier)
    (lower : (db.objectStatus identifier).rank < objectStatus.rank)
    (status : PageDbObjectStatus) : .objectStatus status identifier ∈
        db.writeAll (db.statusWrites identifier objectStatus) ↔ status = objectStatus := by
  rw [statusWrites, if_neg (Nat.not_le.mpr lower), ← singleton_append, writeAll_append,
    writeAll_singleton, writeAll_singleton, mem_write, mem_write]
  simp only [Write.row, Write.isPut, Row.objectStatus.injEq, and_true, statusExact status]
  by_cases isNew : objectStatus = status
  · simp [isNew]
  · by_cases isPrevious : db.objectStatus identifier = status
    · simp [isNew, isPrevious, Ne.symm isNew]
    · simp [isNew, isPrevious, Ne.symm isNew]

theorem statusExact_statusWrites (statusExact : db.StatusExact identifier)
    (known : objectStatus ≠ .unknown) :
    let after := db.writeAll (db.statusWrites identifier objectStatus)
    after.StatusExact identifier ∧
      (db.objectStatus identifier).rank ≤ (after.objectStatus identifier).rank ∧
      after.objectStatus identifier ≠ .unknown := by
  intro after
  by_cases lower : (db.objectStatus identifier).rank < objectStatus.rank
  · have rows := statusRow_statusWrites statusExact lower
    have isNew : after.objectStatus identifier = objectStatus :=
      objectStatus_of_rows known rows
    refine ⟨statusExact_of_rows known rows, ?_, ?_⟩
    · rw [isNew]
      exact lower.le
    · rw [isNew]
      exact known
  · have same : after = db := by simp only [after, statusWrites, if_pos (Nat.not_lt.mp lower),
      writeAll_nil]
    rw [same]
    refine ⟨statusExact, le_rfl, fun isUnknown => lower ?_⟩
    rw [isUnknown]
    exact rank_pos known

theorem statusRow_put (content : Bytes) (status : PageDbObjectStatus) :
    .objectStatus status identifier ∈ db.writeAll
        [.put (.object identifier.objectDigest) content,
          .put (.objectStatus objectStatus identifier) ()] ↔
      status = objectStatus ∨ .objectStatus status identifier ∈ db := by
  rw [← singleton_append, writeAll_append, writeAll_singleton, writeAll_singleton, mem_write,
    mem_write]
  by_cases isNew : objectStatus = status
  · simp [Write.row, Write.isPut, isNew]
  · simp [Write.row, isNew, Ne.symm isNew]

theorem statusExact_put (content : Bytes) (statusExact : db.StatusExact identifier)
    (known : objectStatus ≠ .unknown) (newOrSame : db.objectStatus identifier = .unknown ∨
      db.objectStatus identifier = objectStatus) :
    let after := db.writeAll [.put (.object identifier.objectDigest) content,
      .put (.objectStatus objectStatus identifier) ()]
    after.StatusExact identifier ∧
      (db.objectStatus identifier).rank ≤ (after.objectStatus identifier).rank ∧
      after.objectStatus identifier ≠ .unknown := by
  intro after
  have rows : ∀ status, .objectStatus status identifier ∈ after ↔ status = objectStatus := by
    intro status
    rw [statusRow_put, statusExact]
    refine or_iff_left_of_imp ?_
    rintro ⟨isKnown, rfl⟩
    exact newOrSame.resolve_left isKnown
  have isNew : after.objectStatus identifier = objectStatus := objectStatus_of_rows known rows
  refine ⟨statusExact_of_rows known rows, ?_, ?_⟩
  · rw [isNew]
    rcases newOrSame with isUnknown | isSame
    · rw [isUnknown]
      exact Nat.zero_le _
    · rw [isSame]
  · rw [isNew]
    exact known

end PageDb

def inBatch (prepare : PageRoutine formats (List Write)) : PageRoutine formats Unit := do
  returnOnError startBatch
  let batch ← prepare
  returnOnError (execute batch)

/-- The calls of `PageDb` that change the status of an object. -/
inductive ObjectCall where
  | writeObject (objectIdentifier : ObjectIdentifier) (content : Bytes)
      (objectStatus : PageDbObjectStatus)
  | setObjectStatus (objectIdentifier : ObjectIdentifier) (objectStatus : PageDbObjectStatus)

namespace ObjectCall

/-- `PageDbImpl::WriteObject` and `PageDbImpl::SetObjectStatus`. -/
def routine : ObjectCall → PageRoutine formats Unit
  | writeObject objectIdentifier content objectStatus =>
    inBatch (Peridot.writeObject [] objectIdentifier content objectStatus)
  | setObjectStatus objectIdentifier objectStatus =>
    inBatch (Peridot.setObjectStatus [] objectIdentifier objectStatus)

/-- Objects are written with a known status, and set to one that is not below `LOCAL`. -/
def Valid : ObjectCall → Prop
  | writeObject _ _ objectStatus => unknown.rank < objectStatus.rank
  | setObjectStatus _ objectStatus => localObject.rank ≤ objectStatus.rank

def objectIdentifier : ObjectCall → ObjectIdentifier
  | writeObject objectIdentifier _ _ => objectIdentifier
  | setObjectStatus objectIdentifier _ => objectIdentifier

def stores : ObjectCall → List ObjectIdentifier
  | writeObject objectIdentifier _ _ => [objectIdentifier]
  | setObjectStatus _ _ => []

def writes (db : PageDb) : ObjectCall → List Write
  | writeObject objectIdentifier content objectStatus =>
    db.objectWrites objectIdentifier content objectStatus
  | setObjectStatus objectIdentifier objectStatus => db.statusWrites objectIdentifier objectStatus

/-- A call that finds what is stored.  `WriteObject` asks for a key with the prefix twice, so
it takes every object for a new one, unless its digest with the prefix is a digest too. -/
def Finds (db : PageDb) : ObjectCall → Prop
  | writeObject objectIdentifier _ objectStatus =>
    if Row.object (objectRowPrefix ++ objectIdentifier.objectDigest) ∈ db then
      objectStatus = .transient → db.objectStatus objectIdentifier ≠ .unknown
    else
      db.objectStatus objectIdentifier = .unknown ∨
        db.objectStatus objectIdentifier = objectStatus
  | setObjectStatus _ _ => True

variable {db : PageDb} {call : ObjectCall}

theorem row_of_mem_writes {write : Write} (member : write ∈ call.writes db) :
    (write = .delete (.objectStatus (db.objectStatus call.objectIdentifier)
        call.objectIdentifier)) ∨
      (∃ status, write = .put (.objectStatus status call.objectIdentifier) ()) ∨
      ∃ content, call.objectIdentifier ∈ call.stores ∧
        write = .put (.object call.objectIdentifier.objectDigest) content := by
  have ofStatus : ∀ {identifier status}, write ∈ db.statusWrites identifier status →
      write = .delete (.objectStatus (db.objectStatus identifier) identifier) ∨
        write = .put (.objectStatus status identifier) () := by
    intro identifier status inWrites
    rw [statusWrites] at inWrites
    split at inWrites
    · cases inWrites
    · simpa using inWrites
  cases call with
  | writeObject identifier content status =>
    rw [writes, objectWrites] at member
    split at member
    · split at member
      · cases member
      · exact (ofStatus member).imp_right fun isPut => .inl ⟨status, isPut⟩
    · rcases mem_cons.mp member with rfl | isStatus
      · exact .inr (.inr ⟨content, mem_singleton_self _, rfl⟩)
      · exact .inr (.inl ⟨status, mem_singleton.mp isStatus⟩)
  | setObjectStatus identifier status =>
    exact (ofStatus member).imp_right fun isPut => .inl ⟨status, isPut⟩

theorem statusRow_of_ne {other : ObjectIdentifier} (isOther : other ≠ call.objectIdentifier)
    (status : PageDbObjectStatus) : .objectStatus status other ∈ db.writeAll (call.writes db) ↔
      .objectStatus status other ∈ db := by
  refine statusRow_writeAll_of_ne fun write member isRow => ?_
  rcases row_of_mem_writes member with rfl | ⟨_, rfl⟩ | ⟨_, _, rfl⟩
  · exact isOther (Row.objectStatus.inj isRow).2.symm
  · exact isOther (Row.objectStatus.inj isRow).2.symm
  · cases isRow

theorem objectRow_of_writes {digest : ObjectDigest}
    (member : .object digest ∈ db.writeAll (call.writes db)) :
    .object digest ∈ db ∨ ∃ stored ∈ call.stores, stored.objectDigest = digest := by
  refine (mem_of_mem_writeAll member).imp_right ?_
  rintro ⟨write, inWrites, isRow, -⟩
  rcases row_of_mem_writes inWrites with rfl | ⟨_, rfl⟩ | ⟨_, stores, rfl⟩
  · cases isRow
  · cases isRow
  · exact ⟨_, stores, Row.object.inj isRow⟩

/-- A call that finds what is stored keeps one status row, which does not fall behind. -/
theorem statusExact_writes (valid : call.Valid) (finds : call.Finds db)
    (statusExact : db.StatusExact call.objectIdentifier) : let after := db.writeAll (call.writes db)
    after.StatusExact call.objectIdentifier ∧ (db.objectStatus call.objectIdentifier).rank ≤
        (after.objectStatus call.objectIdentifier).rank ∧
      after.objectStatus call.objectIdentifier ≠ .unknown := by
  cases call with
  | writeObject identifier content status =>
    have known : status ≠ .unknown := by
      rintro rfl
      exact Nat.lt_irrefl _ valid
    rw [Finds] at finds
    simp only [writes, objectWrites]
    by_cases found : Row.object (objectRowPrefix ++ identifier.objectDigest) ∈ db
    · rw [if_pos found] at finds
      by_cases isTransient : status = .transient
      · rw [if_pos found, if_pos isTransient]
        exact ⟨statusExact, le_rfl, finds isTransient⟩
      · rw [if_pos found, if_neg isTransient]
        exact statusExact_statusWrites statusExact known
    · rw [if_neg found] at finds ⊢
      exact statusExact_put content statusExact known finds
  | setObjectStatus identifier status =>
    refine statusExact_statusWrites statusExact ?_
    rintro rfl
    exact absurd valid (by simp [Valid, rank])

/-- A `WriteObject` that does not find what is stored leaves no status row or two of them. -/
theorem not_existsUnique_writes {identifier : ObjectIdentifier} {content : Bytes}
    (statusExact : db.StatusExact identifier)
    (misses : ¬(writeObject identifier content status).Finds db) :
    ¬∃! row, Row.objectStatus row identifier ∈
      db.writeAll ((writeObject identifier content status).writes db) := by
  rintro ⟨row, inDb, unique⟩
  rw [Finds] at misses
  simp only [writes, objectWrites] at inDb unique
  split at misses
  case isTrue found =>
    obtain ⟨isTransient, isUnknown⟩ := Classical.not_imp.mp misses
    rw [if_pos found, if_pos isTransient, writeAll_nil, statusExact] at inDb
    exact inDb.1 (inDb.2.symm.trans (not_not.mp isUnknown))
  case isFalse notFound =>
    obtain ⟨known, isOther⟩ := not_or.mp misses
    simp only [if_neg notFound, statusRow_put] at unique
    have previous := unique _ (.inr ((statusExact _).mpr ⟨known, rfl⟩))
    exact isOther (previous.trans (unique status (.inl rfl)).symm)

end ObjectCall

namespace PageWorld

variable (db : PageDb)

theorem computes_writeObject (identifier : ObjectIdentifier) (content : Bytes)
    (objectStatus : PageDbObjectStatus) :
    Computes db (writeObject [] identifier content objectStatus :
        PageRoutine formats (List Write))
      (.ok (db.objectWrites identifier content objectStatus)) := by
  have sets : Computes db (if objectStatus = .transient then return []
        else setObjectStatus [] identifier objectStatus : PageRoutine formats (List Write))
      (.ok (if objectStatus = .transient then []
        else db.statusWrites identifier objectStatus)) := by
    split
    · exact .pure _
    · exact computes_setObjectStatus db [] identifier objectStatus
  have puts : Computes db (do
        let batch ← addWrite [] (.put (.object identifier.objectDigest) content)
        addWrite batch (.put (.objectStatus objectStatus identifier) ()) :
          PageRoutine formats (List Write))
      (.ok [.put (.object identifier.objectDigest) content,
        .put (.objectStatus objectStatus identifier) ()]) :=
    (computes_addWrite db _ _).bind (computes_addWrite db _ _) fun batch =>
      (computes_addWrite db batch _).readOnly
  refine (computes_hasKey db _).bind ?_ fun found => ?_
  · rw [objectWrites]
    by_cases found : Row.object (objectRowPrefix ++ identifier.objectDigest) ∈ db
    · simp only [found, decide_true, if_true]
      exact sets
    · simp only [found, decide_false, if_false]
      exact puts
  · cases found with
    | true => exact sets.readOnly
    | false => exact puts.readOnly

variable {db}

theorem call_inBatch {prepare : PageRoutine formats (List Write)} {batch : List Write}
    (computes : Computes world.db prepare (.ok batch)) :
    let called := world.call (inBatch prepare)
    (called.1 = .ok () ∧ called.2.db = world.db.writeAll batch ∧
        (world.failures = [] → called.2.failures = [])) ∨
      (called.1 ≠ .ok () ∧ called.2.db = world.db ∧ world.failures ≠ []) := by
  intro called
  have prepares : Computes world.db (do returnOnError startBatch; prepare) (.ok batch) :=
    (Computes.returnOnError (.ok ()) (.perform trivial) fun _ _ => rfl).bind computes fun _ =>
      computes.readOnly
  have untouched := prepares.readOnly.untouched world
  have isCall : called = world.call ((do returnOnError startBatch; prepare) >>=
      fun batch => returnOnError (execute batch)) := by
    simp only [called, inBatch, bind_assoc]
  rw [call, Coroutine.outcome_bind] at isCall
  rcases before : world.call (do returnOnError startBatch; prepare) with ⟨fault | prepared, next⟩
  all_goals
    have sameDb : next.db = world.db := by simpa only [before] using untouched.db
    simp only [call] at before
    simp only [before] at isCall
  · refine .inr ⟨by simp [isCall], by rw [isCall, sameDb], fun noFailures => ?_⟩
    have succeeds := prepares.exact world rfl noFailures
    rw [call, before] at succeeds
    cases succeeds
  · obtain rfl : batch = prepared :=
      Except.ok.inj (prepares.sound world rfl prepared (by rw [call, before]))
    have stillNone : world.failures = [] → next.failures = [] := by
      intro noFailures
      have same := prepares.exact world rfl noFailures
      rw [call, before] at same
      rw [(Prod.mk.inj same).2, noFailures]
    have executes : called = ((handle (.execute batch) next).1.mapError .status,
        (handle (.execute batch) next).2) := isCall.trans (call_returnOnError _ _)
    rw [handle, access] at executes
    rcases failures : next.failures with - | ⟨- | failure, rest⟩ <;> rw [failures] at executes
    · refine .inl ⟨by rw [executes]; rfl, by rw [executes, sameDb], fun _ => ?_⟩
      rw [executes]
    · refine .inl ⟨by rw [executes]; rfl, by rw [executes, sameDb], fun noFailures => ?_⟩
      rw [stillNone noFailures] at failures
      cases failures
    · refine .inr ⟨by simp [executes, Except.mapError], by rw [executes, sameDb],
        fun noFailures => ?_⟩
      rw [stillNone noFailures] at failures
      cases failures

theorem call_objectCall (call : ObjectCall) (world : PageWorld formats) :
    let called := world.call call.routine
    (called.1 = .ok () ∧ called.2.db = world.db.writeAll (call.writes world.db) ∧
        (world.failures = [] → called.2.failures = [])) ∨
      (called.1 ≠ .ok () ∧ called.2.db = world.db ∧ world.failures ≠ []) := by
  cases call with
  | writeObject identifier content objectStatus =>
    exact call_inBatch (computes_writeObject world.db _ _ _)
  | setObjectStatus identifier objectStatus =>
    exact call_inBatch (computes_setObjectStatus world.db [] _ _)

end PageWorld

/-- A page, and the objects whose `WriteObject` has succeeded. -/
structure ObjectRun (formats : StorageFormats) where
  world : PageWorld formats
  stored : List ObjectIdentifier

namespace ObjectRun

def step (run : ObjectRun formats) (call : ObjectCall) : ObjectRun formats :=
  let called := run.world.call call.routine
  ⟨called.2, if called.1 = .ok () then call.stores ++ run.stored else run.stored⟩

def after (run : ObjectRun formats) (calls : List ObjectCall) : ObjectRun formats :=
  calls.foldl step run

@[simp]
theorem after_nil (run : ObjectRun formats) : run.after [] = run :=
  rfl

@[simp]
theorem after_append (run : ObjectRun formats) (first second : List ObjectCall) :
    run.after (first ++ second) = (run.after first).after second :=
  foldl_append ..

/-- Every stored object has exactly one status row, and the unsynced pieces are those whose
status is local. -/
structure StatusesExact (run : ObjectRun formats) : Prop where
  stored : ∀ digest, .object digest ∈ run.world.db →
    ∃ identifier ∈ run.stored, identifier.objectDigest = digest
  one : ∀ identifier ∈ run.stored, ∃! status, Row.objectStatus status identifier ∈ run.world.db
  unsynced : ∀ identifier, identifier ∈ run.world.db.getUnsyncedPieces ↔
    run.world.db.objectStatus identifier = .localObject

def StatusesGrow (first second : ObjectRun formats) : Prop :=
  ∀ identifier, (first.world.db.objectStatus identifier).rank ≤
    (second.world.db.objectStatus identifier).rank

structure HasStatuses (run : ObjectRun formats) : Prop where
  statusExact : ∀ identifier, run.world.db.StatusExact identifier
  known : ∀ identifier ∈ run.stored, run.world.db.objectStatus identifier ≠ .unknown
  stored : ∀ digest, .object digest ∈ run.world.db →
    ∃ identifier ∈ run.stored, identifier.objectDigest = digest

variable {run : ObjectRun formats} {call : ObjectCall} {calls : List ObjectCall}

theorem HasStatuses.statusesExact (inv : run.HasStatuses) : run.StatusesExact where
  stored := inv.stored
  one identifier isStored := (inv.statusExact identifier).existsUnique (inv.known _ isStored)
  unsynced identifier := by
    rw [mem_getUnsyncedPieces, inv.statusExact]
    exact and_iff_right (by simp)

theorem HasStatuses.initial (isNew : world.db = initial) : (ObjectRun.mk world []).HasStatuses where
  statusExact identifier status := by simp [isNew, mem_initial, PageDb.objectStatus, eq_comm]
  known identifier isStored := absurd isStored not_mem_nil
  stored digest isObject := by simp [isNew, mem_initial] at isObject

theorem step_cases (run : ObjectRun formats) (call : ObjectCall) :
    ((run.step call).world.db = run.world.db.writeAll (call.writes run.world.db) ∧
        (run.step call).stored = call.stores ++ run.stored ∧
        (run.world.failures = [] → (run.step call).world.failures = [])) ∨
      ((run.step call).world.db = run.world.db ∧ (run.step call).stored = run.stored ∧
        run.world.failures ≠ []) := by
  rcases PageWorld.call_objectCall call run.world with ⟨ok, writes, noFailures⟩ |
      ⟨failed, same, failures⟩
  · exact .inl ⟨writes, if_pos ok, noFailures⟩
  · exact .inr ⟨same, if_neg failed, failures⟩

/-- A call that finds what is stored keeps the invariant, and no status falls. -/
theorem HasStatuses.step (inv : run.HasStatuses) (valid : call.Valid) (finds : call.Finds run.world.db) :
    (run.step call).HasStatuses ∧ run.StatusesGrow (run.step call) := by
  rcases run.step_cases call with ⟨writes, stores, -⟩ | ⟨same, stores, -⟩
  · obtain ⟨isExact, grows, known⟩ :=
      ObjectCall.statusExact_writes valid finds (inv.statusExact call.objectIdentifier)
    have others : ∀ identifier, identifier ≠ call.objectIdentifier → ∀ status,
        .objectStatus status identifier ∈ (run.step call).world.db ↔
          .objectStatus status identifier ∈ run.world.db := by
      intro identifier isOther status
      rw [writes]
      exact ObjectCall.statusRow_of_ne isOther status
    rw [← writes] at isExact grows known
    refine ⟨⟨fun identifier => ?_, fun identifier isStored => ?_, fun digest isObject => ?_⟩,
      fun identifier => ?_⟩
    · by_cases isOther : identifier = call.objectIdentifier
      · exact isOther ▸ isExact
      · exact (inv.statusExact identifier).congr (others identifier isOther)
    · by_cases isOther : identifier = call.objectIdentifier
      · exact isOther ▸ known
      · rw [stores] at isStored
        rw [objectStatus_congr (others identifier isOther)]
        refine inv.known identifier ((mem_append.mp isStored).resolve_left fun inCall => ?_)
        cases call with
        | writeObject => exact isOther (mem_singleton.mp inCall)
        | setObjectStatus => cases inCall
    · rw [writes] at isObject
      rw [stores]
      rcases ObjectCall.objectRow_of_writes isObject with earlier | ⟨identifier, stored, isDigest⟩
      · obtain ⟨identifier, stored, isDigest⟩ := inv.stored digest earlier
        exact ⟨identifier, mem_append_right _ stored, isDigest⟩
      · exact ⟨identifier, mem_append_left _ stored, isDigest⟩
    · by_cases isOther : identifier = call.objectIdentifier
      · exact isOther ▸ grows
      · exact (objectStatus_congr (others identifier isOther)).symm ▸ le_rfl
  · refine ⟨⟨fun identifier => ?_, fun identifier isStored => ?_, fun digest isObject => ?_⟩,
      fun identifier => ?_⟩
    · rw [same]
      exact inv.statusExact identifier
    · rw [same]
      exact inv.known identifier (stores ▸ isStored)
    · rw [stores]
      exact inv.stored digest (same ▸ isObject)
    · rw [same]

/-- Each call finds what is stored when it is made. -/
def AllFind (run : ObjectRun formats) (calls : List ObjectCall) : Prop :=
  ∀ earlier call later, calls = earlier ++ call :: later →
    call.Finds (run.after earlier).world.db

/-- In every state of the run the statuses are exact, and between any two none falls. -/
def StatusesKept (run : ObjectRun formats) (calls : List ObjectCall) : Prop :=
  (∀ earlier later, calls = earlier ++ later → (run.after earlier).StatusesExact) ∧
    ∀ earlier between later, calls = earlier ++ between ++ later →
      (run.after earlier).StatusesGrow (run.after (earlier ++ between))

theorem allFind_cons :
    run.AllFind (call :: calls) ↔ call.Finds run.world.db ∧ (run.step call).AllFind calls := by
  constructor
  · intro allFind
    refine ⟨allFind [] call calls rfl, fun earlier found later split => ?_⟩
    exact allFind (call :: earlier) found later (by rw [split, cons_append])
  · rintro ⟨finds, allFind⟩ earlier found later split
    cases earlier with
    | nil =>
      obtain ⟨rfl, rfl⟩ := cons.inj split
      exact finds
    | cons first earlier =>
      obtain ⟨rfl, rest⟩ := cons.inj split
      exact allFind earlier found later rest

section

variable {first second : List ObjectCall} (allFind : run.AllFind (first ++ second))
include allFind

theorem AllFind.append_left : run.AllFind first := by
  intro earlier call later split
  exact allFind earlier call (later ++ second) (by simp [split])

theorem AllFind.append_right : (run.after first).AllFind second := by
  intro earlier call later split
  rw [← after_append]
  exact allFind (first ++ earlier) call later (by simp [split])

end

theorem HasStatuses.after (inv : run.HasStatuses) (valid : ∀ call ∈ calls, call.Valid)
    (allFind : run.AllFind calls) : (run.after calls).HasStatuses ∧ run.StatusesGrow (run.after calls) := by
  induction calls generalizing run with
  | nil => exact ⟨inv, fun identifier => le_rfl⟩
  | cons call calls ih =>
    obtain ⟨finds, rest⟩ := allFind_cons.mp allFind
    obtain ⟨isValid, restValid⟩ := forall_mem_cons.mp valid
    obtain ⟨stepInv, stepGrows⟩ := inv.step isValid finds
    obtain ⟨lastInv, lastGrows⟩ := ih stepInv restValid rest
    exact ⟨lastInv, fun identifier => (stepGrows identifier).trans (lastGrows identifier)⟩

theorem HasStatuses.statusesKept (inv : run.HasStatuses) (valid : ∀ call ∈ calls, call.Valid)
    (allFind : run.AllFind calls) : run.StatusesKept calls := by
  constructor
  · rintro earlier later rfl
    exact (inv.after (fun call member => valid call (mem_append_left _ member))
      allFind.append_left).1.statusesExact
  · rintro earlier between later rfl
    have earlierValid : ∀ call ∈ earlier, call.Valid := fun call member =>
      valid call (mem_append_left _ (mem_append_left _ member))
    have betweenValid : ∀ call ∈ between, call.Valid := fun call member =>
      valid call (mem_append_left _ (mem_append_right _ member))
    rw [after_append]
    exact ((inv.after earlierValid allFind.append_left.append_left).1.after betweenValid
      allFind.append_left.append_right).2

theorem StatusesKept.tail (kept : run.StatusesKept (call :: calls)) :
    (run.step call).StatusesKept calls := by
  constructor
  · rintro earlier later rfl
    exact kept.1 (call :: earlier) later rfl
  · rintro earlier between later rfl
    exact kept.2 (call :: earlier) between later rfl

/-- Without failures, one status row for each stored object means that all calls find what
is stored. -/
theorem HasStatuses.allFind (inv : run.HasStatuses) (noFailures : run.world.failures = [])
    (valid : ∀ call ∈ calls, call.Valid) (kept : run.StatusesKept calls) : run.AllFind calls := by
  induction calls generalizing run with
  | nil =>
    intro earlier call later split
    simp at split
  | cons call calls ih =>
    obtain ⟨isValid, restValid⟩ := forall_mem_cons.mp valid
    obtain ⟨writes, stores, stillNone⟩ := (run.step_cases call).resolve_right
      fun failed => failed.2.2 noFailures
    have finds : call.Finds run.world.db := by
      cases call with
      | setObjectStatus => trivial
      | writeObject identifier content status =>
        by_contra misses
        refine ObjectCall.not_existsUnique_writes (inv.statusExact identifier) misses ?_
        rw [← writes]
        exact (kept.1 [_] calls rfl).one identifier (stores ▸ mem_cons_self)
    exact allFind_cons.mpr
      ⟨finds, ih (inv.step isValid finds).1 (stillNone noFailures) restValid kept.tail⟩

/-- In a run on a new page whose calls all find what is stored, every stored object has one
status row, no status falls and the unsynced pieces are the local ones.  When no access
fails, only such runs keep this. -/
theorem statuses_kept {world : PageWorld formats} (isNew : world.db = PageDb.initial)
    (calls : List ObjectCall) (valid : ∀ call ∈ calls, call.Valid) :
    (AllFind ⟨world, []⟩ calls → StatusesKept ⟨world, []⟩ calls) ∧
      (world.failures = [] → StatusesKept ⟨world, []⟩ calls → AllFind ⟨world, []⟩ calls) :=
  ⟨(HasStatuses.initial isNew).statusesKept valid, fun noFailures kept =>
    (HasStatuses.initial isNew).allFind noFailures valid kept⟩

def samplePiece : ObjectIdentifier :=
  ⟨0, 1, 1 :: List.replicate 32 0⟩

/-- A piece that is added, marked local and uploaded. -/
theorem statuses_kept_uploaded :
    let run : ObjectRun sampleFormats := ⟨PageWorld.emptyPage sampleFormats, []⟩
    let calls : List ObjectCall := [.writeObject samplePiece [] .transient,
      .setObjectStatus samplePiece .localObject, .setObjectStatus samplePiece .synced]
    run.world.db = initial ∧ (∀ call ∈ calls, call.Valid) ∧ run.StatusesKept calls := by
  intro run calls
  have valid : ∀ call ∈ calls, call.Valid := by
    simp [calls, ObjectCall.Valid, rank]
  refine ⟨rfl, valid, (statuses_kept rfl calls valid).1 ?_⟩
  refine allFind_cons.mpr ⟨?_, allFind_cons.mpr ⟨trivial, allFind_cons.mpr ⟨trivial, ?_⟩⟩⟩
  · simp [ObjectCall.Finds, PageWorld.emptyPage, mem_initial, PageDb.objectStatus]
  · intro earlier call later split
    simp at split

/-- A piece that is being downloaded and is added by the user meanwhile has two statuses. -/
theorem two_statuses : let run : ObjectRun sampleFormats := ⟨PageWorld.emptyPage sampleFormats, []⟩
    let calls : List ObjectCall := [.writeObject samplePiece [] .synced,
      .writeObject samplePiece [] .transient]
    run.world.db = initial ∧ (∀ call ∈ calls, call.Valid) ∧
      .objectStatus .synced samplePiece ∈ (run.after calls).world.db ∧
      .objectStatus .transient samplePiece ∈ (run.after calls).world.db ∧
      ¬run.StatusesKept calls := by
  intro run calls
  have isSynced : .objectStatus .synced samplePiece ∈ (run.after calls).world.db := by decide
  have isTransient : .objectStatus .transient samplePiece ∈ (run.after calls).world.db := by decide
  refine ⟨rfl, by simp [calls, ObjectCall.Valid, rank], isSynced, isTransient,
    fun kept => ?_⟩
  have stored : samplePiece ∈ (run.after calls).stored := by decide
  have unique := (kept.1 calls [] (append_nil calls).symm).one samplePiece stored
  exact absurd (unique.unique isSynced isTransient) (by simp)

end ObjectRun

end Peridot
