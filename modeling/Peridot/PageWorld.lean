import Peridot.AddCommits

/-!
# Running the coroutines of a page

A world in which one coroutine runs at a time.  Every access to the database may fail,
as the list of failures says.  A routine that only reads computes a result from the
database: it returns this result, or it fails.
-/

namespace Peridot

open Coroutine

variable {formats : StorageFormats} {α β : Type}

inductive DbFailure where
  | internalIoError
  | interrupted

def DbFailure.status : DbFailure → Status
  | internalIoError => .internalIoError
  | interrupted => .interrupted

/-- The reply of the cloud to a download: its result and the pieces that came with it. -/
structure Download where
  status : Except Status Unit
  pieces : List (ObjectIdentifier × Bytes)

def Download.writes (download : Download) : List Write :=
  download.pieces.flatMap fun piece =>
    [.put (.object piece.1.objectDigest) piece.2, .put (.objectStatus .synced piece.1) ()]

/-- A call of `OnNewCommits` of a watcher. -/
structure Notification (formats : StorageFormats) where
  watcher : Nat
  source : ChangeSource
  commits : List (Commit formats)

/-- The database, the watchers and the environment of a page. -/
structure PageWorld (formats : StorageFormats) where
  db : PageDb
  watchers : List Nat
  notified : List (Notification formats)
  failures : List (Option DbFailure)
  downloads : List Download

namespace PageWorld

def emptyPage (formats : StorageFormats) : PageWorld formats :=
  ⟨.initial, [], [], [], []⟩

def access (world : PageWorld formats) (result : Except Status α) (next : PageWorld formats) :
    Except Status α × PageWorld formats :=
  match world.failures with
  | [] => (result, next)
  | none :: failures => (result, { next with failures })
  | some failure :: failures => (.error failure.status, { world with failures })

def handle : Coroutine.Handler (PageOp formats) PageOp.Reply (PageWorld formats)
  | .acquireLock, world => world.access (.ok ()) world
  | .releaseLock, world => ((), world)
  | .startBatch, world => world.access (.ok ()) world
  | .get row, world => world.access (world.db.read row) world
  | .hasKey row, world => world.access (.ok (decide (row ∈ world.db))) world
  | .updateBatch, world => world.access (.ok ()) world
  | .execute writes, world =>
    world.access (.ok ()) { world with db := world.db.writeAll writes }
  | .getObjectsFromSync _, world =>
    match world.downloads with
    | [] => (.ok (), world)
    | download :: downloads =>
      (download.status,
        { world with db := world.db.writeAll download.writes, downloads })
  | .notifyWatchers source commits, world =>
    ((), { world with notified := world.notified ++
      world.watchers.map fun watcher => ⟨watcher, source, commits⟩ })

def call (routine : PageRoutine formats α) (world : PageWorld formats) :
    Except Fault α × PageWorld formats :=
  Coroutine.outcome handle routine world

structure Untouched (before after : PageWorld formats) : Prop where
  db : after.db = before.db
  watchers : after.watchers = before.watchers
  notified : after.notified = before.notified
  downloads : after.downloads = before.downloads

theorem Untouched.refl (world : PageWorld formats) : Untouched world world :=
  ⟨rfl, rfl, rfl, rfl⟩

theorem Untouched.trans {first second third : PageWorld formats} (before : Untouched first second)
    (after : Untouched second third) : Untouched first third :=
  ⟨after.db.trans before.db, after.watchers.trans before.watchers,
    after.notified.trans before.notified, after.downloads.trans before.downloads⟩

def Reads : PageOp formats → Prop
  | .execute _ => False
  | .getObjectsFromSync _ => False
  | .notifyWatchers _ _ => False
  | _ => True

theorem untouched_access (world : PageWorld formats) (result : Except Status α) :
    Untouched world (world.access result world).2 := by
  unfold access
  split <;> exact ⟨rfl, rfl, rfl, rfl⟩

theorem untouched_handle {op : PageOp formats} (reads : Reads op) (world : PageWorld formats) :
    Untouched world (handle op world).2 := by
  cases op with
  | execute | getObjectsFromSync | notifyWatchers => exact reads.elim
  | releaseLock => exact .refl world
  | acquireLock | startBatch | get | hasKey | updateBatch => exact untouched_access world _

def ReadOnly (routine : PageRoutine formats α) : Prop :=
  Coroutine.Only Reads routine.run

theorem ReadOnly.pure (value : α) : ReadOnly (Pure.pure value : PageRoutine formats α) :=
  .done _

theorem ReadOnly.throw (fault : Fault) :
    ReadOnly (MonadExcept.throw fault : PageRoutine formats α) :=
  .done _

variable {routine : PageRoutine formats α}

theorem ReadOnly.bind {f : α → PageRoutine formats β}
    (first : ReadOnly routine) (second : ∀ result, ReadOnly (f result)) :
    ReadOnly (routine >>= f) :=
  first.bindExcept second

theorem ReadOnly.untouched (readOnly : ReadOnly routine)
    (world : PageWorld formats) : Untouched world (world.call routine).2 :=
  readOnly.run_keeps Untouched .refl .trans (fun _ reads world => untouched_handle reads world) world

theorem call_returnOnError (attempt : PageCoroutine formats (Except Status α))
    (world : PageWorld formats) : world.call (returnOnError attempt) =
      ((run handle attempt world).1.mapError .status, (run handle attempt world).2) := by
  rw [call, returnOnError, outcome_bind, outcome_lift]
  rcases run handle attempt world with ⟨status | result, next⟩ <;> rfl

/-- The routine has the given result on the database, unless an access fails. -/
structure Computes (db : PageDb) (routine : PageRoutine formats α) (result : Except Fault α) :
    Prop where
  readOnly : ReadOnly routine
  exact : ∀ world : PageWorld formats, world.db = db → world.failures = [] →
    world.call routine = (result, world)
  sound : ∀ world : PageWorld formats, world.db = db → ∀ value,
    (world.call routine).1 = .ok value → result = .ok value

namespace Computes

variable {db : PageDb}

theorem pure (value : α) : Computes db (Pure.pure value : PageRoutine formats α) (.ok value) where
  readOnly := .done _
  exact := fun _ _ _ => rfl
  sound := fun _ _ _ isValue => isValue

theorem throw (fault : Fault) :
    Computes db (MonadExcept.throw fault : PageRoutine formats α) (.error fault) where
  readOnly := .done _
  exact := fun _ _ _ => rfl
  sound := fun _ _ _ isValue => isValue

variable {routine : PageRoutine formats α} {f : α → PageRoutine formats β}

theorem bind {value : α} {result : Except Fault β} (first : Computes db routine (.ok value))
    (second : Computes db (f value) result) (others : ∀ other, ReadOnly (f other)) :
    Computes db (routine >>= f) result where
  readOnly := first.readOnly.bindExcept others
  exact := by
    intro world sameDb noFailures
    rw [call, outcome_bind_ok (first.exact world sameDb noFailures)]
    exact second.exact world sameDb noFailures
  sound := by
    intro world sameDb value' isValue
    obtain ⟨middle, next, firstOk, secondOk⟩ :=
      outcome_bind_eq_ok.mp (Prod.ext isValue rfl : world.call (routine >>= f) = (_, _))
    have same := first.sound world sameDb middle (by rw [call, firstOk])
    obtain rfl : value = middle := Except.ok.inj same
    have untouched := first.readOnly.untouched world
    rw [call, firstOk] at untouched
    exact second.sound next (untouched.db.trans sameDb) value' (by rw [call, secondOk])

theorem bind_error {fault : Fault} (first : Computes db routine (.error fault))
    (others : ∀ other, ReadOnly (f other)) : Computes db (routine >>= f) (.error fault) where
  readOnly := first.readOnly.bindExcept others
  exact := by
    intro world sameDb noFailures
    exact outcome_bind_error (first.exact world sameDb noFailures)
  sound := by
    intro world sameDb value isValue
    obtain ⟨middle, next, firstOk, -⟩ :=
      outcome_bind_eq_ok.mp (Prod.ext isValue rfl : world.call (routine >>= f) = (_, _))
    exact absurd (first.sound world sameDb middle (by rw [call, firstOk])) (by simp)

theorem bindResult {middle : Except Fault α} {g : α → Except Fault β}
    (first : Computes db routine middle) (second : ∀ value, Computes db (f value) (g value)) :
    Computes db (routine >>= f) (middle >>= g) := by
  cases middle with
  | ok value => exact first.bind (second value) fun other => (second other).readOnly
  | error fault => exact first.bind_error fun other => (second other).readOnly

theorem returnOnError {attempt : PageCoroutine formats (Except Status α)}
    (reply : Except Status α) (reads : Only Reads attempt)
    (replies : ∀ world : PageWorld formats, world.db = db →
      run handle attempt world = world.access reply world) :
    Computes db (Peridot.returnOnError attempt) (reply.mapError .status) where
  readOnly := by
    refine reads.lift.bindExcept fun result => ?_
    cases result <;> exact .done _
  exact := by
    intro world sameDb noFailures
    simp [call_returnOnError, replies world sameDb, access, noFailures]
  sound := by
    intro world sameDb value isValue
    rw [call_returnOnError, replies world sameDb, access] at isValue
    rcases failures : world.failures with - | ⟨- | failure, rest⟩ <;> rw [failures] at isValue
    · exact isValue
    · exact isValue
    · exact absurd isValue (by simp [Except.mapError])

end Computes

end PageWorld

end Peridot
