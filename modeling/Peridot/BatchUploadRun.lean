import Peridot.BatchUpload
import Peridot.CallList

/-!
# Pieces are uploaded before commits

The invariant of `BatchUpload`: the counter of the objects that are handled, what the upload
waits for in each of its stages, and where each piece is that has to be uploaded.
-/

namespace Peridot

open List Option UploadRequest

namespace UploadRequest

def object? : UploadRequest → Option ObjectIdentifier
  | getObjectName identifier => some identifier
  | getPiece identifier => some identifier
  | encryptObject identifier => some identifier
  | addObject identifier => some identifier
  | markPieceSynced identifier => some identifier
  | _ => none

def isCommitCall : UploadRequest → Bool
  | getUnsyncedCommits => true
  | encryptCommits _ _ => true
  | addCommits _ => true
  | markCommitsSynced _ => true
  | _ => false

theorem object?_of_isCommitCall {request : UploadRequest} (isCommitCall : request.isCommitCall) :
    request.object? = none := by
  cases request <;> simp_all [UploadRequest.isCommitCall, object?]

end UploadRequest

def PieceSettled (log : List UploadEvent) (identifier : ObjectIdentifier) : Prop :=
  [.accepted identifier, .marked identifier true].Sublist log

/-- The last answer of `GetUnsyncedCommits`. -/
def lastUnsynced (log : List UploadEvent) : List CommitId :=
  log.foldl (fun last event => match event with
    | .unsynced ids => ids
    | _ => last) []

/-- What has to hold when commits are sent: every piece that `GetUnsyncedPieces` returned
was accepted by the cloud and marked, and the commits are some of the batch, in its order,
that were unsynced. -/
def SentAfterPieces (batch : List CommitId) (log : List UploadEvent) : Prop :=
  ∀ before ids, before ++ [.sent ids] <+: log →
    (∀ identifiers, .pieces identifiers ∈ before →
      ∀ identifier ∈ identifiers, PieceSettled before identifier) ∧
    ids.Sublist batch ∧ ids ⊆ lastUnsynced before

variable {log : List UploadEvent} {event : UploadEvent} {identifier : ObjectIdentifier}
    {queue : List ObjectIdentifier}

theorem lastUnsynced_append_unsynced (ids : List CommitId) :
    lastUnsynced (log ++ [.unsynced ids]) = ids := by
  simp [lastUnsynced]

theorem lastUnsynced_append (notUnsynced : ∀ ids, event ≠ .unsynced ids) :
    lastUnsynced (log ++ [event]) = lastUnsynced log := by
  cases event <;> simp_all [lastUnsynced]

theorem PieceSettled.append (settled : PieceSettled log identifier) :
    PieceSettled (log ++ [event]) identifier :=
  settled.trans (sublist_append_left log [event])

theorem pieceSettled_of_marked (accepted : .accepted identifier ∈ log) :
    PieceSettled (log ++ [.marked identifier true]) identifier :=
  (singleton_sublist.mpr accepted).append (List.Sublist.refl _)

theorem SentAfterPieces.append {batch : List CommitId} (sent : SentAfterPieces batch log)
    (notSent : ∀ ids, event ≠ .sent ids) : SentAfterPieces batch (log ++ [event]) := by
  intro before ids isPrefix
  rcases prefix_concat_iff.mp isPrefix with isNew | isPrefix
  · exact absurd (append_inj' isNew rfl).2 (by simpa using (notSent ids).symm)
  · exact sent before ids isPrefix

/-- Where a piece is that has to be uploaded: in the queue, in the hands of a callback, in a
call, or behind the call that marks it. -/
def PieceLocated (queue : List ObjectIdentifier) (hand : Option ObjectIdentifier)
    (pending : List UploadRequest) (log : List UploadEvent)
    (identifier : ObjectIdentifier) : Prop :=
  identifier ∈ queue ∨ hand = some identifier ∨
    (∃ request ∈ pending, request.object? = some identifier) ∨
    PieceSettled log identifier ∨ .marked identifier false ∈ log

theorem PieceLocated.append {hand : Option ObjectIdentifier} {pending : List UploadRequest}
    (located : PieceLocated queue hand pending log identifier) :
    PieceLocated queue hand pending (log ++ [event]) identifier := by
  rcases located with queued | inHand | waiting | settled | failed
  · exact .inl queued
  · exact .inr (.inl inHand)
  · exact .inr (.inr (.inl waiting))
  · exact .inr (.inr (.inr (.inl settled.append)))
  · exact .inr (.inr (.inr (.inr (mem_append_left _ failed))))

namespace UploadWorld

/-- The invariant, while a callback has the object `hand` in its hands.  The `strict` part
needs that `Retry` is not called after a piece could not be marked. -/
structure Holding (strict : Prop) (hand : Option ObjectIdentifier) (world : UploadWorld) : Prop where
  handled : world.upload.currentObjectsHandled =
    hand.toList.length + world.pending.countP (·.object?.isSome)
  alone : ∀ request ∈ world.pending, request.object? = none →
    world.pending = [request] ∧ hand = none
  uploading : ∀ request ∈ world.pending, request.isCommitCall = true →
    world.upload.remainingObjectIdentifiers = [] ∧ world.upload.errored = false
  quiet : world.canRetry = true → world.pending = [] ∧ hand = none
  unstarted : world.upload.started = false →
    world.pending = [] ∧ hand = none ∧ world.log = [] ∧ world.upload.errored = false ∧
      world.canRetry = false
  starting : .getUnsyncedPieces ∈ world.pending →
    world.upload.errored = false ∧ ∀ identifiers, .pieces identifiers ∉ world.log
  tracked : ∀ identifiers, .pieces identifiers ∈ world.log →
    ∀ identifier ∈ identifiers,
      PieceLocated world.upload.remainingObjectIdentifiers hand world.pending world.log
        identifier
  accepted : ∀ identifier, .markPieceSynced identifier ∈ world.pending →
    .accepted identifier ∈ world.log
  selected : world.upload.commits.Sublist world.batch
  answered : ∀ ids missing, .encryptCommits ids missing ∈ world.pending →
    ids.Sublist world.batch ∧ ids ⊆ lastUnsynced world.log
  failures : strict → ∀ identifier, .marked identifier false ∈ world.log →
    world.upload.errored = true
  sent : strict → SentAfterPieces world.batch world.log

variable {strict : Prop} {hand : Option ObjectIdentifier} {world next : UploadWorld}
  {identifier : ObjectIdentifier} {request : UploadRequest} {action : UploadAction}

theorem inv_new (batch : List CommitId) (maxConcurrentUploads : Nat) (unsynced : List CommitId) :
    Holding strict none (new batch maxConcurrentUploads unsynced) := by
  constructor <;> simp [new, SentAfterPieces]

def ObjectsOnly (world : UploadWorld) : Prop :=
  ∀ request ∈ world.pending, request.object? ≠ none

theorem Holding.objectsOnly (inv : Holding strict (some identifier) world) : world.ObjectsOnly := by
  intro request inPending notObject
  exact absurd (inv.alone request inPending notObject).2 (by simp)

theorem ObjectsOnly.pending_eq_nil (objectsOnly : world.ObjectsOnly)
    (noObject : world.pending.countP (·.object?.isSome) = 0) : world.pending = [] := by
  rw [countP_eq_zero] at noObject
  refine eq_nil_iff_forall_not_mem.mpr fun request inPending => ?_
  exact noObject request inPending (isSome_iff_ne_none.mpr (objectsOnly request inPending))

/-- The upload goes on, and waits for calls about objects only. -/
structure Working (strict : Prop) (hand : Option ObjectIdentifier) (world : UploadWorld) : Prop
    extends Holding strict hand world where
  objectsOnly : world.ObjectsOnly
  started : world.upload.started = true
  noRetry : world.canRetry = false
  alone := fun request inPending notObject => absurd notObject (objectsOnly request inPending)
  uploading := fun request inPending isCommitCall =>
    absurd (object?_of_isCommitCall isCommitCall) (objectsOnly request inPending)
  quiet := fun canRetry => (Bool.false_ne_true (noRetry.symm.trans canRetry)).elim
  unstarted := fun notStarted => (Bool.false_ne_true (notStarted.symm.trans started)).elim
  starting := fun waiting => absurd rfl (objectsOnly _ waiting)
  answered := fun _ _ waiting => absurd rfl (objectsOnly _ waiting)

theorem Working.isNil_iff (working : Working strict none world) :
    world.upload.currentObjectsHandled = 0 ↔ world.pending = [] := by
  have count := working.handled
  rw [toList_none, length_nil, Nat.zero_add] at count
  constructor
  · exact fun noneLeft => working.objectsOnly.pending_eq_nil (count.symm.trans noneLeft)
  · intro isNil
    simp [count, isNil]

/-- The upload has started, and waits for nothing. -/
structure Resting (strict : Prop) (world : UploadWorld) : Prop extends Holding strict none world where
  isNil : world.pending = []
  started : world.upload.started = true
  absent : ∀ request, request ∉ world.pending := eq_nil_iff_forall_not_mem.mp isNil
  alone := fun _ inPending => absurd inPending (absent _)
  uploading := fun _ inPending => absurd inPending (absent _)
  quiet := fun _ => ⟨isNil, rfl⟩
  unstarted := fun notStarted => (Bool.false_ne_true (notStarted.symm.trans started)).elim
  starting := fun inPending => absurd inPending (absent _)
  accepted := fun _ inPending => absurd inPending (absent _)
  answered := fun _ _ inPending => absurd inPending (absent _)

/-- What is in the hands of a callback belongs to an upload that goes on. -/
theorem Holding.working (inv : Holding strict (some identifier) world) :
    Working strict (some identifier) world := by
  have started : world.upload.started = true := by
    by_contra notStarted
    exact absurd (inv.unstarted (by simpa using notStarted)).2.1 (by simp)
  have noRetry : world.canRetry = false := by
    by_contra canRetry
    exact absurd (inv.quiet (by simpa using canRetry)).2 (by simp)
  exact ⟨inv, inv.objectsOnly, started, noRetry⟩

/-- A call that is waited for has been made after `Start`, and `Retry` waits for it. -/
theorem Holding.running (inv : Holding strict none world) (inPending : request ∈ world.pending) :
    world.upload.started = true ∧ world.canRetry = false := by
  constructor
  · by_contra notStarted
    have isNil := (inv.unstarted (by simpa using notStarted)).1
    simp [isNil] at inPending
  · by_contra canRetry
    have isNil := (inv.quiet (by simpa using canRetry)).1
    simp [isNil] at inPending

theorem Holding.take (inv : Holding strict none world) (inPending : request ∈ world.pending)
    (isObject : request.object? = some identifier) : Holding strict (some identifier)
      { world with pending := world.pending.erase request } := by
  obtain ⟨started, noRetry⟩ := inv.running inPending
  have objectsOnly : world.ObjectsOnly := by
    intro other inPending' notObject
    have isAlone := (inv.alone other inPending' notObject).1
    rw [isAlone, mem_singleton] at inPending
    subst inPending
    simp [isObject] at notObject
  have inside {other : UploadRequest} (inErased : other ∈ world.pending.erase request) :
      other ∈ world.pending := mem_of_mem_erase inErased
  have working : Working strict (some identifier)
      { world with pending := world.pending.erase request } := {
    objectsOnly := fun other inErased => objectsOnly other (inside inErased)
    started
    noRetry
    handled := by
      have count := (perm_cons_erase inPending).countP_eq (·.object?.isSome)
      rw [countP_cons_of_pos (by simp [isObject])] at count
      simp only [inv.handled, count, toList_none, toList_some, length_nil, length_singleton]
      omega
    tracked := by
      intro identifiers returned piece isPiece
      rcases inv.tracked identifiers returned piece isPiece with
        queued | inHand | ⟨other, inPending', isOther⟩ | settled
      · exact .inl queued
      · simp at inHand
      · by_cases isTaken : other = request
        · subst isTaken
          exact .inr (.inl (isObject.symm.trans isOther))
        · have left := (mem_erase_of_ne isTaken).mpr inPending'
          exact .inr (.inr (.inl ⟨other, left, isOther⟩))
      · exact .inr (.inr (.inr settled))
    accepted := fun piece inErased => inv.accepted piece (inside inErased)
    selected := inv.selected
    failures := inv.failures
    sent := inv.sent }
  exact working.toHolding

theorem Holding.takeLast (inv : Holding strict none world) (inPending : request ∈ world.pending)
    (notObject : request.object? = none) :
    world.pending.erase request = [] ∧ Holding strict none { world with pending := [] } := by
  have isAlone := (inv.alone request inPending notObject).1
  have resting : Resting strict { world with pending := [] } := {
    isNil := rfl
    started := (inv.running inPending).1
    handled := by simp [inv.handled, isAlone, notObject]
    tracked := by
      intro identifiers returned piece isPiece
      rcases inv.tracked identifiers returned piece isPiece with
        queued | inHand | ⟨other, inPending', isOther⟩ | settled
      · exact .inl queued
      · exact .inr (.inl inHand)
      · rw [isAlone, mem_singleton] at inPending'
        subst inPending'
        simp [notObject] at isOther
      · exact .inr (.inr (.inr settled))
    selected := inv.selected
    failures := inv.failures
    sent := inv.sent }
  exact ⟨by simp [isAlone], resting.toHolding⟩

/-- An event is logged that tells nothing new of pieces.  Commits may be sent when the calls
that are waited for do not depend on the commits that are unsynced. -/
theorem Holding.logged (inv : Holding strict hand world) (event : UploadEvent)
    (started : world.upload.started = true)
    (notPieces : ∀ identifiers, event ≠ .pieces identifiers)
    (notMarked : ∀ piece, event ≠ .marked piece false)
    (answered : world.pending = [] ∨ ∀ ids, event ≠ .unsynced ids)
    (sent : strict → SentAfterPieces world.batch (world.log ++ [event])) :
    Holding strict hand (world.record event) := by
  exact { inv with
    unstarted := fun notStarted => nomatch notStarted.symm.trans started
    starting := by
      intro waiting
      refine ⟨(inv.starting waiting).1, fun identifiers inLog => ?_⟩
      rcases mem_append.mp inLog with inLog | isNew
      · exact (inv.starting waiting).2 identifiers inLog
      · exact notPieces identifiers (mem_singleton.mp isNew).symm
    tracked := by
      intro identifiers returned piece isPiece
      rcases mem_append.mp returned with returned | isNew
      · exact (inv.tracked identifiers returned piece isPiece).append
      · exact absurd (mem_singleton.mp isNew).symm (notPieces identifiers)
    accepted := fun piece waiting => mem_append_left _ (inv.accepted piece waiting)
    answered := by
      intro ids missing waiting
      rcases answered with isNil | notUnsynced
      · change _ ∈ world.pending at waiting
        simp [isNil] at waiting
      · rw [record, lastUnsynced_append notUnsynced]
        exact inv.answered ids missing waiting
    failures := by
      intro isStrict piece inLog
      rcases mem_append.mp inLog with inLog | isNew
      · exact inv.failures isStrict piece inLog
      · exact absurd (mem_singleton.mp isNew).symm (notMarked piece)
    sent }

theorem Holding.record (inv : Holding strict hand world) (event : UploadEvent)
    (started : world.upload.started = true)
    (neutral : event = .attempt ∨ (∃ piece, event = .accepted piece) ∨ event = .done ∨
      ∃ errorType currentUploads, event = .error errorType currentUploads) :
    Holding strict hand (world.record event) := by
  have notSent : ∀ ids, event ≠ .sent ids := by
    rcases neutral with rfl | ⟨_, rfl⟩ | rfl | ⟨_, _, rfl⟩ <;> simp
  refine inv.logged event started ?_ ?_ (.inr ?_) fun isStrict => (inv.sent isStrict).append notSent
  all_goals rcases neutral with rfl | ⟨_, rfl⟩ | rfl | ⟨_, _, rfl⟩ <;> simp

theorem Holding.send (inv : Holding strict (some identifier) world)
    (isObject : request.object? = some identifier)
    (accepted : request = .markPieceSynced identifier →
      .accepted identifier ∈ world.log) : Holding strict none (world.send request) := by
  obtain ⟨-, objectsOnly, started, noRetry⟩ := inv.working
  have sending : Working strict none (world.send request) := {
    objectsOnly := forall_mem_concat.mpr ⟨objectsOnly, by simp [isObject]⟩
    started
    noRetry
    handled := by
      simp only [UploadWorld.send, inv.handled, countP_append, countP_singleton, isObject,
        toList_none, toList_some, length_nil, length_singleton, isSome_some, if_true]
      omega
    tracked := by
      intro identifiers returned piece isPiece
      rcases inv.tracked identifiers returned piece isPiece with
        queued | inHand | ⟨other, inPending, isOther⟩ | settled
      · exact .inl queued
      · have isNew := isObject.trans inHand
        exact .inr (.inr (.inl ⟨request, by simp [UploadWorld.send], isNew⟩))
      · exact .inr (.inr (.inl ⟨other, mem_append_left _ inPending, isOther⟩))
      · exact .inr (.inr (.inr settled))
    accepted := by
      intro piece inSent
      rcases mem_append.mp inSent with inPending | isNew
      · exact inv.accepted piece inPending
      · obtain rfl := mem_singleton.mp isNew
        obtain rfl : piece = identifier := by simpa [object?] using isObject
        exact accepted rfl
    selected := inv.selected
    failures := inv.failures
    sent := inv.sent }
  exact sending.toHolding

structure Idle (strict : Prop) (world : UploadWorld) : Prop where
  inv : Holding strict none world
  isNil : world.pending = []
  started : world.upload.started = true
  noRetry : world.canRetry = false

/-- No piece is left, so that the commits can be sent. -/
structure Committing (strict : Prop) (world : UploadWorld) : Prop extends Idle strict world where
  empty : world.upload.remainingObjectIdentifiers = []
  notErrored : world.upload.errored = false

/-- A call for the commits is made when nothing else is waited for. -/
theorem Committing.sendAlone (committing : Committing strict world)
    (isCommitCall : request.isCommitCall = true)
    (answered : ∀ ids missing, request = .encryptCommits ids missing →
      ids.Sublist world.batch ∧ ids ⊆ lastUnsynced world.log) :
    Holding strict none (world.send request) := by
  obtain ⟨⟨inv, isNil, started, noRetry⟩, empty, notErrored⟩ := committing
  have notObject := object?_of_isCommitCall isCommitCall
  have isOnly {other : UploadRequest} (inSent : other ∈ world.pending ++ [request]) :
      other = request := by simpa [isNil] using inSent
  exact { inv with
    handled := by simp [send, inv.handled, isNil, notObject]
    alone := by
      intro other inSent _
      obtain rfl := isOnly inSent
      simp [send, isNil]
    uploading := fun _ _ _ => ⟨empty, notErrored⟩
    quiet := fun canRetry => nomatch canRetry.symm.trans noRetry
    unstarted := fun notStarted => nomatch notStarted.symm.trans started
    starting := by
      intro inSent
      obtain rfl := isOnly inSent
      simp [UploadRequest.isCommitCall] at isCommitCall
    tracked := by
      intro identifiers returned piece isPiece
      rcases inv.tracked identifiers returned piece isPiece with
        queued | inHand | ⟨other, inPending, isOther⟩ | settled
      · exact .inl queued
      · exact .inr (.inl inHand)
      · simp [isNil] at inPending
      · exact .inr (.inr (.inr settled))
    accepted := by
      intro piece inSent
      obtain rfl := isOnly inSent
      simp [UploadRequest.isCommitCall] at isCommitCall
    answered := fun ids missing inSent => answered ids missing (isOnly inSent).symm }

theorem Holding.onError (inv : Holding strict none world) (isNil : world.pending = [])
    (started : world.upload.started = true) (errorType : ErrorType) :
    Holding strict none (world.onError errorType) := by
  have logged := inv.record (.error errorType world.upload.currentUploads) started (by simp)
  exact { logged with
    quiet := fun _ => ⟨isNil, rfl⟩
    unstarted := fun notStarted => nomatch notStarted.symm.trans started }

theorem Idle.fail (idle : Idle strict world) (errorType : ErrorType) :
    Holding strict none (world.fail errorType) := by
  obtain ⟨inv, isNil, started, -⟩ := idle
  have errored : Resting strict
      { world with upload.errored := true } := {
    isNil
    started
    handled := inv.handled
    tracked := inv.tracked
    selected := inv.selected
    failures := fun _ _ _ => rfl
    sent := inv.sent }
  exact errored.onError isNil started errorType

theorem uploadNextObject_of_nil (empty : world.upload.remainingObjectIdentifiers = []) :
    world.uploadNextObject = world := by
  simp [uploadNextObject, empty]

theorem uploadNextObject_of_concat
    (isQueue : world.upload.remainingObjectIdentifiers = queue ++ [identifier]) :
    world.uploadNextObject = UploadWorld.send { world with
        upload.currentUploads := world.upload.currentUploads + 1
        upload.currentObjectsHandled := world.upload.currentObjectsHandled + 1
        upload.remainingObjectIdentifiers := queue } (.getObjectName identifier) := by
  simp [uploadNextObject, isQueue]

theorem Working.uploadNextObject (working : Working strict none world) :
    Working strict none world.uploadNextObject := by
  rcases eq_nil_or_concat world.upload.remainingObjectIdentifiers with
    empty | ⟨queue, identifier, isQueue⟩
  · rwa [uploadNextObject_of_nil empty]
  · rw [concat_eq_append] at isQueue
    rw [uploadNextObject_of_concat isQueue]
    obtain ⟨inv, objectsOnly, started, noRetry⟩ := working
    have inHand : Working strict (some identifier) { world with
        upload.currentUploads := world.upload.currentUploads + 1
        upload.currentObjectsHandled := world.upload.currentObjectsHandled + 1
        upload.remainingObjectIdentifiers := queue } := {
      objectsOnly
      started
      noRetry
      handled := by
        simp only [inv.handled, toList_none, toList_some, length_nil, length_singleton]
        omega
      tracked := by
        intro identifiers returned piece isPiece
        rcases inv.tracked identifiers returned piece isPiece with
          queued | inHand | others
        · rw [isQueue, mem_append, mem_singleton] at queued
          rcases queued with queued | rfl
          · exact .inl queued
          · exact .inr (.inl rfl)
        · simp at inHand
        · exact .inr (.inr others)
      accepted := inv.accepted
      selected := inv.selected
      failures := inv.failures
      sent := inv.sent }
    exact ⟨inHand.send rfl (by simp),
      forall_mem_concat.mpr ⟨objectsOnly, by simp [object?]⟩, started, noRetry⟩

/-- What `UploadNextObject` keeps is kept by the loop. -/
theorem uploadObjects_of_next (motive : UploadWorld → Prop)
    (next : ∀ world, motive world → motive world.uploadNextObject) (fuel : Nat)
    (holds : motive world) : motive (uploadObjects fuel world) := by
  induction fuel generalizing world with
  | zero => exact holds
  | succ fuel ih =>
    rw [uploadObjects]
    split
    · exact ih (next world holds)
    · exact holds

theorem Idle.startObjectUpload (idle : Idle strict world)
    (notErrored : world.upload.errored = false) : Holding strict none world.startObjectUpload := by
  rw [UploadWorld.startObjectUpload]
  split
  case isTrue empty => exact Committing.sendAlone ⟨idle, empty, notErrored⟩ rfl (by simp)
  case isFalse =>
    have objectsOnly : world.ObjectsOnly := by simp [ObjectsOnly, idle.isNil]
    exact (uploadObjects_of_next (Working strict none) (fun _ working => working.uploadNextObject) _
      ⟨idle.inv, objectsOnly, idle.started, idle.noRetry⟩).toHolding

section

variable (inv : Holding strict (some identifier) world)
include inv

theorem Holding.enqueueForRetryAndSignalError :
    Holding strict none (world.enqueueForRetryAndSignalError identifier) := by
  obtain ⟨-, objectsOnly, started, noRetry⟩ := inv.working
  have enqueued : Working strict none { world with
      upload.currentObjectsHandled := world.upload.currentObjectsHandled - 1
      upload.errored := true
      upload.remainingObjectIdentifiers :=
        world.upload.remainingObjectIdentifiers ++ [identifier] } := {
    objectsOnly
    started
    noRetry
    handled := by
      simp only [inv.handled, toList_none, toList_some, length_nil, length_singleton]
      omega
    tracked := by
      intro identifiers returned piece isPiece
      rcases inv.tracked identifiers returned piece isPiece with
        queued | inHand | others
      · exact .inl (mem_append_left _ queued)
      · cases inHand
        exact .inl (by simp)
      · exact .inr (.inr others)
    accepted := inv.accepted
    selected := inv.selected
    failures := fun _ _ _ => rfl
    sent := inv.sent }
  rw [UploadWorld.enqueueForRetryAndSignalError]
  split
  case isTrue noneLeft => exact enqueued.onError (enqueued.isNil_iff.mp noneLeft) started _
  case isFalse => exact enqueued.toHolding

variable (accepted : .accepted identifier ∈ world.log)
include accepted

theorem Holding.pieceMarked (ok : Bool) :
    Working strict none (world.pieceMarked identifier ok) := by
  obtain ⟨-, objectsOnly, started, noRetry⟩ := inv.working
  exact {
    objectsOnly
    started
    noRetry
    handled := by
      simp only [UploadWorld.pieceMarked, UploadWorld.record, inv.handled, toList_none,
        toList_some, length_nil, length_singleton]
      omega
    tracked := by
      intro identifiers returned piece isPiece
      have returned : .pieces identifiers ∈ world.log := by
        simpa [UploadWorld.pieceMarked, UploadWorld.record] using returned
      by_cases isMarked : piece = identifier
      · subst isMarked
        cases ok with
        | true => exact .inr (.inr (.inr (.inl (pieceSettled_of_marked accepted))))
        | false => exact .inr (.inr (.inr (.inr
            (by simp [UploadWorld.pieceMarked, UploadWorld.record]))))
      · rcases (inv.tracked identifiers returned piece isPiece).append with
          queued | inHand | others
        · exact .inl queued
        · exact absurd (some.inj inHand).symm isMarked
        · exact .inr (.inr others)
    accepted := fun piece waiting => mem_append_left _ (inv.accepted piece waiting)
    selected := inv.selected
    failures := by
      intro isStrict piece inLog
      rcases mem_append.mp inLog with inLog | isNew
      · have errored := inv.failures isStrict piece inLog
        simp [UploadWorld.pieceMarked, errored]
      · obtain ⟨-, notOk⟩ : piece = identifier ∧ ok = false := by
          simpa using mem_singleton.mp isNew
        simp [UploadWorld.pieceMarked, notOk]
    sent := fun isStrict => (inv.sent isStrict).append (by simp) }

theorem Holding.onPieceMarked (ok : Bool) :
    Holding strict none (world.onPieceMarked identifier ok) := by
  have working := inv.pieceMarked accepted ok
  rw [UploadWorld.onPieceMarked]
  split
  case isTrue failed => exact working.onError (working.isNil_iff.mp failed.2) working.started _
  case isFalse notFailed =>
    split
    case isTrue finished =>
      have notErrored : (world.pieceMarked identifier ok).upload.errored = false := by
        by_contra errored
        exact notFailed ⟨by simpa using errored, finished.1⟩
      have idle : Idle strict (world.pieceMarked identifier ok) :=
        ⟨working.toHolding, working.isNil_iff.mp finished.1, working.started, working.noRetry⟩
      exact Committing.sendAlone ⟨idle, finished.2, notErrored⟩ rfl (by simp)
    case isFalse =>
      split
      · exact working.uploadNextObject.toHolding
      · exact working.toHolding

end

theorem Idle.onUnsyncedPieces (idle : Idle strict world) (notErrored : world.upload.errored = false)
    (first : ∀ identifiers, .pieces identifiers ∉ world.log)
    (answer : Option (List ObjectIdentifier)) :
    Holding strict none (world.onUnsyncedPieces answer) := by
  cases answer with
  | none => exact idle.fail .permanent
  | some identifiers =>
    obtain ⟨inv, isNil, started, noRetry⟩ := idle
    have returned : Resting strict { world.record (.pieces identifiers) with
        upload.remainingObjectIdentifiers := identifiers } := {
      isNil
      started
      handled := inv.handled
      tracked := by
        intro returned isReturned piece isPiece
        rcases mem_append.mp isReturned with inLog | isNew
        · exact absurd inLog (first returned)
        · obtain rfl : returned = identifiers := by simpa using isNew
          exact .inl isPiece
      selected := inv.selected
      failures := by
        intro isStrict piece inLog
        exact inv.failures isStrict piece (by simpa [record] using inLog)
      sent := fun isStrict => (inv.sent isStrict).append (by simp) }
    exact Idle.startObjectUpload ⟨returned.toHolding, isNil, started, noRetry⟩ notErrored

section

variable (committing : Committing strict world)
include committing

theorem Committing.onUnsyncedCommits (answer : Option (List CommitId)) :
    Holding strict none (world.onUnsyncedCommits answer) := by
  obtain ⟨⟨inv, isNil, started, noRetry⟩, empty, notErrored⟩ := committing
  have filtered : Holding strict none { world.record (.unsynced (answer.getD [])) with
      upload.commits := world.upload.commits.filter (· ∈ answer.getD []) } := by
    have logged := inv.logged (.unsynced (answer.getD [])) started (by simp) (by simp)
      (.inl isNil) fun isStrict => (inv.sent isStrict).append (by simp)
    exact { logged with
      selected := filter_sublist.trans inv.selected
      uploading := by simp [record, isNil] }
  rw [UploadWorld.onUnsyncedCommits]
  split
  · exact filtered.record .done started (by simp)
  · refine Committing.sendAlone ⟨⟨filtered, isNil, started, noRetry⟩, empty, notErrored⟩ rfl ?_
    intro ids missing isRequest
    obtain ⟨rfl, -⟩ : _ = ids ∧ _ = missing := by simpa using isRequest
    refine ⟨filter_sublist.trans inv.selected, ?_⟩
    rw [record, lastUnsynced_append_unsynced]
    intro id inCommits
    simpa using (mem_filter.mp inCommits).2

section

variable {ids : List CommitId} (selected : ids.Sublist world.batch)
include selected

variable (answered : ids ⊆ lastUnsynced world.log)
include answered

theorem Committing.recordSent : Committing strict (world.record (.sent ids)) := by
  obtain ⟨⟨inv, isNil, started, noRetry⟩, empty, notErrored⟩ := committing
  refine ⟨⟨?_, isNil, started, noRetry⟩, empty, notErrored⟩
  refine inv.logged (.sent ids) started (by simp) (by simp) (.inl isNil) ?_
  intro isStrict before sent isPrefix
  rcases prefix_concat_iff.mp isPrefix with isNew | isPrefix
  · obtain ⟨rfl, isSent⟩ := append_inj' isNew rfl
    obtain rfl : sent = ids := by simpa using isSent
    refine ⟨fun identifiers returned piece isPiece => ?_, selected, answered⟩
    rcases inv.tracked identifiers returned piece isPiece with
      queued | inHand | ⟨other, inPending, -⟩ | settled | failed
    · simp [empty] at queued
    · simp at inHand
    · simp [isNil] at inPending
    · exact settled
    · exact absurd ((inv.failures isStrict piece failed).symm.trans notErrored) (by simp)
  · exact inv.sent isStrict before sent isPrefix

theorem Committing.onCommitEncrypted (missing : Nat) (ok : Bool) :
    Holding strict none (world.onCommitEncrypted ids missing ok) := by
  rw [UploadWorld.onCommitEncrypted]
  split
  · split
    · exact (committing.recordSent selected answered).sendAlone rfl (by simp)
    · refine committing.sendAlone rfl ?_
      intro others left isRequest
      obtain ⟨rfl, -⟩ : ids = others ∧ _ = left := by simpa using isRequest
      exact ⟨selected, answered⟩
  · exact committing.fail .permanent

end

theorem Committing.onCommitsAdded (ids : List CommitId)
    (ok : Bool) : Holding strict none (world.onCommitsAdded ids ok) := by
  rw [UploadWorld.onCommitsAdded]
  split
  · exact committing.sendAlone rfl (by simp)
  · exact committing.fail .temporary

end

/-- The invariant does not depend on what the storage holds. -/
theorem Holding.storage (inv : Holding strict hand world) (unsynced ignored : List CommitId) :
    Holding strict hand { world with unsynced, ignored } :=
  { inv with }

theorem Committing.onCommitMarked (committing : Committing strict world)
    (missing : List CommitId) (id : CommitId) (ok : Bool) :
    Holding strict none (world.onCommitMarked missing id ok) := by
  have stored (unsynced ignored : List CommitId) :
      Committing strict { world with unsynced, ignored } :=
    { committing with inv := committing.inv.storage unsynced ignored }
  rw [UploadWorld.onCommitMarked]
  split
  · split
    · exact (stored _ _).inv.record .done committing.started (by simp)
    · exact (stored _ _).sendAlone rfl (by simp)
  · exact (stored _ _).fail .permanent

theorem Holding.start (inv : Holding strict none world) (notStarted : world.upload.started = false) :
    Holding strict none world.start := by
  obtain ⟨isNil, -, noLog, notErrored, noRetry⟩ := inv.unstarted notStarted
  have isLog : world.log ++ [UploadEvent.attempt] = [.attempt] := by rw [noLog, nil_append]
  have isPending : world.pending ++ [UploadRequest.getUnsyncedPieces] = [.getUnsyncedPieces] := by
    rw [isNil, nil_append]
  have logged : (world.record .attempt).log = [.attempt] := isLog
  exact { inv with
    handled := by
      simp [UploadWorld.start, UploadWorld.send, UploadWorld.record, inv.handled, isNil,
        object?]
    alone := by
      intro request inPending _
      simp only [UploadWorld.start, UploadWorld.send, UploadWorld.record, isPending,
        mem_singleton] at inPending ⊢
      exact ⟨by rw [inPending], trivial⟩
    uploading := by
      intro request inPending isCommitCall
      simp only [UploadWorld.start, UploadWorld.send, UploadWorld.record, isPending,
        mem_singleton] at inPending
      subst inPending
      simp [UploadRequest.isCommitCall] at isCommitCall
    quiet := fun canRetry => nomatch canRetry.symm.trans noRetry
    unstarted := by simp [UploadWorld.start, UploadWorld.send]
    starting := fun _ => ⟨notErrored, by simp [UploadWorld.start, UploadWorld.send, logged]⟩
    tracked := by simp [UploadWorld.start, UploadWorld.send, logged]
    accepted := by simp [UploadWorld.start, UploadWorld.send, UploadWorld.record, isPending]
    answered := by simp [UploadWorld.start, UploadWorld.send, UploadWorld.record, isPending]
    failures := by simp [UploadWorld.start, UploadWorld.send, logged]
    sent := fun isStrict => (inv.sent isStrict).append (by simp) }

theorem Holding.retry (inv : Holding strict none world) (canRetry : world.canRetry = true)
    (noFailure : strict → ∀ piece, .marked piece false ∉ world.log) :
    Holding strict none world.retry := by
  obtain ⟨isNil, -⟩ := inv.quiet canRetry
  have started : world.upload.started = true := by
    by_contra notStarted
    have noRetry := (inv.unstarted (by simpa using notStarted)).2.2.2.2
    exact nomatch canRetry.symm.trans noRetry
  have logged := inv.record .attempt started (by simp)
  have retried : Resting strict { world.record .attempt with
      upload.errored := false, upload.errorType := .temporary
      canRetry := false } := {
    isNil
    started
    handled := logged.handled
    tracked := logged.tracked
    selected := logged.selected
    failures := by
      intro isStrict piece inLog
      exact absurd (by simpa [UploadWorld.record] using inLog) (noFailure isStrict piece)
    sent := logged.sent }
  exact Idle.startObjectUpload ⟨retried.toHolding, isNil, started, rfl⟩ rfl

structure Safe (strict : Prop) (world : UploadWorld) : Prop where
  inv : world.crashed = false → Holding strict none world
  sent : strict → SentAfterPieces world.batch world.log

theorem Holding.safe (inv : Holding strict none world) : Safe strict world :=
  ⟨fun _ => inv, inv.sent⟩

theorem Holding.answer {answer : request.Answer} (inv : Holding strict none world)
    (inPending : request ∈ world.pending)
    (isNext : receive { world with pending := world.pending.erase request } request answer =
      some next) : Safe strict next := by
  obtain ⟨started, noRetry⟩ := inv.running inPending
  by_cases isObject : request.object? = none
  · obtain ⟨isNil, left⟩ := inv.takeLast inPending isObject
    rw [isNil] at isNext
    have idle : Idle strict { world with pending := [] } := ⟨left, rfl, started, noRetry⟩
    have committing (isCommitCall : request.isCommitCall = true) :
        Committing strict { world with pending := [] } :=
      have stage := inv.uploading request inPending isCommitCall
      ⟨idle, stage.1, stage.2⟩
    cases request with
    | getUnsyncedPieces =>
      obtain ⟨notErrored, first⟩ := inv.starting inPending
      cases isNext
      exact (idle.onUnsyncedPieces notErrored first answer).safe
    | getUnsyncedCommits =>
      cases answer with
      | none =>
        cases isNext
        exact ((committing rfl).onUnsyncedCommits none).safe
      | some ids =>
        obtain ⟨-, isNext⟩ := ite_none_right_eq_some.mp isNext
        cases isNext
        exact ((committing rfl).onUnsyncedCommits (some ids)).safe
    | encryptCommits ids missing =>
      obtain ⟨selected, answered⟩ := inv.answered ids missing inPending
      cases isNext
      exact ((committing rfl).onCommitEncrypted selected answered missing answer).safe
    | addCommits ids =>
      cases isNext
      exact ((committing rfl).onCommitsAdded ids answer).safe
    | markCommitsSynced missing =>
      obtain ⟨id, ok⟩ := answer
      obtain ⟨-, isNext⟩ := ite_none_right_eq_some.mp isNext
      cases isNext
      exact ((committing rfl).onCommitMarked missing id ok).safe
    | _ => simp [object?] at isObject
  · obtain ⟨identifier, isObject⟩ := ne_none_iff_exists'.mp isObject
    have inHand := inv.take inPending isObject
    cases request with
    | getObjectName other =>
      cases isObject
      cases isNext
      simp only [onObjectName]
      split
      · refine Holding.safe ?_
        exact inHand.send rfl (by simp)
      · refine Holding.safe ?_
        exact inHand.enqueueForRetryAndSignalError
    | getPiece other =>
      cases isObject
      cases isNext
      simp only [onPiece]
      split
      · refine Holding.safe ?_
        exact inHand.send rfl (by simp)
      · exact ⟨by simp, inHand.sent⟩
    | encryptObject other =>
      obtain rfl := some.inj isObject
      obtain rfl := some.inj isNext
      simp only [onEncryptedObject]
      split
      · refine Holding.safe ?_
        exact inHand.send rfl (by simp)
      · refine Holding.safe ?_
        exact inHand.enqueueForRetryAndSignalError
    | addObject other =>
      obtain rfl := some.inj isObject
      obtain rfl := some.inj isNext
      have counted : Holding strict (some other) { world with
          pending := world.pending.erase (.addObject other)
          upload.currentUploads := world.upload.currentUploads - 1 } := { inHand with }
      simp only [onObjectAdded]
      split
      · refine Holding.safe ?_
        exact (counted.record (.accepted other) started (by simp)).send rfl
          (by simp [UploadWorld.record])
      · refine Holding.safe ?_
        exact counted.enqueueForRetryAndSignalError
    | markPieceSynced other =>
      obtain rfl := some.inj isObject
      obtain rfl := some.inj isNext
      refine Holding.safe ?_
      exact inHand.onPieceMarked (inv.accepted other inPending) answer
    | _ => simp [object?] at isObject

theorem Safe.step (safe : Safe strict world)
    (noFailure : strict → action = .retry → ∀ piece, .marked piece false ∉ world.log)
    (isStep : world.step action = some next) : Safe strict next := by
  cases action with
  | start =>
    obtain ⟨canStart, isNext⟩ := ite_none_right_eq_some.mp isStep
    obtain rfl := some.inj isNext
    exact ((safe.inv canStart.1).start canStart.2).safe
  | retry =>
    obtain ⟨canRetry, isNext⟩ := ite_none_right_eq_some.mp isStep
    obtain rfl := some.inj isNext
    exact ((safe.inv canRetry.1).retry canRetry.2 fun isStrict => noFailure isStrict rfl).safe
  | answer request answer =>
    obtain ⟨waiting, isNext⟩ := ite_none_right_eq_some.mp isStep
    exact (safe.inv waiting.1).answer waiting.2 isNext
  | _ =>
    obtain ⟨-, isNext⟩ := ite_none_right_eq_some.mp isStep
    obtain rfl := some.inj isNext
    exact ⟨fun running => (safe.inv running).storage _ _, safe.sent⟩

section

variable (world : UploadWorld)

theorem batch_uploadNextObject : world.uploadNextObject.batch = world.batch := by
  rw [uploadNextObject]
  split <;> rfl

theorem batch_startObjectUpload : world.startObjectUpload.batch = world.batch := by
  rw [startObjectUpload]
  split
  · rfl
  · exact uploadObjects_of_next (·.batch = world.batch)
      (fun _ same => (batch_uploadNextObject _).trans same) _ rfl

theorem batch_enqueueForRetryAndSignalError (identifier : ObjectIdentifier) :
    (world.enqueueForRetryAndSignalError identifier).batch = world.batch := by
  rw [enqueueForRetryAndSignalError]
  split <;> rfl

end

theorem batch_receive {answer : request.Answer}
    (isNext : receive world request answer = some next) : next.batch = world.batch := by
  cases request with
  | getUnsyncedPieces =>
    cases isNext
    cases answer with
    | none => rfl
    | some identifiers => exact batch_startObjectUpload _
  | getUnsyncedCommits =>
    cases answer with
    | none =>
      cases isNext
      simp only [onUnsyncedCommits]
      split <;> rfl
    | some ids =>
      obtain ⟨-, isNext⟩ := ite_none_right_eq_some.mp isNext
      cases isNext
      simp only [onUnsyncedCommits]
      split <;> rfl
  | markCommitsSynced missing =>
    obtain ⟨-, isNext⟩ := ite_none_right_eq_some.mp isNext
    cases isNext
    simp only [onCommitMarked]
    split_ifs <;> rfl
  | _ =>
    cases isNext
    simp only [onObjectName, onPiece, onEncryptedObject, onObjectAdded, onPieceMarked,
      onCommitEncrypted, onCommitsAdded]
    split_ifs
    all_goals
      first
      | rfl
      | exact batch_enqueueForRetryAndSignalError _ _
      | exact batch_uploadNextObject _

theorem batch_step (isStep : world.step action = some next) : next.batch = world.batch := by
  cases action with
  | answer request answer =>
    have same := batch_receive (ite_none_right_eq_some.mp isStep).2
    exact same
  | retry =>
    cases (ite_none_right_eq_some.mp isStep).2
    exact batch_startObjectUpload _
  | _ =>
    cases (ite_none_right_eq_some.mp isStep).2
    rfl

/-- No piece has failed to be marked when `Retry` is called. -/
def RetriesMarked (world : UploadWorld) (action : UploadAction) : Prop :=
  action = .retry → ∀ identifier, .marked identifier false ∉ world.log

/-- In every run in which `Retry` is not called after a piece could not be marked, the commits
are sent after all pieces are uploaded and marked. -/
theorem sentAfterPieces_run (batch : List CommitId) (maxConcurrentUploads : Nat)
    (unsynced : List CommitId) {actions : List UploadAction} {final : UploadWorld}
    (retriesMarked : EachStep step RetriesMarked (new batch maxConcurrentUploads unsynced) actions)
    (isRun : runSteps step (new batch maxConcurrentUploads unsynced) actions = some final) :
    SentAfterPieces batch final.log := by
  have kept : Safe True final ∧ final.batch = batch := by
    refine invariant_runSteps (fun world => Safe True world ∧ world.batch = batch) ?_
      ⟨(inv_new batch maxConcurrentUploads unsynced).safe, rfl⟩ retriesMarked isRun
    intro world next action safe marked isStep
    exact ⟨safe.1.step (fun _ => marked) isStep, (batch_step isStep).trans safe.2⟩
  rw [← kept.2]
  exact kept.1.sent trivial

def sampleUploadPiece : ObjectIdentifier :=
  ⟨0, 0, List.replicate 33 1⟩

def sampleUploadRun : List UploadAction :=
  [.start, .answer .getUnsyncedPieces (some [sampleUploadPiece]),
    .answer (.getObjectName sampleUploadPiece) true, .answer (.getPiece sampleUploadPiece) true,
    .answer (.encryptObject sampleUploadPiece) (true, true),
    .answer (.addObject sampleUploadPiece) false, .retry,
    .answer (.getObjectName sampleUploadPiece) true, .answer (.getPiece sampleUploadPiece) true,
    .answer (.encryptObject sampleUploadPiece) (true, true),
    .answer (.addObject sampleUploadPiece) true, .answer (.markPieceSynced sampleUploadPiece) true,
    .answer .getUnsyncedCommits (some [[1]]), .answer (.encryptCommits [[1]] 1) true]

/-- The steps of the sample before its `Retry`. -/
theorem retriesMarked_sampleUploadRun :
    EachStep step RetriesMarked (new [[1]] 1 [[1]]) sampleUploadRun := by
  have failed : (runSteps step (new [[1]] 1 [[1]]) (sampleUploadRun.take 6)).map (·.log) =
      some [.attempt, .pieces [sampleUploadPiece], .error .temporary 0] := by decide
  rw [← take_append_drop 6 sampleUploadRun, eachStep_append]
  constructor
  · simp only [sampleUploadRun, take, EachStep]
    simp [RetriesMarked]
  · intro next isRun
    rw [isRun, map_some, some.injEq] at failed
    simp only [sampleUploadRun, drop, EachStep]
    simp [RetriesMarked, failed]

/-- A piece that is uploaded again after an error of the cloud. -/
theorem sentAfterPieces_run_retried :
    ∃ final, runSteps step (new [[1]] 1 [[1]]) sampleUploadRun = some final ∧
      .sent [[1]] ∈ final.log ∧ SentAfterPieces [[1]] final.log :=
  ⟨_, rfl, by decide,
    sentAfterPieces_run [[1]] 1 [[1]] retriesMarked_sampleUploadRun rfl⟩

/-- The piece cannot be marked, and is not uploaded again after `Retry`. -/
theorem sent_before_piece_marked :
    ∃ actions final, runSteps step (new [[1]] 1 [[1]]) actions = some final ∧
      ¬SentAfterPieces [[1]] final.log := by
  refine ⟨[.start, .answer .getUnsyncedPieces (some [sampleUploadPiece]),
    .answer (.getObjectName sampleUploadPiece) true, .answer (.getPiece sampleUploadPiece) true,
    .answer (.encryptObject sampleUploadPiece) (true, true),
    .answer (.addObject sampleUploadPiece) true,
    .answer (.markPieceSynced sampleUploadPiece) false, .retry,
    .answer .getUnsyncedCommits (some [[1]]), .answer (.encryptCommits [[1]] 1) true], _, rfl, ?_⟩
  intro sentAfterPieces
  obtain ⟨settled, -⟩ := sentAfterPieces
    [.attempt, .pieces [sampleUploadPiece], .accepted sampleUploadPiece,
      .marked sampleUploadPiece false, .error .permanent 0, .attempt, .unsynced [[1]]] [[1]]
    (by decide)
  have marked := (settled [sampleUploadPiece] (by decide) sampleUploadPiece (by decide)).subset
    (show .marked sampleUploadPiece true ∈ _ by simp)
  exact absurd marked (by decide)

end UploadWorld

end Peridot
