import Peridot.PageStorage
import Peridot.StepRun

/-!
# Listening to Firestore

`ListenCall` has operations on a completion queue, whose tags are its members.  It goes away when
none of them is pending and no client is to be notified any more.
-/

namespace Peridot

open List Bool

structure GrpcStatus where
  code : ℕ
  message : Bytes

/-- What `ListenCall` does. `access` is the use of a call that is gone, and `checkFailed` an
assertion that fails. -/
inductive ListenCallAction where
  | startRead
  | startWrite (request : Bytes)
  | requestFinish
  | tryCancel
  | onConnected
  | onResponse (response : Bytes)
  | onFinished (status : GrpcStatus)
  | onEmpty (pendingCqOperations : ℕ)
  | access
  | checkFailed

namespace ListenCallAction

/-- An operation that is not valid after `Finish`. -/
def isStart : ListenCallAction → Bool
  | startRead | startWrite _ | requestFinish => true
  | _ => false

def isNotification : ListenCallAction → Bool
  | onConnected | onResponse _ | onFinished _ => true
  | _ => false

/-- An action that does not change what may come later. -/
def isPlain : ListenCallAction → Bool
  | requestFinish | onFinished _ | onEmpty _ | checkFailed => false
  | _ => true

def mayFollow : ListenCallAction → ListenCallAction → Bool
  | requestFinish, second => !second.isStart
  | onFinished _, second => !second.isNotification
  | onEmpty _, _ => false
  | _, _ => true

end ListenCallAction

/-- `ListenCall`. The completion queue has the pending operations of each tag, `hasHandler` is
whether the client has its `ListenCallHandler`, and `trace` is what the call has done. -/
structure ListenCall where
  hasClient : Bool
  connected : Bool
  finishRequested : Bool
  pendingCqOperations : ℕ
  pendingConnects : ℕ
  pendingReads : ℕ
  pendingWrites : ℕ
  pendingFinishes : ℕ
  hasHandler : Bool
  trace : List ListenCallAction

/-- What the client does while it is notified: it writes, and may delete its handler. -/
structure ClientReaction where
  writes : List Bytes
  dropsHandler : Bool

inductive ListenCallEvent where
  | connectDone (ok : Bool) (reaction : ClientReaction)
  | readDone (ok : Bool) (response : Bytes) (reaction : ClientReaction)
  | writeDone (ok : Bool)
  | finishDone (ok : Bool) (status : GrpcStatus) (dropsHandler : Bool)
  | write (request : Bytes)
  | dropHandler

def unknownStatus : GrpcStatus :=
  ⟨2, ascii ['u', 'n', 'k', 'n', 'o', 'w', 'n']⟩

namespace ListenCall

def start : ListenCall :=
  ⟨true, false, false, 1, 1, 0, 0, 0, true, []⟩

def record (call : ListenCall) (action : ListenCallAction) : ListenCall :=
  { call with trace := call.trace ++ [action] }

/-- The call has called `on_empty_`. -/
def isGone (call : ListenCall) : Bool :=
  call.trace.any fun action =>
    match action with
    | .onEmpty _ => true
    | _ => false

def touch (call : ListenCall) : ListenCall :=
  if call.isGone then call.record .access else call

/-- `FXL_DCHECK`, after which a release build goes on. -/
def check (call : ListenCall) (holds : Bool) : ListenCall :=
  if holds then call else call.record .checkFailed

def checkEmpty (call : ListenCall) : ListenCall :=
  if call.pendingCqOperations = 0 ∧ call.hasClient = false then
    call.record (.onEmpty call.pendingCqOperations)
  else call

def startWrite (call : ListenCall) (request : Bytes) : ListenCall :=
  { call.record (.startWrite request) with
    pendingWrites := call.pendingWrites + 1
    pendingCqOperations := call.pendingCqOperations + 1 }

def write (call : ListenCall) (request : Bytes) : ListenCall :=
  ((call.touch.check call.connected).check !call.finishRequested).startWrite request

def onHandlerGone (call : ListenCall) : ListenCall :=
  ({ call.touch with hasClient := false }.record .tryCancel).checkEmpty

def dropHandler (call : ListenCall) : ListenCall :=
  { call with hasHandler := false }.onHandlerGone

def startRead (call : ListenCall) : ListenCall :=
  { call.record .startRead with
    pendingReads := call.pendingReads + 1
    pendingCqOperations := call.pendingCqOperations + 1 }

def readNext (call : ListenCall) : ListenCall :=
  ((call.touch.check call.connected).check !call.finishRequested).startRead

def finish (call : ListenCall) : ListenCall :=
  { (call.check !call.finishRequested).record .requestFinish with
    finishRequested := true
    pendingFinishes := call.pendingFinishes + 1
    pendingCqOperations := call.pendingCqOperations + 1 }

def finishIfNeeded (call : ListenCall) : ListenCall :=
  if !call.finishRequested && call.hasClient then call.finish else call.checkEmpty

def dropHandlerIf (call : ListenCall) (dropsHandler : Bool) : ListenCall :=
  if dropsHandler then call.dropHandler else call

def react (call : ListenCall) (reaction : ClientReaction) : ListenCall :=
  (reaction.writes.foldl write call).dropHandlerIf reaction.dropsHandler

def notifyFinished (call : ListenCall) (status : GrpcStatus) (dropsHandler : Bool) :
    ListenCall :=
  { ((call.record (.onFinished status)).dropHandlerIf dropsHandler).touch with
    hasClient := false }

def handleFinished (call : ListenCall) (status : GrpcStatus) (dropsHandler : Bool) :
    ListenCall :=
  if call.hasClient then (call.notifyFinished status dropsHandler).checkEmpty
  else call.checkEmpty

/-- `on_connected_`, where the completion queue has the operation no longer. -/
def onConnected (call : ListenCall) (ok : Bool) (reaction : ClientReaction) : ListenCall :=
  if !ok then call.handleFinished unknownStatus reaction.dropsHandler
  else if !call.hasClient then call.finishIfNeeded
  else (({ call with connected := true }.record .onConnected).react reaction).readNext

def onRead (call : ListenCall) (ok : Bool) (response : Bytes) (reaction : ClientReaction) :
    ListenCall :=
  if !call.hasClient then call.checkEmpty
  else if !ok then call.finishIfNeeded
  else ((call.record (.onResponse response)).react reaction).readNext

def onWrite (call : ListenCall) (ok : Bool) : ListenCall :=
  if !call.hasClient then call.checkEmpty
  else if !ok then call.finishIfNeeded
  else call

def onFinish (call : ListenCall) (ok : Bool) (status : GrpcStatus) (dropsHandler : Bool) :
    ListenCall :=
  if !call.hasClient then call.checkEmpty
  else if !ok then call.handleFinished unknownStatus dropsHandler
  else call.handleFinished status dropsHandler

def canWrite (call : ListenCall) : Bool :=
  call.hasHandler && call.connected && !call.finishRequested

/-- A step. The client writes only while the call is connected and does not finish. -/
def step (call : ListenCall) : ListenCallEvent → Option ListenCall
  | .connectDone ok reaction =>
    if call.pendingConnects ≠ 0 then
      some ({ call with
        pendingConnects := call.pendingConnects - 1
        pendingCqOperations := call.pendingCqOperations - 1 }.onConnected ok reaction)
    else none
  | .readDone ok response reaction =>
    if call.pendingReads ≠ 0 ∧ (call.finishRequested = true → reaction.writes = []) then
      some ({ call with
        pendingReads := call.pendingReads - 1
        pendingCqOperations := call.pendingCqOperations - 1 }.onRead ok response reaction)
    else none
  | .writeDone ok =>
    if call.pendingWrites ≠ 0 then
      some ({ call with
        pendingWrites := call.pendingWrites - 1
        pendingCqOperations := call.pendingCqOperations - 1 }.onWrite ok)
    else none
  | .finishDone ok status dropsHandler =>
    if call.pendingFinishes ≠ 0 then
      some ({ call with
        pendingFinishes := call.pendingFinishes - 1
        pendingCqOperations := call.pendingCqOperations - 1 }.onFinish ok status dropsHandler)
    else none
  | .write request => if call.canWrite then some (call.write request) else none
  | .dropHandler => if call.hasHandler then some call.dropHandler else none

end ListenCall

/-- `Finish` is requested once at most and nothing is started after it; the client hears nothing
after `OnFinished`; and `on_empty_` is called while no operation is pending, as the last action. -/
structure EndsWell (trace : List ListenCallAction) : Prop where
  inOrder : trace.Pairwise fun first second => first.mayFollow second = true
  settled : ∀ pending, .onEmpty pending ∈ trace → pending = 0
  checks : .checkFailed ∉ trace

/-- The condition for an event: the handler is deleted in a notification only while an operation is
pending, and not when the call is gone, and no response comes after `Finish`. -/
def CanHandle (call : ListenCall) : ListenCallEvent → Prop
  | .connectDone ok reaction => call.hasClient = true → reaction.dropsHandler = true →
      1 < call.pendingCqOperations + if ok then reaction.writes.length else 0
  | .readDone ok _ reaction => call.hasClient = true → ok = true →
      call.finishRequested = false ∧
        (reaction.dropsHandler = true → 1 < call.pendingCqOperations + reaction.writes.length)
  | .finishDone _ _ dropsHandler => call.hasClient = true → dropsHandler = true →
      1 < call.pendingCqOperations
  | .dropHandler => call.isGone = false
  | .writeDone _ | .write _ => True

namespace ListenCall

/-- The flags and counters of a call agree with what it has done. -/
structure Tracked (call : ListenCall) : Prop where
  endsWell : EndsWell call.trace
  counted : call.pendingCqOperations = call.pendingConnects + call.pendingReads +
    call.pendingWrites + call.pendingFinishes
  requested : .requestFinish ∈ call.trace → call.finishRequested = true
  finished : ∀ status, .onFinished status ∈ call.trace → call.hasClient = false
  gone : call.isGone = true → call.hasClient = false ∧ call.pendingCqOperations = 0
  handler : call.hasClient = true → call.hasHandler = true
  silent : call.hasClient = false → call.hasHandler = true →
    call.finishRequested = true ∨ call.connected = false ∧ call.pendingConnects = 0
  reading : call.pendingReads ≠ 0 → call.connected = true
  finishing : call.pendingFinishes ≠ 0 → call.finishRequested = true
  connecting : call.pendingConnects ≠ 0 → call.pendingConnects = 1 ∧ call.pendingReads = 0 ∧
    call.pendingWrites = 0 ∧ call.pendingFinishes = 0 ∧ call.finishRequested = false ∧
    call.connected = false

structure Alive (call : ListenCall) : Prop extends Tracked call where
  notGone : call.isGone = false

variable {call : ListenCall}

theorem isGone_iff : call.isGone = true ↔ ∃ pending, .onEmpty pending ∈ call.trace := by
  rw [isGone, any_eq_true]
  constructor
  · rintro ⟨action, inTrace, isEmpty⟩
    cases action with
    | onEmpty pending => exact ⟨pending, inTrace⟩
    | _ => simp at isEmpty
  · rintro ⟨pending, inTrace⟩
    exact ⟨_, inTrace, rfl⟩

theorem isGone_record (action : ListenCallAction)
    (notEmpty : ∀ pending, action ≠ .onEmpty pending) :
    (call.record action).isGone = call.isGone := by
  rw [Bool.eq_iff_iff, isGone_iff, isGone_iff]
  refine exists_congr fun pending => ?_
  simp only [record, mem_append, mem_singleton, or_iff_left_iff_imp]
  exact fun isEmpty => absurd isEmpty.symm (notEmpty pending)

theorem not_endsWell_record (gone : call.isGone = true) (action : ListenCallAction) :
    ¬EndsWell (call.record action).trace := by
  intro endsWell
  obtain ⟨pending, inTrace⟩ := isGone_iff.mp gone
  have follows := (pairwise_append.mp endsWell.inOrder).2.2 _ inTrace action
    (mem_singleton_self action)
  cases follows

variable {action : ListenCallAction} {dropsHandler : Bool}

/-- An action that is valid is done by a call that is not gone. -/
theorem Alive.endsWell_record (alive : Alive call)
    (canStart : action.isStart = true → call.finishRequested = false)
    (canNotify : action.isNotification = true → call.hasClient = true)
    (settled : ∀ pending, action = .onEmpty pending → pending = 0) (holds : action ≠ .checkFailed) :
    EndsWell (call.record action).trace where
  inOrder := by
    refine pairwise_append.mpr ⟨alive.endsWell.inOrder, pairwise_singleton _ _, ?_⟩
    intro first inTrace second isSecond
    obtain rfl := mem_singleton.mp isSecond
    cases first with
    | requestFinish =>
      cases isStart : second.isStart with
      | false => simp [ListenCallAction.mayFollow, isStart]
      | true => exact nomatch (canStart isStart).symm.trans (alive.requested inTrace)
    | onFinished status =>
      cases isNotification : second.isNotification with
      | false => simp [ListenCallAction.mayFollow, isNotification]
      | true => exact nomatch (canNotify isNotification).symm.trans (alive.finished _ inTrace)
    | onEmpty pending => exact nomatch alive.notGone.symm.trans (isGone_iff.mpr ⟨pending, inTrace⟩)
    | _ => rfl
  settled pending inTrace := by
    rcases mem_append.mp inTrace with inOld | isNew
    · exact alive.endsWell.settled pending inOld
    · exact settled pending (mem_singleton.mp isNew).symm
  checks inTrace := by
    rcases mem_append.mp inTrace with inOld | isNew
    · exact alive.endsWell.checks inOld
    · exact holds (mem_singleton.mp isNew).symm

theorem notEmpty (isPlain : action.isPlain = true) (pending : ℕ) : action ≠ .onEmpty pending := by
  rintro rfl
  cases isPlain

theorem Alive.record (alive : Alive call) (isPlain : action.isPlain = true)
    (canStart : action.isStart = true → call.finishRequested = false)
    (canNotify : action.isNotification = true → call.hasClient = true) :
    Alive (call.record action) where
  endsWell := alive.endsWell_record canStart canNotify
    (fun pending isEmpty => absurd isEmpty (notEmpty isPlain pending))
    (fun failed => by rw [failed] at isPlain; cases isPlain)
  __ := alive
  requested inTrace := by
    rcases mem_append.mp inTrace with inOld | isNew
    · exact alive.requested inOld
    · obtain rfl := mem_singleton.mp isNew
      cases isPlain
  finished status inTrace := by
    rcases mem_append.mp inTrace with inOld | isNew
    · exact alive.finished status inOld
    · obtain rfl := mem_singleton.mp isNew
      cases isPlain
  gone isGone := alive.gone ((isGone_record action (notEmpty isPlain)).symm.trans isGone)
  notGone := (isGone_record action (notEmpty isPlain)).trans alive.notGone

theorem Alive.touch (alive : Alive call) : call.touch = call :=
  if_neg (by simp [alive.notGone])

theorem check_of_true {holds : Bool} (isTrue : holds = true) : call.check holds = call :=
  if_pos isTrue

theorem Alive.of_hasClient (tracked : Tracked call) (hasClient : call.hasClient = true) :
    Alive call := by
  exact ⟨tracked, eq_false_iff.mpr fun gone => nomatch (tracked.gone gone).1.symm.trans hasClient⟩

theorem Alive.of_pending (tracked : Tracked call) (pending : call.pendingCqOperations ≠ 0) :
    Alive call :=
  ⟨tracked, eq_false_iff.mpr fun gone => pending (tracked.gone gone).2⟩

theorem Alive.checkEmpty (alive : Alive call) : Tracked call.checkEmpty := by
  unfold ListenCall.checkEmpty
  split
  · rename_i isEmpty
    refine { alive with
      endsWell := ?_
      requested := fun inTrace => ?_
      finished := fun status inTrace => ?_
      gone := fun _ => ⟨isEmpty.2, isEmpty.1⟩ }
    · exact alive.endsWell_record nofun
        nofun
        (fun pending same => (ListenCallAction.onEmpty.inj same).symm.trans isEmpty.1)
        nofun
    · rcases mem_append.mp inTrace with inOld | isNew
      · exact alive.requested inOld
      · cases mem_singleton.mp isNew
    · rcases mem_append.mp inTrace with inOld | isNew
      · exact alive.finished status inOld
      · cases mem_singleton.mp isNew
  · exact alive.toTracked

theorem checkEmpty_of_pending (pending : call.pendingCqOperations ≠ 0) : call.checkEmpty = call :=
  if_neg (by simp [pending])

theorem Alive.startWrite (alive : Alive call) (canStart : call.finishRequested = false)
    (isConnected : call.pendingConnects = 0) (request : Bytes) :
    Alive (call.startWrite request) := by
  have recorded : Alive (call.record (.startWrite request)) :=
    alive.record rfl (fun _ => canStart) nofun
  have counted := alive.counted
  refine { recorded with
    counted := ?_
    gone := fun gone => nomatch recorded.notGone.symm.trans gone
    connecting := absurd isConnected }
  change call.pendingCqOperations + 1 = call.pendingConnects + call.pendingReads +
    (call.pendingWrites + 1) + call.pendingFinishes
  omega

theorem Alive.startRead (alive : Alive call) (canStart : call.finishRequested = false)
    (connected : call.connected = true) (isConnected : call.pendingConnects = 0) :
    Alive call.startRead := by
  have recorded : Alive (call.record .startRead) := alive.record rfl (fun _ => canStart) nofun
  have counted := alive.counted
  refine { recorded with
    counted := ?_
    gone := fun gone => nomatch recorded.notGone.symm.trans gone
    reading := fun _ => connected
    connecting := absurd isConnected }
  change call.pendingCqOperations + 1 = call.pendingConnects + (call.pendingReads + 1) +
    call.pendingWrites + call.pendingFinishes
  omega

theorem Alive.write_eq (alive : Alive call) (connected : call.connected = true)
    (canStart : call.finishRequested = false) (request : Bytes) :
    call.write request = call.startWrite request := by
  rw [write, alive.touch, check_of_true connected, check_of_true (by simp [canStart])]

structure Open (call : ListenCall) : Prop extends Alive call where
  connected : call.connected = true
  canStart : call.finishRequested = false

theorem Tracked.isConnected (tracked : Tracked call) (connected : call.connected = true) :
    call.pendingConnects = 0 := by
  by_contra notConnected
  exact nomatch connected.symm.trans (tracked.connecting notConnected).2.2.2.2.2

theorem Open.write (isOpen : Open call) (request : Bytes) : Open (call.write request) := by
  rw [isOpen.toAlive.write_eq isOpen.connected isOpen.canStart]
  exact ⟨isOpen.toAlive.startWrite isOpen.canStart (isOpen.isConnected isOpen.connected) request,
    isOpen.connected, isOpen.canStart⟩

theorem Open.foldl_write (isOpen : Open call) (requests : List Bytes) :
    Open (requests.foldl ListenCall.write call) ∧
      (requests.foldl ListenCall.write call).pendingCqOperations =
        call.pendingCqOperations + requests.length := by
  induction requests generalizing call with
  | nil => exact ⟨isOpen, rfl⟩
  | cons request requests ih =>
    obtain ⟨stillOpen, counted⟩ := ih (isOpen.write request)
    refine ⟨stillOpen, counted.trans ?_⟩
    rw [isOpen.toAlive.write_eq isOpen.connected isOpen.canStart, length_cons]
    change call.pendingCqOperations + 1 + requests.length = _
    omega

theorem Open.readNext (isOpen : Open call) : Tracked call.readNext := by
  rw [ListenCall.readNext, isOpen.toAlive.touch, check_of_true isOpen.connected,
    check_of_true (by simp [isOpen.canStart])]
  exact (isOpen.toAlive.startRead isOpen.canStart isOpen.connected
    (isOpen.isConnected isOpen.connected)).toTracked

def withoutClient (call : ListenCall) : ListenCall :=
  { call with hasHandler := false, hasClient := false }

theorem dropHandler_eq (notGone : call.isGone = false) :
    call.dropHandler = (call.withoutClient.record .tryCancel).checkEmpty := by
  have untouched : { call with hasHandler := false }.touch = { call with hasHandler := false } :=
    if_neg (by simpa [isGone] using notGone)
  rw [dropHandler, onHandlerGone, untouched]
  rfl

theorem Alive.withoutClient (alive : Alive call) : Alive call.withoutClient :=
  { alive with
    finished := fun _ _ => rfl
    gone := fun gone => ⟨rfl, (alive.gone gone).2⟩
    handler := nofun
    silent := nofun }

theorem Alive.cancel (alive : Alive call) : Alive (call.record .tryCancel) :=
  alive.record rfl nofun nofun

theorem Alive.dropHandler (alive : Alive call) : Tracked call.dropHandler := by
  rw [dropHandler_eq alive.notGone]
  exact alive.withoutClient.cancel.checkEmpty

theorem dropHandler_of_pending (notGone : call.isGone = false)
    (pending : call.pendingCqOperations ≠ 0) :
    call.dropHandler = call.withoutClient.record .tryCancel := by
  rw [dropHandler_eq notGone]
  exact checkEmpty_of_pending pending

theorem Open.dropHandlerIf (isOpen : Open call)
    (pending : dropsHandler = true → call.pendingCqOperations ≠ 0) :
    Open (call.dropHandlerIf dropsHandler) := by
  cases dropsHandler with
  | false => exact isOpen
  | true =>
    have isDropped := dropHandler_of_pending isOpen.notGone (pending rfl)
    change Open call.dropHandler
    rw [isDropped]
    exact ⟨isOpen.toAlive.withoutClient.cancel, isOpen.connected, isOpen.canStart⟩

variable {reaction : ClientReaction}

theorem Open.react (isOpen : Open call) (pending : reaction.dropsHandler = true →
      0 < call.pendingCqOperations + reaction.writes.length) :
    Tracked (call.react reaction).readNext := by
  obtain ⟨stillOpen, counted⟩ := isOpen.foldl_write reaction.writes
  refine (stillOpen.dropHandlerIf fun drops => ?_).readNext
  rw [counted]
  exact (pending drops).ne'

section

variable (alive : Alive call)
include alive

theorem Alive.finish (canStart : call.finishRequested = false)
    (isConnected : call.pendingConnects = 0) : Tracked call.finish := by
  have checked : call.check (!call.finishRequested) = call := check_of_true (by simp [canStart])
  rw [ListenCall.finish, checked]
  have counted := alive.counted
  have notGone : (call.record .requestFinish).isGone = false :=
    (isGone_record _ (by nofun)).trans alive.notGone
  refine { alive with
    endsWell := ?_
    counted := ?_
    requested := fun _ => rfl
    finished := fun status inTrace => ?_
    gone := fun gone => nomatch notGone.symm.trans gone
    silent := fun _ _ => .inl rfl
    finishing := fun _ => rfl
    connecting := fun notConnected => absurd isConnected notConnected }
  · exact alive.endsWell_record (fun _ => canStart) nofun
      nofun nofun
  · change call.pendingCqOperations + 1 = call.pendingConnects + call.pendingReads +
      call.pendingWrites + (call.pendingFinishes + 1)
    omega
  · rcases mem_append.mp inTrace with inOld | isNew
    · exact alive.finished status inOld
    · cases mem_singleton.mp isNew

theorem Alive.finishIfNeeded (isConnected : call.hasClient = true → call.pendingConnects = 0) :
    Tracked call.finishIfNeeded := by
  unfold ListenCall.finishIfNeeded
  split
  · rename_i needed
    simp only [and_eq_true, not_eq_true'] at needed
    exact alive.finish needed.1 (isConnected needed.2)
  · exact alive.checkEmpty

theorem Alive.recordFinished (hasClient : call.hasClient = true)
    (ended : call.finishRequested = true ∨ call.connected = false ∧ call.pendingConnects = 0)
    (status : GrpcStatus) (hasHandler : Bool) : Alive { call.record (.onFinished status) with
      hasHandler
      hasClient := false } := by
  have notGone : (call.record (.onFinished status)).isGone = false :=
    (isGone_record _ (by nofun)).trans alive.notGone
  exact { alive with
    endsWell := alive.endsWell_record nofun (fun _ => hasClient)
      nofun nofun
    requested := fun inTrace => by
      rcases mem_append.mp inTrace with inOld | isNew
      · exact alive.requested inOld
      · cases mem_singleton.mp isNew
    finished := fun _ _ => rfl
    gone := fun gone => nomatch notGone.symm.trans gone
    handler := nofun
    silent := fun _ _ => ended
    notGone }

theorem Alive.handleFinished
    (ended : call.finishRequested = true ∨ call.connected = false ∧ call.pendingConnects = 0)
    (status : GrpcStatus)
    (pending : call.hasClient = true → dropsHandler = true → call.pendingCqOperations ≠ 0) :
    Tracked (call.handleFinished status dropsHandler) := by
  unfold ListenCall.handleFinished
  split
  · rename_i hasClient
    have notGone : (call.record (.onFinished status)).isGone = false :=
      (isGone_record _ (by nofun)).trans alive.notGone
    cases dropsHandler with
    | false =>
      have untouched : (call.record (.onFinished status)).touch =
          call.record (.onFinished status) := if_neg (by simp [notGone])
      change Tracked { (call.record (.onFinished status)).touch with hasClient := false }.checkEmpty
      rw [untouched]
      exact (alive.recordFinished hasClient ended status call.hasHandler).checkEmpty
    | true =>
      have isDropped := dropHandler_of_pending notGone (pending hasClient rfl)
      have told := (alive.recordFinished hasClient ended status false).cancel
      change Tracked { (call.record (.onFinished status)).dropHandler.touch with
        hasClient := false }.checkEmpty
      rw [isDropped]
      have untouched := told.touch
      unfold ListenCall.withoutClient
      rw [untouched]
      exact told.checkEmpty
  · exact alive.checkEmpty

end

theorem tracked_start : Tracked start where
  endsWell := ⟨.nil, fun _ inNil => absurd inNil not_mem_nil, not_mem_nil⟩
  counted := rfl
  requested inNil := absurd inNil not_mem_nil
  finished _ inNil := absurd inNil not_mem_nil
  gone gone := by cases gone
  handler _ := rfl
  silent noClient := by cases noClient
  reading notZero := absurd rfl notZero
  finishing notZero := absurd rfl notZero
  connecting _ := ⟨rfl, rfl, rfl, rfl, rfl, rfl⟩

/-- The call when the completion queue gives back the operation of connecting. -/
def takeConnect (call : ListenCall) : ListenCall :=
  { call with
    pendingConnects := call.pendingConnects - 1
    pendingCqOperations := call.pendingCqOperations - 1 }

def takeRead (call : ListenCall) : ListenCall :=
  { call with
    pendingReads := call.pendingReads - 1
    pendingCqOperations := call.pendingCqOperations - 1 }

def takeWrite (call : ListenCall) : ListenCall :=
  { call with
    pendingWrites := call.pendingWrites - 1
    pendingCqOperations := call.pendingCqOperations - 1 }

def takeFinish (call : ListenCall) : ListenCall :=
  { call with
    pendingFinishes := call.pendingFinishes - 1
    pendingCqOperations := call.pendingCqOperations - 1 }

section

variable (alive : Alive call)
include alive

theorem Alive.takeConnect (pending : call.pendingConnects ≠ 0) :
    Alive call.takeConnect ∧ call.takeConnect.pendingConnects = 0 ∧
      call.finishRequested = false ∧ call.connected = false := by
  obtain ⟨isOne, noReads, noWrites, noFinishes, canStart, notConnected⟩ := alive.connecting pending
  have counted := alive.counted
  have noConnects : call.pendingConnects - 1 = 0 := by omega
  refine ⟨{ alive with
    counted := ?_
    gone := fun gone => nomatch alive.notGone.symm.trans gone
    silent := fun _ _ => .inr ⟨notConnected, noConnects⟩
    connecting := fun notZero => absurd noConnects notZero }, noConnects, canStart, notConnected⟩
  change call.pendingCqOperations - 1 = call.pendingConnects - 1 + call.pendingReads +
    call.pendingWrites + call.pendingFinishes
  omega

theorem Alive.takeRead (pending : call.pendingReads ≠ 0) :
    Alive call.takeRead ∧ call.pendingConnects = 0 ∧ call.connected = true := by
  have connected := alive.reading pending
  have isConnected := alive.isConnected connected
  have counted := alive.counted
  refine ⟨{ alive with
    counted := ?_
    gone := fun gone => nomatch alive.notGone.symm.trans gone
    reading := fun _ => connected
    connecting := fun notZero => absurd isConnected notZero }, isConnected, connected⟩
  change call.pendingCqOperations - 1 = call.pendingConnects + (call.pendingReads - 1) +
    call.pendingWrites + call.pendingFinishes
  omega

theorem Alive.takeWrite (pending : call.pendingWrites ≠ 0) :
    Alive call.takeWrite ∧ call.pendingConnects = 0 := by
  have counted := alive.counted
  have isConnected : call.pendingConnects = 0 := by
    by_contra notConnected
    exact pending (alive.connecting notConnected).2.2.1
  refine ⟨{ alive with
    counted := ?_
    gone := fun gone => nomatch alive.notGone.symm.trans gone
    connecting := fun notZero => absurd isConnected notZero }, isConnected⟩
  change call.pendingCqOperations - 1 = call.pendingConnects + call.pendingReads +
    (call.pendingWrites - 1) + call.pendingFinishes
  omega

theorem Alive.takeFinish (pending : call.pendingFinishes ≠ 0) :
    Alive call.takeFinish ∧ call.finishRequested = true := by
  have counted := alive.counted
  have requested := alive.finishing pending
  have isConnected : call.pendingConnects = 0 := by
    by_contra notConnected
    exact pending (alive.connecting notConnected).2.2.2.1
  refine ⟨{ alive with
    counted := ?_
    gone := fun gone => nomatch alive.notGone.symm.trans gone
    finishing := fun _ => requested
    connecting := fun notZero => absurd isConnected notZero }, requested⟩
  change call.pendingCqOperations - 1 = call.pendingConnects + call.pendingReads +
    call.pendingWrites + (call.pendingFinishes - 1)
  omega

end

variable {event : ListenCallEvent} {next : ListenCall}

theorem Tracked.step (tracked : Tracked call)
    (canHandle : CanHandle call event) (isStep : call.step event = some next) : Tracked next := by
  have counted := tracked.counted
  cases event with
  | connectDone ok reaction =>
    obtain ⟨pending, isNext⟩ := Option.ite_none_right_eq_some.mp isStep
    cases isNext
    have alive : Alive call := .of_pending tracked (by omega)
    obtain ⟨taken, noConnects, canStart, notConnected⟩ := alive.takeConnect pending
    change Tracked (call.takeConnect.onConnected ok reaction)
    cases ok with
    | false =>
      refine taken.handleFinished (.inr ⟨notConnected, noConnects⟩) unknownStatus ?_
      intro hasClient drops
      have more := canHandle hasClient drops
      change call.pendingCqOperations - 1 ≠ 0
      simp only [false_eq_true, if_false] at more
      omega
    | true =>
      unfold onConnected
      rw [if_neg (by decide)]
      split
      · exact taken.finishIfNeeded fun _ => noConnects
      · rename_i hasClient
        have hasClient : call.hasClient = true := by simpa [takeConnect] using hasClient
        have connected : Alive { call.takeConnect with connected := true } :=
          { taken with
            silent := fun noClient => nomatch hasClient.symm.trans noClient
            reading := fun _ => rfl
            connecting := fun notZero => absurd noConnects notZero }
        have notified : Alive ({ call.takeConnect with connected := true }.record .onConnected) :=
          connected.record rfl nofun (fun _ => hasClient)
        refine Open.react ⟨notified, rfl, canStart⟩ fun drops => ?_
        have more := canHandle hasClient drops
        change 0 < call.pendingCqOperations - 1 + _
        simp only [if_true] at more
        omega
  | readDone ok response reaction =>
    obtain ⟨⟨pending, -⟩, isNext⟩ := Option.ite_none_right_eq_some.mp isStep
    cases isNext
    have alive : Alive call := .of_pending tracked (by omega)
    obtain ⟨taken, isConnected, connected⟩ := alive.takeRead pending
    change Tracked (call.takeRead.onRead ok response reaction)
    unfold onRead
    split
    · exact taken.checkEmpty
    · rename_i hasClient
      have hasClient : call.hasClient = true := by simpa [takeRead] using hasClient
      cases ok with
      | false => exact taken.finishIfNeeded fun _ => isConnected
      | true =>
        rw [if_neg (by decide)]
        obtain ⟨canStart, more⟩ := canHandle hasClient rfl
        have notified : Alive (call.takeRead.record (.onResponse response)) :=
          taken.record rfl nofun (fun _ => hasClient)
        refine Open.react ⟨notified, connected, canStart⟩ fun drops => ?_
        have more := more drops
        change 0 < call.pendingCqOperations - 1 + _
        omega
  | writeDone ok =>
    obtain ⟨pending, isNext⟩ := Option.ite_none_right_eq_some.mp isStep
    cases isNext
    have alive : Alive call := .of_pending tracked (by omega)
    obtain ⟨taken, isConnected⟩ := alive.takeWrite pending
    change Tracked (call.takeWrite.onWrite ok)
    unfold onWrite
    split
    · exact taken.checkEmpty
    · split
      · exact taken.finishIfNeeded fun _ => isConnected
      · exact taken.toTracked
  | finishDone ok status dropsHandler =>
    obtain ⟨pending, isNext⟩ := Option.ite_none_right_eq_some.mp isStep
    cases isNext
    have alive : Alive call := .of_pending tracked (by omega)
    obtain ⟨taken, requested⟩ := alive.takeFinish pending
    have more : call.takeFinish.hasClient = true → dropsHandler = true →
        call.takeFinish.pendingCqOperations ≠ 0 := by
      intro hasClient drops
      have more := canHandle hasClient drops
      change call.pendingCqOperations - 1 ≠ 0
      omega
    change Tracked (call.takeFinish.onFinish ok status dropsHandler)
    unfold onFinish
    split
    · exact taken.checkEmpty
    · split <;> exact taken.handleFinished (.inl requested) _ more
  | write request =>
    obtain ⟨canWrite, isNext⟩ := Option.ite_none_right_eq_some.mp isStep
    cases isNext
    simp only [ListenCall.canWrite, and_eq_true, not_eq_true'] at canWrite
    obtain ⟨⟨hasHandler, connected⟩, canStart⟩ := canWrite
    have hasClient : call.hasClient = true := by
      by_contra noClient
      rcases tracked.silent (by simpa using noClient) hasHandler with requested | ⟨notYet, -⟩
      · exact nomatch canStart.symm.trans requested
      · exact nomatch connected.symm.trans notYet
    exact (Open.write ⟨.of_hasClient tracked hasClient, connected, canStart⟩ request).toTracked
  | dropHandler =>
    obtain ⟨-, isNext⟩ := Option.ite_none_right_eq_some.mp isStep
    cases isNext
    exact Alive.dropHandler ⟨tracked, canHandle⟩

section

variable (call : ListenCall)

theorem prefix_record (action : ListenCallAction) : call.trace <+: (call.record action).trace :=
  prefix_append _ _

theorem prefix_touch : call.trace <+: call.touch.trace := by
  unfold touch
  split
  · exact prefix_record call _
  · exact prefix_rfl

theorem prefix_check (holds : Bool) : call.trace <+: (call.check holds).trace := by
  unfold check
  split
  · exact prefix_rfl
  · exact prefix_record call _

theorem prefix_checkEmpty : call.trace <+: call.checkEmpty.trace := by
  unfold checkEmpty
  split
  · exact prefix_record call _
  · exact prefix_rfl

/-- The checks of `Write` and of `ReadNext`. -/
theorem prefix_checks (holds : Bool) (others : Bool) :
    call.touch.trace <+: ((call.touch.check holds).check others).trace :=
  (prefix_check _ holds).trans (prefix_check _ others)

theorem prefix_readNext : call.touch.trace <+: call.readNext.trace :=
  (prefix_checks call _ _).trans (prefix_record _ _)

theorem prefix_write (request : Bytes) : call.trace <+: (call.write request).trace :=
  (prefix_touch call).trans ((prefix_checks call _ _).trans (prefix_record _ _))

theorem prefix_dropHandler :
    { call with hasHandler := false }.touch.trace <+: call.dropHandler.trace :=
  (prefix_record { { call with hasHandler := false }.touch with hasClient := false } _).trans
    (prefix_checkEmpty _)

theorem prefix_dropHandlerIf (dropsHandler : Bool) :
    call.trace <+: (call.dropHandlerIf dropsHandler).trace := by
  cases dropsHandler with
  | false => exact prefix_rfl
  | true => exact (prefix_touch { call with hasHandler := false }).trans (prefix_dropHandler call)

theorem prefix_react (reaction : ClientReaction) : call.trace <+: (call.react reaction).trace := by
  refine List.IsPrefix.trans ?_ (prefix_dropHandlerIf _ _)
  induction reaction.writes generalizing call with
  | nil => exact prefix_rfl
  | cons request requests ih => exact (prefix_write call request).trans (ih _)

theorem prefix_finishIfNeeded : call.trace <+: call.finishIfNeeded.trace := by
  unfold finishIfNeeded
  split
  · exact (prefix_check call _).trans (prefix_record _ _)
  · exact prefix_checkEmpty call

theorem prefix_notifyFinished (status : GrpcStatus) (dropsHandler : Bool) :
    ((call.record (.onFinished status)).dropHandlerIf dropsHandler).touch.trace <+:
      (call.notifyFinished status dropsHandler).checkEmpty.trace :=
  prefix_checkEmpty (call.notifyFinished status dropsHandler)

theorem prefix_handleFinished (status : GrpcStatus) (dropsHandler : Bool) :
    call.trace <+: (call.handleFinished status dropsHandler).trace := by
  unfold handleFinished
  split
  · exact (prefix_record call _).trans ((prefix_dropHandlerIf _ dropsHandler).trans
      ((prefix_touch _).trans (prefix_notifyFinished call status dropsHandler)))
  · exact prefix_checkEmpty call

theorem prefix_notify (action : ListenCallAction) (reaction : ClientReaction) :
    call.trace <+: ((call.record action).react reaction).readNext.trace :=
  (prefix_record call action).trans ((prefix_react _ reaction).trans
    ((prefix_touch _).trans (prefix_readNext _)))

variable (ok : Bool)

theorem prefix_onConnected (reaction : ClientReaction) :
    call.trace <+: (call.onConnected ok reaction).trace := by
  unfold onConnected
  split
  · exact prefix_handleFinished call _ _
  · split
    · exact prefix_finishIfNeeded call
    · exact prefix_notify { call with connected := true } _ reaction

theorem prefix_onRead (response : Bytes)
    (reaction : ClientReaction) : call.trace <+: (call.onRead ok response reaction).trace := by
  unfold onRead
  split
  · exact prefix_checkEmpty call
  · split
    · exact prefix_finishIfNeeded call
    · exact prefix_notify call _ reaction

theorem prefix_onWrite : call.trace <+: (call.onWrite ok).trace := by
  unfold onWrite
  split
  · exact prefix_checkEmpty call
  · split
    · exact prefix_finishIfNeeded call
    · exact prefix_rfl

theorem prefix_onFinish (status : GrpcStatus)
    (dropsHandler : Bool) : call.trace <+: (call.onFinish ok status dropsHandler).trace := by
  unfold onFinish
  split
  · exact prefix_checkEmpty call
  · split <;> exact prefix_handleFinished call _ _

end

theorem prefix_step (isStep : call.step event = some next) : call.trace <+: next.trace := by
  cases event <;> cases (Option.ite_none_right_eq_some.mp isStep).2
  case connectDone ok reaction => exact prefix_onConnected call.takeConnect ok reaction
  case readDone ok response reaction => exact prefix_onRead call.takeRead ok response reaction
  case writeDone ok => exact prefix_onWrite call.takeWrite ok
  case finishDone ok status dropsHandler =>
    exact prefix_onFinish call.takeFinish ok status dropsHandler
  case write request => exact prefix_write call request
  case dropHandler =>
    exact (prefix_touch { call with hasHandler := false }).trans (prefix_dropHandler call)

theorem endsWell_of_append {first second : List ListenCallAction} (endsWell : EndsWell second)
    (isPrefix : first <+: second) : EndsWell first where
  inOrder := endsWell.inOrder.sublist isPrefix.sublist
  settled pending inFirst := endsWell.settled pending (isPrefix.subset inFirst)
  checks inFirst := endsWell.checks (isPrefix.subset inFirst)

theorem not_endsWell_touch (gone : call.isGone = true) : ¬EndsWell call.touch.trace := by
  rw [touch, if_pos gone]
  exact not_endsWell_record gone _

section

variable (notGone : call.isGone = false)
include notGone

variable (nothingPending : call.pendingCqOperations = 0)
include nothingPending

theorem isGone_dropHandler : call.dropHandler.isGone = true := by
  rw [dropHandler_eq notGone, checkEmpty, if_pos ⟨nothingPending, rfl⟩, isGone_iff]
  exact ⟨_, mem_append_right _ (mem_singleton_self _)⟩

theorem not_endsWell_react
    (noWrites : reaction.writes = []) (drops : reaction.dropsHandler = true) :
    ¬EndsWell (call.react reaction).readNext.trace := by
  have isDropped : call.react reaction = call.dropHandler := by
    rw [react, noWrites, drops]
    rfl
  rw [isDropped]
  exact fun endsWell => not_endsWell_touch (isGone_dropHandler notGone nothingPending)
    (endsWell_of_append endsWell (prefix_readNext _))

theorem not_endsWell_notify (isPlain : action.isPlain = true)
    (noWrites : reaction.writes = []) (drops : reaction.dropsHandler = true) :
    ¬EndsWell ((call.record action).react reaction).readNext.trace := by
  have recorded : (call.record action).pendingCqOperations = 0 := nothingPending
  exact not_endsWell_react ((isGone_record action (notEmpty isPlain)).trans notGone) recorded
    noWrites drops

end

theorem not_endsWell_handleFinished (hasClient : call.hasClient = true)
    (notGone : call.isGone = false) (nothingPending : call.pendingCqOperations = 0)
    (status : GrpcStatus) : ¬EndsWell (call.handleFinished status true).trace := by
  have notYet : (call.record (.onFinished status)).isGone = false :=
    (isGone_record _ (by nofun)).trans notGone
  rw [handleFinished, if_pos hasClient]
  exact fun endsWell => not_endsWell_touch (isGone_dropHandler notYet nothingPending)
    (endsWell_of_append endsWell (prefix_notifyFinished call status true))

theorem finishRequested_touch (call : ListenCall) :
    call.touch.finishRequested = call.finishRequested := by
  unfold touch
  split <;> rfl

theorem finishRequested_dropHandlerIf (call : ListenCall) (dropsHandler : Bool) :
    (call.dropHandlerIf dropsHandler).finishRequested = call.finishRequested := by
  cases dropsHandler with
  | false => rfl
  | true =>
    change call.dropHandler.finishRequested = call.finishRequested
    unfold dropHandler onHandlerGone checkEmpty
    split <;> exact finishRequested_touch { call with hasHandler := false }

theorem not_endsWell_readNext (requested : call.finishRequested = true) :
    ¬EndsWell call.readNext.trace := by
  intro endsWell
  refine endsWell.checks ((prefix_record _ _).subset ?_)
  have isFailed : ((call.touch.check call.connected).check !call.finishRequested) =
      (call.touch.check call.connected).record .checkFailed := if_neg (by simp [requested])
  rw [isFailed]
  exact mem_append_right _ (mem_singleton_self _)

theorem not_endsWell_onConnected (alive : Alive call) (hasClient : call.hasClient = true)
    {ok : Bool} (drops : reaction.dropsHandler = true)
    (nothingPending : call.pendingCqOperations = 0) (noWrites : ok = true → reaction.writes = []) :
    ¬EndsWell (call.onConnected ok reaction).trace := by
  cases ok with
  | false =>
    have isFinished : call.onConnected false reaction = call.handleFinished unknownStatus true := by
      rw [onConnected, if_pos (by decide), drops]
    rw [isFinished]
    exact not_endsWell_handleFinished hasClient alive.notGone nothingPending unknownStatus
  | true =>
    have isNotified : call.onConnected true reaction =
        (({ call with connected := true }.record .onConnected).react reaction).readNext := by
      rw [onConnected, if_neg (by decide), if_neg (by simp [hasClient])]
    have notGone : { call with connected := true }.isGone = false := alive.notGone
    rw [isNotified]
    exact not_endsWell_notify notGone nothingPending rfl (noWrites rfl) drops

theorem onRead_of_response (hasClient : call.hasClient = true) (response : Bytes)
    (reaction : ClientReaction) : call.onRead true response reaction =
      ((call.record (.onResponse response)).react reaction).readNext := by
  rw [onRead, if_neg (by simp [hasClient]), if_neg (by decide)]

theorem not_endsWell_onRead_of_requested (hasClient : call.hasClient = true)
    (requested : call.finishRequested = true) (response : Bytes) {reaction : ClientReaction}
    (noWrites : reaction.writes = []) : ¬EndsWell (call.onRead true response reaction).trace := by
  rw [onRead_of_response hasClient]
  refine not_endsWell_readNext ?_
  rw [react, noWrites, foldl_nil, finishRequested_dropHandlerIf]
  exact requested

theorem not_endsWell_onRead (alive : Alive call) (hasClient : call.hasClient = true)
    (response : Bytes) (drops : reaction.dropsHandler = true)
    (nothingPending : call.pendingCqOperations = 0) (noWrites : reaction.writes = []) :
    ¬EndsWell (call.onRead true response reaction).trace := by
  rw [onRead_of_response hasClient]
  exact not_endsWell_notify alive.notGone nothingPending rfl noWrites drops

theorem not_endsWell_onFinish (alive : Alive call) (hasClient : call.hasClient = true)
    (nothingPending : call.pendingCqOperations = 0) (ok : Bool) (status : GrpcStatus) :
    ¬EndsWell (call.onFinish ok status true).trace := by
  rw [onFinish, if_neg (by simp [hasClient])]
  split <;> exact not_endsWell_handleFinished hasClient alive.notGone nothingPending _

theorem Tracked.canHandle (tracked : Tracked call)
    (isStep : call.step event = some next) (endsWell : EndsWell next.trace) :
    CanHandle call event := by
  have counted := tracked.counted
  cases event with
  | connectDone ok reaction =>
    obtain ⟨pending, isNext⟩ := Option.ite_none_right_eq_some.mp isStep
    cases isNext
    obtain ⟨taken, -⟩ := (Alive.of_pending tracked (by omega)).takeConnect pending
    intro hasClient drops
    by_contra few
    refine not_endsWell_onConnected taken hasClient drops ?_ (fun isOk => ?_) endsWell
    · change call.pendingCqOperations - 1 = 0
      omega
    · rw [if_pos isOk] at few
      exact eq_nil_of_length_eq_zero (by omega)
  | readDone ok response reaction =>
    obtain ⟨⟨pending, noWritesAfter⟩, isNext⟩ := Option.ite_none_right_eq_some.mp isStep
    cases isNext
    obtain ⟨taken, -⟩ := (Alive.of_pending tracked (by omega)).takeRead pending
    intro hasClient isOk
    subst isOk
    constructor
    · by_contra requested
      have requested : call.finishRequested = true := by simpa using requested
      exact @not_endsWell_onRead_of_requested call.takeRead hasClient requested response _
        (noWritesAfter requested) endsWell
    · intro drops
      by_contra few
      refine not_endsWell_onRead taken hasClient response drops ?_
        (eq_nil_of_length_eq_zero (by omega)) endsWell
      change call.pendingCqOperations - 1 = 0
      omega
  | finishDone ok status dropsHandler =>
    obtain ⟨pending, isNext⟩ := Option.ite_none_right_eq_some.mp isStep
    cases isNext
    obtain ⟨taken, -⟩ := (Alive.of_pending tracked (by omega)).takeFinish pending
    intro hasClient drops
    subst drops
    by_contra few
    refine not_endsWell_onFinish taken hasClient ?_ ok status endsWell
    change call.pendingCqOperations - 1 = 0
    omega
  | dropHandler =>
    obtain ⟨-, isNext⟩ := Option.ite_none_right_eq_some.mp isStep
    cases isNext
    refine eq_false_iff.mpr fun gone => ?_
    have stillGone : { call with hasHandler := false }.isGone = true := gone
    exact not_endsWell_touch stillGone (endsWell_of_append endsWell (prefix_dropHandler call))
  | writeDone _ | write _ => trivial

end ListenCall

/-- The call ends well in exactly the runs whose steps meet the condition. -/
theorem endsWell_run (events : List ListenCallEvent) {final : ListenCall}
    (isRun : runSteps ListenCall.step ListenCall.start events = some final) :
    EndsWell final.trace ↔ EachStep ListenCall.step CanHandle ListenCall.start events := by
  refine final_iff_eachStep ListenCall.Tracked
    (fun tracked canHandle isStep => tracked.step canHandle isStep)
    (fun call => ¬EndsWell call.trace) (fun call => EndsWell call.trace)
    ListenCall.Tracked.endsWell id
    (fun tracked cannot isStep endsWell => cannot (tracked.canHandle isStep endsWell))
    (fun notWell isStep endsWell => ?_) ListenCall.tracked_start isRun
  exact notWell (ListenCall.endsWell_of_append endsWell (ListenCall.prefix_step isStep))

def sampleListenCallEvents : List ListenCallEvent :=
  [.connectDone true ⟨[ascii ['a']], false⟩, .readDone true (ascii ['b']) ⟨[], false⟩,
    .writeDone false, .finishDone true ⟨0, []⟩ false, .dropHandler, .readDone false [] ⟨[], false⟩]

theorem endsWell_run_sample :
    ∃ final, runSteps ListenCall.step ListenCall.start sampleListenCallEvents = some final ∧
      (EndsWell final.trace ↔
        EachStep ListenCall.step CanHandle ListenCall.start sampleListenCallEvents) :=
  ⟨_, rfl, endsWell_run sampleListenCallEvents rfl⟩

/-- The client deletes its handler when it hears that the call is connected; the call is used after
it is gone. -/
theorem not_endsWell_run :
    ∃ final, runSteps ListenCall.step ListenCall.start [.connectDone true ⟨[], true⟩] = some final ∧
      ¬EndsWell final.trace := by
  refine ⟨_, rfl, fun endsWell => ?_⟩
  exact absurd endsWell.inOrder (by decide)

end Peridot
